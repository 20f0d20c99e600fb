/-
# Temporary Labels

`adjustFixupValue` adds 2 to the value of a fixup whose symbol is a temporary one,
before it looks at the kind of the fixup.  The kinds here are all that an
`MCFixup` can have: those that the encoder records, the others of
`SNESFixupKinds.h`, and the generic ones.

For each kind it is said which values give the same bytes for both sorts of symbols.
-/
import SnesBackend.ImmediateFixups

namespace Snes

open BytePatching

/-! ## A carry into the selected byte -/

/-- The value that the byte is selected from. -/
def byteSource (halved negated : Bool) (value : BitVec 64) : BitVec 64 :=
  let value := if halved then value >>> 1 else value
  if negated then -value else value

/-- Adding 2 to the value does not change the bits from bit `n` of what the byte is selected from:
there is no carry, or no borrow, out of the bits below. -/
def NoCarry (halved negated : Bool) (n : ℕ) (value : BitVec 64) : Prop :=
  match halved, negated with
  | false, false => value.toNat % 2 ^ n + 2 < 2 ^ n
  | true, false => value.toNat / 2 % 2 ^ n + 1 < 2 ^ n
  | false, true => 2 ≤ (-value).toNat % 2 ^ n
  | true, true => value.toNat / 2 % 2 ^ n ≠ 0

instance (halved negated : Bool) (n : ℕ) (value : BitVec 64) :
    Decidable (NoCarry halved negated n value) :=
  match halved, negated with
  | false, false => inferInstanceAs (Decidable (value.toNat % 2 ^ n + 2 < 2 ^ n))
  | true, false => inferInstanceAs (Decidable (value.toNat / 2 % 2 ^ n + 1 < 2 ^ n))
  | false, true => inferInstanceAs (Decidable (2 ≤ (-value).toNat % 2 ^ n))
  | true, true => inferInstanceAs (Decidable (value.toNat / 2 % 2 ^ n ≠ 0))

/-- Without a carry the selected byte stays. -/
theorem selectByte_add_two {n : ℕ} (hn : n = 0 ∨ n = 8 ∨ n = 16 ∨ n = 24) (halved negated : Bool)
    (value : BitVec 64) (h : NoCarry halved negated n value) :
    selectByte (byteSource halved negated (value + 2)) n =
      selectByte (byteSource halved negated value) n := by
  have hlt := value.isLt
  rw [← BitVec.toNat_inj, toNat_selectByte, toNat_selectByte]
  cases halved <;> cases negated <;>
    simp only [NoCarry, byteSource, if_true, Bool.false_eq_true, if_false, BitVec.toNat_neg,
      BitVec.toNat_add, BitVec.toNat_ushiftRight, Nat.shiftRight_eq_div_pow,
      show (2 : BitVec 64).toNat = 2 from rfl] at h ⊢ <;>
    rcases hn with rfl | rfl | rfl | rfl <;> omega

/-- With a carry the low nibble of the byte changes. -/
theorem selectByte_add_two_ne {n : ℕ} (hn : n = 0 ∨ n = 8 ∨ n = 16 ∨ n = 24)
    (halved negated : Bool) (value : BitVec 64) (h : ¬ NoCarry halved negated n value) :
    (selectByte (byteSource halved negated (value + 2)) n).toNat % 2 ^ 4 ≠
      (selectByte (byteSource halved negated value) n).toNat % 2 ^ 4 := by
  have hlt := value.isLt
  rw [toNat_selectByte, toNat_selectByte]
  cases halved <;> cases negated <;>
    simp only [NoCarry, byteSource, if_true, Bool.false_eq_true, if_false, BitVec.toNat_neg,
      BitVec.toNat_add, BitVec.toNat_ushiftRight, Nat.shiftRight_eq_div_pow,
      show (2 : BitVec 64).toNat = 2 from rfl] at h ⊢ <;>
    rcases hn with rfl | rfl | rfl | rfl <;> omega

/-- The first byte that is written has the low nibble of the selected byte. -/
theorem toNat_byteOf_frdkPlacement (value : BitVec 64) (n : ℕ) :
    (byteOf (frdkPlacement (selectByte value n)) 0).toNat % 2 ^ 4 =
      (selectByte value n).toNat % 2 ^ 4 := by
  have digits := digits_eq_of_getLsbD_eq (x := byteOf (frdkPlacement (selectByte value n)) 0)
    (y := selectByte value n) (i := 0) (j := 0) (c := 4) ?_
  · simpa using digits
  · intro k hk
    have placed := getLsbD_frdkPlacement (selectByte value n) (show k < 8 by omega)
    rw [if_pos hk] at placed
    simp only [getLsbD_byteOf, Nat.zero_mul, Nat.zero_add, placed]
    simp [show k < 8 by omega]

/-- The placement looks at the low byte only. -/
theorem frdkPlacement_selectByte_zero (value : BitVec 64) :
    frdkPlacement (selectByte value 0) = frdkPlacement value := by
  apply BitVec.eq_of_getLsbD_eq
  intro i hi
  unfold frdkPlacement selectByte
  interval_cases i <;> simp

/-! ## The kinds -/

/-- `MCFixupKind` with the kinds of the target. -/
inductive MCFixupKind where
  | encoded (kind : FixupKind)
  | fixup32 | fixup16Pm | fixup6Adiw
  | fixupLo8LdiGs | fixupHi8LdiGs
  | fixup8 | fixup8Lo8 | fixup8Hi8 | fixup8Hlo8
  | fixupSymDiff | fixup16Ldst | fixupLdsSts16
  | data1 | data2 | data4 | data8
  | pcRel1 | pcRel2 | pcRel4 | pcRel8
  | gpRel1 | gpRel2 | gpRel4 | gpRel8
  | dtpRel4 | dtpRel8 | tpRel4 | tpRel8
  | secRel1 | secRel2 | secRel4 | secRel8
deriving DecidableEq, Repr

/-- `fixup_6_adiw`. -/
def Adjust.fixup6Adiw (value : BitVec 64) : Except FixupError (BitVec 64) := do
  unsignedWidth 6 value "immediate"
  return ((value &&& 0x30) <<< 2) ||| (value &&& 0x0f)

namespace MCFixupKind

/-- `getFixupKindInfo`, also of the generic kinds. -/
def info : MCFixupKind → FixupKindInfo
  | encoded kind => getFixupKindInfo kind
  | fixup32 | fixupSymDiff => ⟨0, 32, false⟩
  | fixup16Pm | fixup16Ldst | fixupLdsSts16 => ⟨0, 16, false⟩
  | fixup6Adiw => ⟨0, 6, false⟩
  | fixupLo8LdiGs | fixupHi8LdiGs => ⟨0, 8, false⟩
  | fixup8 | fixup8Lo8 | fixup8Hi8 | fixup8Hlo8 => ⟨0, 8, false⟩
  | data1 | gpRel1 | secRel1 => ⟨0, 8, false⟩
  | data2 | gpRel2 | secRel2 => ⟨0, 16, false⟩
  | data4 | gpRel4 | dtpRel4 | tpRel4 | secRel4 => ⟨0, 32, false⟩
  | data8 | gpRel8 | dtpRel8 | tpRel8 | secRel8 => ⟨0, 64, false⟩
  | pcRel1 => ⟨0, 8, true⟩
  | pcRel2 => ⟨0, 16, true⟩
  | pcRel4 => ⟨0, 32, true⟩
  | pcRel8 => ⟨0, 64, true⟩

/-- The switch of `adjustFixupValue`, for all kinds. -/
def adjust (kind : MCFixupKind) (value : BitVec 64) : Except FixupError (BitVec 64) :=
  match kind with
  | encoded kind => adjustKind kind value
  | fixup6Adiw => Adjust.fixup6Adiw value
  | data2 | data4 | data8 => .ok value
  | gpRel4 => .error (.unreachable "don't know how to adjust this fixup")
  | _ => .error (.unreachable "unhandled fixup")

/-- The number of bytes that the value of a kind is masked into. -/
def numBytes (kind : MCFixupKind) : ℕ :=
  let numBits := kind.info.targetSize + kind.info.targetOffset
  numBits / 8 + if numBits % 8 = 0 then 0 else 1

/-- `applyFixup`, for all kinds. -/
def applyFixup (kind : MCFixupKind) (offset : ℕ) (temporary : Bool) (data : List (BitVec 8))
    (value : BitVec 64) : Except FixupError (List (BitVec 8)) := do
  let value ← kind.adjust (if temporary then value + 2 else value)
  if value = 0 then
    return data
  let value := value <<< kind.info.targetOffset
  if offset + kind.numBytes ≤ data.length then
    return orBytes value offset kind.numBytes data
  else
    throw (.assertion "Invalid fixup offset!")

/-- A value is applied alike whether its symbol is a temporary one or not. -/
def LabelIndependent (kind : MCFixupKind) (value : BitVec 64) : Prop :=
  ∀ offset data,
    kind.applyFixup offset true data value = kind.applyFixup offset false data value

/-! ## Applying two values -/

variable {kind : MCFixupKind} {value a b : BitVec 64}

/-- Values that are adjusted alike are applied alike. -/
theorem labelIndependent_of_eq (h : kind.adjust (value + 2) = kind.adjust value) :
    kind.LabelIndependent value := by
  intro offset data
  unfold applyFixup
  simp only [if_true, Bool.false_eq_true, if_false]
  rw [h]

/-- Applying an accepted value to empty bytes. -/
theorem applyFixup_replicate {temporary : Bool}
    (h : kind.adjust (if temporary then value + 2 else value) = .ok a) :
    kind.applyFixup 0 temporary (List.replicate kind.numBytes 0) value =
      .ok (orBytes (a <<< kind.info.targetOffset) 0 kind.numBytes
        (List.replicate kind.numBytes 0)) := by
  unfold applyFixup
  rw [h]
  by_cases hzero : a = 0
  · subst hzero
    simp [bind, Except.bind, pure, Except.pure]
  · have fits : 0 + kind.numBytes ≤ (List.replicate kind.numBytes (0 : BitVec 8)).length := by
      rw [List.length_replicate, Nat.zero_add]
    simp only [bind, Except.bind, pure, Except.pure, if_neg hzero, if_pos fits]

/-- A value that is accepted for one sort of symbols only. -/
theorem not_labelIndependent_of_error {e : FixupError}
    (h : (kind.adjust value = .ok a ∧ kind.adjust (value + 2) = .error e) ∨
      (kind.adjust value = .error e ∧ kind.adjust (value + 2) = .ok a)) :
    ¬ kind.LabelIndependent value := by
  intro independent
  have alike := independent 0 (List.replicate kind.numBytes 0)
  rcases h with ⟨hok, herror⟩ | ⟨herror, hok⟩
  · rw [applyFixup_replicate (show kind.adjust (if false then value + 2 else value) = .ok a
      from hok)] at alike
    unfold applyFixup at alike
    rw [show kind.adjust (if true then value + 2 else value) = .error e from herror] at alike
    cases alike
  · rw [applyFixup_replicate (show kind.adjust (if true then value + 2 else value) = .ok a
      from hok)] at alike
    unfold applyFixup at alike
    rw [show kind.adjust (if false then value + 2 else value) = .error e from herror] at alike
    cases alike

/-- Adjusted values that differ in the first byte. -/
theorem not_labelIndependent_of_byte (ha : kind.adjust value = .ok a)
    (hb : kind.adjust (value + 2) = .ok b) (hbytes : 0 < kind.numBytes)
    (hne : byteOf (b <<< kind.info.targetOffset) 0 ≠ byteOf (a <<< kind.info.targetOffset) 0) :
    ¬ kind.LabelIndependent value := by
  intro independent
  have alike := independent 0 (List.replicate kind.numBytes 0)
  rw [applyFixup_replicate (show kind.adjust (if true then value + 2 else value) = .ok b from hb),
    applyFixup_replicate (show kind.adjust (if false then value + 2 else value) = .ok a from ha),
    Except.ok.injEq] at alike
  have first := congrArg (fun data => data[0]?) alike
  simp only [getElem?_orBytes, List.getElem?_replicate, le_refl, Nat.zero_add, hbytes, and_self,
    if_true, Option.map_some, Nat.sub_zero, Option.some.injEq] at first
  apply hne
  simpa using first

/-! ## Checked values -/

/-- The number of bits of the values that a kind accepts: the kinds whose value is checked, and the
kinds of data. -/
def acceptedWidth : MCFixupKind → Option ℕ
  | encoded .fixupCall => some 23
  | encoded .fixup16 => some 16
  | encoded .fixupPort6 => some 6
  | encoded .fixupPort5 => some 5
  | fixup6Adiw => some 6
  | data2 | data4 | data8 => some 64
  | _ => none

/-- A kind accepts the values of `width` bits, and puts bit 1 of them into the first byte. -/
def PlacesBitOne (kind : MCFixupKind) (width : ℕ) : Prop :=
  ∃ (description : String) (place : BitVec 64 → BitVec 64) (i : ℕ), i < 8 ∧
    (∀ v, kind.adjust v = do
      Adjust.unsignedWidth width v description
      return place v) ∧
    ∀ v, (place v <<< kind.info.targetOffset).getLsbD i = v.getLsbD 1

/-- The address of a call is halved, and its low bits stay at the bottom. -/
theorem placesBitOne_fixupCall : (encoded .fixupCall).PlacesBitOne 23 := by
  refine ⟨"branch target", fun v => ((v >>> 1 &&& (0xf00000 <<< 6)) <<< 6) |||
    ((v >>> 1 &&& (0x1ffff <<< 5)) <<< 3) ||| ((v >>> 1 &&& 0x1f) <<< 0), 0, by decide, ?_, ?_⟩
  · intro v
    show Adjust.fixupCall 22 v = _
    unfold Adjust.fixupCall Adjust.adjustBranch Adjust.adjustBranchTarget
    rw [bind_assoc]
    rfl
  · intro v
    simp [info, getFixupKindInfo]

/-- `fixup_16` keeps the low bits in place. -/
theorem placesBitOne_fixup16 : (encoded .fixup16).PlacesBitOne 16 := by
  refine ⟨"port number", fun v => v &&& 0xffff, 1, by decide, fun v => rfl, ?_⟩
  intro v
  simp [info, getFixupKindInfo]

/-- The low four bits of a port stay in place. -/
theorem placesBitOne_fixupPort6 : (encoded .fixupPort6).PlacesBitOne 6 := by
  refine ⟨"port number", fun v => ((v &&& 0x30) <<< 5) ||| (v &&& 0x0f), 1, by decide,
    fun v => rfl, ?_⟩
  intro v
  simp [info, getFixupKindInfo]

/-- The five bits of a port are moved by 3, twice. -/
theorem placesBitOne_fixupPort5 : (encoded .fixupPort5).PlacesBitOne 5 := by
  refine ⟨"port number", fun v => (v &&& 0x1f) <<< 3, 7, by decide, fun v => rfl, ?_⟩
  intro v
  simp [info, getFixupKindInfo]

/-- The low four bits of the immediate of `ADIW` stay in place. -/
theorem placesBitOne_fixup6Adiw : fixup6Adiw.PlacesBitOne 6 := by
  refine ⟨"immediate", fun v => ((v &&& 0x30) <<< 2) ||| (v &&& 0x0f), 1, by decide,
    fun v => rfl, ?_⟩
  intro v
  simp [info]

/-- Data is what the value is. -/
theorem placesBitOne_data (h : kind = data2 ∨ kind = data4 ∨ kind = data8) :
    kind.PlacesBitOne 64 := by
  refine ⟨"", id, 1, by decide, ?_, ?_⟩
  · intro v
    rcases h with rfl | rfl | rfl <;> rfl
  · intro v
    rcases h with rfl | rfl | rfl <;> simp [info]

/-- **Each kind that accepts a range of values** puts bit 1 of them into the first byte. -/
theorem placesBitOne_of_acceptedWidth {width : ℕ} (h : kind.acceptedWidth = some width) :
    0 < kind.numBytes ∧ kind.PlacesBitOne width := by
  cases kind with
  | encoded kind =>
      cases kind
      case fixupCall =>
        cases h
        exact ⟨by decide, placesBitOne_fixupCall⟩
      case fixup16 =>
        cases h
        exact ⟨by decide, placesBitOne_fixup16⟩
      case fixupPort6 =>
        cases h
        exact ⟨by decide, placesBitOne_fixupPort6⟩
      case fixupPort5 =>
        cases h
        exact ⟨by decide, placesBitOne_fixupPort5⟩
      all_goals cases h
  | fixup6Adiw =>
      cases h
      exact ⟨by decide, placesBitOne_fixup6Adiw⟩
  | data2 =>
      cases h
      exact ⟨by decide, placesBitOne_data (.inl rfl)⟩
  | data4 =>
      cases h
      exact ⟨by decide, placesBitOne_data (.inr (.inl rfl))⟩
  | data8 =>
      cases h
      exact ⟨by decide, placesBitOne_data (.inr (.inr rfl))⟩
  | _ => cases h

/-- The widths are those of values of up to 64 bits. -/
theorem acceptedWidth_bounds {width : ℕ} (h : kind.acceptedWidth = some width) :
    0 < width ∧ width ≤ 64 := by
  unfold acceptedWidth at h
  split at h <;> cases h <;> decide

/-- A value that has the width passes its check. -/
theorem unsignedWidth_of_lt {width : ℕ} {v : BitVec 64} (h : v.toNat < 2 ^ width)
    (description : String) : Adjust.unsignedWidth width v description = .ok () := by
  have hfits : isUIntN width v = true := by
    rcases Nat.lt_or_ge width 64 with hw | hw
    · exact (isUIntN_eq_true_iff hw v).mpr h
    · simp [isUIntN, hw]
  exact (Adjust.unsignedWidth_eq width v description).1 hfits

/-- All values that do not have the width are refused with one message. -/
theorem unsignedWidth_of_ge (width : ℕ) (hwidth : width ≤ 64) (description : String) :
    ∃ e, ∀ v : BitVec 64, 2 ^ width ≤ v.toNat →
      Adjust.unsignedWidth width v description = .error e := by
  refine ⟨_, fun v h => if_neg ?_⟩
  have hv := v.isLt
  have hw : width < 64 := by
    by_contra hge
    rw [show width = 64 by omega] at h
    omega
  rw [isUIntN_eq_true_iff hw]
  omega

/-- **A kind that accepts a range of values**: a value is applied alike only where it is refused
alike. -/
theorem labelIndependent_iff_of_acceptedWidth {width : ℕ} (h : kind.acceptedWidth = some width)
    (value : BitVec 64) :
    kind.LabelIndependent value ↔ 2 ^ width ≤ value.toNat ∧ value.toNat + 2 < 2 ^ 64 := by
  obtain ⟨hbytes, description, place, i, hi, hadjust, hplace⟩ := placesBitOne_of_acceptedWidth h
  obtain ⟨hpos, hwidth⟩ := acceptedWidth_bounds h
  obtain ⟨e, refused⟩ := unsignedWidth_of_ge width hwidth description
  have accepted : ∀ v : BitVec 64, v.toNat < 2 ^ width → kind.adjust v = .ok (place v) := by
    intro v hv
    rw [hadjust, unsignedWidth_of_lt hv]
    rfl
  have refused : ∀ v : BitVec 64, 2 ^ width ≤ v.toNat → kind.adjust v = .error e := by
    intro v hv
    rw [hadjust, refused v hv]
    rfl
  have two_le : 2 ≤ 2 ^ width := Nat.le_self_pow hpos.ne' 2
  have hv := value.isLt
  have hsum : (value + 2).toNat = (value.toNat + 2) % 2 ^ 64 := BitVec.toNat_add value 2
  rcases Nat.lt_or_ge value.toNat (2 ^ width) with hlt | hge
  · refine iff_of_false ?_ (by omega)
    rcases Nat.lt_or_ge (value + 2).toNat (2 ^ width) with hlt₂ | hge₂
    · apply not_labelIndependent_of_byte (accepted _ hlt) (accepted _ hlt₂) hbytes
      intro same
      have bit := congrArg (fun byte => byte.getLsbD i) same
      simp only [getLsbD_byteOf, hi, decide_true, Bool.true_and, Nat.zero_mul, Nat.zero_add,
        hplace, getLsbD_one_add_two] at bit
      exact Bool.not_ne_self _ bit
    · exact not_labelIndependent_of_error (.inl ⟨accepted _ hlt, refused _ hge₂⟩)
  · rcases Nat.lt_or_ge (value + 2).toNat (2 ^ width) with hlt₂ | hge₂
    · refine iff_of_false ?_ (by omega)
      exact not_labelIndependent_of_error (.inr ⟨refused _ hge, accepted _ hlt₂⟩)
    · refine iff_of_true ?_ (by omega)
      exact labelIndependent_of_eq (by rw [refused _ hge, refused _ hge₂])

/-! ## Selected bytes -/

/-- The byte that a kind selects: whether the value is halved and whether it is negated before, and
the first bit of the byte. -/
def selectedByte : MCFixupKind → Option (Bool × Bool × ℕ)
  | encoded .fixupLdi | encoded .fixupLo8Ldi => some (false, false, 0)
  | encoded .fixupHi8Ldi => some (false, false, 8)
  | encoded .fixupHh8Ldi => some (false, false, 16)
  | encoded .fixupMs8Ldi => some (false, false, 24)
  | encoded .fixupLo8LdiNeg => some (false, true, 0)
  | encoded .fixupHi8LdiNeg => some (false, true, 8)
  | encoded .fixupHh8LdiNeg => some (false, true, 16)
  | encoded .fixupMs8LdiNeg => some (false, true, 24)
  | encoded .fixupLo8LdiPm => some (true, false, 0)
  | encoded .fixupHi8LdiPm => some (true, false, 8)
  | encoded .fixupHh8LdiPm => some (true, false, 16)
  | encoded .fixupLo8LdiPmNeg => some (true, true, 0)
  | encoded .fixupHi8LdiPmNeg => some (true, true, 8)
  | encoded .fixupHh8LdiPmNeg => some (true, true, 16)
  | _ => none

/-- A kind that selects a byte places it. -/
theorem adjust_of_selectedByte {halved negated : Bool} {n : ℕ}
    (h : kind.selectedByte = some (halved, negated, n)) :
    (n = 0 ∨ n = 8 ∨ n = 16 ∨ n = 24) ∧ 0 < kind.numBytes ∧ kind.info.targetOffset = 0 ∧
      ∀ v, kind.adjust v = .ok (frdkPlacement (selectByte (byteSource halved negated v) n)) := by
  have neg_eq : ∀ v : BitVec 64, Adjust.ldiNeg v = -v := by
    intro v
    rw [Adjust.ldiNeg, BitVec.mul_neg, mul_one]
  have ldi_eq : ∀ v, Adjust.ldiFixup v = frdkPlacement (selectByte v 0) := by
    intro v
    rw [ldiFixup_eq_frdkPlacement, frdkPlacement_selectByte_zero]
  cases kind with
  | encoded kind =>
      cases kind <;> cases h <;> refine ⟨by decide, by decide, rfl, ?_⟩ <;> intro v <;>
        simp [adjust, adjustKind, VariantKind.ldi_eq_frdkPlacement, byteSource, neg_eq, ldi_eq,
          Adjust.pm]
  | _ => cases h

/-- **A kind that selects a byte**: a value is applied alike when 2 more changes nothing from the
selected byte on. -/
theorem labelIndependent_iff_of_selectedByte {halved negated : Bool} {n : ℕ}
    (h : kind.selectedByte = some (halved, negated, n)) (value : BitVec 64) :
    kind.LabelIndependent value ↔ NoCarry halved negated n value := by
  obtain ⟨hn, hbytes, hoffset, hadjust⟩ := adjust_of_selectedByte h
  constructor
  · contrapose
    intro carry
    apply not_labelIndependent_of_byte (hadjust value) (hadjust (value + 2)) hbytes
    rw [hoffset, BitVec.shiftLeft_zero, BitVec.shiftLeft_zero]
    intro same
    apply selectByte_add_two_ne hn halved negated value carry
    rw [← toNat_byteOf_frdkPlacement, same, toNat_byteOf_frdkPlacement]
  · intro noCarry
    apply labelIndependent_of_eq
    rw [hadjust, hadjust, selectByte_add_two hn halved negated value noCarry]

/-! ## All kinds -/

/-- A value is applied alike for both sorts of symbols: it is refused alike, or 2 more does not
change the byte that is selected. -/
def AppliedAlike (kind : MCFixupKind) (value : BitVec 64) : Prop :=
  (∀ width ∈ kind.acceptedWidth, 2 ^ width ≤ value.toNat ∧ value.toNat + 2 < 2 ^ 64) ∧
    ∀ selected ∈ kind.selectedByte, NoCarry selected.1 selected.2.1 selected.2.2 value

/-- Only the PC-relative kinds are neither refused nor of one of these forms. -/
theorem adjust_of_none (hPCRel : kind.info.isPCRel = false) (hwidth : kind.acceptedWidth = none)
    (hbyte : kind.selectedByte = none) : ∃ e, ∀ v, kind.adjust v = .error e := by
  cases kind with
  | encoded kind =>
      cases kind
      case fixup6 => exact ⟨_, fun _ => rfl⟩
      all_goals
        first
        | exact absurd hwidth (by decide)
        | exact absurd hbyte (by decide)
        | exact absurd hPCRel (by decide)
  | fixup6Adiw => cases hwidth
  | data2 => cases hwidth
  | data4 => cases hwidth
  | data8 => cases hwidth
  | _ => exact ⟨_, fun _ => rfl⟩

/-- No kind is of both forms. -/
theorem selectedByte_of_acceptedWidth {width : ℕ} (h : kind.acceptedWidth = some width) :
    kind.selectedByte = none := by
  unfold acceptedWidth at h
  split at h <;> first | rfl | cases h

/-- **When temporary labels encode like others**: for the kinds that are not PC-relative, exactly
the values that are refused alike, or whose selected byte stays when 2 is added. -/
theorem labelIndependent_iff (kind : MCFixupKind) (value : BitVec 64)
    (hPCRel : kind.info.isPCRel = false) :
    kind.LabelIndependent value ↔ kind.AppliedAlike value := by
  unfold AppliedAlike
  cases hwidth : kind.acceptedWidth with
  | some width =>
      rw [labelIndependent_iff_of_acceptedWidth hwidth, selectedByte_of_acceptedWidth hwidth]
      simp
  | none =>
      cases hbyte : kind.selectedByte with
      | some selected =>
          obtain ⟨halved, negated, n⟩ := selected
          rw [labelIndependent_iff_of_selectedByte hbyte]
          simp
      | none =>
          obtain ⟨e, refused⟩ := adjust_of_none hPCRel hwidth hbyte
          refine iff_of_true ?_ (by simp)
          exact labelIndependent_of_eq (by rw [refused, refused])

/-- The high byte of an address that is not at the end of a page. -/
theorem labelIndependent_hi8 :
    (encoded .fixupHi8Ldi).info.isPCRel = false ∧
      (encoded .fixupHi8Ldi).LabelIndependent 0x1234 := by
  have alike : (encoded .fixupHi8Ldi).AppliedAlike 0x1234 := by
    simp [AppliedAlike, acceptedWidth, selectedByte, NoCarry]
  exact ⟨rfl, (labelIndependent_iff (encoded .fixupHi8Ldi) 0x1234 rfl).mpr alike⟩

/-- A temporary label at address 0 is encoded as 2. -/
theorem not_labelIndependent_lo8 :
    (encoded .fixupLo8Ldi).info.isPCRel = false ∧
      ¬ (encoded .fixupLo8Ldi).LabelIndependent 0 := by
  refine ⟨rfl, ?_⟩
  intro independent
  have alike := independent 0 [0]
  revert alike
  decide

end MCFixupKind

end Snes
