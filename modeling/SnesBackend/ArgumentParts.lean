/-
# The Parts of Arguments

`parseExternFuncCallArgs` with its `unsigned` variables.  The outer loop has no step of
its own: it goes on only because the inner loop takes a part, and it never ends where
a part with another offset than zero stands first.

`LowerCallTo` makes each value one or more parts of one size, whose offsets count up
from zero.  Offsets are `unsigned` as well, and so is the number of all parts.
-/
import SnesBackend.CallingConv
import SnesBackend.SteppedLoop

namespace Snes

open SteppedLoop

/-! ## The loops -/

/-- What `parseExternFuncCallArgs` reads of an `ISD::OutputArg`: the store size of its type, and
`PartOffset`. -/
structure OutgoingPart where
  storeSize : BitVec 32
  partOffset : BitVec 32
deriving DecidableEq, Repr

/-- The inner loop: how many parts follow each other from an offset on, and the parts behind
them. -/
def takeConsecutive (offset : BitVec 32) : List OutgoingPart → ℕ × List OutgoingPart
  | [] => (0, [])
  | part :: parts =>
      if part.partOffset = offset then
        ((takeConsecutive (offset + part.storeSize) parts).1 + 1,
          (takeConsecutive (offset + part.storeSize) parts).2)
      else
        (0, part :: parts)

/-- One round of the outer loop, from the parts that are left and `Out`. -/
def parsePartsRound :
    List OutgoingPart × List ℕ → (List OutgoingPart × List ℕ) ⊕ List ℕ
  | ([], out) => .inr out
  | (part :: parts, out) =>
      .inl ((takeConsecutive 0 (part :: parts)).2,
        out ++ [(takeConsecutive 0 (part :: parts)).1])

/-- The state in which the outer loop starts: the number of parts is taken as an `unsigned`. -/
def parsePartsStart (parts : List OutgoingPart) : List OutgoingPart × List ℕ :=
  (parts.take (parts.length % 2 ^ 32), [])

/-- The outer loop ends with these entries. -/
def ParsesParts (parts : List OutgoingPart) (entries : List ℕ) : Prop :=
  Returns parsePartsRound (parts, []) entries

/-! ## One round after the other -/

section

variable {parts : List OutgoingPart} {entries : List ℕ}

/-- All parts are looked at if their number is an `unsigned`. -/
theorem parsePartsStart_of_lt (h : parts.length < 2 ^ 32) :
    parsePartsStart parts = (parts, []) := by
  rw [parsePartsStart, Nat.mod_eq_of_lt h, List.take_length]

/-- The inner loop leaves no part out. -/
theorem takeConsecutive_length (offset : BitVec 32) (parts : List OutgoingPart) :
    (takeConsecutive offset parts).1 + (takeConsecutive offset parts).2.length = parts.length := by
  induction parts generalizing offset with
  | nil => rfl
  | cons part parts ih =>
    rw [takeConsecutive]
    split
    · have rest := ih (offset + part.storeSize)
      simp only [List.length_cons]
      omega
    · simp

/-- Nothing is left to take. -/
theorem parsesParts_nil_iff : ParsesParts [] entries ↔ entries = [] := by
  constructor
  · intro h
    exact h.unique (.done rfl)
  · rintro rfl
    exact .done rfl

/-- The entries that are there do not matter for those that come. -/
theorem returns_append_iff (out : List ℕ) :
    Returns parsePartsRound (parts, out) entries ↔
      ∃ tail, ParsesParts parts tail ∧ out ++ tail = entries := by
  have sim : ∀ s : List OutgoingPart × List ℕ, True →
      parsePartsRound (s.1, out ++ s.2) =
        (parsePartsRound s).map (fun t => (t.1, out ++ t.2)) (out ++ ·) := by
    rintro ⟨_ | ⟨part, parts⟩, own⟩ -
    · rfl
    · simp [parsePartsRound]
  have h := returns_map_iff (fun _ _ _ _ => trivial) sim (s := (parts, [])) trivial (y := entries)
  rwa [List.append_nil] at h

/-- The first entry is what the inner loop takes, and the others come from the rest. -/
theorem parsesParts_cons_iff (h : parts ≠ []) :
    ParsesParts parts entries ↔
      ∃ tail, ParsesParts (takeConsecutive 0 parts).2 tail ∧
        (takeConsecutive 0 parts).1 :: tail = entries := by
  obtain ⟨part, rest, rfl⟩ := List.exists_cons_of_ne_nil h
  rw [ParsesParts, returns_iff_of_next (show parsePartsRound _ = .inl _ from rfl)]
  exact returns_append_iff _

/-- **The entries sum to the number of parts** wherever the loop ends. -/
theorem ParsesParts.sum_eq (h : ParsesParts parts entries) : entries.sum = parts.length := by
  induction entries generalizing parts with
  | nil =>
    cases parts with
    | nil => rfl
    | cons part parts =>
      obtain ⟨tail, -, hcons⟩ := (parsesParts_cons_iff (by simp)).mp h
      cases hcons
  | cons entry entries ih =>
    cases parts with
    | nil => cases parsesParts_nil_iff.mp h
    | cons part parts =>
      obtain ⟨tail, htail, hcons⟩ := (parsesParts_cons_iff (by simp)).mp h
      obtain ⟨rfl, rfl⟩ := List.cons.inj hcons
      rw [List.sum_cons, ih htail]
      exact takeConsecutive_length 0 (part :: parts)

/-- A part with another offset than zero is never taken: the loop does not end. -/
theorem not_parsesParts_of_offset {part : OutgoingPart} (h : part.partOffset ≠ 0) :
    ¬ ParsesParts (part :: parts) entries := by
  have stuck : takeConsecutive 0 (part :: parts) = (0, part :: parts) := by
    rw [takeConsecutive, if_neg h]
  induction entries with
  | nil =>
    intro hparses
    cases hparses.sum_eq
  | cons entry entries ih =>
    intro hparses
    obtain ⟨tail, htail, hcons⟩ := (parsesParts_cons_iff (by simp)).mp hparses
    rw [stuck] at htail hcons
    obtain ⟨-, rfl⟩ := List.cons.inj hcons
    exact ih htail

end

/-! ## The parts of values -/

/-- A value that `LowerCallTo` splits: one or more parts of one size that is not zero. -/
structure OutgoingValue where
  size : BitVec 32
  count : ℕ
  size_ne_zero : size ≠ 0
  count_pos : 0 < count

namespace OutgoingValue

/-- Parts of a size from a number on; the offset of a part is its number times the size. -/
def partsFrom (size : BitVec 32) (j n : ℕ) : List OutgoingPart :=
  (List.range' j n).map fun i => ⟨size, BitVec.ofNat 32 i * size⟩

/-- The parts of a value. -/
def parts (v : OutgoingValue) : List OutgoingPart :=
  partsFrom v.size 0 v.count

/-- The offset behind the parts of a value is zero again. -/
def Wraps (v : OutgoingValue) : Prop :=
  2 ^ 32 ∣ v.count * v.size.toNat

/-- The number of parts of a value. -/
theorem length_parts (v : OutgoingValue) : v.parts.length = v.count := by
  simp [parts, partsFrom]

/-- The number of parts of values. -/
theorem length_flatMap_parts (values : List OutgoingValue) :
    (values.flatMap parts).length = (values.map count).sum := by
  rw [List.length_flatMap]
  simp only [length_parts]

/-- A value has a first part, at offset zero. -/
theorem parts_eq_cons (v : OutgoingValue) :
    v.parts = ⟨v.size, 0⟩ :: partsFrom v.size 1 (v.count - 1) := by
  obtain ⟨n, hn⟩ := Nat.exists_eq_add_of_le' v.count_pos
  simp [parts, partsFrom, hn, List.range'_succ]

/-- The offset behind the parts of a value. -/
theorem offset_eq_zero_iff (v : OutgoingValue) :
    BitVec.ofNat 32 v.count * v.size = 0 ↔ v.Wraps := by
  rw [Wraps, Nat.dvd_iff_mod_eq_zero, ← BitVec.toNat_inj, BitVec.toNat_mul, BitVec.toNat_ofNat,
    Nat.mod_mul_mod]
  rfl

/-- The inner loop takes all parts from a number on, and goes on behind them. -/
theorem takeConsecutive_partsFrom (size : BitVec 32) (n : ℕ) (rest : List OutgoingPart) :
    ∀ j, takeConsecutive (BitVec.ofNat 32 j * size) (partsFrom size j n ++ rest) =
      (n + (takeConsecutive (BitVec.ofNat 32 (j + n) * size) rest).1,
        (takeConsecutive (BitVec.ofNat 32 (j + n) * size) rest).2) := by
  induction n with
  | zero =>
    intro j
    simp [partsFrom]
  | succ n ih =>
    intro j
    have next : BitVec.ofNat 32 j * size + size = BitVec.ofNat 32 (j + 1) * size := by
      rw [BitVec.ofNat_add, BitVec.add_mul]
      simp
    have tail : partsFrom size j (n + 1) =
        ⟨size, BitVec.ofNat 32 j * size⟩ :: partsFrom size (j + 1) n := by
      simp [partsFrom, List.range'_succ]
    rw [tail, List.cons_append, takeConsecutive, if_pos rfl, next, ih (j + 1),
      show j + 1 + n = j + (n + 1) by omega]
    exact Prod.ext (Nat.add_right_comm n _ 1) rfl

/-- The inner loop takes a value, and looks at what stands behind it from the offset that it has
come to. -/
theorem takeConsecutive_parts_append (v : OutgoingValue) (rest : List OutgoingPart) :
    takeConsecutive 0 (v.parts ++ rest) =
      (v.count + (takeConsecutive (BitVec.ofNat 32 v.count * v.size) rest).1,
        (takeConsecutive (BitVec.ofNat 32 v.count * v.size) rest).2) := by
  have h := takeConsecutive_partsFrom v.size v.count rest 0
  rw [BitVec.zero_mul, Nat.zero_add] at h
  exact h

/-- Behind an offset that is not zero no value begins. -/
theorem takeConsecutive_flatMap_of_ne {offset : BitVec 32} (h : offset ≠ 0)
    (values : List OutgoingValue) :
    takeConsecutive offset (values.flatMap parts) = (0, values.flatMap parts) := by
  cases values with
  | nil => rfl
  | cons v values =>
    rw [List.flatMap_cons, parts_eq_cons, List.cons_append, takeConsecutive, if_neg h.symm]

/-- Values that are not the last one. -/
theorem forall_mem_dropLast_cons (v : OutgoingValue) (values : List OutgoingValue)
    (P : OutgoingValue → Prop) :
    (∀ u ∈ (v :: values).dropLast, P u) ↔ (values ≠ [] → P v) ∧ ∀ u ∈ values.dropLast, P u := by
  cases values with
  | nil => simp
  | cons w values => simp

/-- **Each value is one entry** exactly if no value but the last one wraps around. -/
theorem parsesParts_flatMap_iff (values : List OutgoingValue) :
    ParsesParts (values.flatMap parts) (values.map count) ↔
      ∀ v ∈ values.dropLast, ¬ v.Wraps := by
  induction values with
  | nil => simpa using parsesParts_nil_iff.mpr rfl
  | cons v values ih =>
    have nonempty : v.parts ++ values.flatMap parts ≠ [] := by simp [parts_eq_cons v]
    rw [List.flatMap_cons, List.map_cons, parsesParts_cons_iff nonempty,
      takeConsecutive_parts_append, forall_mem_dropLast_cons v values fun u => ¬ u.Wraps, ← ih]
    by_cases hwraps : v.Wraps
    · rw [(offset_eq_zero_iff v).mpr hwraps]
      cases values with
      | nil => simp [takeConsecutive]
      | cons w values =>
        -- the parts of the next value are taken too
        have merged : 0 < (takeConsecutive 0 ((w :: values).flatMap parts)).1 := by
          rw [List.flatMap_cons, takeConsecutive_parts_append]
          exact Nat.add_pos_left w.count_pos _
        refine iff_of_false ?_ ?_
        · rintro ⟨tail, -, hcons⟩
          have hcount := (List.cons.inj hcons).1
          omega
        · rintro ⟨notWraps, -⟩
          exact notWraps (by simp) hwraps
    · have offset : BitVec.ofNat 32 v.count * v.size ≠ 0 := fun h =>
        hwraps ((offset_eq_zero_iff v).mp h)
      rw [takeConsecutive_flatMap_of_ne offset values]
      simp [hwraps]

/-- **The parts of values are parsed**: the loop ends with one entry for each value, its number of
parts, and the entries sum to the number of parts, exactly if the number of all parts is an
`unsigned` and no value but the last one wraps around. -/
theorem parseExternFuncCallArgs_iff (values : List OutgoingValue) :
    (Returns parsePartsRound (parsePartsStart (values.flatMap parts)) (values.map count) ∧
        (values.map count).sum = (values.flatMap parts).length) ↔
      (values.map count).sum < 2 ^ 32 ∧ ∀ v ∈ values.dropLast, ¬ v.Wraps := by
  have total := length_flatMap_parts values
  rw [and_iff_left total.symm]
  constructor
  · intro hreturns
    have processed := ParsesParts.sum_eq (show ParsesParts _ _ from hreturns)
    rw [List.length_take, total] at processed
    have hmod := Nat.mod_lt (values.map count).sum (Nat.two_pow_pos 32)
    have hlt : (values.map count).sum < 2 ^ 32 := by omega
    rw [parsePartsStart_of_lt (total ▸ hlt)] at hreturns
    exact ⟨hlt, (parsesParts_flatMap_iff values).mp hreturns⟩
  · rintro ⟨hlt, notWraps⟩
    rw [parsePartsStart_of_lt (total ▸ hlt)]
    exact (parsesParts_flatMap_iff values).mpr notWraps

/-- A value of 2 ^ 31 parts of two bytes, followed by another value: they are one entry. -/
theorem not_returns_of_wraps : ¬ ∀ values : List OutgoingValue,
    Returns parsePartsRound (parsePartsStart (values.flatMap parts)) (values.map count) ∧
      (values.map count).sum = (values.flatMap parts).length := by
  intro h
  have returns := (h [⟨2, 2 ^ 31, by decide, by decide⟩, ⟨2, 1, by decide, by decide⟩]).1
  rw [parsePartsStart_of_lt (by rw [length_flatMap_parts]; decide)] at returns
  have notWraps := (parsesParts_flatMap_iff _).mp returns _ List.mem_cons_self
  exact notWraps (by unfold Wraps; decide)

end OutgoingValue

/-! ## Parts without wrapping -/

/-- A piece of an integer type as a part. -/
def OutputArg.toPart (out : OutputArg) : OutgoingPart :=
  ⟨BitVec.ofNat 32 out.vt.bytes, BitVec.ofNat 32 out.partOffset⟩

/-- The bytes of pieces. -/
def pieceBytes (outs : List OutputArg) : ℕ :=
  (outs.map fun out => out.vt.bytes).sum

section

variable {outs : List OutputArg} {entries : List ℕ}

/-- The inner loop without wrapping: offsets are numbers. -/
theorem takeConsecutive_map_toPart (offset : ℕ) (hbytes : offset + pieceBytes outs < 2 ^ 32)
    (hoffsets : ∀ out ∈ outs, out.partOffset < 2 ^ 32) :
    takeConsecutive (BitVec.ofNat 32 offset) (outs.map OutputArg.toPart) =
      ((takeParts offset outs).1, (takeParts offset outs).2.map OutputArg.toPart) := by
  induction outs generalizing offset with
  | nil => rfl
  | cons out outs ih =>
    rw [List.forall_mem_cons] at hoffsets
    rw [pieceBytes, List.map_cons, List.sum_cons] at hbytes
    have next := ih (offset + out.vt.bytes) (by rw [pieceBytes]; omega) hoffsets.2
    have same : out.toPart.partOffset = BitVec.ofNat 32 offset ↔ out.partOffset = offset := by
      rw [OutputArg.toPart, ← BitVec.toNat_inj, BitVec.toNat_ofNat, BitVec.toNat_ofNat,
        Nat.mod_eq_of_lt hoffsets.1, Nat.mod_eq_of_lt (by omega)]
    rw [List.map_cons, takeConsecutive, takeParts]
    by_cases h : out.partOffset = offset
    · rw [if_pos (same.mpr h), if_pos h, OutputArg.toPart, ← BitVec.ofNat_add, next]
    · rw [if_neg (mt same.mp h), if_neg h, List.map_cons]

/-- What the inner loop leaves is a part of what it has seen. -/
theorem takeParts_suffix (offset : ℕ) (outs : List OutputArg) :
    (takeParts offset outs).2 <:+ outs := by
  induction outs generalizing offset with
  | nil => exact List.suffix_rfl
  | cons out outs ih =>
    rw [takeParts]
    split
    · exact (ih _).trans (List.suffix_cons out outs)
    · exact List.suffix_rfl

/-- Pieces that are left have no more bytes. -/
theorem pieceBytes_le_of_suffix {rest : List OutputArg} (h : rest <:+ outs) :
    pieceBytes rest ≤ pieceBytes outs := by
  obtain ⟨front, rfl⟩ := h
  simp [pieceBytes]

/-- The outer loop without wrapping. -/
theorem parsesParts_of_parseParts {fuel : ℕ} (h : parseParts fuel outs = some entries)
    (hbytes : pieceBytes outs < 2 ^ 32) (hoffsets : ∀ out ∈ outs, out.partOffset < 2 ^ 32) :
    ParsesParts (outs.map OutputArg.toPart) entries := by
  induction fuel generalizing outs entries with
  | zero =>
    cases outs with
    | nil =>
      cases h
      exact parsesParts_nil_iff.mpr rfl
    | cons out outs => cases h
  | succ fuel ih =>
    cases outs with
    | nil =>
      cases h
      exact parsesParts_nil_iff.mpr rfl
    | cons out outs =>
      obtain ⟨tail, htail, rfl⟩ := Option.map_eq_some_iff.mp h
      have suffix := takeParts_suffix 0 (out :: outs)
      have restBytes := pieceBytes_le_of_suffix suffix
      have taken := takeConsecutive_map_toPart 0 (by omega) hoffsets
      have rest := ih htail (by omega) fun o ho => hoffsets o (suffix.subset ho)
      refine (parsesParts_cons_iff (by simp)).mpr ⟨tail, ?_, ?_⟩
      · rwa [show (0 : BitVec 32) = BitVec.ofNat 32 0 from rfl, taken]
      · rw [show (0 : BitVec 32) = BitVec.ofNat 32 0 from rfl, taken]

/-- **Numbers are enough** where the pieces of a call have fewer bytes than an `unsigned` counts: the
loops end with the sizes that are found with offsets as numbers. -/
theorem returns_of_parseExternFuncCallArgs (h : parseExternFuncCallArgs outs = some entries)
    (hlength : outs.length < 2 ^ 32) (hbytes : pieceBytes outs < 2 ^ 32)
    (hoffsets : ∀ out ∈ outs, out.partOffset < 2 ^ 32) :
    Returns parsePartsRound (parsePartsStart (outs.map OutputArg.toPart)) entries := by
  rw [parsePartsStart_of_lt (by rwa [List.length_map])]
  exact parsesParts_of_parseParts h hbytes hoffsets

end

end Snes
