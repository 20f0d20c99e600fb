/-
# Modifiers Resolved Early and Late

`lo8`, `hi8`, `hh8`, `hhi8` and their program memory forms are resolved twice:
by `evaluateAsInt64` when the value is known to the encoder, and by
`adjustFixupValue` when it is known to the assembler backend only.  Both select a
byte; they differ in when they negate.
-/
import SnesBackend.Fixups

namespace Snes

/-! ## Selected bytes -/

/-- The byte of a value that starts at bit `n`. -/
def selectByte (value : BitVec 64) (n : ℕ) : BitVec 64 :=
  (value >>> n) &&& 0xff

/-- The placement of a byte in `FRdK`: high nibble to bits 11-8, low nibble to bits 3-0. -/
def frdkPlacement (byte : BitVec 64) : BitVec 64 :=
  (((byte >>> 4) &&& 0xf) <<< 8) ||| (byte &&& 0xf)

/-- The bits of the constant `0xff`. -/
theorem getLsbD_0xff (i : ℕ) : (0xff : BitVec 64).getLsbD i = decide (i < 8) := by
  rcases Nat.lt_or_ge i 64 with hi | hi
  · interval_cases i <;> rfl
  · rw [BitVec.getLsbD_of_ge _ _ hi, decide_eq_false (by omega)]

/-- The bits of a selected byte. -/
@[simp]
theorem getLsbD_selectByte (value : BitVec 64) (n i : ℕ) :
    (selectByte value n).getLsbD i = (value.getLsbD (n + i) && decide (i < 8)) := by
  rw [selectByte, BitVec.getLsbD_and, BitVec.getLsbD_ushiftRight, getLsbD_0xff]

/-- A selected byte as a number. -/
theorem toNat_selectByte (value : BitVec 64) (n : ℕ) :
    (selectByte value n).toNat = value.toNat / 2 ^ n % 2 ^ 8 := by
  have hmask : (0xff : BitVec 64).toNat = 2 ^ 8 - 1 := rfl
  rw [selectByte, BitVec.toNat_and, BitVec.toNat_ushiftRight, hmask,
    Nat.and_two_pow_sub_one_eq_mod, Nat.shiftRight_eq_div_pow]

/-- The byte after a logical shift is a byte further up. -/
theorem selectByte_ushiftRight (value : BitVec 64) (m n : ℕ) :
    selectByte (value >>> m) n = selectByte value (m + n) := by
  rw [selectByte, selectByte, BitVec.shiftRight_add]

/-- An arithmetic shift selects the same byte while its sign stays above the byte. -/
theorem sshiftRight_and_0xff (value : BitVec 64) {n : ℕ} (h : n + 8 ≤ 64) :
    value.sshiftRight n &&& 0xff = selectByte value n := by
  apply BitVec.eq_of_getLsbD_eq
  intro i hi
  rw [BitVec.getLsbD_and, getLsbD_0xff, getLsbD_selectByte, BitVec.getLsbD_sshiftRight]
  by_cases hbyte : i < 8
  · simp [hbyte, show n + i < 64 by omega, hi]
  · simp [hbyte]

/-- `ldi::fixup` is the placement of the low byte. -/
theorem ldiFixup_eq_frdkPlacement (value : BitVec 64) :
    Adjust.ldiFixup value = frdkPlacement value := by
  apply BitVec.eq_of_getLsbD_eq
  intro i hi
  unfold Adjust.ldiFixup frdkPlacement
  interval_cases i <;> simp

/-- Bit `i` of a byte is placed at bit `i` or at bit `i + 4`. -/
theorem getLsbD_frdkPlacement (byte : BitVec 64) {i : ℕ} (hi : i < 8) :
    (frdkPlacement byte).getLsbD (if i < 4 then i else i + 4) = byte.getLsbD i := by
  unfold frdkPlacement
  interval_cases i <;> simp

/-- Two bytes with the same placement are the same. -/
theorem frdkPlacement_inj (v w : BitVec 64) (m n : ℕ) :
    frdkPlacement (selectByte v m) = frdkPlacement (selectByte w n) ↔
      selectByte v m = selectByte w n := by
  refine ⟨fun h => ?_, fun h => by rw [h]⟩
  apply BitVec.eq_of_getLsbD_eq
  intro i hi
  by_cases hbyte : i < 8
  · rw [← getLsbD_frdkPlacement _ hbyte, h, getLsbD_frdkPlacement _ hbyte]
  · simp only [getLsbD_selectByte, hbyte, decide_false, Bool.and_false]

/-! ## The two resolutions -/

namespace VariantKind

/-- The modifiers of program memory addresses. -/
def isPm : VariantKind → Bool
  | pmLo8 | pmHi8 | pmHh8 => true
  | _ => false

/-- Where the byte that a modifier selects starts. -/
def byteShift : VariantKind → ℕ
  | lo8 | pmLo8 => 0
  | hi8 | pmHi8 => 8
  | hh8 | pmHh8 => 16
  | hhi8 => 24

/-- The value that a modifier is resolved early from: negated. -/
def earlyValue (negated : Bool) (value : BitVec 64) : BitVec 64 :=
  if negated then -value else value

/-- The value that the backend selects the byte from: shifted, then negated. -/
def lateValue (kind : VariantKind) (negated : Bool) (value : BitVec 64) : BitVec 64 :=
  earlyValue negated (if kind.isPm then value >>> 1 else value)

/-- **Resolved early**: the byte of the negated value, one bit further up for program memory. -/
theorem evaluateAsInt64_eq (kind : VariantKind) (negated : Bool) (value : BitVec 64) :
    kind.evaluateAsInt64 negated value =
      selectByte (earlyValue negated value) (kind.isPm.toNat + kind.byteShift) := by
  have hzero : earlyValue negated value &&& 0xff = selectByte (earlyValue negated value) 0 := by
    rw [selectByte, BitVec.ushiftRight_zero]
  cases kind
  case lo8 => exact hzero
  all_goals exact sshiftRight_and_0xff (earlyValue negated value) (by decide)

/-- The masks of `ldi::lo8` to `ldi::ms8` select a byte. -/
theorem ldi_eq_frdkPlacement (value : BitVec 64) :
    Adjust.ldiLo8 value = frdkPlacement (selectByte value 0) ∧
      Adjust.ldiHi8 value = frdkPlacement (selectByte value 8) ∧
      Adjust.ldiHh8 value = frdkPlacement (selectByte value 16) ∧
      Adjust.ldiMs8 value = frdkPlacement (selectByte value 24) := by
  unfold Adjust.ldiLo8 Adjust.ldiHi8 Adjust.ldiHh8 Adjust.ldiMs8 selectByte
  simp only [ldiFixup_eq_frdkPlacement, BitVec.ushiftRight_and_distrib, BitVec.ushiftRight_zero]
  exact ⟨trivial, rfl, rfl, rfl⟩

/-- **Resolved late**: the byte of the shifted and then negated value. -/
theorem adjustFixupValue_getFixupKind (kind : VariantKind) (negated : Bool) (value : BitVec 64) :
    adjustFixupValue (kind.getFixupKind negated) false value =
      .ok (frdkPlacement (selectByte (kind.lateValue negated value) kind.byteShift)) := by
  have hneg : Adjust.ldiNeg = fun v : BitVec 64 => -v := by
    funext v
    rw [Adjust.ldiNeg, BitVec.mul_neg, mul_one]
  cases kind <;> cases negated <;>
    simp [adjustFixupValue, getFixupKind, adjustKind, ldi_eq_frdkPlacement, hneg, Adjust.pm,
      lateValue, earlyValue, isPm, byteShift]

/-! ## When they agree -/

/-- Resolving a modifier early and resolving it late give the same immediate. -/
def ResolvesAlike (kind : VariantKind) (negated : Bool) (value : BitVec 64) : Prop :=
  adjustFixupValue (kind.getFixupKind negated) false value =
    .ok (frdkPlacement (kind.evaluateAsInt64 negated value))

/-- The two resolutions agree when they select the same byte. -/
theorem resolvesAlike_iff_selectByte (kind : VariantKind) (negated : Bool) (value : BitVec 64) :
    kind.ResolvesAlike negated value ↔
      selectByte (kind.lateValue negated value) kind.byteShift =
        selectByte (earlyValue negated value) (kind.isPm.toNat + kind.byteShift) := by
  rw [ResolvesAlike, adjustFixupValue_getFixupKind, evaluateAsInt64_eq, Except.ok.injEq,
    frdkPlacement_inj]

/-- A negated byte of a halved value is the byte of the negated value unless a one is shifted out
and nothing but zeros is below the byte. -/
theorem selectByte_neg_ushiftRight (value : BitVec 64) {n : ℕ} (h : n = 0 ∨ n = 8 ∨ n = 16) :
    selectByte (-(value >>> 1)) n = selectByte (-value) (1 + n) ↔
      ¬ (value.toNat % 2 = 1 ∧ value.toNat / 2 % 2 ^ n = 0) := by
  have hlt := value.isLt
  rw [← BitVec.toNat_inj, toNat_selectByte, toNat_selectByte, BitVec.toNat_neg, BitVec.toNat_neg,
    BitVec.toNat_ushiftRight, Nat.shiftRight_eq_div_pow]
  rcases h with rfl | rfl | rfl <;> omega

/-- **When early and late resolution agree**: always, except for a negated program memory modifier
of an odd value whose half has only zeros below the selected byte. -/
theorem resolvesAlike_iff (kind : VariantKind) (negated : Bool) (value : BitVec 64) :
    kind.ResolvesAlike negated value ↔
      ¬ (negated = true ∧ kind.isPm = true ∧ value.toNat % 2 = 1 ∧
        value.toNat / 2 % 2 ^ kind.byteShift = 0) := by
  rw [resolvesAlike_iff_selectByte]
  by_cases hpm : kind.isPm = true
  · cases negated with
    | false =>
        simp [lateValue, earlyValue, hpm, selectByte_ushiftRight]
    | true =>
        have hshift : kind.byteShift = 0 ∨ kind.byteShift = 8 ∨ kind.byteShift = 16 := by
          cases kind <;> simp [isPm, byteShift] at hpm ⊢
        simp only [lateValue, earlyValue, hpm, if_true, Bool.toNat_true,
          selectByte_neg_ushiftRight value hshift, true_and]
  · simp [lateValue, hpm]

/-- `-pm_lo8(1)` is `0xff` when it is resolved early and 0 when it is resolved late. -/
theorem not_resolvesAlike_pmLo8 : ¬ pmLo8.ResolvesAlike true 1 := by
  rw [resolvesAlike_iff_selectByte]
  decide

end VariantKind

end Snes
