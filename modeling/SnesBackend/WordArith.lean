/-
# Word Arithmetic with Carry, Borrow and Shifted-Out Bits

Addition, subtraction and one-bit shifts of bit vectors of any width, each with
an incoming and an outgoing bit, and the rule that all of them obey: an
operation on a concatenation `hi ++ lo` is the operation on one half followed by
the operation on the other half, linked by that bit.

The last section has the flags of a comparison, and the comparison of a
concatenation as a chain of two comparisons.
-/
import Mathlib

namespace WordArith

variable {v w : ℕ}

/-! ## Addition -/

/-- The sum of `a`, `b` and the incoming carry, modulo `2 ^ w`. -/
def addCarry (a b : BitVec w) (c : Bool) : BitVec w :=
  a + b + BitVec.ofNat w c.toNat

/-- The carry out of `addCarry a b c`. -/
def carryOut (a b : BitVec w) (c : Bool) : Bool :=
  decide (2 ^ w ≤ a.toNat + b.toNat + c.toNat)

/-- The numeric value of `addCarry`. -/
theorem toNat_addCarry (a b : BitVec w) (c : Bool) :
    (addCarry a b c).toNat = (a.toNat + b.toNat + c.toNat) % 2 ^ w := by
  simp [addCarry, BitVec.toNat_add, Nat.add_mod]

/-- Sum and carry out together are the exact sum. -/
theorem toNat_addCarry_add_carryOut (a b : BitVec w) (c : Bool) :
    (addCarry a b c).toNat + 2 ^ w * (carryOut a b c).toNat =
      a.toNat + b.toNat + c.toNat := by
  have ha := a.isLt
  have hb := b.isLt
  have hc := Bool.toNat_le c
  rw [toNat_addCarry]
  by_cases h : 2 ^ w ≤ a.toNat + b.toNat + c.toNat
  · have hm : (a.toNat + b.toNat + c.toNat) % 2 ^ w =
        a.toNat + b.toNat + c.toNat - 2 ^ w := by
      rw [Nat.mod_eq_sub_mod h, Nat.mod_eq_of_lt (by omega)]
    simp only [carryOut, h, decide_true, Bool.toNat_true, hm]
    omega
  · rw [Nat.mod_eq_of_lt (by omega)]
    simp [carryOut, h]

/-- A number below `2 ^ w` and a carry bit are determined by `s + 2 ^ w * c`. -/
theorem split_unique {s t : ℕ} {c d : Bool} (hs : s < 2 ^ w) (ht : t < 2 ^ w)
    (h : s + 2 ^ w * c.toNat = t + 2 ^ w * d.toNat) : s = t ∧ c = d := by
  cases c <;> cases d <;> simp at h ⊢ <;> omega

/-- The value of a concatenation. -/
theorem toNat_append_eq (h : BitVec w) (l : BitVec v) :
    (h ++ l).toNat = 2 ^ v * h.toNat + l.toNat := by
  rw [BitVec.toNat_append, ← Nat.shiftLeft_add_eq_or_of_lt l.isLt, Nat.shiftLeft_eq, Nat.mul_comm]

/-- The two equations of **addition of a concatenation**, from the exact sums. -/
theorem addCarry_append_and_carryOut_append (ah bh : BitVec w) (al bl : BitVec v) (c : Bool) :
    addCarry (ah ++ al) (bh ++ bl) c =
        addCarry ah bh (carryOut al bl c) ++ addCarry al bl c ∧
      carryOut (ah ++ al) (bh ++ bl) c = carryOut ah bh (carryOut al bl c) := by
  have whole := toNat_addCarry_add_carryOut (ah ++ al) (bh ++ bl) c
  have low := toNat_addCarry_add_carryOut al bl c
  have high := toNat_addCarry_add_carryOut ah bh (carryOut al bl c)
  have bound := (addCarry ah bh (carryOut al bl c) ++ addCarry al bl c).isLt
  have expand := toNat_append_eq (addCarry ah bh (carryOut al bl c)) (addCarry al bl c)
  rw [toNat_append_eq, toNat_append_eq] at whole
  have key : (addCarry (ah ++ al) (bh ++ bl) c).toNat +
        2 ^ (w + v) * (carryOut (ah ++ al) (bh ++ bl) c).toNat =
      (addCarry ah bh (carryOut al bl c) ++ addCarry al bl c).toNat +
        2 ^ (w + v) * (carryOut ah bh (carryOut al bl c)).toNat := by
    rw [whole, expand, pow_add]
    have scaled := congrArg (2 ^ v * ·) high
    simp only [Nat.mul_add] at scaled
    calc 2 ^ v * ah.toNat + al.toNat + (2 ^ v * bh.toNat + bl.toNat) + c.toNat
        = 2 ^ v * ah.toNat + 2 ^ v * bh.toNat + (al.toNat + bl.toNat + c.toNat) := by ring
      _ = 2 ^ v * ah.toNat + 2 ^ v * bh.toNat + 2 ^ v * (carryOut al bl c).toNat +
            (addCarry al bl c).toNat := by rw [← low]; ring
      _ = _ := by rw [← scaled]; ring
  obtain ⟨hs, hc⟩ := split_unique (addCarry (ah ++ al) (bh ++ bl) c).isLt bound key
  exact ⟨BitVec.eq_of_toNat_eq hs, hc⟩

/-- **Addition of a concatenation**: the high word adds the carry of the low word. -/
theorem addCarry_append (ah bh : BitVec w) (al bl : BitVec v) (c : Bool) :
    addCarry (ah ++ al) (bh ++ bl) c =
      addCarry ah bh (carryOut al bl c) ++ addCarry al bl c :=
  (addCarry_append_and_carryOut_append ah bh al bl c).1

/-- The carry of a concatenation is the carry of its high word. -/
theorem carryOut_append (ah bh : BitVec w) (al bl : BitVec v) (c : Bool) :
    carryOut (ah ++ al) (bh ++ bl) c = carryOut ah bh (carryOut al bl c) :=
  (addCarry_append_and_carryOut_append ah bh al bl c).2

/-! ## Subtraction -/

/-- The difference `a - b - c`, modulo `2 ^ w`, with incoming borrow `c`. -/
def subBorrow (a b : BitVec w) (c : Bool) : BitVec w :=
  a - b - BitVec.ofNat w c.toNat

/-- The borrow out of `subBorrow a b c`. -/
def borrowOut (a b : BitVec w) (c : Bool) : Bool :=
  decide (a.toNat < b.toNat + c.toNat)

/-- Adding `b` and the borrow back to a difference gives `a`. -/
theorem addCarry_subBorrow (a b : BitVec w) (c : Bool) :
    addCarry (subBorrow a b c) b c = a := by
  simp only [addCarry, subBorrow]
  ring

/-- The borrow of a difference is the carry of adding it back. -/
theorem carryOut_subBorrow (a b : BitVec w) (c : Bool) :
    carryOut (subBorrow a b c) b c = borrowOut a b c := by
  have exact_sum := toNat_addCarry_add_carryOut (subBorrow a b c) b c
  rw [addCarry_subBorrow] at exact_sum
  have hd := (subBorrow a b c).isLt
  have ha := a.isLt
  cases h : carryOut (subBorrow a b c) b c <;>
    simp only [h, borrowOut, Bool.toNat_false, Bool.toNat_true, Nat.mul_zero, Nat.mul_one] at * <;>
    symm <;> simp <;> omega

/-- A difference is the only summand that gives `a` back. -/
theorem eq_subBorrow_of_addCarry {a b d : BitVec w} {c : Bool} (h : addCarry d b c = a) :
    d = subBorrow a b c := by
  rw [← h]
  simp only [addCarry, subBorrow]
  ring

/-- **Subtraction of a concatenation**: the high word subtracts the borrow of the low word. -/
theorem subBorrow_append (ah bh : BitVec w) (al bl : BitVec v) (c : Bool) :
    subBorrow (ah ++ al) (bh ++ bl) c =
      subBorrow ah bh (borrowOut al bl c) ++ subBorrow al bl c := by
  symm
  apply eq_subBorrow_of_addCarry
  rw [addCarry_append, carryOut_subBorrow, addCarry_subBorrow, addCarry_subBorrow]

/-- The borrow of a concatenation is the borrow of its high word. -/
theorem borrowOut_append (ah bh : BitVec w) (al bl : BitVec v) (c : Bool) :
    borrowOut (ah ++ al) (bh ++ bl) c = borrowOut ah bh (borrowOut al bl c) := by
  rw [← carryOut_subBorrow, subBorrow_append, carryOut_append, carryOut_subBorrow,
    carryOut_subBorrow]

/-! ## One-bit shifts -/

/-- Shift left by one bit, with `c` shifted in at the bottom. -/
def shiftLeftIn (a : BitVec w) (c : Bool) : BitVec w :=
  (a ++ BitVec.ofBool c).setWidth w

/-- Shift right by one bit, with `c` shifted in at the top. -/
def shiftRightIn (c : Bool) (a : BitVec w) : BitVec w :=
  ((BitVec.ofBool c ++ a) >>> 1).setWidth w

/-- The numeric value of a left shift. -/
theorem toNat_shiftLeftIn (a : BitVec w) (c : Bool) :
    (shiftLeftIn a c).toNat = (2 * a.toNat + c.toNat) % 2 ^ w := by
  rw [shiftLeftIn, BitVec.toNat_setWidth, toNat_append_eq, BitVec.toNat_ofBool, pow_one]

/-- Shifting a zero in from below is the ordinary left shift. -/
theorem shiftLeftIn_false (a : BitVec w) : shiftLeftIn a false = a <<< 1 := by
  apply BitVec.eq_of_toNat_eq
  rw [toNat_shiftLeftIn, BitVec.toNat_shiftLeft, Nat.shiftLeft_eq]
  simp [Nat.mul_comm]

/-- A left shift is the sum of a word with itself. -/
theorem shiftLeftIn_eq_addCarry (a : BitVec w) (c : Bool) :
    shiftLeftIn a c = addCarry a a c := by
  apply BitVec.eq_of_toNat_eq
  rw [toNat_shiftLeftIn, toNat_addCarry, Nat.two_mul]

/-- The carry of doubling a word is the bit shifted out at the top. -/
theorem carryOut_self (a : BitVec (w + 1)) (c : Bool) : carryOut a a c = a.msb := by
  have hc := Bool.toNat_le c
  rw [carryOut, BitVec.msb_eq_decide, decide_eq_decide, Nat.add_sub_cancel, pow_succ]
  omega

/-- **Left shift of a concatenation**: the low word goes first and hands its carry up. -/
theorem shiftLeftIn_append (h : BitVec w) (l : BitVec v) (c : Bool) :
    shiftLeftIn (h ++ l) c = shiftLeftIn h (carryOut l l c) ++ shiftLeftIn l c := by
  simp only [shiftLeftIn_eq_addCarry, addCarry_append]

/-- The bits of a right shift: each one comes from above, the top one is shifted in. -/
theorem getElem_shiftRightIn (c : Bool) (a : BitVec w) (i : ℕ) (hi : i < w) :
    (shiftRightIn c a)[i] = if i + 1 < w then a.getLsbD (i + 1) else c := by
  simp only [shiftRightIn, BitVec.getElem_setWidth, BitVec.getLsbD_ushiftRight,
    BitVec.getLsbD_append, Nat.add_comm 1 i]
  by_cases h : i + 1 < w
  · simp [h]
  · have top : i + 1 - w = 0 := by omega
    simp [h, top]

/-- Shifting a zero in from above is the logical right shift. -/
theorem shiftRightIn_false (a : BitVec w) : shiftRightIn false a = a >>> 1 := by
  ext i hi
  rw [getElem_shiftRightIn, BitVec.getElem_ushiftRight, Nat.add_comm 1 i]
  by_cases h : i + 1 < w
  · simp [h]
  · simp [h, BitVec.getLsbD_of_ge a (i + 1) (by omega)]

/-- Shifting the sign in from above is the arithmetic right shift. -/
theorem shiftRightIn_msb (a : BitVec w) : shiftRightIn a.msb a = a.sshiftRight 1 := by
  ext i hi
  rw [getElem_shiftRightIn, BitVec.getElem_sshiftRight]
  by_cases h : i + 1 < w
  · simp [h, Nat.add_comm 1 i]
  · simp [h, Nat.add_comm 1 i]

/-- **Right shift of a concatenation**: the high word goes first and hands its low bit down. -/
theorem shiftRightIn_append (c : Bool) (h : BitVec (w + 1)) (l : BitVec v) :
    shiftRightIn c (h ++ l) = shiftRightIn c h ++ shiftRightIn (h.getLsbD 0) l := by
  ext i hi
  rw [getElem_shiftRightIn, BitVec.getElem_append, BitVec.getLsbD_append]
  by_cases low : i < v
  · simp only [low, dif_pos, getElem_shiftRightIn]
    by_cases edge : i + 1 < v
    · simp [edge, show i + 1 < w + 1 + v by omega]
    · simp [edge, show i + 1 < w + 1 + v by omega, show i + 1 - v = 0 by omega]
  · simp only [low, dif_neg, not_false_eq_true, getElem_shiftRightIn]
    by_cases top : i + 1 < w + 1 + v
    · simp [top, show ¬ i + 1 < v by omega, show i - v < w by omega,
        show i + 1 - v = i - v + 1 by omega]
    · simp [top, show ¬ i - v < w by omega]

/-! ## Operations that leave an operand alone -/

/-- Adding `b` and the carry `c`, or subtracting them, comes to nothing. -/
def Cancels (b : BitVec w) (c : Bool) : Prop :=
  b = 0 ∧ c = false ∨ b = BitVec.allOnes w ∧ c = true

instance (b : BitVec w) (c : Bool) : Decidable (Cancels b c) :=
  inferInstanceAs (Decidable (_ ∨ _))

/-- A word and a bit cancel when they add up to nothing. -/
theorem cancels_iff (b : BitVec w) (c : Bool) :
    Cancels b c ↔ b.toNat + c.toNat = 0 ∨ b.toNat + c.toNat = 2 ^ w := by
  have hb := b.isLt
  have hpos := Nat.two_pow_pos w
  have hzero : (0 : BitVec w).toNat = 0 := by simp
  rw [Cancels, ← BitVec.toNat_inj, ← BitVec.toNat_inj, BitVec.toNat_allOnes, hzero]
  cases c <;> simp only [Bool.toNat_false, Bool.toNat_true, Bool.false_eq_true, Bool.true_eq_false,
    and_true, and_false, or_false, false_or] <;> omega

/-- A sum is its first operand when the others cancel. -/
theorem addCarry_eq_self_iff (a b : BitVec w) (c : Bool) : addCarry a b c = a ↔ Cancels b c := by
  have hsum := toNat_addCarry_add_carryOut a b c
  have ha := a.isLt
  have hb := b.isLt
  have hc := Bool.toNat_le c
  rw [cancels_iff, ← BitVec.toNat_inj]
  cases hcarry : carryOut a b c <;> simp only [hcarry, Bool.toNat_true, Bool.toNat_false,
    Nat.mul_zero, Nat.mul_one] at hsum <;> omega

/-- Then the carry goes through. -/
theorem carryOut_of_cancels (a : BitVec w) {b : BitVec w} {c : Bool} (h : Cancels b c) :
    carryOut a b c = c := by
  have ha := a.isLt
  have hpos := Nat.two_pow_pos w
  rcases h with ⟨rfl, rfl⟩ | ⟨rfl, rfl⟩
  · simpa [carryOut] using ha
  · simp [carryOut, BitVec.toNat_allOnes]
    omega

/-- A difference is its first operand when the others cancel. -/
theorem subBorrow_eq_self_iff (a b : BitVec w) (c : Bool) : subBorrow a b c = a ↔ Cancels b c := by
  rw [← addCarry_eq_self_iff a b c]
  constructor
  · intro h
    have hback := addCarry_subBorrow a b c
    rwa [h] at hback
  · exact fun h => (eq_subBorrow_of_addCarry h).symm

/-- Then the borrow goes through. -/
theorem borrowOut_of_cancels (a : BitVec w) {b : BitVec w} {c : Bool} (h : Cancels b c) :
    borrowOut a b c = c := by
  have ha := a.isLt
  have hpos := Nat.two_pow_pos w
  rcases h with ⟨rfl, rfl⟩ | ⟨rfl, rfl⟩
  · simp [borrowOut]
  · simp [borrowOut, BitVec.toNat_allOnes]
    omega

/-- A left shift gives the word itself when it and the bit shifted in cancel. -/
theorem shiftLeftIn_eq_self_iff (a : BitVec w) (c : Bool) : shiftLeftIn a c = a ↔ Cancels a c := by
  rw [shiftLeftIn_eq_addCarry, addCarry_eq_self_iff]

/-- The numeric value of a right shift. -/
theorem toNat_shiftRightIn (c : Bool) (a : BitVec (w + 1)) :
    (shiftRightIn c a).toNat = a.toNat / 2 + 2 ^ w * c.toNat := by
  have ha := a.isLt
  have hc := Bool.toNat_le c
  rw [shiftRightIn, BitVec.toNat_setWidth, BitVec.toNat_ushiftRight, toNat_append_eq,
    BitVec.toNat_ofBool, Nat.shiftRight_eq_div_pow]
  rw [pow_succ] at ha ⊢
  have hhalf : (2 ^ w * 2 * c.toNat + a.toNat) / 2 ^ 1 = a.toNat / 2 + 2 ^ w * c.toNat := by
    rw [pow_one, mul_right_comm]
    omega
  rw [hhalf]
  apply Nat.mod_eq_of_lt
  cases c <;> simp <;> omega

/-- So does a right shift. -/
theorem shiftRightIn_eq_self_iff (a : BitVec (w + 1)) (c : Bool) :
    shiftRightIn c a = a ↔ Cancels a c := by
  have ha := a.isLt
  rw [cancels_iff, ← BitVec.toNat_inj, toNat_shiftRightIn]
  rw [pow_succ] at ha ⊢
  cases c <;> simp <;> omega

/-! ## Flags -/

/-- The arithmetic flags. -/
structure Flags where
  carry : Bool
  zero : Bool
  negative : Bool
  overflow : Bool
deriving DecidableEq, Repr

/-- The exact signed difference does not fit in `w` bits. -/
def subOverflow (a b : BitVec w) (c : Bool) : Bool :=
  decide (a.toInt - b.toInt - c.toNat < -2 ^ (w - 1) ∨
    2 ^ (w - 1) ≤ a.toInt - b.toInt - c.toNat)

/-- The flags of `a - b - c`. -/
def subFlags (a b : BitVec w) (c : Bool) : Flags where
  carry := borrowOut a b c
  zero := subBorrow a b c == 0
  negative := (subBorrow a b c).msb
  overflow := subOverflow a b c

/-- The exact signed sum does not fit in `w` bits. -/
def addOverflow (a b : BitVec w) (c : Bool) : Bool :=
  decide (a.toInt + b.toInt + c.toNat < -2 ^ (w - 1) ∨
    2 ^ (w - 1) ≤ a.toInt + b.toInt + c.toNat)

/-- The flags of `a + b + c`. -/
def addFlags (a b : BitVec w) (c : Bool) : Flags where
  carry := carryOut a b c
  zero := addCarry a b c == 0
  negative := (addCarry a b c).msb
  overflow := addOverflow a b c

/-- Compare: the flags of `a - b`. -/
def cmpFlags (a b : BitVec w) : Flags :=
  subFlags a b false

/-- Compare with carry: the flags of `a - b - carry`, where zero survives only if it was set. -/
def cmpcFlags (a b : BitVec w) (f : Flags) : Flags :=
  { subFlags a b f.carry with zero := (subFlags a b f.carry).zero && f.zero }

/-- The signed value of a difference, up to a multiple of the modulus. -/
theorem toInt_subBorrow (a b : BitVec w) (c : Bool) :
    (subBorrow a b c).toInt = (a.toInt - b.toInt - c.toNat).bmod (2 ^ w) := by
  rw [subBorrow, BitVec.toInt_sub, BitVec.toInt_sub, BitVec.toInt_ofNat', Int.bmod_sub_bmod,
    Int.sub_bmod_bmod]

/-- Without overflow the signed difference is exact; with it the sign is the wrong one. -/
theorem toInt_subBorrow_cases (a b : BitVec (w + 1)) (c : Bool) :
    (subOverflow a b c = false ∧
        (subBorrow a b c).toInt = a.toInt - b.toInt - c.toNat) ∨
      (subOverflow a b c = true ∧ a.toInt < b.toInt + c.toNat ∧ 0 ≤ (subBorrow a b c).toInt) ∨
      (subOverflow a b c = true ∧ b.toInt + c.toNat ≤ a.toInt ∧
        (subBorrow a b c).toInt < 0) := by
  have ha := a.two_mul_toInt_lt
  have ha' := a.le_two_mul_toInt
  have hb := b.two_mul_toInt_lt
  have hb' := b.le_two_mul_toInt
  have hc := Bool.toNat_le c
  have modulus : ((2 ^ (w + 1) : ℕ) : ℤ) = 2 * 2 ^ w := by rw [pow_succ]; push_cast; ring
  have residue := toInt_subBorrow a b c
  simp only [pow_succ] at ha ha' hb hb'
  simp only [subOverflow, Nat.add_sub_cancel]
  by_cases low : a.toInt - b.toInt - c.toNat < -2 ^ w
  · -- below the range: the residue is the difference plus the modulus
    rw [← Int.add_bmod_right, Int.bmod_eq_of_le_mul_two (by omega) (by omega)] at residue
    exact Or.inr (Or.inl ⟨by simp [low], by omega, by omega⟩)
  · by_cases high : 2 ^ w ≤ a.toInt - b.toInt - c.toNat
    · -- above the range: the residue is the difference minus the modulus
      rw [← Int.sub_bmod_right, Int.bmod_eq_of_le_mul_two (by omega) (by omega)] at residue
      exact Or.inr (Or.inr ⟨by simp [high], by omega, by omega⟩)
    · rw [Int.bmod_eq_of_le_mul_two (by omega) (by omega)] at residue
      exact Or.inl ⟨by simp [low, high], residue⟩

/-- **Signed order** on the flags: negative differs from overflow exactly when `a < b + c`. -/
theorem subFlags_signed_lt (a b : BitVec (w + 1)) (c : Bool) :
    ((subFlags a b c).negative != (subFlags a b c).overflow) =
      decide (a.toInt < b.toInt + c.toNat) := by
  have sign : (subBorrow a b c).msb = decide ((subBorrow a b c).toInt < 0) :=
    BitVec.msb_eq_toInt
  obtain ⟨ho, hd⟩ | ⟨ho, hlt, hd⟩ | ⟨ho, hle, hd⟩ := toInt_subBorrow_cases a b c
  · simp only [subFlags, ho, sign, hd, Bool.bne_false, decide_eq_decide]
    omega
  · simp [subFlags, ho, sign, hlt, hd]
  · simp [subFlags, ho, sign, hle, hd]

/-- **Unsigned order** on the flags. -/
theorem subFlags_carry (a b : BitVec w) :
    (subFlags a b false).carry = decide (a.toNat < b.toNat) := by
  simp [subFlags, borrowOut]

/-- **Equality** on the flags. -/
theorem subFlags_zero (a b : BitVec w) : (subFlags a b false).zero = (a == b) := by
  rw [subFlags, Bool.eq_iff_iff, beq_iff_eq, beq_iff_eq]
  have undo := addCarry_subBorrow a b false
  constructor
  · intro h
    rw [h] at undo
    rw [← undo]
    simp [addCarry]
  · rintro rfl
    simp [subBorrow]

/-- Difference and borrow out together are the exact difference. -/
theorem toNat_subBorrow_sub_borrowOut (a b : BitVec w) (c : Bool) :
    ((subBorrow a b c).toNat : ℤ) - 2 ^ w * (borrowOut a b c).toNat =
      a.toNat - b.toNat - c.toNat := by
  have exact_sum := toNat_addCarry_add_carryOut (subBorrow a b c) b c
  rw [addCarry_subBorrow, carryOut_subBorrow] at exact_sum
  zify at exact_sum
  linarith

/-- The exact signed difference of a concatenation, in terms of its halves. -/
theorem signed_difference_append (ah bh : BitVec (w + 1)) (al bl : BitVec v) (c : Bool) :
    (ah ++ al).toInt - (bh ++ bl).toInt - c.toNat =
      2 ^ v * (ah.toInt - bh.toInt - (borrowOut al bl c).toNat) + (subBorrow al bl c).toNat := by
  have low := toNat_subBorrow_sub_borrowOut al bl c
  rw [BitVec.toInt_append, BitVec.toInt_append]
  simp only [Nat.add_one_ne_zero, beq_iff_eq, if_false]
  linarith

/-- Scaling by `2 ^ v` and adding a remainder below it does not move a bound. -/
theorem scaled_lt_iff (d k : ℤ) {r : ℕ} (hr : r < 2 ^ v) :
    2 ^ v * d + r < 2 ^ v * k ↔ d < k := by
  have hr' : (r : ℤ) < 2 ^ v := by exact_mod_cast hr
  have pos : (0 : ℤ) < 2 ^ v := by positivity
  constructor
  · intro h
    by_contra le
    have := mul_le_mul_of_nonneg_left (not_lt.mp le) pos.le
    omega
  · intro h
    have := mul_le_mul_of_nonneg_left (Int.add_one_le_iff.mpr h) pos.le
    rw [mul_add, mul_one] at this
    omega

/-- The overflow of a concatenation is the overflow of its high word. -/
theorem subOverflow_append (ah bh : BitVec (w + 1)) (al bl : BitVec v) (c : Bool) :
    subOverflow (ah ++ al) (bh ++ bl) c = subOverflow ah bh (borrowOut al bl c) := by
  have hr := (subBorrow al bl c).isLt
  have width : w + 1 + v - 1 = v + w := by omega
  rw [subOverflow, subOverflow, signed_difference_append, decide_eq_decide, width,
    Nat.add_sub_cancel, pow_add, neg_mul_eq_mul_neg, scaled_lt_iff _ _ hr]
  apply or_congr_right
  rw [← not_lt, ← not_lt, scaled_lt_iff _ _ hr]

/-- A concatenation is zero exactly when both halves are. -/
theorem append_eq_zero (h : BitVec w) (l : BitVec v) : h ++ l = 0 ↔ h = 0 ∧ l = 0 := by
  have pos : 0 < 2 ^ v := by positivity
  rw [← BitVec.toNat_inj, ← BitVec.toNat_inj, ← BitVec.toNat_inj, toNat_append_eq]
  simp

/-- **Comparison of a concatenation**: the chain of its words, low word first. -/
theorem subFlags_append (ah bh : BitVec (w + 1)) (al bl : BitVec v) (c : Bool) :
    subFlags (ah ++ al) (bh ++ bl) c = cmpcFlags ah bh (subFlags al bl c) := by
  have zero : (subBorrow (ah ++ al) (bh ++ bl) c == 0) =
      ((subBorrow ah bh (borrowOut al bl c) == 0) && (subBorrow al bl c == 0)) := by
    rw [subBorrow_append, Bool.eq_iff_iff]
    simp only [beq_iff_eq, Bool.and_eq_true, append_eq_zero]
  have negative : (subBorrow (ah ++ al) (bh ++ bl) c).msb =
      (subBorrow ah bh (borrowOut al bl c)).msb := by
    rw [subBorrow_append, BitVec.msb_append, if_neg (Nat.add_one_ne_zero w)]
  simp only [subFlags, cmpcFlags, borrowOut_append, subOverflow_append, zero, negative]

/-- **Comparison with carry of a concatenation**: the chain starts from the flags given. -/
theorem cmpcFlags_append (ah bh : BitVec (w + 1)) (al bl : BitVec v) (f : Flags) :
    cmpcFlags (ah ++ al) (bh ++ bl) f = cmpcFlags ah bh (cmpcFlags al bl f) := by
  have carry : (cmpcFlags al bl f).carry = (subFlags al bl f.carry).carry := rfl
  have zero : (cmpcFlags al bl f).zero = ((subFlags al bl f.carry).zero && f.zero) := rfl
  rw [cmpcFlags, subFlags_append, cmpcFlags, cmpcFlags, carry, zero]
  simp only [Bool.and_assoc]

end WordArith
