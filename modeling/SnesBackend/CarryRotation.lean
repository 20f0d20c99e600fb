/-
# Rotation through a Carry

A word and a carry bit are a ring with one bit more than the word.  Rotating one bit through the
carry turns the ring, so `k` steps bring the carry into the word; they rotate the word itself
only when the bits that leave it are all like the carry.
-/
import SnesBackend.WordArith

namespace WordArith

variable {w : ℕ}

/-! ## The ring -/

/-- Rotate left by one bit through the carry. -/
def rolCarry (p : Bool × BitVec w) : Bool × BitVec w :=
  (p.2.msb, shiftLeftIn p.2 p.1)

/-- Rotate right by one bit through the carry. -/
def rorCarry (p : Bool × BitVec w) : Bool × BitVec w :=
  (p.2.getLsbD 0, shiftRightIn p.1 p.2)

/-- The bits of the ring: those of the word, then the carry, and round again. -/
def ringBit (p : Bool × BitVec w) (i : ℕ) : Bool :=
  if i % (w + 1) < w then p.2.getLsbD (i % (w + 1)) else p.1

/-- A place in the word. -/
theorem ringBit_of_lt (p : Bool × BitVec w) {i : ℕ} (hi : i < w) :
    ringBit p i = p.2.getLsbD i := by
  rw [ringBit, Nat.mod_eq_of_lt (by omega), if_pos hi]

/-- The place of the carry. -/
theorem ringBit_self (p : Bool × BitVec w) : ringBit p w = p.1 := by
  rw [ringBit, Nat.mod_eq_of_lt (by omega), if_neg (by omega)]

/-- Only the place on the ring counts. -/
theorem ringBit_mod_add (p : Bool × BitVec w) (i j : ℕ) :
    ringBit p (i % (w + 1) + j) = ringBit p (i + j) := by
  rw [ringBit, ringBit, Nat.mod_add_mod]

theorem ringBit_mod (p : Bool × BitVec w) (i : ℕ) : ringBit p (i % (w + 1)) = ringBit p i :=
  ringBit_mod_add p i 0

/-- Once round. -/
theorem ringBit_add (p : Bool × BitVec w) (i : ℕ) : ringBit p (i + (w + 1)) = ringBit p i := by
  rw [ringBit, ringBit, Nat.add_mod_right]

/-- The bits of a left shift: the lowest one is shifted in, the others come from below. -/
theorem getLsbD_shiftLeftIn (a : BitVec w) (c : Bool) {i : ℕ} (hi : i < w) :
    (shiftLeftIn a c).getLsbD i = if i = 0 then c else a.getLsbD (i - 1) := by
  rw [shiftLeftIn, BitVec.getLsbD_setWidth, BitVec.getLsbD_append]
  by_cases hzero : i = 0
  · subst hzero
    simp [hi]
  · simp [hi, hzero, show ¬ i < 1 by omega]

/-- The bits of a right shift: the highest one is shifted in, the others come from above. -/
theorem getLsbD_shiftRightIn (c : Bool) (a : BitVec w) {i : ℕ} (hi : i < w) :
    (shiftRightIn c a).getLsbD i = if i + 1 < w then a.getLsbD (i + 1) else c := by
  rw [BitVec.getLsbD_eq_getElem hi, getElem_shiftRightIn]

/-- **One step left** turns the ring by one place. -/
theorem ringBit_rolCarry (p : Bool × BitVec (w + 1)) (i : ℕ) :
    ringBit (rolCarry p) (i + 1) = ringBit p i := by
  have hplace : i % (w + 1 + 1) < w + 1 + 1 := Nat.mod_lt _ (by omega)
  rw [← ringBit_mod p i, ← ringBit_mod_add (rolCarry p) i 1]
  generalize i % (w + 1 + 1) = m at hplace
  -- the place is below the top of the word, at its top, or the carry
  rcases Nat.lt_trichotomy m w with hbelow | rfl | hcarry
  · rw [ringBit_of_lt _ (by omega), ringBit_of_lt _ (by omega), rolCarry,
      getLsbD_shiftLeftIn _ _ (by omega), if_neg (by omega), Nat.add_sub_cancel]
  · rw [ringBit_self, ringBit_of_lt _ (by omega), rolCarry, BitVec.msb_eq_getLsbD_last,
      Nat.add_sub_cancel]
  · rw [show m = w + 1 by omega, ringBit_self, ← Nat.zero_add (w + 1 + 1), ringBit_add,
      ringBit_of_lt _ (by omega), rolCarry, getLsbD_shiftLeftIn _ _ (by omega), if_pos rfl]

/-- **One step right** turns it back. -/
theorem ringBit_rorCarry (p : Bool × BitVec (w + 1)) (i : ℕ) :
    ringBit (rorCarry p) i = ringBit p (i + 1) := by
  have hplace : i % (w + 1 + 1) < w + 1 + 1 := Nat.mod_lt _ (by omega)
  rw [← ringBit_mod (rorCarry p) i, ← ringBit_mod_add p i 1]
  generalize i % (w + 1 + 1) = m at hplace
  rcases Nat.lt_trichotomy m w with hbelow | rfl | hcarry
  · rw [ringBit_of_lt _ (by omega), ringBit_of_lt _ (by omega), rorCarry,
      getLsbD_shiftRightIn _ _ (by omega), if_pos (by omega)]
  · rw [ringBit_self, ringBit_of_lt _ (by omega), rorCarry,
      getLsbD_shiftRightIn _ _ (by omega), if_neg (by omega)]
  · rw [show m = w + 1 by omega, ringBit_self, ← Nat.zero_add (w + 1 + 1), ringBit_add,
      ringBit_of_lt _ (by omega), rorCarry]

/-- `k` steps left. -/
theorem ringBit_iterate_rolCarry (p : Bool × BitVec (w + 1)) (k i : ℕ) :
    ringBit (rolCarry^[k] p) (i + k) = ringBit p i := by
  induction k with
  | zero => rfl
  | succ k ih => rw [Function.iterate_succ_apply', ← Nat.add_assoc, ringBit_rolCarry, ih]

/-- `k` steps right. -/
theorem ringBit_iterate_rorCarry (p : Bool × BitVec (w + 1)) (k i : ℕ) :
    ringBit (rorCarry^[k] p) i = ringBit p (i + k) := by
  induction k generalizing i with
  | zero => rfl
  | succ k ih =>
      rw [Function.iterate_succ_apply', ringBit_rorCarry, ih]
      congr 1
      omega

/-! ## When the word is rotated -/

/-- Bits that are each like the one before are all like any one of them. -/
theorem forall_eq_succ_iff (f : ℕ → Bool) {k m : ℕ} (hm : m ≤ k) :
    (∀ i < k, f (i + 1) = f i) ↔ ∀ i ≤ k, f i = f m := by
  constructor
  · intro h
    have hzero : ∀ i ≤ k, f i = f 0 := by
      intro i
      induction i with
      | zero => exact fun _ => rfl
      | succ i ih => exact fun hi => (h i (by omega)).trans (ih (by omega))
    intro i hi
    rw [hzero i hi, hzero m hm]
  · intro h i hi
    rw [h (i + 1) (by omega), h i (by omega)]

/-- The word after `k` steps left: the stretch of the ring that has left it comes back below. -/
theorem getLsbD_iterate_rolCarry (c : Bool) (x : BitVec (w + 1)) {k j : ℕ} (hk : k < w + 1)
    (hj : j < w + 1) : (rolCarry^[k] (c, x)).2.getLsbD j =
      if j < k then ringBit (c, x) (w + 1 - k + (j + 1)) else x.getLsbD (j - k) := by
  rw [← ringBit_of_lt _ hj]
  split_ifs with hlow
  · rw [← ringBit_iterate_rolCarry (c, x) k, ← ringBit_add _ j]
    congr 1
    omega
  · rw [← ringBit_of_lt (c, x) (show j - k < w + 1 by omega),
      ← ringBit_iterate_rolCarry (c, x) k, Nat.sub_add_cancel (by omega)]

/-- The word after `k` steps right: the stretch that has left it comes back above. -/
theorem getLsbD_iterate_rorCarry (c : Bool) (x : BitVec (w + 1)) {k j : ℕ} (hj : j < w + 1) :
    (rorCarry^[k] (c, x)).2.getLsbD j = ringBit (c, x) (j + k) := by
  rw [← ringBit_of_lt _ hj, ringBit_iterate_rorCarry]

/-- **When `k` steps left through the carry rotate the word**: the bits that leave it are like the
carry. -/
theorem iterate_rolCarry_eq_rotateLeft_iff (c : Bool) (x : BitVec (w + 1)) {k : ℕ}
    (hk : k < w + 1) :
    (rolCarry^[k] (c, x)).2 = x.rotateLeft k ↔ ∀ i < k, x.getLsbD (w + 1 - k + i) = c := by
  have hword : ∀ i < k, ringBit (c, x) (w + 1 - k + i) = x.getLsbD (w + 1 - k + i) := by
    intro i hi
    exact ringBit_of_lt _ (by omega)
  have hcarry : ringBit (c, x) (w + 1 - k + k) = c := by
    rw [Nat.sub_add_cancel (by omega)]
    exact ringBit_self _
  -- each bit that has come back is the next one on the ring after the one that it should be
  have hbits : (rolCarry^[k] (c, x)).2 = x.rotateLeft k ↔
      ∀ i < k, ringBit (c, x) (w + 1 - k + (i + 1)) = ringBit (c, x) (w + 1 - k + i) := by
    constructor
    · intro h i hi
      have heq := congrArg (BitVec.getLsbD · i) h
      simp only [getLsbD_iterate_rolCarry c x hk (show i < w + 1 by omega),
        BitVec.getLsbD_rotateLeft_of_le hk, hi, decide_true, cond_true, if_true] at heq
      rw [heq, hword i hi]
    · intro h
      apply BitVec.eq_of_getLsbD_eq
      intro j hj
      rw [getLsbD_iterate_rolCarry c x hk hj, BitVec.getLsbD_rotateLeft_of_le hk]
      by_cases hlow : j < k
      · simp only [hlow, if_true, decide_true, cond_true]
        rw [h j hlow, hword j hlow]
      · simp only [hlow, if_false, decide_false, cond_false, hj, decide_true, Bool.true_and]
  rw [hbits, forall_eq_succ_iff (fun i => ringBit (c, x) (w + 1 - k + i)) (le_refl k)]
  simp only [hcarry]
  constructor
  · intro h i hi
    rw [← hword i hi, h i hi.le]
  · intro h i hi
    rcases hi.lt_or_eq with hlt | rfl
    · rw [hword i hlt, h i hlt]
    · exact hcarry

/-- **When `k` steps right do.** -/
theorem iterate_rorCarry_eq_rotateRight_iff (c : Bool) (x : BitVec (w + 1)) {k : ℕ}
    (hk : k < w + 1) :
    (rorCarry^[k] (c, x)).2 = x.rotateRight k ↔ ∀ i < k, x.getLsbD i = c := by
  have hword : ∀ i < k, ringBit (c, x) (w + 1 + (i + 1)) = x.getLsbD i := by
    intro i hi
    rw [show w + 1 + (i + 1) = i + (w + 1 + 1) by omega, ringBit_add]
    exact ringBit_of_lt _ (by omega)
  have hcarry : ringBit (c, x) (w + 1 + 0) = c := ringBit_self _
  have hbits : (rorCarry^[k] (c, x)).2 = x.rotateRight k ↔
      ∀ i < k, ringBit (c, x) (w + 1 + (i + 1)) = ringBit (c, x) (w + 1 + i) := by
    constructor
    · intro h i hi
      have heq := congrArg (BitVec.getLsbD · (w + 1 - k + i)) h
      simp only [getLsbD_iterate_rorCarry c x (show w + 1 - k + i < w + 1 by omega),
        BitVec.getLsbD_rotateRight_of_lt hk] at heq
      rw [hword i hi]
      simp only [show ¬ w + 1 - k + i < w + 1 - k by omega, show w + 1 - k + i < w + 1 by omega,
        decide_false, decide_true, cond_false, Bool.true_and, Nat.add_sub_cancel_left,
        show w + 1 - k + i + k = w + 1 + i by omega] at heq
      exact heq.symm
    · intro h
      apply BitVec.eq_of_getLsbD_eq
      intro j hj
      rw [getLsbD_iterate_rorCarry c x hj, BitVec.getLsbD_rotateRight_of_lt hk]
      by_cases hlow : j < w + 1 - k
      · simp only [hlow, decide_true, cond_true]
        rw [ringBit_of_lt _ (by omega), Nat.add_comm j k]
      · simp only [hlow, decide_false, cond_false, hj, decide_true, Bool.true_and]
        rw [← hword _ (by omega), h _ (by omega)]
        congr 1
        omega
  rw [hbits, forall_eq_succ_iff (fun i => ringBit (c, x) (w + 1 + i)) (Nat.zero_le k)]
  simp only [hcarry]
  constructor
  · intro h i hi
    rw [← hword i hi, h (i + 1) hi]
  · intro h i hi
    cases i with
    | zero => exact hcarry
    | succ i => rw [hword i hi, h i hi]

/-- A shift to the left rotates when the bits that leave the word are zeros. -/
theorem shiftLeft_eq_rotateLeft_iff (x : BitVec w) {k : ℕ} (hk : k < w) :
    x <<< k = x.rotateLeft k ↔ ∀ i < k, x.getLsbD (w - k + i) = false := by
  constructor
  · intro h i hi
    have heq := congrArg (BitVec.getLsbD · i) h
    simp only [BitVec.getLsbD_shiftLeft, BitVec.getLsbD_rotateLeft_of_le hk, hi, decide_true,
      cond_true, Bool.not_true, Bool.and_false, Bool.false_and] at heq
    exact heq.symm
  · intro h
    apply BitVec.eq_of_getLsbD_eq
    intro j hj
    rw [BitVec.getLsbD_shiftLeft, BitVec.getLsbD_rotateLeft_of_le hk]
    by_cases hlow : j < k
    · simp [hlow, h j hlow]
    · simp [hlow]

/-- A shift to the right rotates when the bits that leave the word are zeros. -/
theorem ushiftRight_eq_rotateRight_iff (x : BitVec w) {k : ℕ} (hk : k < w) :
    x >>> k = x.rotateRight k ↔ ∀ i < k, x.getLsbD i = false := by
  constructor
  · intro h i hi
    have heq := congrArg (BitVec.getLsbD · (w - k + i)) h
    simp only [BitVec.getLsbD_ushiftRight, BitVec.getLsbD_rotateRight_of_lt hk,
      show ¬ w - k + i < w - k by omega, show w - k + i < w by omega, decide_false, decide_true,
      cond_false, Bool.true_and, Nat.add_sub_cancel_left] at heq
    rw [← heq]
    exact BitVec.getLsbD_of_ge x _ (by omega)
  · intro h
    apply BitVec.eq_of_getLsbD_eq
    intro j hj
    rw [BitVec.getLsbD_ushiftRight, BitVec.getLsbD_rotateRight_of_lt hk]
    by_cases hlow : j < w - k
    · simp only [hlow, decide_true, cond_true]
    · simp only [hlow, decide_false, cond_false, hj, decide_true, Bool.true_and]
      rw [h (j - (w - k)) (by omega)]
      exact BitVec.getLsbD_of_ge x (k + j) (by omega)

end WordArith
