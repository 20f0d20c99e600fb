/-
# Numbers of Several Words

A list of words, low word first, as the digits of a number in base `2 ^ w`, the
two ripple algorithms on such lists, and comparison word by word.  Each ripple
algorithm has the exact value lemma: the words and the last carry, or borrow,
together are the exact result.  A list of words is determined by its length and
its value modulo the base to the length.
-/
import SnesBackend.WordArith

namespace WordArith

variable {w : ℕ}

/-! ## Values -/

/-- The value of a list of words, low word first. -/
def wordsValue (words : List (BitVec w)) : ℕ :=
  Nat.ofDigits (2 ^ w) (words.map BitVec.toNat)

@[simp]
theorem wordsValue_nil : wordsValue ([] : List (BitVec w)) = 0 :=
  rfl

/-- The value of a list with a word in front. -/
theorem wordsValue_cons (x : BitVec w) (words : List (BitVec w)) :
    wordsValue (x :: words) = x.toNat + 2 ^ w * wordsValue words := by
  simp [wordsValue, Nat.ofDigits_cons]

/-- A value is below the base to the length. -/
theorem wordsValue_lt (words : List (BitVec w)) :
    wordsValue words < 2 ^ (w * words.length) := by
  induction words with
  | nil => simp
  | cons x words ih =>
      have hx := x.isLt
      have bound : 2 ^ w * (wordsValue words + 1) ≤ 2 ^ w * 2 ^ (w * words.length) :=
        Nat.mul_le_mul_left _ ih
      rw [wordsValue_cons, List.length_cons, Nat.mul_succ, Nat.add_comm (w * _), pow_add]
      rw [Nat.mul_succ] at bound
      omega

/-- Two lists of one length and one value are the same list. -/
theorem eq_of_wordsValue_eq {words words' : List (BitVec w)}
    (hlength : words.length = words'.length) (h : wordsValue words = wordsValue words') :
    words = words' := by
  induction words generalizing words' with
  | nil => exact (List.eq_nil_of_length_eq_zero hlength.symm).symm
  | cons x words ih =>
      cases words' with
      | nil => simp at hlength
      | cons x' words' =>
          have hx := x.isLt
          have hx' := x'.isLt
          rw [wordsValue_cons, wordsValue_cons] at h
          have hlow : x.toNat = x'.toNat := by
            have := congrArg (· % 2 ^ w) h
            simpa [Nat.add_mul_mod_self_left, Nat.mod_eq_of_lt hx, Nat.mod_eq_of_lt hx'] using this
          have hhigh : wordsValue words = wordsValue words' := by
            rw [hlow] at h
            exact Nat.eq_of_mul_eq_mul_left (by positivity) (Nat.add_left_cancel h)
          rw [BitVec.eq_of_toNat_eq hlow, ih (by simpa using hlength) hhigh]

/-- Two lists of one length and congruent values are the same list. -/
theorem eq_of_wordsValue_modEq {words words' : List (BitVec w)}
    (hlength : words.length = words'.length)
    (h : (wordsValue words : ℤ) ≡ wordsValue words' [ZMOD 2 ^ (w * words.length)]) :
    words = words' := by
  apply eq_of_wordsValue_eq hlength
  have hlt : (wordsValue words : ℤ) < 2 ^ (w * words.length) := by
    exact_mod_cast wordsValue_lt words
  have hlt' : (wordsValue words' : ℤ) < 2 ^ (w * words.length) := by
    rw [hlength]
    exact_mod_cast wordsValue_lt words'
  have := h
  rw [Int.ModEq, Int.emod_eq_of_lt (by positivity) hlt,
    Int.emod_eq_of_lt (by positivity) hlt'] at this
  exact_mod_cast this

/-! ## Ripple addition and subtraction -/

/-- Ripple addition of pairs of words: each word adds the carry of the one before. -/
def addWords : List (BitVec w × BitVec w) → Bool → List (BitVec w)
  | [], _ => []
  | (x, y) :: pairs, c => addCarry x y c :: addWords pairs (carryOut x y c)

/-- Ripple subtraction of pairs of words: each word subtracts the borrow of the one before. -/
def subWords : List (BitVec w × BitVec w) → Bool → List (BitVec w)
  | [], _ => []
  | (x, y) :: pairs, c => subBorrow x y c :: subWords pairs (borrowOut x y c)

theorem length_addWords (pairs : List (BitVec w × BitVec w)) (c : Bool) :
    (addWords pairs c).length = pairs.length := by
  induction pairs generalizing c with
  | nil => rfl
  | cons pair pairs ih => simp [addWords, ih]

/-- The value of the left words. -/
def leftValue (pairs : List (BitVec w × BitVec w)) : ℕ :=
  wordsValue (pairs.map Prod.fst)

/-- The value of the right words. -/
def rightValue (pairs : List (BitVec w × BitVec w)) : ℕ :=
  wordsValue (pairs.map Prod.snd)

@[simp]
theorem leftValue_cons (x y : BitVec w) (pairs : List (BitVec w × BitVec w)) :
    leftValue ((x, y) :: pairs) = x.toNat + 2 ^ w * leftValue pairs :=
  wordsValue_cons x _

@[simp]
theorem rightValue_cons (x y : BitVec w) (pairs : List (BitVec w × BitVec w)) :
    rightValue ((x, y) :: pairs) = y.toNat + 2 ^ w * rightValue pairs :=
  wordsValue_cons y _

/-- **The value of a ripple addition** is the exact sum modulo the base to the length. -/
theorem wordsValue_addWords (pairs : List (BitVec w × BitVec w)) (c : Bool) :
    (wordsValue (addWords pairs c) : ℤ) ≡ leftValue pairs + rightValue pairs + c.toNat
      [ZMOD 2 ^ (w * pairs.length)] := by
  induction pairs generalizing c with
  | nil => simp [Int.modEq_one]
  | cons pair pairs ih =>
      obtain ⟨x, y⟩ := pair
      have low := toNat_addCarry_add_carryOut x y c
      have scaled := (ih (carryOut x y c)).mul_left' (c := 2 ^ w)
      rw [← pow_add] at scaled
      rw [addWords, wordsValue_cons, leftValue_cons, rightValue_cons, List.length_cons,
        Nat.mul_succ, Nat.add_comm (w * _)]
      zify at low
      push_cast
      calc ((addCarry x y c).toNat : ℤ) + 2 ^ w * wordsValue (addWords pairs (carryOut x y c))
          ≡ (addCarry x y c).toNat + 2 ^ w *
              (leftValue pairs + rightValue pairs + (carryOut x y c).toNat)
            [ZMOD 2 ^ (w + w * pairs.length)] := scaled.add_left _
        _ = x.toNat + 2 ^ w * leftValue pairs + (y.toNat + 2 ^ w * rightValue pairs) +
              c.toNat := by linarith

/-- **The value of a ripple subtraction** is the exact difference modulo the base to the length. -/
theorem wordsValue_subWords (pairs : List (BitVec w × BitVec w)) (c : Bool) :
    (wordsValue (subWords pairs c) : ℤ) ≡ leftValue pairs - rightValue pairs - c.toNat
      [ZMOD 2 ^ (w * pairs.length)] := by
  induction pairs generalizing c with
  | nil => simp [Int.modEq_one]
  | cons pair pairs ih =>
      obtain ⟨x, y⟩ := pair
      have low := toNat_subBorrow_sub_borrowOut x y c
      have scaled := (ih (borrowOut x y c)).mul_left' (c := 2 ^ w)
      rw [← pow_add] at scaled
      rw [subWords, wordsValue_cons, leftValue_cons, rightValue_cons, List.length_cons,
        Nat.mul_succ, Nat.add_comm (w * _)]
      push_cast
      calc ((subBorrow x y c).toNat : ℤ) + 2 ^ w * wordsValue (subWords pairs (borrowOut x y c))
          ≡ (subBorrow x y c).toNat + 2 ^ w *
              (leftValue pairs - rightValue pairs - (borrowOut x y c).toNat)
            [ZMOD 2 ^ (w + w * pairs.length)] := scaled.add_left _
        _ = x.toNat + 2 ^ w * leftValue pairs - (y.toNat + 2 ^ w * rightValue pairs) -
              c.toNat := by linarith

/-- The carry into the word after a pair: the low words with it do not overflow exactly when the
words above it, with the carry of the pair, do not. -/
theorem add_words_lt_iff (x y : BitVec w) (c : Bool) (m l r : ℕ) :
    x.toNat + 2 ^ w * l + (y.toNat + 2 ^ w * r) + c.toNat < 2 ^ (w * (m + 1)) ↔
      l + r + (carryOut x y c).toNat < 2 ^ (w * m) := by
  have low := toNat_addCarry_add_carryOut x y c
  have hs := (addCarry x y c).isLt
  have total : x.toNat + 2 ^ w * l + (y.toNat + 2 ^ w * r) + c.toNat =
      (addCarry x y c).toNat + 2 ^ w * (l + r + (carryOut x y c).toNat) := by
    linarith
  rw [total, Nat.mul_succ, Nat.add_comm (w * m), pow_add]
  constructor
  · intro h
    exact Nat.lt_of_mul_lt_mul_left (lt_of_le_of_lt (Nat.le_add_left _ _) h)
  · intro h
    have := Nat.mul_le_mul_left (2 ^ w) (Nat.succ_le_of_lt h)
    rw [Nat.mul_succ] at this
    omega

/-! ## Comparison word by word -/

section

variable {α : Type*}

/-- The words of a list put together, the first one lowest. -/
def concatWords (word : α → BitVec w) : (list : List α) → BitVec (w * list.length)
  | [] => 0
  | a :: list => concatWords word list ++ word a

/-- The flags of comparing word by word, starting from given flags. -/
def cmpcWords (left right : α → BitVec w) (list : List α) (f : Flags) : Flags :=
  list.foldl (fun f a => cmpcFlags (left a) (right a) f) f

/-- Comparison does not depend on how the width is written. -/
theorem cmpcFlags_cast {v : ℕ} (h : v = w) (a b : BitVec v) (f : Flags) :
    cmpcFlags (a.cast h) (b.cast h) f = cmpcFlags a b f := by
  subst h
  rfl

/-- **Comparing word by word**, low word first, compares the words put together. -/
theorem cmpcWords_eq (left right : α → BitVec (w + 1)) (a : α) (list : List α) (f : Flags) :
    cmpcWords left right (a :: list) f =
      cmpcFlags (concatWords left (a :: list)) (concatWords right (a :: list)) f := by
  induction list generalizing a f with
  | nil =>
      have hleft : concatWords left [a] = (left a).cast (Nat.zero_add _).symm :=
        BitVec.zero_width_append (0 : BitVec 0) (left a)
      have hright : concatWords right [a] = (right a).cast (Nat.zero_add _).symm :=
        BitVec.zero_width_append (0 : BitVec 0) (right a)
      rw [hleft, hright]
      exact (cmpcFlags_cast (Nat.zero_add _).symm (left a) (right a) f).symm
  | cons b list ih =>
      have hsplit := cmpcFlags_append (w := (w + 1) * list.length + w)
        (concatWords left (b :: list)) (concatWords right (b :: list)) (left a) (right a) f
      exact (ih b (cmpcFlags (left a) (right a) f)).trans hsplit.symm

end

end WordArith
