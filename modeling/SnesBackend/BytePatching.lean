/-
# Patching Bytes

Masking the low bytes of a value into a list of bytes, as linkers and assemblers
do with the fields they fill in late: what is patched, what keeps its value, and
when a patch lies inside a part of the list.
-/
import Mathlib

namespace BytePatching

variable {w : ℕ}

/-! ## The patch -/

/-- Byte `i` of a value. -/
def byteOf (value : BitVec w) (i : ℕ) : BitVec 8 :=
  (value >>> (i * 8)).setWidth 8

/-- The list with the low `n` bytes of the value or-ed into the `n` bytes from `offset` on. -/
def orBytes (value : BitVec w) (offset : ℕ) : ℕ → List (BitVec 8) → List (BitVec 8)
  | 0, data => data
  | n + 1, data =>
      (orBytes value offset n data).modify (offset + n) (· ||| byteOf value n)

/-- The bits of a byte of a value. -/
@[simp]
theorem getLsbD_byteOf (value : BitVec w) (i j : ℕ) :
    (byteOf value i).getLsbD j = (decide (j < 8) && value.getLsbD (i * 8 + j)) := by
  simp [byteOf]

/-- The bits of a byte of a value, by index. -/
@[simp]
theorem getElem_byteOf (value : BitVec w) (i j : ℕ) (hj : j < 8) :
    (byteOf value i)[j] = value.getLsbD (i * 8 + j) := by
  rw [← BitVec.getLsbD_eq_getElem hj, getLsbD_byteOf, decide_eq_true hj, Bool.true_and]

/-- Every byte of zero is zero. -/
@[simp]
theorem byteOf_zero (i : ℕ) : byteOf 0#w i = 0#8 := by
  simp [byteOf]

/-- Or-ing values is or-ing their bytes. -/
theorem byteOf_or (x y : BitVec w) (i : ℕ) : byteOf (x ||| y) i = byteOf x i ||| byteOf y i := by
  apply BitVec.eq_of_getLsbD_eq
  intro j hj
  simp [hj]

/-- A 16-bit value is its two bytes. -/
theorem append_byteOf (x : BitVec w) : byteOf x 1 ++ byteOf x 0 = x.setWidth 16 := by
  apply BitVec.eq_of_getLsbD_eq
  intro j hj
  rw [BitVec.getLsbD_append, getLsbD_byteOf, getLsbD_byteOf, BitVec.getLsbD_setWidth]
  by_cases hlow : j < 8
  · simp [hlow, hj]
  · simp [hlow, hj, show j - 8 < 8 by omega, show 8 + (j - 8) = j by omega]

/-- **A patch of two bytes** that are all there is. -/
theorem orBytes_two (x : BitVec w) (value : BitVec w) :
    orBytes value 0 2 [byteOf x 0, byteOf x 1] =
      [byteOf (x ||| value) 0, byteOf (x ||| value) 1] := by
  rw [byteOf_or, byteOf_or]
  rfl

/-- A patch keeps the length. -/
@[simp]
theorem length_orBytes (value : BitVec w) (offset n : ℕ) (data : List (BitVec 8)) :
    (orBytes value offset n data).length = data.length := by
  induction n with
  | zero => rfl
  | succ n ih => rw [orBytes, List.length_modify, ih]

/-- **What a patch writes**: the bytes from `offset` on take the bits of the value, the others
stay. -/
theorem getElem?_orBytes (value : BitVec w) (offset n i : ℕ) (data : List (BitVec 8)) :
    (orBytes value offset n data)[i]? =
      if offset ≤ i ∧ i < offset + n then data[i]?.map (· ||| byteOf value (i - offset))
      else data[i]? := by
  induction n with
  | zero => rw [orBytes, if_neg (by omega)]
  | succ n ih =>
      rw [orBytes, List.getElem?_modify, ih]
      by_cases hlast : offset + n = i
      · subst hlast
        rw [if_neg (by omega), if_pos (by omega), Nat.add_sub_cancel_left]
        simp
      · by_cases hin : offset ≤ i ∧ i < offset + n
        · rw [if_pos hin, if_pos (by omega)]
          simp [hlast]
        · rw [if_neg hin, if_neg (by omega)]
          simp [hlast]

/-- Values with the same bits in two windows have the same digits there. -/
theorem digits_eq_of_getLsbD_eq {m n : ℕ} {x : BitVec m} {y : BitVec n} {i j c : ℕ}
    (h : ∀ k < c, x.getLsbD (i + k) = y.getLsbD (j + k)) :
    x.toNat / 2 ^ i % 2 ^ c = y.toNat / 2 ^ j % 2 ^ c := by
  apply Nat.eq_of_testBit_eq
  intro k
  rw [Nat.testBit_mod_two_pow, Nat.testBit_mod_two_pow, Nat.testBit_div_two_pow,
    Nat.testBit_div_two_pow, BitVec.testBit_toNat, BitVec.testBit_toNat]
  by_cases hk : k < c
  · rw [Nat.add_comm k i, Nat.add_comm k j, h k hk]
  · simp [hk]

/-- Patching in zero changes nothing. -/
@[simp]
theorem orBytes_zero_value (offset n : ℕ) (data : List (BitVec 8)) :
    orBytes 0#w offset n data = data := by
  apply List.ext_getElem?
  intro i
  rw [getElem?_orBytes]
  simp

/-- **A patch inside the middle of a list** leaves both ends as they are. -/
theorem orBytes_append {value : BitVec w} {offset n : ℕ} {before middle after : List (BitVec 8)}
    (h : offset + n ≤ middle.length) :
    orBytes value (before.length + offset) n (before ++ middle ++ after) =
      before ++ orBytes value offset n middle ++ after := by
  apply List.ext_getElem?
  intro i
  rw [getElem?_orBytes]
  rcases Nat.lt_or_ge i before.length with hbefore | hbefore
  · rw [if_neg (by omega), List.append_assoc, List.append_assoc,
      List.getElem?_append_left hbefore, List.getElem?_append_left hbefore]
  obtain ⟨j, rfl⟩ : ∃ j, i = before.length + j := ⟨i - before.length, by omega⟩
  rw [List.append_assoc, List.append_assoc, List.getElem?_append_right hbefore,
    List.getElem?_append_right hbefore, Nat.add_sub_cancel_left, Nat.add_sub_add_left]
  rcases Nat.lt_or_ge j middle.length with hmiddle | hmiddle
  · rw [List.getElem?_append_left hmiddle, List.getElem?_append_left (by simpa using hmiddle),
      getElem?_orBytes]
    apply if_congr (by omega) rfl rfl
  · rw [if_neg (by omega), List.getElem?_append_right hmiddle,
      List.getElem?_append_right (by simpa using hmiddle), length_orBytes]

end BytePatching
