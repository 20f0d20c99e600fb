/-
# Padding of Code

`writeNopData` fills the gap in front of an aligned address in a code section.  It
takes the instructions to be two bytes long and writes zeros, whereas the
instructions have one to four bytes and `NOP` is the byte `0xEA`.
-/
import SnesBackend.EncodedBytes

namespace Snes

/-! ## The padding -/

/-- `WriteZeros`, whose argument is an unsigned integer of 32 bits: pieces of 16 bytes, and the
rest. -/
def writeZeros (n : BitVec 32) : List (BitVec 8) :=
  (List.replicate (n.toNat / 16) (List.replicate 16 0)).flatten ++ List.replicate (n.toNat % 16) 0

/-- `writeNopData`: whether it succeeds and what it writes. -/
def writeNopData (count : BitVec 64) : Except String (Bool × List (BitVec 8)) :=
  if count.toNat % 2 = 0 then .ok (true, writeZeros (count.setWidth 32))
  else .error "NOP instructions must be 2 bytes"

/-- Bytes that are a sequence of `NOP` instructions. -/
def IsNopSequence (bytes : List (BitVec 8)) : Prop :=
  ∃ nop n, documentedBytes ⟨.NOP, []⟩ = some nop ∧ bytes = (List.replicate n nop).flatten

/-- The padding succeeds, has the length that is asked for and has no effect. -/
def PadsWithNops (count : BitVec 64) : Prop :=
  ∃ bytes, writeNopData count = .ok (true, bytes) ∧ bytes.length = count.toNat ∧
    IsNopSequence bytes

/-! ## What is written -/

/-- The pieces and the rest are as many zeros as asked for. -/
theorem writeZeros_eq (n : BitVec 32) : writeZeros n = List.replicate n.toNat 0 := by
  unfold writeZeros
  rw [List.flatten_replicate_replicate, ← List.replicate_add]
  congr 1
  omega

/-- An even count below 2^32 is padded with as many zeros. -/
theorem writeNopData_of_even {count : BitVec 64} (heven : count.toNat % 2 = 0)
    (hlt : count.toNat < 2 ^ 32) :
    writeNopData count = .ok (true, List.replicate count.toNat 0) := by
  rw [writeNopData, if_pos heven, writeZeros_eq, BitVec.toNat_setWidth, Nat.mod_eq_of_lt hlt]

/-- The bytes of `NOP` instructions are those of `NOP`. -/
theorem IsNopSequence.mem_eq {bytes : List (BitVec 8)} (h : IsNopSequence bytes) :
    ∀ byte ∈ bytes, byte = 0xEA := by
  obtain ⟨nop, n, hnop, rfl⟩ := h
  have single : [0xEA] = nop := Option.some.inj hnop
  subst single
  intro byte hbyte
  obtain ⟨piece, hpiece, hmem⟩ := List.mem_flatten.mp hbyte
  rw [List.eq_of_mem_replicate hpiece] at hmem
  exact List.mem_singleton.mp hmem

/-- Zeros are a sequence of `NOP` instructions only if there are none. -/
theorem isNopSequence_replicate_zero (n : ℕ) :
    IsNopSequence (List.replicate n 0) ↔ n = 0 := by
  constructor
  · intro h
    by_contra hne
    have zero_mem : (0 : BitVec 8) ∈ List.replicate n (0 : BitVec 8) :=
      List.mem_replicate.mpr ⟨hne, rfl⟩
    exact absurd (h.mem_eq 0 zero_mem) (by decide)
  · rintro rfl
    exact ⟨[0xEA], 0, rfl, rfl⟩

/-- **Code is padded with `NOP` instructions** only where there is nothing to pad. -/
theorem padsWithNops_iff (count : BitVec 64) : PadsWithNops count ↔ count = 0 := by
  constructor
  · rintro ⟨bytes, hwrite, hlength, hnops⟩
    unfold writeNopData at hwrite
    split_ifs at hwrite with heven
    obtain rfl : writeZeros (count.setWidth 32) = bytes := by
      simpa using hwrite
    rw [writeZeros_eq, isNopSequence_replicate_zero] at hnops
    rw [writeZeros_eq, List.length_replicate, hnops] at hlength
    exact BitVec.eq_of_toNat_eq hlength.symm
  · rintro rfl
    refine ⟨[], ?_, rfl, (isNopSequence_replicate_zero 0).mpr rfl⟩
    exact writeNopData_of_even rfl (by decide)

/-- Two bytes of padding are zeros, and one byte is refused. -/
theorem not_padsWithNops_two : ¬ PadsWithNops 2 ∧ ¬ PadsWithNops 1 := by
  constructor
  · rintro ⟨bytes, hwrite, -, hnops⟩
    rw [writeNopData_of_even (by decide) (by decide)] at hwrite
    obtain rfl : List.replicate 2 0 = bytes := by
      simpa using hwrite
    exact absurd ((isNopSequence_replicate_zero 2).mp hnops) (by decide)
  · rintro ⟨bytes, hwrite, -, -⟩
    cases hwrite

end Snes
