/-
# The Bits of a Layout

Bit `i` of the binary code of an instruction, read off the layout of its format:
a constant bit or a bit of a field.
-/
import SnesBackend.CodeEmitter
import SnesBackend.BytePatching

namespace Snes

open BytePatching

/-! ## Chunks -/

/-- A constant chunk has no bits above its width. -/
def InstBits.Fits : InstBits → Prop
  | const width value => value < 2 ^ width
  | field _ _ _ => True

/-- Bit `i` of a chunk. -/
def InstBits.bit (fields : OpName → BitVec 32) (i : ℕ) : InstBits → Bool
  | const _ value => value.testBit i
  | field name hi lo => decide (i < hi + 1 - lo) && (fields name).getLsbD (lo + i)

/-- The bits of the value of a chunk. -/
theorem InstBits.testBit_value (fields : OpName → BitVec 32) (chunk : InstBits) (i : ℕ) :
    (chunk.value fields).testBit i = chunk.bit fields i := by
  cases chunk with
  | const width value => rfl
  | field name hi lo =>
      rw [value, bit, Nat.testBit_mod_two_pow, Nat.testBit_shiftRight, BitVec.testBit_toNat]

/-- The value of a chunk stays within its width. -/
theorem InstBits.value_lt (fields : OpName → BitVec 32) {chunk : InstBits} (h : chunk.Fits) :
    chunk.value fields < 2 ^ chunk.width := by
  cases chunk with
  | const width value => exact h
  | field name hi lo => exact Nat.mod_lt _ (Nat.two_pow_pos _)

/-- The constants of every format fit their chunks. -/
theorem InstrFormat.fits_inst (format : InstrFormat) : ∀ chunk ∈ format.inst, chunk.Fits := by
  cases format <;> simp [inst, InstBits.Fits] <;> omega

/-! ## Layouts -/

/-- The width of a layout. -/
def layoutWidth (layout : List InstBits) : ℕ :=
  (layout.map InstBits.width).sum

/-- Bit `i` of a layout, the first chunk on top. -/
def layoutBit (fields : OpName → BitVec 32) (i : ℕ) : List InstBits → Bool
  | [] => false
  | chunk :: rest =>
      if i < layoutWidth rest then layoutBit fields i rest
      else chunk.bit fields (i - layoutWidth rest)

/-- A layout that continues a value. -/
theorem foldl_layout (fields : OpName → BitVec 32) (layout : List InstBits) (acc : ℕ) :
    layout.foldl (fun acc chunk => acc * 2 ^ chunk.width + chunk.value fields) acc =
      acc * 2 ^ layoutWidth layout + layoutValue fields layout := by
  induction layout generalizing acc with
  | nil => simp [layoutWidth, layoutValue]
  | cons chunk rest ih =>
      rw [layoutValue, List.foldl_cons, List.foldl_cons, ih, ih]
      simp only [layoutWidth, List.map_cons, List.sum_cons, pow_add]
      ring

/-- The first chunk of a layout lies above the others. -/
theorem layoutValue_cons (fields : OpName → BitVec 32) (chunk : InstBits)
    (rest : List InstBits) :
    layoutValue fields (chunk :: rest) =
      2 ^ layoutWidth rest * chunk.value fields + layoutValue fields rest := by
  rw [layoutValue, List.foldl_cons, foldl_layout]
  ring

/-- The value of a layout stays within its width. -/
theorem layoutValue_lt (fields : OpName → BitVec 32) {layout : List InstBits}
    (h : ∀ chunk ∈ layout, chunk.Fits) : layoutValue fields layout < 2 ^ layoutWidth layout := by
  induction layout with
  | nil => simp [layoutValue, layoutWidth]
  | cons chunk rest ih =>
      have hrest := ih fun c hc => h c (List.mem_cons_of_mem _ hc)
      have hchunk := InstBits.value_lt fields (h chunk (by simp))
      have hwidth : layoutWidth (chunk :: rest) = chunk.width + layoutWidth rest := rfl
      rw [layoutValue_cons, hwidth, pow_add, Nat.mul_comm (2 ^ chunk.width)]
      calc 2 ^ layoutWidth rest * chunk.value fields + layoutValue fields rest
          < 2 ^ layoutWidth rest * chunk.value fields + 2 ^ layoutWidth rest := by omega
        _ = 2 ^ layoutWidth rest * (chunk.value fields + 1) := by ring
        _ ≤ 2 ^ layoutWidth rest * 2 ^ chunk.width := Nat.mul_le_mul_left _ hchunk

/-- **The bits of a layout** are the bits of its chunks. -/
theorem testBit_layoutValue (fields : OpName → BitVec 32) {layout : List InstBits}
    (h : ∀ chunk ∈ layout, chunk.Fits) (i : ℕ) :
    (layoutValue fields layout).testBit i = layoutBit fields i layout := by
  induction layout with
  | nil => simp [layoutValue, layoutBit]
  | cons chunk rest ih =>
      have hfits := fun c hc => h c (List.mem_cons_of_mem _ hc)
      rw [layoutValue_cons, Nat.testBit_two_pow_mul_add _ (layoutValue_lt fields hfits), layoutBit,
        ih hfits, InstBits.testBit_value]

/-- A layout has no bits above its width. -/
theorem layoutBit_of_ge (fields : OpName → BitVec 32) {layout : List InstBits}
    (h : ∀ chunk ∈ layout, chunk.Fits) {i : ℕ} (hi : layoutWidth layout ≤ i) :
    layoutBit fields i layout = false := by
  rw [← testBit_layoutValue fields h]
  exact Nat.testBit_lt_two_pow
    (lt_of_lt_of_le (layoutValue_lt fields h) (Nat.pow_le_pow_right (by decide) hi))

/-! ## The code of a format -/

/-- The binary code of a format with given field values. -/
def InstrFormat.code (format : InstrFormat) (fields : OpName → BitVec 32) : BitVec 64 :=
  BitVec.ofNat 64 (layoutValue fields format.inst)

/-- **The bits of the code** are the bits of the layout. -/
theorem InstrFormat.getLsbD_code (format : InstrFormat) (fields : OpName → BitVec 32) (i : ℕ) :
    (format.code fields).getLsbD i = (decide (i < 64) && layoutBit fields i format.inst) := by
  rw [code, BitVec.getLsbD_ofNat, testBit_layoutValue fields format.fits_inst]

/-- The code of a format has no bits above its size. -/
theorem InstrFormat.getLsbD_code_of_ge (format : InstrFormat) (fields : OpName → BitVec 32) {i : ℕ}
    (hi : 8 * format.size ≤ i) : (format.code fields).getLsbD i = false := by
  rw [getLsbD_code, layoutBit_of_ge fields format.fits_inst
    (by rw [layoutWidth, sum_width_inst]; exact hi), Bool.and_false]

/-- A word is its two bytes. -/
theorem wordBytes_eq_byteOf (val : BitVec 64) (i : ℕ) :
    wordBytes ((val >>> (16 * i)).setWidth 16) = [byteOf val (2 * i), byteOf val (2 * i + 1)] := by
  rw [wordBytes_eq]
  congr 1
  · apply BitVec.eq_of_getLsbD_eq
    intro j hj
    simp [show 16 * i = 2 * i * 8 by omega]
  · congr 1
    apply BitVec.eq_of_getLsbD_eq
    intro j hj
    simp [show 8 + j < 16 by omega, show 16 * i + (8 + j) = (2 * i + 1) * 8 + j by omega]

/-- A 16-bit instruction is emitted low byte first. -/
theorem emitInstruction_two (val : BitVec 64) :
    emitInstruction val 2 = [byteOf val 0, byteOf val 1] := by
  rw [emitInstruction, show 2 / 2 = 0 + 1 from rfl, emitWords, wordBytes_eq_byteOf]
  rfl

/-- A 32-bit instruction is emitted high word first. -/
theorem emitInstruction_four (val : BitVec 64) :
    emitInstruction val 4 = [byteOf val 2, byteOf val 3, byteOf val 0, byteOf val 1] := by
  rw [emitInstruction, show 4 / 2 = 1 + 1 from rfl, emitWords, wordBytes_eq_byteOf, emitWords,
    wordBytes_eq_byteOf]
  rfl

/-! ## Encoded instructions -/

section

variable (mi : MCInst) {assigned : List (OpName × ℕ × OperandType)}
  {fields : List (OpName × Encoded)} (hassigned : (desc mi.opcode).fieldOperands = some assigned)
  (hfields : encodeFields mi assigned = some fields)
  (hpost : mi.opcode.format.hasLoadStorePostEncoder = false)

include hassigned hfields hpost

/-- What `encodeInstruction` returns for given encoded fields. -/
theorem encodeInstruction_eq_code :
    encodeInstruction mi =
      some (emitInstruction (mi.opcode.format.code (fieldValue fields)) mi.opcode.getSize,
        fields.flatMap fun field => field.2.2) := by
  simp [encodeInstruction, getBinaryCodeForInstr, hassigned, hfields, hpost, InstrFormat.code]

/-- The bytes and fixups of a 16-bit instruction. -/
theorem encodeInstruction_eq_two (hsize : mi.opcode.getSize = 2) :
    encodeInstruction mi =
      some ([byteOf (mi.opcode.format.code (fieldValue fields)) 0,
          byteOf (mi.opcode.format.code (fieldValue fields)) 1],
        fields.flatMap fun field => field.2.2) := by
  rw [encodeInstruction_eq_code mi hassigned hfields hpost, hsize, emitInstruction_two]

/-- The bytes and fixups of a 32-bit instruction. -/
theorem encodeInstruction_eq_four (hsize : mi.opcode.getSize = 4) :
    encodeInstruction mi =
      some ([byteOf (mi.opcode.format.code (fieldValue fields)) 2,
          byteOf (mi.opcode.format.code (fieldValue fields)) 3,
          byteOf (mi.opcode.format.code (fieldValue fields)) 0,
          byteOf (mi.opcode.format.code (fieldValue fields)) 1],
        fields.flatMap fun field => field.2.2) := by
  rw [encodeInstruction_eq_code mi hassigned hfields hpost, hsize, emitInstruction_four]

end

end Snes
