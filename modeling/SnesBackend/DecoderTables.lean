/-
# Decoder Tables

The instructions of `DecoderTable16` and `DecoderTable32`, as
`FixedLenDecoderEmitter.cpp` generates them from the formats: the constant bits by
which a word is recognised, and the operands that are read out of its fields.

An operand is looked for in the field of its own name, or of the operand it is
tied to: `decodePositionallyEncodedOperands` is 0.
-/
import SnesBackend.BitPatterns
import SnesBackend.LayoutBits

namespace Snes

open BitPatterns

/-! ## Patterns of layouts -/

/-- The bits of a chunk from bit 0 up. -/
def InstBits.insnBits : InstBits → Pattern
  | const width value => (List.range width).map fun i => some (value.testBit i)
  | field _ hi lo => List.replicate (hi + 1 - lo) none

/-- The bits of a layout from bit 0 up. -/
def layoutInsnBits : List InstBits → Pattern
  | [] => []
  | chunk :: rest => layoutInsnBits rest ++ chunk.insnBits

/-- `insnWithID`: the well-known bits of an instruction. -/
def Opcode.insnWithID (op : Opcode) : Pattern :=
  layoutInsnBits op.format.inst

@[simp]
theorem length_insnBits (chunk : InstBits) : chunk.insnBits.length = chunk.width := by
  cases chunk <;> simp [InstBits.insnBits, InstBits.width]

@[simp]
theorem length_layoutInsnBits (layout : List InstBits) :
    (layoutInsnBits layout).length = layoutWidth layout := by
  induction layout with
  | nil => rfl
  | cons chunk rest ih =>
      rw [layoutInsnBits, List.length_append, ih, length_insnBits, Nat.add_comm]
      rfl

/-- A well-known bit of a chunk is a bit of its value. -/
theorem bit_of_insnBits (fields : OpName → BitVec 32) {chunk : InstBits} {i : ℕ} {b : Bool}
    (h : chunk.insnBits[i]? = some (some b)) : chunk.bit fields i = b := by
  cases chunk with
  | const width value =>
      simp only [InstBits.insnBits, List.getElem?_map, Option.map_eq_some_iff] at h
      obtain ⟨j, hj, hb⟩ := h
      obtain ⟨hlt, rfl⟩ := List.getElem?_eq_some_iff.mp hj
      rw [List.getElem_range] at hb
      exact Option.some.inj hb
  | field name hi lo => simp [InstBits.insnBits, List.getElem?_replicate] at h

/-- **A well-known bit of a layout** is a bit of its value, whatever the fields. -/
theorem layoutBit_of_layoutInsnBits (fields : OpName → BitVec 32) {layout : List InstBits} {i : ℕ}
    {b : Bool} (h : (layoutInsnBits layout)[i]? = some (some b)) :
    layoutBit fields i layout = b := by
  induction layout with
  | nil => simp [layoutInsnBits] at h
  | cons chunk rest ih =>
      rw [layoutInsnBits] at h
      rw [layoutBit]
      split_ifs with hi
      · rw [List.getElem?_append_left (by simpa using hi)] at h
        exact ih h
      · rw [List.getElem?_append_right (by simpa using hi), length_layoutInsnBits] at h
        exact bit_of_insnBits fields h

/-! ## The tables -/

/-- The instructions of `DecoderTable16`: those of two bytes that are no pseudos. -/
def decoderTable16 : List Opcode :=
  [.SEP, .REP, .ADCimm8, .SBCimm8, .ANDimm8, .ORAimm8, .EORimm8, .BITimm8, .CMPimm8, .CPXimm8,
    .CPYimm8, .LDAimm8, .LDXimm8, .LDYimm8, .ADDRdRr, .ADCRdRr, .SUBRdRr, .SUBIRdK, .SBCRdRr,
    .SBCIRdK, .MULRdRr, .MULSRdRr, .MULSURdRr, .FMUL, .FMULS, .FMULSU, .DESK, .ANDRdRr, .ORRdRr,
    .EORRdRr, .COMRd, .NEGRd, .TSTRd, .RJMPk, .IJMP, .EIJMP, .RCALLk, .ICALL, .EICALL, .RET,
    .RETI, .CPSE, .CPRdRr, .CPCRdRr, .CPIRdK, .SBRCRrB, .SBRSRrB, .SBICAb, .SBISAb, .BRBSsk,
    .BRBCsk, .BREQk, .BRNEk, .BRSHk, .BRLOk, .BRMIk, .BRPLk, .BRGEk, .BRLTk, .MOVRdRr, .MOVWRdRr,
    .LDIRdK, .LDRdPtr, .LDRdPtrPi, .LDRdPtrPd, .LDDRdPtrQ, .STPtrRr, .STPtrPiRr, .STPtrPdRr,
    .STDPtrQRr, .LPM, .LPMRdZ, .LPMRdZPi, .ELPM, .ELPMRdZ, .ELPMRdZPi, .SPM, .SPMZPi, .INRdA,
    .OUTARr, .POPRd, .XCHZRd, .LASZRd, .LACZRd, .LATZRd, .LSLRd, .LSRRd, .ASRRd, .ROLRd, .RORRd,
    .SWAPRd, .SBIAb, .CBIAb, .BST, .BLD, .SBRRdK, .CBRRdK, .BSETs, .BCLRs, .BREAK, .SLEEP, .WDR]

/-- The instructions of `DecoderTable32`. -/
def decoderTable32 : List Opcode :=
  [.JMPk, .CALLk, .LDSRdK, .STSKRr]

/-- **A table has the instructions of its size** that are no pseudos. -/
theorem mem_decoderTable_iff (op : Opcode) :
    (op ∈ decoderTable16 ↔ op.isPseudo = false ∧ op.getSize = 2) ∧
      (op ∈ decoderTable32 ↔ op.isPseudo = false ∧ op.getSize = 4) := by
  cases op <;> decide

/-- A generated table: how `decodeInstruction` finds the opcode of a word. -/
abbrev DecoderTable (opcodes : List Opcode) :=
  Decoder Opcode.insnWithID opcodes 32

/-! ## Operands -/

/-- `fieldFromInstruction`. -/
def fieldFromInstruction (insn : BitVec 32) (startBit numBits : ℕ) : BitVec 32 :=
  (insn.extractLsb' startBit numBits).setWidth 32

/-- The value that is put together from the chunks of a field. -/
def decodeField (name : OpName) (insn : BitVec 32) : List InstBits → BitVec 32
  | [] => 0
  | .const _ _ :: rest => decodeField name insn rest
  | .field field hi lo :: rest =>
      decodeField name insn rest |||
        if field = name then fieldFromInstruction insn (layoutWidth rest) (hi + 1 - lo) <<< lo
        else 0

/-- The name of the field that an operand is read from: `baseWb` is tied to `ptrreg`.  The other
tied operands are registers. -/
def OpName.decodedField : OpName → OpName
  | baseWb => ptrreg
  | name => name

/-- `addOperand`. -/
def MCInst.addOperand (inst : MCInst) (operand : MCOperand) : MCInst :=
  { inst with operands := inst.operands ++ [operand] }

/-- `DecodeMainRegsRegisterClass`, `DecodeMainLoRegsRegisterClass` and
`DecodeIndexRegsRegisterClass`: success, without adding an operand. -/
def decodeRegisterClass (inst : MCInst) (_regNo : BitVec 32) : MCInst :=
  inst

/-- Decode an operand, if it has a field.  The operands that are not registers have no decoder
method, and become immediates. -/
def decodeOperand (format : InstrFormat) (insn : BitVec 32) (inst : MCInst) :
    OpName × OperandType → MCInst
  | (name, type) =>
      if name.decodedField ∈ format.fields then
        let tmp := decodeField name.decodedField insn format.inst
        match type with
        | .reg _ => decodeRegisterClass inst tmp
        | _ => inst.addOperand (.imm (tmp.setWidth 64))
      else inst

/-- `decodeToMCInst`. -/
def decodeToMCInst (op : Opcode) (insn : BitVec 32) : MCInst :=
  (desc op).operands.foldl (decodeOperand op.format insn) ⟨op, []⟩

/-- `decodeInstruction`. -/
def decodeInstruction {opcodes : List Opcode} (table : DecoderTable opcodes) (insn : BitVec 32) :
    Option MCInst :=
  (table.decode insn).map fun op => decodeToMCInst op insn

/-! ## What is read out of a code -/

/-- The bits of a field that a layout has. -/
def layoutCovers (name : OpName) (j : ℕ) : List InstBits → Bool
  | [] => false
  | .const _ _ :: rest => layoutCovers name j rest
  | .field field hi lo :: rest =>
      layoutCovers name j rest || (decide (field = name) && decide (lo ≤ j) && decide (j ≤ hi))

/-- The bits of a field of a word. -/
theorem getLsbD_fieldFromInstruction (insn : BitVec 32) (startBit numBits i : ℕ) :
    (fieldFromInstruction insn startBit numBits).getLsbD i =
      (decide (i < 32) && decide (i < numBits) && insn.getLsbD (startBit + i)) := by
  rw [fieldFromInstruction, BitVec.getLsbD_setWidth, BitVec.getLsbD_extractLsb', Bool.and_assoc]

/-- **What is read out of a code** are the bits of the field that the layout has. -/
theorem getLsbD_decodeField (fields : OpName → BitVec 32) (name : OpName) {insn : BitVec 32}
    {layout : List InstBits}
    (h : ∀ i < layoutWidth layout, insn.getLsbD i = layoutBit fields i layout) (j : ℕ) :
    (decodeField name insn layout).getLsbD j =
      (layoutCovers name j layout && (fields name).getLsbD j) := by
  induction layout with
  | nil => simp [decodeField, layoutCovers]
  | cons chunk rest ih =>
      have hwidth : layoutWidth (chunk :: rest) = chunk.width + layoutWidth rest := rfl
      have hrest : ∀ i < layoutWidth rest, insn.getLsbD i = layoutBit fields i rest := by
        intro i hi
        rw [h i (by omega), layoutBit, if_pos hi]
      cases chunk with
      | const width value => exact ih hrest
      | field field hi lo =>
          rw [decodeField, BitVec.getLsbD_or, ih hrest, layoutCovers, Bool.and_or_distrib_right]
          congr 1
          by_cases hname : field = name
          · subst hname
            rw [if_pos rfl, BitVec.getLsbD_shiftLeft, getLsbD_fieldFromInstruction]
            rcases Nat.lt_or_ge j lo with hlo | hlo
            · simp [hlo, Nat.not_le.mpr hlo]
            rcases Nat.lt_or_ge hi j with hhi | hhi
            · simp [Nat.not_le.mpr hhi, show ¬ j - lo < hi + 1 - lo by omega]
            have hbit : insn.getLsbD (layoutWidth rest + (j - lo)) = (fields field).getLsbD j := by
              have hwide : j - lo < hi + 1 - lo := by omega
              rw [h _ (by rw [hwidth, InstBits.width]; omega), layoutBit,
                if_neg (by omega), Nat.add_sub_cancel_left, InstBits.bit, decide_eq_true hwide,
                Bool.true_and, Nat.add_sub_cancel' hlo]
            rw [hbit]
            rcases Nat.lt_or_ge j 32 with hlt | hge
            · simp [hlt, hlo, hhi, show j - lo < 32 by omega, show j - lo < hi + 1 - lo by omega]
            · rw [BitVec.getLsbD_of_ge _ _ hge]
              simp
          · simp [hname]

/-- A field that lies in the layout from bit 0 to bit `n` is read as its low bits. -/
theorem toNat_decodeField (fields : OpName → BitVec 32) {name : OpName} {insn : BitVec 32}
    {layout : List InstBits} {n : ℕ}
    (h : ∀ i < layoutWidth layout, insn.getLsbD i = layoutBit fields i layout)
    (hcovers : ∀ j, layoutCovers name j layout = decide (j < n)) :
    (decodeField name insn layout).toNat = (fields name).toNat % 2 ^ n := by
  apply Nat.eq_of_testBit_eq
  intro j
  rw [BitVec.testBit_toNat, getLsbD_decodeField fields name h, hcovers, Nat.testBit_mod_two_pow,
    BitVec.testBit_toNat]

/-- The operands that are decoded: those that are no registers and have a field. -/
def InstrFormat.decodes (format : InstrFormat) : OpName × OperandType → Bool
  | (_, .reg _) => false
  | (name, _) => decide (name.decodedField ∈ format.fields)

/-- The immediate that a decoded operand becomes. -/
def InstrFormat.decodedImm (format : InstrFormat) (insn : BitVec 32)
    (entry : OpName × OperandType) : MCOperand :=
  .imm ((decodeField entry.1.decodedField insn format.inst).setWidth 64)

/-- Decoding the operands one after the other adds the decoded ones. -/
theorem foldl_decodeOperand (format : InstrFormat) (insn : BitVec 32) (inst : MCInst)
    (types : List (OpName × OperandType)) :
    types.foldl (decodeOperand format insn) inst =
      ⟨inst.opcode,
        inst.operands ++ (types.filter format.decodes).map (format.decodedImm insn)⟩ := by
  induction types generalizing inst with
  | nil => simp
  | cons entry types ih =>
      obtain ⟨name, type⟩ := entry
      rw [List.foldl_cons, ih]
      by_cases hname : name.decodedField ∈ format.fields
      · cases type <;>
          simp [decodeOperand, InstrFormat.decodes, InstrFormat.decodedImm, decodeRegisterClass,
            MCInst.addOperand, hname]
      · cases type <;> simp [decodeOperand, InstrFormat.decodes, hname]

/-- **A decoded instruction** has an immediate for every operand that is decoded. -/
theorem decodeToMCInst_eq (op : Opcode) (insn : BitVec 32) :
    decodeToMCInst op insn =
      ⟨op, ((desc op).operands.filter op.format.decodes).map (op.format.decodedImm insn)⟩ := by
  rw [decodeToMCInst, foldl_decodeOperand]
  simp

end Snes
