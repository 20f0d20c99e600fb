/-
# Expansion of Pseudo Instructions

`SNESExpandPseudoInsts.cpp`: what the pass puts in the place of each pseudo
instruction.  An expansion fails (`none`) when an assertion of the source is
violated, an `llvm_unreachable` is reached, or an operand is missing.
-/
import SnesBackend.MachineInstr

namespace Snes

/-! ## Immediates -/

/-- An `unsigned` taken from an immediate operand. -/
def toUnsigned (imm : BitVec 64) : BitVec 32 :=
  imm.setWidth 32

/-- An immediate operand made from an `unsigned`. -/
def ofUnsigned (imm : BitVec 32) : MachineOperand :=
  .imm (imm.setWidth 64)

/-- `Imm & 0xff`. -/
def lo8 (imm : BitVec 32) : BitVec 32 :=
  imm &&& 0xff

/-- `(Imm >> 8) & 0xff`. -/
def hi8 (imm : BitVec 32) : BitVec 32 :=
  (imm >>> 8) &&& 0xff

/-- `P_ADDR`, the port of the status register. -/
def pAddr : BitVec 32 := 0x3f

/-- `SCRATCH_REGISTER`. -/
def scratchRegister : Reg := .A

namespace ExpandPseudo

open MachineInstr

/-! ## Families of expansions -/

/-- `expandArith`: one instruction for the low halves, then one for the high halves. -/
def expandArith (opLo opHi : Opcode) (mi : MachineInstr) : Option (List MachineInstr) := do
  let dstReg ← mi.getReg 0
  let srcReg ← mi.getReg 2
  let (srcLoReg, srcHiReg) ← srcReg.splitReg
  let (dstLoReg, dstHiReg) ← dstReg.splitReg
  return [⟨opLo, [.reg dstLoReg, .reg dstLoReg, .reg srcLoReg]⟩,
    ⟨opHi, [.reg dstHiReg, .reg dstHiReg, .reg srcHiReg]⟩]

/-- `expandLogic`: the same instruction on the low halves and on the high halves. -/
def expandLogic (op : Opcode) (mi : MachineInstr) : Option (List MachineInstr) := do
  let dstReg ← mi.getReg 0
  let srcReg ← mi.getReg 2
  let (srcLoReg, srcHiReg) ← srcReg.splitReg
  let (dstLoReg, dstHiReg) ← dstReg.splitReg
  return [⟨op, [.reg dstLoReg, .reg dstLoReg, .reg srcLoReg]⟩,
    ⟨op, [.reg dstHiReg, .reg dstHiReg, .reg srcHiReg]⟩]

/-- `isLogicImmOpRedundant`. -/
def isLogicImmOpRedundant (op : Opcode) (immVal : BitVec 32) : Bool :=
  (op == .ANDimm16 && immVal == 0xff) || (op == .ORAimm16 && immVal == 0x0)

/-- `expandLogicImm`: one instruction for each half whose immediate is not redundant. -/
def expandLogicImm (op : Opcode) (mi : MachineInstr) : Option (List MachineInstr) := do
  let dstReg ← mi.getReg 0
  let imm ← mi.getImm 2
  let (dstLoReg, dstHiReg) ← dstReg.splitReg
  let low := lo8 (toUnsigned imm)
  let high := hi8 (toUnsigned imm)
  return (if isLogicImmOpRedundant op low then []
      else [⟨op, [.reg dstLoReg, .reg dstLoReg, ofUnsigned low]⟩]) ++
    (if isLogicImmOpRedundant op high then []
      else [⟨op, [.reg dstHiReg, .reg dstHiReg, ofUnsigned high]⟩])

/-- A unary word operation, low half first. -/
def expandUnaryLoHi (opLo opHi : Opcode) (mi : MachineInstr) : Option (List MachineInstr) := do
  let dstReg ← mi.getReg 0
  let (dstLoReg, dstHiReg) ← dstReg.splitReg
  return [⟨opLo, [.reg dstLoReg, .reg dstLoReg]⟩, ⟨opHi, [.reg dstHiReg, .reg dstHiReg]⟩]

/-- A unary word operation, high half first. -/
def expandUnaryHiLo (opLo opHi : Opcode) (mi : MachineInstr) : Option (List MachineInstr) := do
  let dstReg ← mi.getReg 0
  let (dstLoReg, dstHiReg) ← dstReg.splitReg
  return [⟨opHi, [.reg dstHiReg, .reg dstHiReg]⟩, ⟨opLo, [.reg dstLoReg, .reg dstLoReg]⟩]

/-- A comparison of words, low halves first. -/
def expandCompare (opLo opHi : Opcode) (mi : MachineInstr) : Option (List MachineInstr) := do
  let dstReg ← mi.getReg 0
  let srcReg ← mi.getReg 1
  let (srcLoReg, srcHiReg) ← srcReg.splitReg
  let (dstLoReg, dstHiReg) ← dstReg.splitReg
  return [⟨opLo, [.reg dstLoReg, .reg srcLoReg]⟩, ⟨opHi, [.reg dstHiReg, .reg srcHiReg]⟩]

/-! ## Arithmetic and logic -/

/-- `expand<ADDWRdRr>`. -/
def expandADDWRdRr := expandArith .ADDRdRr .ADCRdRr

/-- `expand<ADCWRdRr>`. -/
def expandADCWRdRr := expandArith .ADCRdRr .ADCRdRr

/-- `expand<SUBWRdRr>`. -/
def expandSUBWRdRr := expandArith .SUBRdRr .SBCRdRr

/-- `expand<SBCWRdRr>`. -/
def expandSBCWRdRr := expandArith .SBCRdRr .SBCRdRr

/-- The byte operands of `expand<SUBIWRdK>`: an immediate is split, a global address negated. -/
def negatedByteOperands : MachineOperand → Option (MachineOperand × MachineOperand)
  | .globalAddress gv offs tf =>
      some (.globalAddress gv offs (tf ||| moNeg ||| moLo),
        .globalAddress gv offs (tf ||| moNeg ||| moHi))
  | .imm imm => some (ofUnsigned (lo8 (toUnsigned imm)), ofUnsigned (hi8 (toUnsigned imm)))
  | _ => none

/-- `expand<SUBIWRdK>`. -/
def expandSUBIWRdK (mi : MachineInstr) : Option (List MachineInstr) := do
  let dstReg ← mi.getReg 0
  let (dstLoReg, dstHiReg) ← dstReg.splitReg
  let (operandLo, operandHi) ← mi.operands[2]?.bind negatedByteOperands
  return [⟨.SUBIRdK, [.reg dstLoReg, .reg dstLoReg, operandLo]⟩,
    ⟨.SBCIRdK, [.reg dstHiReg, .reg dstHiReg, operandHi]⟩]

/-- `expand<SBCIWRdK>`. -/
def expandSBCIWRdK (mi : MachineInstr) : Option (List MachineInstr) := do
  let dstReg ← mi.getReg 0
  let imm ← mi.getImm 2
  let (dstLoReg, dstHiReg) ← dstReg.splitReg
  return [⟨.SBCIRdK, [.reg dstLoReg, .reg dstLoReg, ofUnsigned (lo8 (toUnsigned imm))]⟩,
    ⟨.SBCIRdK, [.reg dstHiReg, .reg dstHiReg, ofUnsigned (hi8 (toUnsigned imm))]⟩]

/-- `expand<ANDWRdRr>`. -/
def expandANDWRdRr := expandLogic .ANDRdRr

/-- `expand<ORWRdRr>`. -/
def expandORWRdRr := expandLogic .ORRdRr

/-- `expand<EORWRdRr>`. -/
def expandEORWRdRr := expandLogic .EORRdRr

/-- `expand<ANDIWRdK>`. -/
def expandANDIWRdK := expandLogicImm .ANDimm16

/-- `expand<ORIWRdK>`. -/
def expandORIWRdK := expandLogicImm .ORAimm16

/-- `expand<COMWRd>`. -/
def expandCOMWRd := expandUnaryLoHi .COMRd .COMRd

/-- `expand<CPWRdRr>`. -/
def expandCPWRdRr := expandCompare .CPRdRr .CPCRdRr

/-- `expand<CPCWRdRr>`. -/
def expandCPCWRdRr := expandCompare .CPCRdRr .CPCRdRr

/-- `expand<LSLWRd>`: low half first. -/
def expandLSLWRd := expandUnaryLoHi .LSLRd .ROLRd

/-- `expand<LSRWRd>`: high half first. -/
def expandLSRWRd := expandUnaryHiLo .RORRd .LSRRd

/-- `expand<ASRWRd>`: high half first. -/
def expandASRWRd := expandUnaryHiLo .RORRd .ASRRd

/-! ## Loads -/

/-- The byte operands of `expand<LDIWRdK>`. -/
def byteOperands : MachineOperand → Option (MachineOperand × MachineOperand)
  | .globalAddress gv offs tf =>
      some (.globalAddress gv offs (tf ||| moLo), .globalAddress gv offs (tf ||| moHi))
  | .blockAddress ba tf => some (.blockAddress ba (tf ||| moLo), .blockAddress ba (tf ||| moHi))
  | .imm imm => some (ofUnsigned (lo8 (toUnsigned imm)), ofUnsigned (hi8 (toUnsigned imm)))
  | _ => none

/-- `expand<LDIWRdK>`. -/
def expandLDIWRdK (mi : MachineInstr) : Option (List MachineInstr) := do
  let dstReg ← mi.getReg 0
  let (dstLoReg, dstHiReg) ← dstReg.splitReg
  let (operandLo, operandHi) ← mi.operands[1]?.bind byteOperands
  return [⟨.LDIRdK, [.reg dstLoReg, operandLo]⟩, ⟨.LDIRdK, [.reg dstHiReg, operandHi]⟩]

/-- The address operand of a word access and the one of its second byte. -/
def addressOperands : MachineOperand → Option (MachineOperand × MachineOperand)
  | .globalAddress gv offs tf => some (.globalAddress gv offs tf, .globalAddress gv (offs + 1) tf)
  | .imm imm => some (ofUnsigned (toUnsigned imm), ofUnsigned (toUnsigned imm + 1))
  | _ => none

/-- `expand<LDSWRdK>`. -/
def expandLDSWRdK (mi : MachineInstr) : Option (List MachineInstr) := do
  let dstReg ← mi.getReg 0
  let (dstLoReg, dstHiReg) ← dstReg.splitReg
  let (operandLo, operandHi) ← mi.operands[1]?.bind addressOperands
  return [⟨.LDSRdK, [.reg dstLoReg, operandLo]⟩, ⟨.LDSRdK, [.reg dstHiReg, operandHi]⟩]

/-- `expand<LDWRdPtr>`: through a scavenged register and the stack when pointer and destination
are the same register. -/
def expandLDWRdPtr (scavengeMainRegs : MachineInstr → Option Reg) (mi : MachineInstr) :
    Option (List MachineInstr) := do
  let dstReg ← mi.getReg 0
  let srcReg ← mi.getReg 1
  let (dstLoReg, dstHiReg) ← dstReg.splitReg
  if dstReg = srcReg then
    let tmpReg ← scavengeMainRegs mi
    return [⟨.LDRdPtr, [.reg tmpReg, .reg srcReg]⟩, ⟨.PHAstk, [.reg tmpReg]⟩,
      ⟨.LDDRdPtrQ, [.reg tmpReg, .reg srcReg, .imm 1]⟩,
      ⟨.MOVRdRr, [.reg dstHiReg, .reg tmpReg]⟩, ⟨.POPRd, [.reg dstLoReg]⟩]
  else
    return [⟨.LDRdPtr, [.reg dstLoReg, .reg srcReg]⟩,
      ⟨.LDDRdPtrQ, [.reg dstHiReg, .reg srcReg, .imm 1]⟩]

/-- `expand<LDWRdPtrPi>`. -/
def expandLDWRdPtrPi (mi : MachineInstr) : Option (List MachineInstr) := do
  let dstReg ← mi.getReg 0
  let srcReg ← mi.getReg 1
  let (dstLoReg, dstHiReg) ← dstReg.splitReg
  guard (dstReg ≠ srcReg)
  return [⟨.LDRdPtrPi, [.reg dstLoReg, .reg srcReg, .reg srcReg]⟩,
    ⟨.LDRdPtrPi, [.reg dstHiReg, .reg srcReg, .reg srcReg]⟩]

/-- `expand<LDWRdPtrPd>`. -/
def expandLDWRdPtrPd (mi : MachineInstr) : Option (List MachineInstr) := do
  let dstReg ← mi.getReg 0
  let srcReg ← mi.getReg 1
  let (dstLoReg, dstHiReg) ← dstReg.splitReg
  guard (dstReg ≠ srcReg)
  return [⟨.LDRdPtrPd, [.reg dstHiReg, .reg srcReg, .reg srcReg]⟩,
    ⟨.LDRdPtrPd, [.reg dstLoReg, .reg srcReg, .reg srcReg]⟩]

/-- `expand<LDDWRdPtrQ>`. -/
def expandLDDWRdPtrQ (scavengeMainRegs : MachineInstr → Option Reg) (mi : MachineInstr) :
    Option (List MachineInstr) := do
  let dstReg ← mi.getReg 0
  let srcReg ← mi.getReg 1
  let imm := toUnsigned (← mi.getImm 2)
  let (dstLoReg, dstHiReg) ← dstReg.splitReg
  guard (imm ≤ 63)
  if dstReg = srcReg then
    let tmpReg ← scavengeMainRegs mi
    return [⟨.LDDRdPtrQ, [.reg tmpReg, .reg srcReg, ofUnsigned imm]⟩, ⟨.PHAstk, [.reg tmpReg]⟩,
      ⟨.LDDRdPtrQ, [.reg tmpReg, .reg srcReg, ofUnsigned (imm + 1)]⟩,
      ⟨.MOVRdRr, [.reg dstHiReg, .reg tmpReg]⟩, ⟨.POPRd, [.reg dstLoReg]⟩]
  else
    return [⟨.LDDRdPtrQ, [.reg dstLoReg, .reg srcReg, ofUnsigned imm]⟩,
      ⟨.LDDRdPtrQ, [.reg dstHiReg, .reg srcReg, ofUnsigned (imm + 1)]⟩]

/-! ## Atomic operations -/

/-- `expandAtomic`: save `P`, disable interrupts, the body, restore `P`. -/
def expandAtomic (body : List MachineInstr) : List MachineInstr :=
  [⟨.INRdA, [.reg scratchRegister, ofUnsigned pAddr]⟩, ⟨.BCLRs, [.imm 7]⟩] ++ body ++
    [⟨.OUTARr, [ofUnsigned pAddr, .reg scratchRegister]⟩]

/-- `expandAtomicBinaryOp`: one instruction on the two operands. -/
def expandAtomicBinaryOp (op : Opcode) (mi : MachineInstr) : Option (List MachineInstr) := do
  let op1 ← mi.operands[0]?
  let op2 ← mi.operands[1]?
  return expandAtomic [⟨op, [op1, op2]⟩]

/-- `expandAtomicArithmeticOp`: load, operate, store. -/
def expandAtomicArithmeticOp (width : ℕ) (arithOp : Opcode) (mi : MachineInstr) :
    Option (List MachineInstr) := do
  let op1 ← mi.operands[0]?
  let op2 ← mi.operands[1]?
  let loadOp : Opcode := if width = 8 then .LDRdPtr else .LDWRdPtr
  let storeOp : Opcode := if width = 8 then .STPtrRr else .STWPtrRr
  return expandAtomic [⟨loadOp, [op1, op2]⟩, ⟨arithOp, [op1, op1, op2]⟩, ⟨storeOp, [op2, op1]⟩]

/-! ## Stores, ports and the stack -/

/-- `expand<STSWKRr>`: high byte first. -/
def expandSTSWKRr (mi : MachineInstr) : Option (List MachineInstr) := do
  let srcReg ← mi.getReg 1
  let (srcLoReg, srcHiReg) ← srcReg.splitReg
  let (operandLo, operandHi) ← mi.operands[0]?.bind addressOperands
  return [⟨.STSKRr, [operandHi, .reg srcHiReg]⟩, ⟨.STSKRr, [operandLo, .reg srcLoReg]⟩]

/-- `expand<STWPtrRr>`. -/
def expandSTWPtrRr (mi : MachineInstr) : Option (List MachineInstr) := do
  let dstReg ← mi.getReg 0
  let srcReg ← mi.getReg 1
  let (srcLoReg, srcHiReg) ← srcReg.splitReg
  return [⟨.STPtrRr, [.reg dstReg, .reg srcLoReg]⟩,
    ⟨.STDPtrQRr, [.reg dstReg, .imm 1, .reg srcHiReg]⟩]

/-- `expand<STWPtrPiRr>`: low byte first. -/
def expandSTWPtrPiRr (mi : MachineInstr) : Option (List MachineInstr) := do
  let dstReg ← mi.getReg 0
  let srcReg ← mi.getReg 2
  let imm := ofUnsigned (toUnsigned (← mi.getImm 3))
  let (srcLoReg, srcHiReg) ← srcReg.splitReg
  guard (dstReg ≠ srcReg)
  return [⟨.STPtrPiRr, [.reg dstReg, .reg dstReg, .reg srcLoReg, imm]⟩,
    ⟨.STPtrPiRr, [.reg dstReg, .reg dstReg, .reg srcHiReg, imm]⟩]

/-- `expand<STWPtrPdRr>`: high byte first. -/
def expandSTWPtrPdRr (mi : MachineInstr) : Option (List MachineInstr) := do
  let dstReg ← mi.getReg 0
  let srcReg ← mi.getReg 2
  let imm := ofUnsigned (toUnsigned (← mi.getImm 3))
  let (srcLoReg, srcHiReg) ← srcReg.splitReg
  guard (dstReg ≠ srcReg)
  return [⟨.STPtrPdRr, [.reg dstReg, .reg dstReg, .reg srcHiReg, imm]⟩,
    ⟨.STPtrPdRr, [.reg dstReg, .reg dstReg, .reg srcLoReg, imm]⟩]

/-- `expand<STDWPtrQRr>`. -/
def expandSTDWPtrQRr (mi : MachineInstr) : Option (List MachineInstr) := do
  let dstReg ← mi.getReg 0
  let imm := toUnsigned (← mi.getImm 1)
  let srcReg ← mi.getReg 2
  let (srcLoReg, srcHiReg) ← srcReg.splitReg
  guard (imm ≤ 63)
  return [⟨.STDPtrQRr, [.reg dstReg, ofUnsigned imm, .reg srcLoReg]⟩,
    ⟨.STDPtrQRr, [.reg dstReg, ofUnsigned (imm + 1), .reg srcHiReg]⟩]

/-- `expand<INWRdA>`. -/
def expandINWRdA (mi : MachineInstr) : Option (List MachineInstr) := do
  let dstReg ← mi.getReg 0
  let imm := toUnsigned (← mi.getImm 1)
  let (dstLoReg, dstHiReg) ← dstReg.splitReg
  guard (imm ≤ 63)
  return [⟨.INRdA, [.reg dstLoReg, ofUnsigned imm]⟩,
    ⟨.INRdA, [.reg dstHiReg, ofUnsigned (imm + 1)]⟩]

/-- `expand<OUTWARr>`: high byte first. -/
def expandOUTWARr (mi : MachineInstr) : Option (List MachineInstr) := do
  let imm := toUnsigned (← mi.getImm 0)
  let srcReg ← mi.getReg 1
  let (srcLoReg, srcHiReg) ← srcReg.splitReg
  guard (imm ≤ 63)
  return [⟨.OUTARr, [ofUnsigned (imm + 1), .reg srcHiReg]⟩,
    ⟨.OUTARr, [ofUnsigned imm, .reg srcLoReg]⟩]

/-- `expand<PUSHWRr>`: a single `PHAstk` of the whole register. -/
def expandPUSHWRr (mi : MachineInstr) : Option (List MachineInstr) := do
  let srcReg ← mi.getReg 0
  return [⟨.PHAstk, [.reg srcReg]⟩]

/-- `expand<POPWRd>`: the high half is popped first. -/
def expandPOPWRd (mi : MachineInstr) : Option (List MachineInstr) := do
  let dstReg ← mi.getReg 0
  let (dstLoReg, dstHiReg) ← dstReg.splitReg
  return [⟨.POPRd, [.reg dstHiReg]⟩, ⟨.POPRd, [.reg dstLoReg]⟩]

/-- `expand<SPWRITE>`: `SP` is written through its ports between saving and restoring `P`. -/
def expandSPWRITE (mi : MachineInstr) : Option (List MachineInstr) := do
  let srcReg ← mi.getReg 1
  let (srcLoReg, srcHiReg) ← srcReg.splitReg
  return [⟨.INRdA, [.reg .A, ofUnsigned pAddr]⟩, ⟨.BCLRs, [.imm 0x07]⟩,
    ⟨.OUTARr, [.imm 0x3e, .reg srcHiReg]⟩, ⟨.OUTARr, [ofUnsigned pAddr, .reg .A]⟩,
    ⟨.OUTARr, [.imm 0x3d, .reg srcLoReg]⟩]

end ExpandPseudo

/-! ## The pass on one instruction -/

/-- What the pass does with an instruction. -/
inductive ExpandResult where
  | unchanged
  | expanded (mis : List MachineInstr)
  | failure
deriving DecidableEq, Repr

/-- The result of an expansion function. -/
def ExpandResult.ofOption : Option (List MachineInstr) → ExpandResult
  | some mis => .expanded mis
  | none => .failure

open ExpandPseudo in
/-- `expandMI`.  The switch names `SPREAD`, whose expansion is commented out in the source. -/
def expandMI (scavengeMainRegs : MachineInstr → Option Reg) (mi : MachineInstr) : ExpandResult :=
  let done := ExpandResult.ofOption
  match mi.opcode with
  | .ADDWRdRr => done (expandADDWRdRr mi)
  | .ADCWRdRr => done (expandADCWRdRr mi)
  | .SUBWRdRr => done (expandSUBWRdRr mi)
  | .SUBIWRdK => done (expandSUBIWRdK mi)
  | .SBCWRdRr => done (expandSBCWRdRr mi)
  | .SBCIWRdK => done (expandSBCIWRdK mi)
  | .ANDWRdRr => done (expandANDWRdRr mi)
  | .ANDIWRdK => done (expandANDIWRdK mi)
  | .ORWRdRr => done (expandORWRdRr mi)
  | .ORIWRdK => done (expandORIWRdK mi)
  | .EORWRdRr => done (expandEORWRdRr mi)
  | .COMWRd => done (expandCOMWRd mi)
  | .CPWRdRr => done (expandCPWRdRr mi)
  | .CPCWRdRr => done (expandCPCWRdRr mi)
  | .LDIWRdK => done (expandLDIWRdK mi)
  | .LDSWRdK => done (expandLDSWRdK mi)
  | .LDWRdPtr => done (expandLDWRdPtr scavengeMainRegs mi)
  | .LDWRdPtrPi => done (expandLDWRdPtrPi mi)
  | .LDWRdPtrPd => done (expandLDWRdPtrPd mi)
  | .LDDWRdYQ | .LDDWRdPtrQ => done (expandLDDWRdPtrQ scavengeMainRegs mi)
  | .LPMWRdZ | .LPMWRdZPi => .failure
  | .AtomicLoad8 => done (expandAtomicBinaryOp .LDRdPtr mi)
  | .AtomicLoad16 => done (expandAtomicBinaryOp .LDWRdPtr mi)
  | .AtomicStore8 => done (expandAtomicBinaryOp .STPtrRr mi)
  | .AtomicStore16 => done (expandAtomicBinaryOp .STWPtrRr mi)
  | .AtomicLoadAdd8 => done (expandAtomicArithmeticOp 8 .ADDRdRr mi)
  | .AtomicLoadAdd16 => done (expandAtomicArithmeticOp 16 .ADDWRdRr mi)
  | .AtomicLoadSub8 => done (expandAtomicArithmeticOp 8 .SUBRdRr mi)
  | .AtomicLoadSub16 => done (expandAtomicArithmeticOp 16 .SUBWRdRr mi)
  | .AtomicLoadAnd8 => done (expandAtomicArithmeticOp 8 .ANDRdRr mi)
  | .AtomicLoadAnd16 => done (expandAtomicArithmeticOp 16 .ANDWRdRr mi)
  | .AtomicLoadOr8 => done (expandAtomicArithmeticOp 8 .ORRdRr mi)
  | .AtomicLoadOr16 => done (expandAtomicArithmeticOp 16 .ORWRdRr mi)
  | .AtomicLoadXor8 => done (expandAtomicArithmeticOp 8 .EORRdRr mi)
  | .AtomicLoadXor16 => done (expandAtomicArithmeticOp 16 .EORWRdRr mi)
  | .AtomicFence => .expanded []
  | .STSWKRr => done (expandSTSWKRr mi)
  | .STWPtrRr => done (expandSTWPtrRr mi)
  | .STWPtrPiRr => done (expandSTWPtrPiRr mi)
  | .STWPtrPdRr => done (expandSTWPtrPdRr mi)
  | .STDWPtrQRr => done (expandSTDWPtrQRr mi)
  | .INWRdA => done (expandINWRdA mi)
  | .OUTWARr => done (expandOUTWARr mi)
  | .PUSHWRr => done (expandPUSHWRr mi)
  | .POPWRd => done (expandPOPWRd mi)
  | .LSLWRd => done (expandLSLWRd mi)
  | .LSRWRd => done (expandLSRWRd mi)
  | .RORWRd | .ROLWRd => .failure
  | .ASRWRd => done (expandASRWRd mi)
  | .SPREAD => .failure
  | .SPWRITE => done (expandSPWRITE mi)
  | _ => .unchanged

end Snes
