/-
# Instructions

The opcodes of `SNESInstrInfo.td` in the order of that file, each with its
format and its output and input operands.
-/
import SnesBackend.Registers
import SnesBackend.InstrFormats

namespace Snes

/-! ## Opcodes -/

/-- The instructions and pseudo instructions of `SNESInstrInfo.td`. -/
inductive Opcode where
  | NOP | STP | WAI | CLC | SEC | CLD | SED | CLI | SEI | CLV | XCE | XBA | TAX | TXA | TAY | TYA
  | TCD | TDC | TCS | TSC | TXS | TSX | TYX | TXY | DEA | INA | DEX | INX | DEY | INY | PHAstk
  | SEP | REP | ADCimm8 | SBCimm8 | ANDimm8 | ORAimm8 | EORimm8 | BITimm8 | CMPimm8 | CPXimm8
  | CPYimm8 | LDAimm8 | LDXimm8 | LDYimm8 | ADCimm16 | SBCimm16 | ANDimm16 | ORAimm16 | EORimm16
  | BITimm16 | CMPimm16 | CPXimm16 | CPYimm16 | LDAimm16 | LDXimm16 | LDYimm16 | ADJCALLSTACKDOWN
  | ADJCALLSTACKUP | ADDRdRr | ADDWRdRr | ADCRdRr | ADCWRdRr | SUBRdRr | SUBWRdRr | SUBIRdK
  | SUBIWRdK | SBCRdRr | SBCWRdRr | SBCIRdK | SBCIWRdK | MULRdRr | MULSRdRr | MULSURdRr | FMUL
  | FMULS | FMULSU | DESK | ANDRdRr | ANDWRdRr | ORRdRr | ORWRdRr | EORRdRr | EORWRdRr | ANDIWRdK
  | ORIWRdK | COMRd | COMWRd | NEGRd | TSTRd | RJMPk | IJMP | EIJMP | JMPk | RCALLk | ICALL
  | EICALL | CALLk | RET | RETI | CPSE | CPRdRr | CPWRdRr | CPCRdRr | CPCWRdRr | CPIRdK | SBRCRrB
  | SBRSRrB | SBICAb | SBISAb | BRBSsk | BRBCsk | BREQk | BRNEk | BRSHk | BRLOk | BRMIk | BRPLk
  | BRGEk | BRLTk | MOVRdRr | MOVWRdRr | LDIRdK | LDIWRdK | LDSRdK | LDSWRdK | LDRdPtr | LDWRdPtr
  | LDRdPtrPi | LDWRdPtrPi | LDRdPtrPd | LDWRdPtrPd | LDDRdPtrQ | LDDWRdPtrQ | LDDWRdYQ
  | AtomicLoad8 | AtomicLoad16 | AtomicStore8 | AtomicStore16 | AtomicLoadAdd8 | AtomicLoadAdd16
  | AtomicLoadSub8 | AtomicLoadSub16 | AtomicLoadAnd8 | AtomicLoadAnd16 | AtomicLoadOr8
  | AtomicLoadOr16 | AtomicLoadXor8 | AtomicLoadXor16 | AtomicFence | STSKRr | STSWKRr | STPtrRr
  | STWPtrRr | STPtrPiRr | STWPtrPiRr | STPtrPdRr | STWPtrPdRr | STDPtrQRr | STDWPtrQRr | LPM
  | LPMRdZ | LPMRdZPi | LPMWRdZ | LPMWRdZPi | ELPM | ELPMRdZ | ELPMRdZPi | SPM | SPMZPi | INRdA
  | INWRdA | OUTARr | OUTWARr | PUSHWRr | POPRd | POPWRd | XCHZRd | LASZRd | LACZRd | LATZRd
  | LSLRd | LSLWRd | LSRRd | LSRWRd | ASRRd | ASRWRd | ROLRd | ROLWRd | RORRd | RORWRd | SWAPRd
  | SBIAb | CBIAb | BST | BLD | SBRRdK | CBRRdK | BSETs | BCLRs | BREAK | SLEEP | WDR | SEXT
  | ZEXT | FRMIDX | STDSPQRr | STDWSPQRr | SPREAD | SPWRITE | Select8 | Select16 | Lsl8 | Lsl16
  | Lsr8 | Lsr16 | Rol8 | Rol16 | Ror8 | Ror16 | Asr8 | Asr16
deriving DecidableEq, Repr

/-! ## Operands -/

/-- The operand types that instructions are declared with. -/
inductive OperandType where
  | reg (rc : RegClass)
  | i8imm | i16imm
  | memri | memspi
  | immCom8
  | relbrtarget7 | brtarget13 | callTarget
  | imm16 | immLdi16 | immPort5 | immPort6
  | ldstPtrReg
deriving DecidableEq, Repr

/-- `MINumOperands`: a `memri` or `memspi` is a base register and an offset. -/
def OperandType.miNumOperands : OperandType → ℕ
  | memri => 2
  | memspi => 2
  | _ => 1

/-- An instruction description: format, outputs and inputs. -/
structure InstrDesc where
  format : InstrFormat
  outs : List (OpName × OperandType)
  ins : List (OpName × OperandType)

/-- The operands of a machine instruction: the outputs, then the inputs. -/
def InstrDesc.operands (d : InstrDesc) : List (OpName × OperandType) :=
  d.outs ++ d.ins

/-- The description of every opcode. -/
def desc : Opcode → InstrDesc
  -- implied instructions
  | .NOP => ⟨.snesImplied 0xEA, [], []⟩
  | .STP => ⟨.snesImplied 0xDB, [], []⟩
  | .WAI => ⟨.snesImplied 0xCB, [], []⟩
  | .CLC => ⟨.snesImplied 0x18, [], []⟩
  | .SEC => ⟨.snesImplied 0x28, [], []⟩
  | .CLD => ⟨.snesImplied 0xD8, [], []⟩
  | .SED => ⟨.snesImplied 0xF8, [], []⟩
  | .CLI => ⟨.snesImplied 0x58, [], []⟩
  | .SEI => ⟨.snesImplied 0x78, [], []⟩
  | .CLV => ⟨.snesImplied 0xB8, [], []⟩
  | .XCE => ⟨.snesImplied 0xFB, [], []⟩
  | .XBA => ⟨.snesImplied 0xEB, [], []⟩
  | .TAX => ⟨.snesImplied 0xAA, [], []⟩
  | .TXA => ⟨.snesImplied 0x8A, [], []⟩
  | .TAY => ⟨.snesImplied 0xA8, [], []⟩
  | .TYA => ⟨.snesImplied 0x98, [], []⟩
  | .TCD => ⟨.snesImplied 0x5B, [], []⟩
  | .TDC => ⟨.snesImplied 0x7B, [], []⟩
  | .TCS => ⟨.snesImplied 0x1B, [], []⟩
  | .TSC => ⟨.snesImplied 0x3B, [], []⟩
  | .TXS => ⟨.snesImplied 0x9A, [], []⟩
  | .TSX => ⟨.snesImplied 0xBA, [], []⟩
  | .TYX => ⟨.snesImplied 0xBB, [], []⟩
  | .TXY => ⟨.snesImplied 0x9B, [], []⟩
  -- implied increment and decrement
  | .DEA => ⟨.snesImplied 0x3A, [(.rd, .reg .accRegs)], [(.src, .reg .accRegs)]⟩
  | .INA => ⟨.snesImplied 0x1A, [(.rd, .reg .accRegs)], [(.src, .reg .accRegs)]⟩
  | .DEX => ⟨.snesImplied 0xCA, [], []⟩
  | .INX => ⟨.snesImplied 0xE8, [], []⟩
  | .DEY => ⟨.snesImplied 0xC8, [], []⟩
  | .INY => ⟨.snesImplied 0xE8, [], []⟩
  -- implied push
  | .PHAstk => ⟨.snesImplied 0x48, [], [(.src, .reg .accRegs)]⟩
  -- immediate 8 bit
  | .SEP => ⟨.snesImm8 0xE2, [], [(.k, .i8imm)]⟩
  | .REP => ⟨.snesImm8 0xC2, [], [(.k, .i8imm)]⟩
  | .ADCimm8 => ⟨.snesImm8 0x69, [(.rd, .reg .acc8Regs)], [(.src, .reg .acc8Regs), (.k, .i8imm)]⟩
  | .SBCimm8 => ⟨.snesImm8 0xE9, [(.rd, .reg .acc8Regs)], [(.src, .reg .acc8Regs), (.k, .i8imm)]⟩
  | .ANDimm8 => ⟨.snesImm8 0x29, [(.rd, .reg .acc8Regs)], [(.src, .reg .acc8Regs), (.k, .i8imm)]⟩
  | .ORAimm8 => ⟨.snesImm8 0x09, [(.rd, .reg .acc8Regs)], [(.src, .reg .acc8Regs), (.k, .i8imm)]⟩
  | .EORimm8 => ⟨.snesImm8 0x49, [(.rd, .reg .acc8Regs)], [(.src, .reg .acc8Regs), (.k, .i8imm)]⟩
  | .BITimm8 => ⟨.snesImm8 0x89, [], [(.rd, .reg .acc8Regs), (.k, .i8imm)]⟩
  | .CMPimm8 => ⟨.snesImm8 0xC9, [], [(.rd, .reg .acc8Regs), (.k, .i8imm)]⟩
  | .CPXimm8 => ⟨.snesImm8 0xE0, [], [(.rd, .reg .indexX8Regs), (.k, .i8imm)]⟩
  | .CPYimm8 => ⟨.snesImm8 0xC0, [], [(.rd, .reg .indexY8Regs), (.k, .i8imm)]⟩
  | .LDAimm8 => ⟨.snesImm8 0xA9, [(.rd, .reg .acc8Regs)], [(.k, .i8imm)]⟩
  | .LDXimm8 => ⟨.snesImm8 0xA2, [(.rd, .reg .indexX8Regs)], [(.k, .i8imm)]⟩
  | .LDYimm8 => ⟨.snesImm8 0xA0, [(.rd, .reg .indexY8Regs)], [(.k, .i8imm)]⟩
  -- immediate 16 bit
  | .ADCimm16 => ⟨.snesImm16 0x69, [(.rd, .reg .accRegs)], [(.src, .reg .accRegs), (.k, .i16imm)]⟩
  | .SBCimm16 => ⟨.snesImm16 0xE9, [(.rd, .reg .accRegs)], [(.src, .reg .accRegs), (.k, .i16imm)]⟩
  | .ANDimm16 => ⟨.snesImm16 0x29, [(.rd, .reg .accRegs)], [(.src, .reg .accRegs), (.k, .i16imm)]⟩
  | .ORAimm16 => ⟨.snesImm16 0x09, [(.rd, .reg .accRegs)], [(.src, .reg .accRegs), (.k, .i16imm)]⟩
  | .EORimm16 => ⟨.snesImm16 0x49, [(.rd, .reg .accRegs)], [(.src, .reg .accRegs), (.k, .i16imm)]⟩
  | .BITimm16 => ⟨.snesImm16 0x89, [], [(.rd, .reg .accRegs), (.k, .i16imm)]⟩
  | .CMPimm16 => ⟨.snesImm16 0xC9, [], [(.rd, .reg .accRegs), (.k, .i16imm)]⟩
  | .CPXimm16 => ⟨.snesImm16 0xE0, [], [(.rd, .reg .indexXRegs), (.k, .i8imm)]⟩
  | .CPYimm16 => ⟨.snesImm16 0xC0, [], [(.rd, .reg .indexYRegs), (.k, .i8imm)]⟩
  | .LDAimm16 => ⟨.snesImm16 0xA9, [(.rd, .reg .accRegs)], [(.k, .i16imm)]⟩
  | .LDXimm16 => ⟨.snesImm16 0xA2, [(.rd, .reg .indexXRegs)], [(.k, .i16imm)]⟩
  | .LDYimm16 => ⟨.snesImm16 0xA0, [(.rd, .reg .indexYRegs)], [(.k, .i16imm)]⟩
  -- call frame pseudos
  | .ADJCALLSTACKDOWN => ⟨.pseudo, [], [(.amt, .i16imm), (.amt2, .i16imm)]⟩
  | .ADJCALLSTACKUP => ⟨.pseudo, [], [(.amt1, .i16imm), (.amt2, .i16imm)]⟩
  -- addition and subtraction
  | .ADDRdRr =>
      ⟨.fRdRr 0b0000 0b11, [(.rd, .reg .mainRegs)],
        [(.src, .reg .mainRegs), (.rr, .reg .mainRegs)]⟩
  | .ADDWRdRr => ⟨.pseudo, [(.rd, .reg .mainRegs)], [(.src, .reg .mainRegs), (.rr, .reg .mainRegs)]⟩
  | .ADCRdRr =>
      ⟨.fRdRr 0b0001 0b11, [(.rd, .reg .mainRegs)],
        [(.src, .reg .mainRegs), (.rr, .reg .mainRegs)]⟩
  | .ADCWRdRr => ⟨.pseudo, [(.rd, .reg .mainRegs)], [(.src, .reg .mainRegs), (.rr, .reg .mainRegs)]⟩
  | .SUBRdRr =>
      ⟨.fRdRr 0b0001 0b10, [(.rd, .reg .mainRegs)],
        [(.src, .reg .mainRegs), (.rr, .reg .mainRegs)]⟩
  | .SUBWRdRr => ⟨.pseudo, [(.rd, .reg .mainRegs)], [(.src, .reg .mainRegs), (.rr, .reg .mainRegs)]⟩
  | .SUBIRdK => ⟨.fRdK 0b0101, [(.rd, .reg .mainRegs)], [(.src, .reg .mainRegs), (.k, .immLdi16)]⟩
  | .SUBIWRdK => ⟨.pseudo, [(.rd, .reg .mainRegs)], [(.src, .reg .mainRegs), (.rr, .i16imm)]⟩
  | .SBCRdRr =>
      ⟨.fRdRr 0b0000 0b10, [(.rd, .reg .mainRegs)],
        [(.src, .reg .mainRegs), (.rr, .reg .mainRegs)]⟩
  | .SBCWRdRr => ⟨.pseudo, [(.rd, .reg .mainRegs)], [(.src, .reg .mainRegs), (.rr, .reg .mainRegs)]⟩
  | .SBCIRdK => ⟨.fRdK 0b0100, [(.rd, .reg .mainRegs)], [(.src, .reg .mainRegs), (.k, .immLdi16)]⟩
  | .SBCIWRdK => ⟨.pseudo, [(.rd, .reg .mainRegs)], [(.src, .reg .mainRegs), (.rr, .i16imm)]⟩
  -- multiplication
  | .MULRdRr => ⟨.fRdRr 0b1001 0b11, [], [(.lhs, .reg .mainRegs), (.rhs, .reg .mainRegs)]⟩
  | .MULSRdRr => ⟨.fMUL2RdRr 0, [], [(.lhs, .reg .mainRegs), (.rhs, .reg .mainRegs)]⟩
  | .MULSURdRr => ⟨.fMUL2RdRr 1, [], [(.lhs, .reg .mainRegs), (.rhs, .reg .mainRegs)]⟩
  | .FMUL => ⟨.fFMULRdRr 0b01, [], [(.lhs, .reg .mainRegs), (.rhs, .reg .mainRegs)]⟩
  | .FMULS => ⟨.fFMULRdRr 0b10, [], [(.lhs, .reg .mainRegs), (.rhs, .reg .mainRegs)]⟩
  | .FMULSU => ⟨.fFMULRdRr 0b11, [], [(.lhs, .reg .mainRegs), (.rhs, .reg .mainRegs)]⟩
  | .DESK => ⟨.fDES, [], [(.k, .i16imm)]⟩
  -- logic
  | .ANDRdRr =>
      ⟨.fRdRr 0b0010 0b00, [(.rd, .reg .mainRegs)],
        [(.src, .reg .mainRegs), (.rr, .reg .mainRegs)]⟩
  | .ANDWRdRr => ⟨.pseudo, [(.rd, .reg .mainRegs)], [(.src, .reg .mainRegs), (.rr, .reg .mainRegs)]⟩
  | .ORRdRr =>
      ⟨.fRdRr 0b0010 0b10, [(.rd, .reg .mainRegs)],
        [(.src, .reg .mainRegs), (.rr, .reg .mainRegs)]⟩
  | .ORWRdRr => ⟨.pseudo, [(.rd, .reg .mainRegs)], [(.src, .reg .mainRegs), (.rr, .reg .mainRegs)]⟩
  | .EORRdRr =>
      ⟨.fRdRr 0b0010 0b01, [(.rd, .reg .mainRegs)],
        [(.src, .reg .mainRegs), (.rr, .reg .mainRegs)]⟩
  | .EORWRdRr => ⟨.pseudo, [(.rd, .reg .mainRegs)], [(.src, .reg .mainRegs), (.rr, .reg .mainRegs)]⟩
  | .ANDIWRdK => ⟨.pseudo, [(.rd, .reg .mainRegs)], [(.src, .reg .mainRegs), (.k, .i16imm)]⟩
  | .ORIWRdK => ⟨.pseudo, [(.rd, .reg .mainRegs)], [(.src, .reg .mainRegs), (.rr, .i16imm)]⟩
  -- complement and test
  | .COMRd => ⟨.fRd 0b1001 0b0100000, [(.rd, .reg .mainRegs)], [(.src, .reg .mainRegs)]⟩
  | .COMWRd => ⟨.pseudo, [(.rd, .reg .mainRegs)], [(.src, .reg .mainRegs)]⟩
  | .NEGRd => ⟨.fRd 0b1001 0b0100001, [(.rd, .reg .mainRegs)], [(.src, .reg .mainRegs)]⟩
  | .TSTRd => ⟨.fTST 0b0010 0b00, [], [(.rd, .reg .mainRegs)]⟩
  -- jumps, calls and returns
  | .RJMPk => ⟨.fBRk 0, [], [(.target, .brtarget13)]⟩
  | .IJMP => ⟨.f16 0b1001010000001001, [], []⟩
  | .EIJMP => ⟨.f16 0b1001010000011001, [], []⟩
  | .JMPk => ⟨.f32BRk 0b110, [], [(.k, .callTarget)]⟩
  | .RCALLk => ⟨.fBRk 1, [], [(.target, .brtarget13)]⟩
  | .ICALL => ⟨.f16 0b1001010100001001, [], []⟩
  | .EICALL => ⟨.f16 0b1001010100011001, [], []⟩
  | .CALLk => ⟨.f32BRk 0b111, [], [(.k, .callTarget)]⟩
  | .RET => ⟨.f16 0b1001010100001000, [], []⟩
  | .RETI => ⟨.f16 0b1001010100011000, [], []⟩
  -- compare operations
  | .CPSE => ⟨.fRdRr 0b0001 0b00, [], [(.rd, .reg .mainRegs), (.rr, .reg .mainRegs)]⟩
  | .CPRdRr => ⟨.fRdRr 0b0001 0b01, [], [(.rd, .reg .mainRegs), (.rr, .reg .mainRegs)]⟩
  | .CPWRdRr => ⟨.pseudo, [], [(.src, .reg .mainRegs), (.src2, .reg .mainRegs)]⟩
  | .CPCRdRr => ⟨.fRdRr 0b0000 0b01, [], [(.rd, .reg .mainRegs), (.rr, .reg .mainRegs)]⟩
  | .CPCWRdRr => ⟨.pseudo, [], [(.src, .reg .mainRegs), (.src2, .reg .mainRegs)]⟩
  | .CPIRdK => ⟨.fRdK 0b0011, [], [(.rd, .reg .mainRegs), (.k, .immLdi16)]⟩
  -- conditional skips
  | .SBRCRrB => ⟨.fRdB 0b10, [], [(.rr, .reg .mainRegs), (.b, .i16imm)]⟩
  | .SBRSRrB => ⟨.fRdB 0b11, [], [(.rr, .reg .mainRegs), (.b, .i16imm)]⟩
  | .SBICAb => ⟨.fIOBIT 0b01, [], [(.a, .immPort5), (.b, .i16imm)]⟩
  | .SBISAb => ⟨.fIOBIT 0b11, [], [(.a, .immPort5), (.b, .i16imm)]⟩
  -- conditional branches
  | .BRBSsk => ⟨.fSK 0, [], [(.s, .i16imm), (.k, .relbrtarget7)]⟩
  | .BRBCsk => ⟨.fSK 1, [], [(.s, .i16imm), (.k, .relbrtarget7)]⟩
  | .BREQk => ⟨.fBRsk 0 0b001, [], [(.target, .relbrtarget7)]⟩
  | .BRNEk => ⟨.fBRsk 1 0b001, [], [(.target, .relbrtarget7)]⟩
  | .BRSHk => ⟨.fBRsk 1 0b000, [], [(.target, .relbrtarget7)]⟩
  | .BRLOk => ⟨.fBRsk 0 0b000, [], [(.target, .relbrtarget7)]⟩
  | .BRMIk => ⟨.fBRsk 0 0b010, [], [(.target, .relbrtarget7)]⟩
  | .BRPLk => ⟨.fBRsk 1 0b010, [], [(.target, .relbrtarget7)]⟩
  | .BRGEk => ⟨.fBRsk 1 0b100, [], [(.target, .relbrtarget7)]⟩
  | .BRLTk => ⟨.fBRsk 0 0b100, [], [(.target, .relbrtarget7)]⟩
  -- data transfer
  | .MOVRdRr => ⟨.fRdRr 0b0010 0b11, [(.rd, .reg .mainRegs)], [(.rr, .reg .mainRegs)]⟩
  | .MOVWRdRr => ⟨.fMOVWRdRr, [(.dst, .reg .mainRegs)], [(.src, .reg .mainRegs)]⟩
  | .LDIRdK => ⟨.fRdK 0b1110, [(.rd, .reg .mainRegs)], [(.k, .immLdi16)]⟩
  | .LDIWRdK => ⟨.pseudo, [(.dst, .reg .mainRegs)], [(.src, .i16imm)]⟩
  | .LDSRdK => ⟨.f32DM 0b0, [(.rd, .reg .mainRegs)], [(.k, .imm16)]⟩
  | .LDSWRdK => ⟨.pseudo, [(.dst, .reg .mainRegs)], [(.src, .i16imm)]⟩
  | .LDRdPtr => ⟨.fSTLD 0 0b00, [(.reg, .reg .mainRegs)], [(.ptrreg, .ldstPtrReg)]⟩
  | .LDWRdPtr => ⟨.pseudo, [(.reg, .reg .mainRegs)], [(.ptrreg, .reg .mainRegs)]⟩
  | .LDRdPtrPi =>
      ⟨.fSTLD 0 0b01, [(.reg, .reg .mainRegs), (.baseWb, .reg .indexRegs)],
        [(.ptrreg, .ldstPtrReg)]⟩
  | .LDWRdPtrPi =>
      ⟨.pseudo, [(.reg, .reg .mainRegs), (.baseWb, .reg .indexRegs)],
        [(.ptrreg, .reg .indexRegs)]⟩
  | .LDRdPtrPd =>
      ⟨.fSTLD 0 0b10, [(.reg, .reg .mainRegs), (.baseWb, .reg .indexRegs)],
        [(.ptrreg, .ldstPtrReg)]⟩
  | .LDWRdPtrPd =>
      ⟨.pseudo, [(.reg, .reg .mainRegs), (.baseWb, .reg .indexRegs)],
        [(.ptrreg, .reg .indexRegs)]⟩
  | .LDDRdPtrQ => ⟨.fSTDLDD 0, [(.reg, .reg .mainRegs)], [(.memri, .memri)]⟩
  | .LDDWRdPtrQ => ⟨.pseudo, [(.dst, .reg .mainRegs)], [(.memri, .memri)]⟩
  | .LDDWRdYQ => ⟨.pseudo, [(.dst, .reg .mainRegs)], [(.memri, .memri)]⟩
  -- atomic pseudos
  | .AtomicLoad8 => ⟨.pseudo, [(.rd, .reg .mainRegs)], [(.rr, .reg .indexRegs)]⟩
  | .AtomicLoad16 => ⟨.pseudo, [(.rd, .reg .mainRegs)], [(.rr, .reg .indexRegs)]⟩
  | .AtomicStore8 => ⟨.pseudo, [], [(.rd, .reg .mainRegs), (.rr, .reg .mainRegs)]⟩
  | .AtomicStore16 => ⟨.pseudo, [], [(.rd, .reg .mainRegs), (.rr, .reg .mainRegs)]⟩
  | .AtomicLoadAdd8 =>
      ⟨.pseudo, [(.rd, .reg .mainRegs)],
        [(.rr, .reg .indexRegs), (.operand, .reg .mainRegs)]⟩
  | .AtomicLoadAdd16 =>
      ⟨.pseudo, [(.rd, .reg .mainRegs)],
        [(.rr, .reg .indexRegs), (.operand, .reg .mainRegs)]⟩
  | .AtomicLoadSub8 =>
      ⟨.pseudo, [(.rd, .reg .mainRegs)],
        [(.rr, .reg .indexRegs), (.operand, .reg .mainRegs)]⟩
  | .AtomicLoadSub16 =>
      ⟨.pseudo, [(.rd, .reg .mainRegs)],
        [(.rr, .reg .indexRegs), (.operand, .reg .mainRegs)]⟩
  | .AtomicLoadAnd8 =>
      ⟨.pseudo, [(.rd, .reg .mainRegs)],
        [(.rr, .reg .indexRegs), (.operand, .reg .mainRegs)]⟩
  | .AtomicLoadAnd16 =>
      ⟨.pseudo, [(.rd, .reg .mainRegs)],
        [(.rr, .reg .indexRegs), (.operand, .reg .mainRegs)]⟩
  | .AtomicLoadOr8 =>
      ⟨.pseudo, [(.rd, .reg .mainRegs)],
        [(.rr, .reg .indexRegs), (.operand, .reg .mainRegs)]⟩
  | .AtomicLoadOr16 =>
      ⟨.pseudo, [(.rd, .reg .mainRegs)],
        [(.rr, .reg .indexRegs), (.operand, .reg .mainRegs)]⟩
  | .AtomicLoadXor8 =>
      ⟨.pseudo, [(.rd, .reg .mainRegs)],
        [(.rr, .reg .indexRegs), (.operand, .reg .mainRegs)]⟩
  | .AtomicLoadXor16 =>
      ⟨.pseudo, [(.rd, .reg .mainRegs)],
        [(.rr, .reg .indexRegs), (.operand, .reg .mainRegs)]⟩
  | .AtomicFence => ⟨.pseudo, [], []⟩
  -- stores
  | .STSKRr => ⟨.f32DM 0b1, [], [(.k, .imm16), (.rd, .reg .mainRegs)]⟩
  | .STSWKRr => ⟨.pseudo, [], [(.dst, .i16imm), (.src, .reg .mainRegs)]⟩
  | .STPtrRr => ⟨.fSTLD 1 0b00, [], [(.ptrreg, .ldstPtrReg), (.reg, .reg .mainRegs)]⟩
  | .STWPtrRr => ⟨.pseudo, [], [(.ptrreg, .reg .mainRegs), (.reg, .reg .mainRegs)]⟩
  | .STPtrPiRr =>
      ⟨.fSTLD 1 0b01, [(.baseWb, .ldstPtrReg)],
        [(.ptrreg, .ldstPtrReg), (.reg, .reg .mainRegs), (.offs, .i16imm)]⟩
  | .STWPtrPiRr =>
      ⟨.pseudo, [(.baseWb, .reg .indexRegs)],
        [(.ptrreg, .reg .indexRegs), (.trh, .reg .mainRegs), (.offs, .i16imm)]⟩
  | .STPtrPdRr =>
      ⟨.fSTLD 1 0b10, [(.baseWb, .ldstPtrReg)],
        [(.ptrreg, .ldstPtrReg), (.reg, .reg .mainRegs), (.offs, .i16imm)]⟩
  | .STWPtrPdRr =>
      ⟨.pseudo, [(.baseWb, .reg .indexRegs)],
        [(.ptrreg, .reg .indexRegs), (.reg, .reg .mainRegs), (.offs, .i16imm)]⟩
  | .STDPtrQRr => ⟨.fSTDLDD 1, [], [(.memri, .memri), (.reg, .reg .mainRegs)]⟩
  | .STDWPtrQRr => ⟨.pseudo, [], [(.memri, .memri), (.src, .reg .mainRegs)]⟩
  -- program memory
  | .LPM => ⟨.f16 0b1001010111001000, [], []⟩
  | .LPMRdZ => ⟨.fLPMX 0 0, [(.dst, .reg .mainRegs)], [(.z, .reg .indexRegs)]⟩
  | .LPMRdZPi => ⟨.fLPMX 0 1, [(.dst, .reg .mainRegs)], [(.z, .reg .indexRegs)]⟩
  | .LPMWRdZ => ⟨.pseudo, [(.dst, .reg .mainRegs)], [(.z, .reg .indexRegs)]⟩
  | .LPMWRdZPi => ⟨.pseudo, [(.dst, .reg .mainRegs)], [(.z, .reg .indexRegs)]⟩
  | .ELPM => ⟨.f16 0b1001010111011000, [], []⟩
  | .ELPMRdZ => ⟨.fLPMX 1 0, [(.dst, .reg .mainRegs)], [(.z, .reg .indexRegs)]⟩
  | .ELPMRdZPi => ⟨.fLPMX 1 1, [(.dst, .reg .mainRegs)], [(.z, .reg .indexRegs)]⟩
  | .SPM => ⟨.f16 0b1001010111101000, [], []⟩
  | .SPMZPi => ⟨.f16 0b1001010111111000, [], [(.z, .reg .indexRegs)]⟩
  -- I/O locations and stack
  | .INRdA => ⟨.fIORdA, [(.dst, .reg .mainRegs)], [(.src, .immPort6)]⟩
  | .INWRdA => ⟨.pseudo, [(.dst, .reg .mainRegs)], [(.src, .immPort6)]⟩
  | .OUTARr => ⟨.fIOARr, [], [(.dst, .immPort6), (.src, .reg .mainRegs)]⟩
  | .OUTWARr => ⟨.pseudo, [], [(.dst, .immPort6), (.src, .reg .mainRegs)]⟩
  | .PUSHWRr => ⟨.pseudo, [], [(.reg, .reg .mainRegs)]⟩
  | .POPRd => ⟨.fRd 0b1001 0b0001111, [(.reg, .reg .mainRegs)], []⟩
  | .POPWRd => ⟨.pseudo, [(.reg, .reg .mainRegs)], []⟩
  -- read-modify-write
  | .XCHZRd => ⟨.fZRd 0b100, [(.rd, .reg .mainRegs)], [(.z, .reg .indexRegs)]⟩
  | .LASZRd => ⟨.fZRd 0b101, [(.rd, .reg .mainRegs)], [(.z, .reg .indexRegs)]⟩
  | .LACZRd => ⟨.fZRd 0b110, [(.rd, .reg .mainRegs)], [(.z, .reg .indexRegs)]⟩
  | .LATZRd => ⟨.fZRd 0b111, [(.rd, .reg .mainRegs)], [(.z, .reg .indexRegs)]⟩
  -- shifts and rotates
  | .LSLRd => ⟨.fRdRr 0b0000 0b11, [(.rd, .reg .mainRegs)], [(.src, .reg .mainRegs)]⟩
  | .LSLWRd => ⟨.pseudo, [(.rd, .reg .mainRegs)], [(.src, .reg .mainRegs)]⟩
  | .LSRRd => ⟨.fRd 0b1001 0b0100110, [(.rd, .reg .mainRegs)], [(.src, .reg .mainRegs)]⟩
  | .LSRWRd => ⟨.pseudo, [(.rd, .reg .mainRegs)], [(.src, .reg .mainRegs)]⟩
  | .ASRRd => ⟨.fRd 0b1001 0b0100101, [(.rd, .reg .mainRegs)], [(.src, .reg .mainRegs)]⟩
  | .ASRWRd => ⟨.pseudo, [(.rd, .reg .mainRegs)], [(.src, .reg .mainRegs)]⟩
  | .ROLRd => ⟨.fRdRr 0b0001 0b11, [(.rd, .reg .mainRegs)], [(.src, .reg .mainRegs)]⟩
  | .ROLWRd => ⟨.pseudo, [(.rd, .reg .mainRegs)], [(.src, .reg .mainRegs)]⟩
  | .RORRd => ⟨.fRd 0b1001 0b0100111, [(.rd, .reg .mainRegs)], [(.src, .reg .mainRegs)]⟩
  | .RORWRd => ⟨.pseudo, [(.rd, .reg .mainRegs)], [(.src, .reg .mainRegs)]⟩
  | .SWAPRd => ⟨.fRd 0b1001 0b0100010, [(.rd, .reg .mainRegs)], [(.src, .reg .mainRegs)]⟩
  -- bits
  | .SBIAb => ⟨.fIOBIT 0b10, [], [(.addr, .immPort5), (.bit, .i16imm)]⟩
  | .CBIAb => ⟨.fIOBIT 0b00, [], [(.addr, .immPort5), (.bit, .i16imm)]⟩
  | .BST => ⟨.fRdB 0b01, [], [(.rd, .reg .mainRegs), (.b, .i16imm)]⟩
  | .BLD => ⟨.fRdB 0b00, [], [(.rd, .reg .mainRegs), (.b, .i16imm)]⟩
  | .SBRRdK => ⟨.fRdK 0b0110, [(.rd, .reg .mainRegs)], [(.src, .reg .mainRegs), (.k, .immLdi16)]⟩
  | .CBRRdK => ⟨.fRdK 0b0111, [(.rd, .reg .mainRegs)], [(.src, .reg .mainRegs), (.k, .immCom8)]⟩
  | .BSETs => ⟨.fS 0, [], [(.s, .i16imm)]⟩
  | .BCLRs => ⟨.fS 1, [], [(.s, .i16imm)]⟩
  | .BREAK => ⟨.f16 0b1001010110011000, [], []⟩
  | .SLEEP => ⟨.f16 0b1001010110001000, [], []⟩
  | .WDR => ⟨.f16 0b1001010110101000, [], []⟩
  -- pseudos for later expansion
  | .SEXT => ⟨.pseudo, [(.dst, .reg .mainRegs)], [(.src, .reg .mainLoRegs)]⟩
  | .ZEXT => ⟨.pseudo, [(.dst, .reg .mainRegs)], [(.src, .reg .mainLoRegs)]⟩
  | .FRMIDX => ⟨.pseudo, [(.dst, .reg .mainRegs)], [(.src, .reg .mainRegs), (.src2, .i16imm)]⟩
  | .STDSPQRr => ⟨.pseudo, [], [(.dst, .memspi), (.src, .reg .mainRegs)]⟩
  | .STDWSPQRr => ⟨.pseudo, [], [(.dst, .memspi), (.src, .reg .mainRegs)]⟩
  | .SPREAD => ⟨.pseudo, [(.dst, .reg .mainRegs)], [(.src, .reg .stackPointerRegs)]⟩
  | .SPWRITE => ⟨.pseudo, [(.dst, .reg .stackPointerRegs)], [(.src, .reg .mainRegs)]⟩
  | .Select8 =>
      ⟨.pseudo, [(.dst, .reg .mainRegs)],
        [(.src, .reg .mainRegs), (.src2, .reg .mainRegs), (.cc, .i16imm)]⟩
  | .Select16 =>
      ⟨.pseudo, [(.dst, .reg .mainRegs)],
        [(.src, .reg .mainRegs), (.src2, .reg .mainRegs), (.cc, .i16imm)]⟩
  | .Lsl8 => ⟨.pseudo, [(.dst, .reg .mainRegs)], [(.src, .reg .mainRegs), (.cnt, .reg .mainRegs)]⟩
  | .Lsl16 => ⟨.pseudo, [(.dst, .reg .mainRegs)], [(.src, .reg .mainRegs), (.cnt, .reg .mainRegs)]⟩
  | .Lsr8 => ⟨.pseudo, [(.dst, .reg .mainRegs)], [(.src, .reg .mainRegs), (.cnt, .reg .mainRegs)]⟩
  | .Lsr16 => ⟨.pseudo, [(.dst, .reg .mainRegs)], [(.src, .reg .mainRegs), (.cnt, .reg .mainRegs)]⟩
  | .Rol8 => ⟨.pseudo, [(.dst, .reg .mainRegs)], [(.src, .reg .mainRegs), (.cnt, .reg .mainRegs)]⟩
  | .Rol16 => ⟨.pseudo, [(.dst, .reg .mainRegs)], [(.src, .reg .mainRegs), (.cnt, .reg .mainRegs)]⟩
  | .Ror8 => ⟨.pseudo, [(.dst, .reg .mainRegs)], [(.src, .reg .mainRegs), (.cnt, .reg .mainRegs)]⟩
  | .Ror16 => ⟨.pseudo, [(.dst, .reg .mainRegs)], [(.src, .reg .mainRegs), (.cnt, .reg .mainRegs)]⟩
  | .Asr8 => ⟨.pseudo, [(.dst, .reg .mainRegs)], [(.src, .reg .mainRegs), (.cnt, .reg .mainRegs)]⟩
  | .Asr16 => ⟨.pseudo, [(.dst, .reg .mainRegs)], [(.src, .reg .mainRegs), (.cnt, .reg .mainRegs)]⟩

namespace Opcode

/-- The format class of an opcode. -/
def format (op : Opcode) : InstrFormat :=
  (desc op).format

/-- `isPseudo`. -/
def isPseudo (op : Opcode) : Bool :=
  op.format == .pseudo

/-- `Desc.getSize()`, which is what `getInstSizeInBytes` returns for every opcode of the target. -/
def getSize (op : Opcode) : ℕ :=
  op.format.size

end Opcode

/-! ## Operand numbers -/

namespace InstrDesc

/-- The machine operand number of each operand, with its name and type. -/
def numberFrom : ℕ → List (OpName × OperandType) → List (OpName × ℕ × OperandType)
  | _, [] => []
  | n, (name, type) :: rest => (name, n, type) :: numberFrom (n + type.miNumOperands) rest

/-- `hasOperandNamed`: the number and type of the operand of a given name. -/
def operandNamed (d : InstrDesc) (name : OpName) : Option (ℕ × OperandType) :=
  (numberFrom 0 d.operands).lookup name

/-- `getSubOperandNumber` on a first suboperand: the type of the operand with a given number. -/
def operandNumbered (d : InstrDesc) (n : ℕ) : Option (ℕ × OperandType) :=
  ((numberFrom 0 d.operands).find? fun entry => entry.2.1 == n).map Prod.snd

/-- The operand that fills each field of the format.

A field that has the name of an operand takes that operand; the others take the operands in order,
counted from the first one. -/
def assignFields (d : InstrDesc) : ℕ → List OpName → Option (List (OpName × ℕ × OperandType))
  | _, [] => some []
  | next, name :: rest =>
      match d.operandNamed name with
      | some operand => (assignFields d next rest).map ((name, operand) :: ·)
      | none =>
          (d.operandNumbered next).bind fun operand =>
            (assignFields d (next + 1) rest).map ((name, operand) :: ·)

/-- The operand of every field of an instruction. -/
def fieldOperands (d : InstrDesc) : Option (List (OpName × ℕ × OperandType)) :=
  d.assignFields 0 d.format.fields

end InstrDesc

/-- **Every field has an operand**, for every instruction. -/
theorem fieldOperands_isSome (op : Opcode) : (desc op).fieldOperands.isSome = true := by
  cases op <;> rfl

end Snes
