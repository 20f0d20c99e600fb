/-
# Byte-Wide Instructions

The effect of the byte-wide arithmetic, logic and shift instructions on the
halves of the main registers and on the flags in `P`, as the comments of
`SNESInstrInfo.td` describe the word pseudo instructions that expand to them:
`add`/`adc` and `sub`/`sbc` chain through the carry flag, which holds the borrow
of a subtraction, and the shifts move one bit into and out of it.
-/
import SnesBackend.MachineInstr
import SnesBackend.MachineState

namespace Snes

open WordArith

/-! ## Operations -/

/-- The flags after a logic operation with result `v`: the carry is left alone. -/
def logicFlags (v : BitVec 8) (f : Flags) : Flags where
  carry := f.carry
  zero := v == 0
  negative := v.msb
  overflow := false

/-- The flags after a shift with result `v` that moved the bit `out` out. -/
def shiftFlags (v : BitVec 8) (out : Bool) : Flags where
  carry := out
  zero := v == 0
  negative := v.msb
  overflow := v.msb != out

/-- An operation on two bytes and the incoming flags. -/
abbrev BinaryOp := BitVec 8 → BitVec 8 → Flags → BitVec 8 × Flags

/-- An operation on one byte and the incoming flags. -/
abbrev UnaryOp := BitVec 8 → Flags → BitVec 8 × Flags

/-- `Rd, Rr` instructions. -/
def regRegOp : Opcode → Option BinaryOp
  | .ADDRdRr => some fun a b _ => (addCarry a b false, addFlags a b false)
  | .ADCRdRr => some fun a b f => (addCarry a b f.carry, addFlags a b f.carry)
  | .SUBRdRr => some fun a b _ => (subBorrow a b false, subFlags a b false)
  | .SBCRdRr => some fun a b f => (subBorrow a b f.carry, cmpcFlags a b f)
  | .ANDRdRr => some fun a b f => (a &&& b, logicFlags (a &&& b) f)
  | .ORRdRr => some fun a b f => (a ||| b, logicFlags (a ||| b) f)
  | .EORRdRr => some fun a b f => (a ^^^ b, logicFlags (a ^^^ b) f)
  | _ => none

/-- `Rd, K` instructions. -/
def regImmOp : Opcode → Option BinaryOp
  | .SUBIRdK => some fun a b _ => (subBorrow a b false, subFlags a b false)
  | .SBCIRdK => some fun a b f => (subBorrow a b f.carry, cmpcFlags a b f)
  | _ => none

/-- `Rd` instructions. -/
def regOp : Opcode → Option UnaryOp
  | .COMRd => some fun a f => (~~~a, logicFlags (~~~a) f)
  | .LSLRd => some fun a _ => (shiftLeftIn a false, shiftFlags (shiftLeftIn a false) a.msb)
  | .ROLRd => some fun a f => (shiftLeftIn a f.carry, shiftFlags (shiftLeftIn a f.carry) a.msb)
  | .LSRRd => some fun a _ =>
      (shiftRightIn false a, shiftFlags (shiftRightIn false a) (a.getLsbD 0))
  | .RORRd => some fun a f =>
      (shiftRightIn f.carry a, shiftFlags (shiftRightIn f.carry a) (a.getLsbD 0))
  | .ASRRd => some fun a _ =>
      (shiftRightIn a.msb a, shiftFlags (shiftRightIn a.msb a) (a.getLsbD 0))
  | _ => none

/-! ## Execution -/

/-- Write a result and its flags. -/
def MachineState.setResult (s : MachineState) (r : ByteReg) (result : BitVec 8 × Flags) :
    MachineState :=
  (s.setByte r result.1).setFlags result.2

/-- Execute a byte-wide instruction on register halves; the source operand is the tied one. -/
def execAlu (mi : MachineInstr) (s : MachineState) : Option MachineState :=
  match mi.operands with
  | [.reg (.byte d), .reg (.byte a), .reg (.byte b)] =>
      (regRegOp mi.opcode).map fun op => s.setResult d (op (s.regs a) (s.regs b) s.p.toFlags)
  | [.reg (.byte d), .reg (.byte a), .imm k] =>
      (regImmOp mi.opcode).map fun op => s.setResult d (op (s.regs a) (k.setWidth 8) s.p.toFlags)
  | [.reg (.byte d), .reg (.byte a)] =>
      (regOp mi.opcode).map fun op => s.setResult d (op (s.regs a) s.p.toFlags)
  | _ => none

/-- Execute byte-wide instructions one after the other. -/
def execAluBlock : List MachineInstr → MachineState → Option MachineState
  | [], s => some s
  | mi :: rest, s => (execAlu mi s).bind (execAluBlock rest)

/-! ## The state after an instruction -/

namespace MachineState

@[simp]
theorem setResult_regs_self (s : MachineState) (r : ByteReg) (result : BitVec 8 × Flags) :
    (s.setResult r result).regs r = result.1 := by
  simp [setResult]

@[simp]
theorem setResult_regs_of_ne (s : MachineState) {r q : ByteReg} (result : BitVec 8 × Flags)
    (h : q ≠ r) : (s.setResult r result).regs q = s.regs q := by
  simp [setResult, h]

@[simp] theorem setResult_flags (s : MachineState) (r : ByteReg) (result : BitVec 8 × Flags) :
    (s.setResult r result).p.toFlags = result.2 := rfl

@[simp] theorem setResult_sp (s : MachineState) (r : ByteReg) (result : BitVec 8 × Flags) :
    (s.setResult r result).sp = s.sp := rfl

@[simp] theorem setResult_mem (s : MachineState) (r : ByteReg) (result : BitVec 8 × Flags) :
    (s.setResult r result).mem = s.mem := rfl

end MachineState

end Snes
