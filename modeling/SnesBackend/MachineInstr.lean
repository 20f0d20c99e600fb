/-
# Machine Instructions

Machine instructions after register allocation: an opcode and its explicit
operands.  Kill and dead flags, memory operands and debug locations carry no
meaning here and are left out.
-/
import SnesBackend.InstrInfo

namespace Snes

/-! ## Target flags -/

/-- `SNESII::MO_LO`. -/
def moLo : BitVec 8 := 1 <<< 1

/-- `SNESII::MO_HI`. -/
def moHi : BitVec 8 := 1 <<< 2

/-- `SNESII::MO_NEG`. -/
def moNeg : BitVec 8 := 1 <<< 3

/-! ## Operands and instructions -/

/-- The explicit operands of a machine instruction. -/
inductive MachineOperand where
  | reg (r : Reg)
  | imm (value : BitVec 64)
  | frameIndex (index : ℤ)
  | globalAddress (symbol : ℕ) (offset : BitVec 64) (flags : BitVec 8)
  | blockAddress (symbol : ℕ) (flags : BitVec 8)
deriving DecidableEq, Repr

/-- A machine instruction. -/
structure MachineInstr where
  opcode : Opcode
  operands : List MachineOperand
deriving DecidableEq, Repr

namespace MachineInstr

/-- `getOperand(i).getReg()`. -/
def getReg (mi : MachineInstr) (i : ℕ) : Option Reg :=
  match mi.operands[i]? with
  | some (.reg r) => some r
  | _ => none

/-- `getOperand(i).getImm()`. -/
def getImm (mi : MachineInstr) (i : ℕ) : Option (BitVec 64) :=
  match mi.operands[i]? with
  | some (.imm value) => some value
  | _ => none

end MachineInstr

end Snes
