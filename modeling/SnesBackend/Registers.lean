/-
# The Register File

`SNESRegisterInfo.td` and the register tables of `SNESRegisterInfo.cpp`: the
registers, their halves, their hardware numbers, the register classes, and the
reserved and callee-saved sets.
-/
import Mathlib

namespace Snes

/-! ## Registers -/

/-- The 8-bit halves of the main registers. -/
inductive ByteReg where
  | AL | AH | XL | XH | YL | YH
deriving DecidableEq, Repr

/-- The 16-bit main registers. -/
inductive WordReg where
  | A | X | Y
deriving DecidableEq, Repr

/-- Every register that `SNESRegisterInfo.td` defines. -/
inductive Reg where
  | byte (r : ByteReg)
  | word (r : WordReg)
  | DB | P | PB
  | SP | DP | PC
deriving DecidableEq, Repr

namespace Reg

/-- The registers of `SNESRegisterInfo.td` under the source's names. -/
abbrev AL : Reg := byte .AL
abbrev AH : Reg := byte .AH
abbrev XL : Reg := byte .XL
abbrev XH : Reg := byte .XH
abbrev YL : Reg := byte .YL
abbrev YH : Reg := byte .YH
abbrev A : Reg := word .A
abbrev X : Reg := word .X
abbrev Y : Reg := word .Y

end Reg

namespace WordReg

/-- The `sub_lo` half. -/
def subLo : WordReg → ByteReg
  | A => .AL
  | X => .XL
  | Y => .YL

/-- The `sub_hi` half. -/
def subHi : WordReg → ByteReg
  | A => .AH
  | X => .XH
  | Y => .YH

/-- Different main registers have different low halves. -/
@[simp]
theorem subLo_inj {r s : WordReg} : r.subLo = s.subLo ↔ r = s := by
  cases r <;> cases s <;> simp [subLo]

/-- Different main registers have different high halves. -/
@[simp]
theorem subHi_inj {r s : WordReg} : r.subHi = s.subHi ↔ r = s := by
  cases r <;> cases s <;> simp [subHi]

/-- A low half is never a high half. -/
@[simp]
theorem subLo_ne_subHi (r s : WordReg) : r.subLo ≠ s.subHi := by
  cases r <;> cases s <;> simp [subLo, subHi]

/-- A high half is never a low half. -/
@[simp]
theorem subHi_ne_subLo (r s : WordReg) : r.subHi ≠ s.subLo :=
  (subLo_ne_subHi s r).symm

end WordReg

namespace Reg

/-- `HWEncoding`, the register number of the encoder. -/
def hwEncoding : Reg → ℕ
  | byte .AL => 0
  | byte .AH => 3
  | byte .XL => 1
  | byte .XH => 4
  | byte .YL => 2
  | byte .YH => 5
  | word .A => 0
  | word .X => 1
  | word .Y => 2
  | DB => 9
  | P => 10
  | PB => 11
  | SP => 6
  | DP => 7
  | PC => 8

end Reg

/-! ## Value types and register classes -/

/-- The value types that registers hold. -/
inductive ValueType where
  | i8 | i16
deriving DecidableEq, Repr

/-- The width of a value type in bits. -/
def ValueType.width : ValueType → ℕ
  | i8 => 8
  | i16 => 16

/-- The size of a value type in bytes. -/
def ValueType.bytes : ValueType → ℕ
  | i8 => 1
  | i16 => 2

/-- The register classes that operands are declared with. -/
inductive RegClass where
  | mainLoRegs | mainRegs | accRegs | acc8Regs
  | indexRegs | indexXRegs | indexX8Regs | indexYRegs | indexY8Regs | stackPointerRegs
deriving DecidableEq, Repr

/-- The members of a class, in allocation order. -/
def RegClass.members : RegClass → List Reg
  | mainLoRegs => [.AL, .XL, .YL]
  | mainRegs => [.A, .X, .Y]
  | accRegs => [.A]
  | acc8Regs => [.AL]
  | indexRegs => [.X, .Y]
  | indexXRegs => [.X]
  | indexX8Regs => [.XL]
  | indexYRegs => [.Y]
  | indexY8Regs => [.YL]
  | stackPointerRegs => [.SP]

namespace Reg

/-- `splitReg`: the halves of a register that the assertion admits. -/
def splitReg : Reg → Option (Reg × Reg)
  | word r => some (byte r.subLo, byte r.subHi)
  | _ => none

/-! ## Reserved and callee-saved registers -/

/-- `getReservedRegs`. -/
def getReservedRegs : List Reg := [DB, DP, P, PC, PB, SP]

/-- `CSR_Normal`, the list that `getCalleeSavedRegs` returns. -/
def getCalleeSavedRegs : List Reg := [A]

/-- The registers that share bits with a register, itself included. -/
def aliases : Reg → List Reg
  | byte .AL => [AL, A]
  | byte .AH => [AH, A]
  | byte .XL => [XL, X]
  | byte .XH => [XH, X]
  | byte .YL => [YL, Y]
  | byte .YH => [YH, Y]
  | word .A => [A, AL, AH]
  | word .X => [X, XL, XH]
  | word .Y => [Y, YL, YH]
  | r => [r]

/-- A register and its halves. -/
def subRegsInclusive : Reg → List Reg
  | word r => [word r, byte r.subLo, byte r.subHi]
  | r => [r]

/-- `CSR_Normal_RegMask`, which `getCallPreservedMask` returns: the callee-saved registers and
their halves. -/
def getCallPreservedMask : List Reg := getCalleeSavedRegs.flatMap subRegsInclusive

/-- Sharing bits is symmetric. -/
theorem mem_aliases_comm (r s : Reg) : r ∈ aliases s ↔ s ∈ aliases r := by
  rcases r with (_ | _ | _ | _ | _ | _) | (_ | _ | _) | _ | _ | _ | _ | _ | _ <;>
    rcases s with (_ | _ | _ | _ | _ | _) | (_ | _ | _) | _ | _ | _ | _ | _ | _ <;> decide

end Reg

end Snes
