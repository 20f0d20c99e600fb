/-
# Lowering to Machine Code Instructions

`SNESMCInstLower.cpp`: the operands of a machine instruction become those of an `MCInst`.
The address of a symbol becomes an expression, under the modifier that its target flags
ask for.
-/
import SnesBackend.CodeEmitter
import SnesBackend.ExpandPseudo

namespace Snes

/-- What the `AsmPrinter` knows of the symbols: the labels of global values and of block addresses,
and which global values are functions. -/
structure AsmPrinter where
  getSymbol : ℕ → ℕ
  getBlockAddressSymbol : ℕ → ℕ
  isFunction : ℕ → Bool

namespace MCInstLower

/-- `lowerSymbolOperand`: the offset is added to the symbol under the modifier. -/
def lowerSymbolOperand (isFunction : Bool) (offset : BitVec 64) (tf : BitVec 8) (sym : ℕ) :
    Option MCOperand :=
  let isNegated := tf &&& moNeg != 0
  let expr := if offset = 0 then .symbolRef sym
    else .binary .add (.symbolRef sym) (.constant offset)
  if tf &&& moLo ≠ 0 then
    some (.expr (.target (if isFunction then .pmLo8 else .lo8) isNegated expr))
  else if tf &&& moHi ≠ 0 then
    some (.expr (.target (if isFunction then .pmHi8 else .hi8) isNegated expr))
  else if tf ≠ 0 then
    none
  else
    some (.expr expr)

/-- An operand, `none` where its type or its target flags are unknown. -/
def lowerOperand (printer : AsmPrinter) : MachineOperand → Option MCOperand
  | .reg r => some (.reg r)
  | .imm value => some (.imm value)
  | .globalAddress gv offs tf =>
      lowerSymbolOperand (printer.isFunction gv) offs tf (printer.getSymbol gv)
  | .blockAddress ba tf => lowerSymbolOperand false 0 tf (printer.getBlockAddressSymbol ba)
  | .frameIndex _ => none

/-- `lowerInstruction`. -/
def lowerInstruction (printer : AsmPrinter) (mi : MachineInstr) : Option MCInst :=
  (mi.operands.mapM (lowerOperand printer)).map fun operands => ⟨mi.opcode, operands⟩

end MCInstLower

end Snes
