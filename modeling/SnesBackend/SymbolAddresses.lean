/-
# Addresses of Symbols

`LDIWRdK` and `SUBIWRdK` of a global symbol with an offset, from the pseudo to the final bytes:
the expansion puts target flags on the two halves, lowering makes modified expressions of
them, the encoder records these as fixups, and each immediate is the byte that the modifier
takes of the final value.  The sum of a register and an address is a difference from the
negated address.
-/
import SnesBackend.MCInstLower
import SnesBackend.ModifierFixups
import SnesBackend.SymbolicOperands
import SnesBackend.WordPseudos

namespace Snes

open WordArith MCInstLower

/-! ## Final values -/

/-- The final value of an expression, for the final addresses of the symbols. -/
def MCExpr.finalValue (address : ℕ → BitVec 64) : MCExpr → BitVec 64
  | constant value => value
  | symbolRef symbol => address symbol
  | binary .add lhs rhs => lhs.finalValue address + rhs.finalValue address
  | binary .sub lhs rhs => lhs.finalValue address - rhs.finalValue address
  | target kind negated subExpr => kind.evaluateAsInt64 negated (subExpr.finalValue address)

/-- A value that is known before layout is the final one. -/
theorem MCExpr.finalValue_of_evaluateAsAbsolute (address : ℕ → BitVec 64) {e : MCExpr}
    {value : BitVec 64} (h : e.evaluateAsAbsolute = some value) : e.finalValue address = value := by
  induction e generalizing value with
  | constant v => exact Option.some.inj h
  | symbolRef symbol => cases h
  | binary op lhs rhs ihl ihr =>
      cases op <;>
        obtain ⟨l, hl, hmap⟩ := Option.bind_eq_some_iff.mp h <;>
        obtain ⟨r, hr, rfl⟩ := Option.map_eq_some_iff.mp hmap <;>
        rw [finalValue, ihl hl, ihr hr]
  | target kind negated subExpr ih =>
      obtain ⟨v, hv, rfl⟩ := Option.map_eq_some_iff.mp h
      rw [finalValue, ih hv]

/-- The immediate of an encoded instruction, operand number `n`: the value in its field, or the
final value of its fixup. -/
def MCInst.immediate (address : ℕ → BitVec 64) (inst : MCInst) (n : ℕ) : Option (BitVec 64) :=
  (inst.encodedOperand n).bind fun encoded =>
    match encoded.2 with
    | [] => some (encoded.1.setWidth 64)
    | [fixup] => some (fixup.value.finalValue address)
    | _ => none

/-- Execute an instruction with an immediate once it is linked. -/
def execLinked (address : ℕ → BitVec 64) (inst : MCInst) (s : MachineState) :
    Option MachineState :=
  match inst.opcode, inst.operands with
  | .LDIRdK, [.reg (.byte d), _] =>
      (inst.immediate address 1).map fun k => s.setByte d (k.setWidth 8)
  | op, [.reg d, .reg a, _] =>
      (inst.immediate address 2).bind fun k => execAlu ⟨op, [.reg d, .reg a, .imm k]⟩ s
  | _, _ => none

/-- Execute linked instructions one after the other. -/
def execLinkedBlock (address : ℕ → BitVec 64) : List MCInst → MachineState → Option MachineState
  | [], s => some s
  | inst :: rest, s => (execLinked address inst s).bind (execLinkedBlock address rest)

/-! ## The pseudos -/

/-- The pseudos that take the address of a symbol: a constant, and a sum with a register. -/
inductive SymbolOp where
  | LDIW | SUBIW
deriving DecidableEq, Repr

/-- A pseudo with its destination and its global operand. -/
structure SymbolPseudo where
  op : SymbolOp
  dst : WordReg
  gv : ℕ
  offset : BitVec 64
deriving DecidableEq, Repr

namespace SymbolPseudo

/-- The machine instruction; `LowerGlobalAddress` sets no target flags. -/
def instr (i : SymbolPseudo) : MachineInstr :=
  match i.op with
  | .LDIW => ⟨.LDIWRdK, [.reg (.word i.dst), .globalAddress i.gv i.offset 0]⟩
  | .SUBIW => ⟨.SUBIWRdK,
      [.reg (.word i.dst), .reg (.word i.dst), .globalAddress i.gv i.offset 0]⟩

/-- The final address of the operand. -/
def address (i : SymbolPseudo) (printer : AsmPrinter) (address : ℕ → BitVec 64) : BitVec 64 :=
  address (printer.getSymbol i.gv) + i.offset

/-- The value that the pseudo stands for. -/
def result (i : SymbolPseudo) (target : BitVec 64) (s : MachineState) : BitVec 16 :=
  match i.op with
  | .LDIW => target.setWidth 16
  | .SUBIW => s.word i.dst + target.setWidth 16

/-- The linked instructions leave the value in the destination, and change no other register. -/
def Computes (i : SymbolPseudo) (scavenge : MachineInstr → Option Reg) (printer : AsmPrinter)
    (address : ℕ → BitVec 64) (s : MachineState) : Prop :=
  ∃ mis insts s', expandMI scavenge i.instr = .expanded mis ∧
    mis.mapM (lowerInstruction printer) = some insts ∧
    execLinkedBlock address insts s = some s' ∧
    s'.word i.dst = i.result (i.address printer address) s ∧
    ∀ r, r ≠ i.dst.subLo → r ≠ i.dst.subHi → s'.regs r = s.regs r

/-! ## From the pseudo to the fixups -/

/-- The symbol with its offset. -/
def symbolExpr (sym : ℕ) (offset : BitVec 64) : MCExpr :=
  if offset = 0 then .symbolRef sym else .binary .add (.symbolRef sym) (.constant offset)

/-- The offset is inside the expression. -/
theorem finalValue_symbolExpr (address : ℕ → BitVec 64) (sym : ℕ) (offset : BitVec 64) :
    (symbolExpr sym offset).finalValue address = address sym + offset := by
  unfold symbolExpr
  split_ifs with hzero
  · rw [hzero, MCExpr.finalValue]
    exact (BitVec.add_zero _).symm
  · rfl

/-- The modified expression of a half of the operand. -/
def half (printer : AsmPrinter) (i : SymbolPseudo) (kind : VariantKind) (negated : Bool) :
    MCOperand :=
  .expr (.target kind negated (symbolExpr (printer.getSymbol i.gv) i.offset))

/-- **Lowering** of the halves of a data symbol: the flags of the expansion become modifiers. -/
theorem lowerOperand_halves {i : SymbolPseudo} {printer : AsmPrinter}
    (hdata : printer.isFunction i.gv = false) (negated : Bool) :
    lowerOperand printer (.globalAddress i.gv i.offset
        (0 ||| (if negated then moNeg else 0) ||| moLo)) = some (i.half printer .lo8 negated) ∧
      lowerOperand printer (.globalAddress i.gv i.offset
        (0 ||| (if negated then moNeg else 0) ||| moHi)) = some (i.half printer .hi8 negated) := by
  rw [lowerOperand, lowerOperand, hdata]
  cases negated <;> exact ⟨rfl, rfl⟩

/-- Two instructions are lowered one after the other. -/
theorem mapM_lowerInstruction_pair {printer : AsmPrinter} {mi mi' : MachineInstr}
    {inst inst' : MCInst} (h : lowerInstruction printer mi = some inst)
    (h' : lowerInstruction printer mi' = some inst') :
    [mi, mi'].mapM (lowerInstruction printer) = some [inst, inst'] := by
  rw [List.mapM_cons, List.mapM_cons, List.mapM_nil, h, h']
  rfl

/-- Lowering of an instruction whose last operand is not a register. -/
theorem lowerInstruction_regs {printer : AsmPrinter} {operand : MachineOperand}
    {lowered : MCOperand} (h : lowerOperand printer operand = some lowered) (op : Opcode)
    (regs : List Reg) :
    lowerInstruction printer ⟨op, regs.map .reg ++ [operand]⟩ =
      some ⟨op, regs.map .reg ++ [lowered]⟩ := by
  have hoperands : (regs.map MachineOperand.reg ++ [operand]).mapM (lowerOperand printer) =
      some (regs.map MCOperand.reg ++ [lowered]) := by
    induction regs with
    | nil => rw [List.map_nil, List.nil_append, List.mapM_cons, h]; rfl
    | cons r regs ih => rw [List.map_cons, List.cons_append, List.mapM_cons, ih]; rfl
  rw [lowerInstruction, hoperands]
  rfl

/-- What the instruction is lowered to, once it is expanded. -/
def lowered (i : SymbolPseudo) (printer : AsmPrinter) : List MCInst :=
  match i.op with
  | .LDIW =>
      [⟨.LDIRdK, [.reg (.byte i.dst.subLo), i.half printer .lo8 false]⟩,
        ⟨.LDIRdK, [.reg (.byte i.dst.subHi), i.half printer .hi8 false]⟩]
  | .SUBIW =>
      [⟨.SUBIRdK, [.reg (.byte i.dst.subLo), .reg (.byte i.dst.subLo),
          i.half printer .lo8 true]⟩,
        ⟨.SBCIRdK, [.reg (.byte i.dst.subHi), .reg (.byte i.dst.subHi),
          i.half printer .hi8 true]⟩]

/-- **From the pseudo to the expressions**: expansion and lowering. -/
theorem exists_lowered (i : SymbolPseudo) (scavenge : MachineInstr → Option Reg)
    {printer : AsmPrinter} (hdata : printer.isFunction i.gv = false) :
    ∃ mis, expandMI scavenge i.instr = .expanded mis ∧
      mis.mapM (lowerInstruction printer) = some (i.lowered printer) := by
  obtain ⟨op, dst, gv, offset⟩ := i
  cases op with
  | LDIW =>
      obtain ⟨hlo, hhi⟩ := lowerOperand_halves hdata false
      refine ⟨_, rfl, ?_⟩
      have low := lowerInstruction_regs hlo .LDIRdK [.byte dst.subLo]
      have high := lowerInstruction_regs hhi .LDIRdK [.byte dst.subHi]
      exact mapM_lowerInstruction_pair low high
  | SUBIW =>
      obtain ⟨hlo, hhi⟩ := lowerOperand_halves hdata true
      refine ⟨_, rfl, ?_⟩
      have low := lowerInstruction_regs hlo .SUBIRdK [.byte dst.subLo, .byte dst.subLo]
      have high := lowerInstruction_regs hhi .SBCIRdK [.byte dst.subHi, .byte dst.subHi]
      exact mapM_lowerInstruction_pair low high

/-- An address is not known before layout. -/
theorem evaluateAsAbsolute_target_symbolExpr (kind : VariantKind) (negated : Bool) (sym : ℕ)
    (offset : BitVec 64) :
    (MCExpr.target kind negated (symbolExpr sym offset)).evaluateAsAbsolute = none := by
  unfold symbolExpr
  split_ifs <;> rfl

/-- **Encoding** records a fixup for the whole modified expression, so each immediate is the byte
that the modifier takes of the final address. -/
theorem immediate_half (i : SymbolPseudo) (printer : AsmPrinter) (address : ℕ → BitVec 64)
    (kind : VariantKind) (negated : Bool) {op : Opcode} {operands : List MCOperand} {n : ℕ}
    {name : OpName} (hfield : op.fieldEntry n = some (name, n, .immLdi16))
    (hoperand : operands[n]? = some (i.half printer kind negated)) :
    (MCInst.mk op operands).immediate address n =
      some (kind.evaluateAsInt64 negated (i.address printer address)) := by
  have hencoded : (MCInst.mk op operands).encodedOperand n = some
      (0, [⟨0, .target kind negated (symbolExpr (printer.getSymbol i.gv) i.offset),
        kind.getFixupKind negated⟩]) := by
    rw [MCInst.encodedOperand, hfield, Option.bind_some]
    unfold OperandType.encode
    rw [hoperand]
    change getExprOpValue (.target kind negated _) = _
    unfold getExprOpValue
    simp only [evaluateAsAbsolute_target_symbolExpr]
  rw [MCInst.immediate, hencoded, SymbolPseudo.address, ← finalValue_symbolExpr]
  rfl

/-! ## From the bytes to the address -/

/-- **The bytes** of `lo8` and `hi8` are the two low bytes of the value, negated before it is
split. -/
theorem bytes_evaluateAsInt64 (negated : Bool) (value : BitVec 64) :
    (VariantKind.lo8.evaluateAsInt64 negated value).setWidth 8 =
        ((VariantKind.earlyValue negated value).setWidth 8 : BitVec 8) ∧
      (VariantKind.hi8.evaluateAsInt64 negated value).setWidth 8 =
        ((VariantKind.earlyValue negated value >>> 8).setWidth 8 : BitVec 8) := by
  rw [VariantKind.evaluateAsInt64_eq, VariantKind.evaluateAsInt64_eq]
  constructor <;> ext i hi
  · rw [BitVec.getElem_setWidth, getLsbD_selectByte]
    simp [VariantKind.isPm, VariantKind.byteShift, hi]
  · rw [BitVec.getElem_setWidth, getLsbD_selectByte]
    simp [VariantKind.isPm, VariantKind.byteShift, hi]

/-- The two bytes put together are the value as a word, negated for a negated modifier. -/
theorem bytes_append (negated : Bool) (value : BitVec 64) :
    ((VariantKind.hi8.evaluateAsInt64 negated value).setWidth 8 : BitVec 8) ++
        ((VariantKind.lo8.evaluateAsInt64 negated value).setWidth 8 : BitVec 8) =
      (if negated then -value.setWidth 16 else value.setWidth 16) := by
  obtain ⟨hlo, hhi⟩ := bytes_evaluateAsInt64 negated value
  rw [hlo, hhi, bytes_of_immediate, VariantKind.earlyValue]
  cases negated with
  | false => rfl
  | true => exact BitVec.setWidth_neg_of_le (by decide)

/-- A linked load of an immediate. -/
theorem execLinked_LDIRdK (address : ℕ → BitVec 64) (d : ByteReg) {operand : MCOperand}
    {k : BitVec 64} (h : (MCInst.mk .LDIRdK [.reg (.byte d), operand]).immediate address 1 = some k)
    (s : MachineState) :
    execLinked address ⟨.LDIRdK, [.reg (.byte d), operand]⟩ s =
      some (s.setByte d (k.setWidth 8)) := by
  rw [execLinked, h]
  rfl

/-- A linked subtraction of an immediate. -/
theorem execLinked_subtraction (address : ℕ → BitVec 64) {op : Opcode}
    (hop : op = .SUBIRdK ∨ op = .SBCIRdK) (d : ByteReg) {operand : MCOperand} {k : BitVec 64}
    (h : (MCInst.mk op [.reg (.byte d), .reg (.byte d), operand]).immediate address 2 = some k)
    (s : MachineState) :
    execLinked address ⟨op, [.reg (.byte d), .reg (.byte d), operand]⟩ s =
      execAlu ⟨op, [.reg (.byte d), .reg (.byte d), .imm k]⟩ s := by
  rcases hop with rfl | rfl <;> rw [execLinked, h] <;> rfl

/-- Two linked instructions run one after the other. -/
theorem execLinkedBlock_pair {address : ℕ → BitVec 64} {inst inst' : MCInst}
    {s t u : MachineState} (h : execLinked address inst s = some t)
    (h' : execLinked address inst' t = some u) :
    execLinkedBlock address [inst, inst'] s = some u := by
  rw [execLinkedBlock, h]
  change (execLinked address inst' t).bind _ = _
  rw [h']
  rfl

/-- **The linked instructions** leave the value in the destination: the address, or the difference
from the negated address. -/
theorem exists_execLinkedBlock (i : SymbolPseudo) (printer : AsmPrinter)
    (address : ℕ → BitVec 64) (s : MachineState) :
    ∃ s', execLinkedBlock address (i.lowered printer) s = some s' ∧
      s'.word i.dst = i.result (i.address printer address) s ∧
      ∀ r, r ≠ i.dst.subLo → r ≠ i.dst.subHi → s'.regs r = s.regs r := by
  unfold lowered result
  cases i.op with
  | LDIW =>
      have hlow := execLinked_LDIRdK address i.dst.subLo
        (i.immediate_half printer address .lo8 false
          (rfl : Opcode.LDIRdK.fieldEntry 1 = some (.k, 1, .immLdi16)) rfl) s
      have hhigh := execLinked_LDIRdK address i.dst.subHi
        (i.immediate_half printer address .hi8 false
          (rfl : Opcode.LDIRdK.fieldEntry 1 = some (.k, 1, .immLdi16)) rfl)
        (s.setByte i.dst.subLo
          ((VariantKind.lo8.evaluateAsInt64 false (i.address printer address)).setWidth 8))
      refine ⟨_, execLinkedBlock_pair hlow hhigh, ?_, ?_⟩
      · unfold MachineState.word
        rw [MachineState.setByte_regs_self,
          MachineState.setByte_regs_of_ne _ _ (WordReg.subLo_ne_subHi i.dst i.dst),
          MachineState.setByte_regs_self]
        exact bytes_append false (i.address printer address)
      · intro r hlo hhi
        rw [MachineState.setByte_regs_of_ne _ _ hhi, MachineState.setByte_regs_of_ne _ _ hlo]
  | SUBIW =>
      have hlow := execLinked_subtraction address (.inl rfl) i.dst.subLo
        (i.immediate_half printer address .lo8 true
          (rfl : Opcode.SUBIRdK.fieldEntry 2 = some (.k, 2, .immLdi16)) rfl) s
      have hhigh := fun t => execLinked_subtraction address (.inr rfl) i.dst.subHi
        (i.immediate_half printer address .hi8 true
          (rfl : Opcode.SBCIRdK.fieldEntry 2 = some (.k, 2, .immLdi16)) rfl) t
      refine ⟨_, execLinkedBlock_pair hlow (hhigh _), ?_, ?_⟩
      · unfold MachineState.word
        rw [MachineState.setResult_regs_self,
          MachineState.setResult_regs_of_ne _ _ (WordReg.subLo_ne_subHi i.dst i.dst),
          MachineState.setResult_regs_self,
          MachineState.setResult_regs_of_ne _ _ (WordReg.subHi_ne_subLo i.dst i.dst)]
        refine (subBorrow_append ..).symm.trans ?_
        rw [bytes_append]
        -- the difference from the negated address is the sum
        rw [subBorrow_false, if_pos rfl, sub_neg_eq_add]
      · intro r hlo hhi
        rw [MachineState.setResult_regs_of_ne _ _ hhi, MachineState.setResult_regs_of_ne _ _ hlo]

/-- **The pipeline computes the address** of a data symbol, or its sum with the register, whatever
the final address, the offset and the value of the register. -/
theorem computes (i : SymbolPseudo) (scavenge : MachineInstr → Option Reg) {printer : AsmPrinter}
    (hdata : printer.isFunction i.gv = false) (address : ℕ → BitVec 64) (s : MachineState) :
    i.Computes scavenge printer address s := by
  obtain ⟨mis, hexpand, hlower⟩ := i.exists_lowered scavenge hdata
  obtain ⟨s', hexec, hresult, hregs⟩ := i.exists_execLinkedBlock printer address s
  exact ⟨mis, i.lowered printer, s', hexpand, hlower, hexec, hresult, hregs⟩

/-- `X` plus a symbol four bytes below `0x8002`: the borrow between the bytes is right. -/
theorem computes_SUBIW_X :
    Computes ⟨.SUBIW, .X, 0, 4⟩ (fun _ => none) ⟨id, id, fun _ => false⟩ (fun _ => 0x7ffe)
      ⟨fun _ => 0xff, ⟨⟨false, false, false, false⟩, 0⟩, 0x1fff, fun _ => 0⟩ :=
  computes ⟨.SUBIW, .X, 0, 4⟩ (fun _ => none) rfl (fun _ => 0x7ffe)
    ⟨fun _ => 0xff, ⟨⟨false, false, false, false⟩, 0⟩, 0x1fff, fun _ => 0⟩

end SymbolPseudo

end Snes
