/-
# Logic with Immediates

The expansions of `ANDIWRdK` and `ORIWRdK`: an instruction for each byte of the constant,
unless it is redundant for a byte.  Both instructions work on the whole accumulator, whatever
register half they name, and take the byte for a constant of 16 bits.
-/
import SnesBackend.SelectionPatterns

namespace Snes

/-! ## The instructions -/

/-- The two operations. -/
inductive LogicOp where
  | and | or
deriving DecidableEq, Repr

namespace LogicOp

/-- The operation on words. -/
def eval (op : LogicOp) (a b : BitVec 16) : BitVec 16 :=
  match op with
  | and => a &&& b
  | or => a ||| b

/-- The pseudo with an immediate. -/
def pseudo : LogicOp → Opcode
  | and => .ANDIWRdK
  | or => .ORIWRdK

/-- The instruction that `expandLogicImm` emits. -/
def accOpcode : LogicOp → Opcode
  | and => .ANDimm16
  | or => .ORAimm16

/-- The constant that the operation leaves every word alone with. -/
def neutral : LogicOp → BitVec 16
  | and => BitVec.allOnes 16
  | or => 0

end LogicOp

/-- Execute an instruction on the accumulator with a constant of 16 bits; its register operands are
the accumulator, whatever they say. -/
def execAccImm (mi : MachineInstr) (s : MachineState) : Option MachineState :=
  match mi.opcode, mi.operands with
  | .ANDimm16, [_, _, .imm k] => some (s.setWordResult .A (s.word .A &&& k.setWidth 16))
  | .ORAimm16, [_, _, .imm k] => some (s.setWordResult .A (s.word .A ||| k.setWidth 16))
  | _, _ => none

/-- Execute such instructions one after the other. -/
def execAccImms : List MachineInstr → MachineState → Option MachineState
  | [], s => some s
  | mi :: rest, s => (execAccImm mi s).bind (execAccImms rest)

/-- A pseudo with its destination and its immediate. -/
structure LogicImm where
  op : LogicOp
  dst : WordReg
  k : BitVec 64
deriving DecidableEq, Repr

namespace LogicImm

/-- The machine instruction. -/
def instr (i : LogicImm) : MachineInstr :=
  ⟨i.op.pseudo, [.reg (.word i.dst), .reg (.word i.dst), .imm i.k]⟩

/-- The value that the pseudo stands for. -/
def result (i : LogicImm) (s : MachineState) : BitVec 16 :=
  i.op.eval (s.word i.dst) (i.k.setWidth 16)

/-- What is emitted leaves the value in the destination, and the other registers unchanged. -/
def Computes (i : LogicImm) (scavenge : MachineInstr → Option Reg) (s : MachineState) : Prop :=
  ∃ mis s', expandMI scavenge i.instr = .expanded mis ∧ execAccImms mis s = some s' ∧
    s'.word i.dst = i.result s ∧ (∀ r, r ≠ i.dst → s'.word r = s.word r) ∧ s'.sp = s.sp

/-- The constant that an emitted byte is for the accumulator, and the neutral one where nothing is
emitted. -/
def accConstant (i : LogicImm) (byte : BitVec 32) : BitVec 16 :=
  if ExpandPseudo.isLogicImmOpRedundant i.op.accOpcode byte then i.op.neutral
  else byte.setWidth 16

/-- The constant that the accumulator ends up being combined with. -/
def combined (i : LogicImm) : BitVec 16 :=
  i.op.eval (i.accConstant (lo8 (toUnsigned i.k))) (i.accConstant (hi8 (toUnsigned i.k)))

/-- When the value is computed.  In the accumulator, the two bytes as words must do what the
constant does; any other destination must have the value already, and the accumulator survive the
bytes. -/
def RightWhen (i : LogicImm) (s : MachineState) : Prop :=
  if i.dst = .A then i.op.eval (s.word .A) i.combined = i.op.eval (s.word .A) (i.k.setWidth 16)
  else i.op.eval (s.word i.dst) (i.k.setWidth 16) = s.word i.dst ∧
    i.op.eval (s.word .A) i.combined = s.word .A

/-! ## The operations -/

/-- The operations are associative. -/
theorem eval_assoc (op : LogicOp) (a b c : BitVec 16) :
    op.eval (op.eval a b) c = op.eval a (op.eval b c) := by
  cases op with
  | and => exact BitVec.and_assoc a b c
  | or => exact BitVec.or_assoc a b c

/-- The neutral constant changes nothing. -/
theorem eval_neutral (op : LogicOp) (a : BitVec 16) : op.eval a op.neutral = a := by
  cases op with
  | and => exact BitVec.and_allOnes
  | or => exact BitVec.or_zero

/-! ## The run -/

/-- What is emitted for a byte of the constant. -/
def emitted (i : LogicImm) (half : Reg) (byte : BitVec 32) : List MachineInstr :=
  if ExpandPseudo.isLogicImmOpRedundant i.op.accOpcode byte then []
  else [⟨i.op.accOpcode, [.reg half, .reg half, ofUnsigned byte]⟩]

/-- The expansion emits the low byte first. -/
theorem expandMI_instr (i : LogicImm) (scavenge : MachineInstr → Option Reg) :
    expandMI scavenge i.instr = .expanded
      (i.emitted (.byte i.dst.subLo) (lo8 (toUnsigned i.k)) ++
        i.emitted (.byte i.dst.subHi) (hi8 (toUnsigned i.k))) := by
  obtain ⟨op, dst, k⟩ := i
  cases op <;> rfl

/-- Emitted bytes run one after the other. -/
theorem execAccImms_append (mis mis' : List MachineInstr) (s : MachineState) :
    execAccImms (mis ++ mis') s = (execAccImms mis s).bind (execAccImms mis') := by
  induction mis generalizing s with
  | nil => rfl
  | cons mi mis ih =>
      rw [List.cons_append, execAccImms, execAccImms, Option.bind_assoc]
      congr 1
      funext s'
      exact ih s'

/-- **One byte** combines the accumulator with its constant, and changes no other register. -/
theorem exists_execAccImms_emitted (i : LogicImm) (half : Reg) (byte : BitVec 32)
    (s : MachineState) :
    ∃ s', execAccImms (i.emitted half byte) s = some s' ∧
      s'.word .A = i.op.eval (s.word .A) (i.accConstant byte) ∧
      (∀ r, r ≠ .A → s'.word r = s.word r) ∧ s'.sp = s.sp := by
  unfold emitted accConstant
  split_ifs with hredundant
  · exact ⟨s, rfl, (eval_neutral _ _).symm, fun _ _ => rfl, rfl⟩
  · have hbyte : (byte.setWidth 64).setWidth 16 = (byte.setWidth 16 : BitVec 16) :=
      BitVec.setWidth_setWidth_of_le byte (by decide)
    refine ⟨s.setWordResult .A (i.op.eval (s.word .A) (byte.setWidth 16)), ?_, ?_, ?_, rfl⟩
    · rw [← hbyte]
      cases hop : i.op <;> rfl
    · exact MachineState.setWord_word_self s .A _
    · intro r hr
      exact MachineState.setWord_word_of_ne s _ hr

/-- **The run** of what is emitted. -/
theorem exists_execAccImms (i : LogicImm) (s : MachineState) :
    ∃ s', execAccImms (i.emitted (.byte i.dst.subLo) (lo8 (toUnsigned i.k)) ++
        i.emitted (.byte i.dst.subHi) (hi8 (toUnsigned i.k))) s = some s' ∧
      s'.word .A = i.op.eval (s.word .A) i.combined ∧
      (∀ r, r ≠ .A → s'.word r = s.word r) ∧ s'.sp = s.sp := by
  obtain ⟨mid, hlow, hlowWord, hlowRest, hlowSp⟩ :=
    i.exists_execAccImms_emitted (.byte i.dst.subLo) (lo8 (toUnsigned i.k)) s
  obtain ⟨last, hhigh, hhighWord, hhighRest, hhighSp⟩ :=
    i.exists_execAccImms_emitted (.byte i.dst.subHi) (hi8 (toUnsigned i.k)) mid
  refine ⟨last, ?_, ?_, ?_, hhighSp.trans hlowSp⟩
  · rw [execAccImms_append, hlow]
    exact hhigh
  · rw [hhighWord, hlowWord, eval_assoc]
    rfl
  · intro r hr
    exact (hhighRest r hr).trans (hlowRest r hr)

/-! ## When the value is computed -/

/-- There is one run, so the value is computed when this run computes it. -/
theorem computes_iff_of_run {i : LogicImm} {s s' : MachineState}
    (hexec : execAccImms (i.emitted (.byte i.dst.subLo) (lo8 (toUnsigned i.k)) ++
      i.emitted (.byte i.dst.subHi) (hi8 (toUnsigned i.k))) s = some s') (hsp : s'.sp = s.sp)
    (scavenge : MachineInstr → Option Reg) :
    i.Computes scavenge s ↔
      s'.word i.dst = i.result s ∧ ∀ r, r ≠ i.dst → s'.word r = s.word r := by
  constructor
  · rintro ⟨mis, s'', hexpand, hexec', hresult, hregs, -⟩
    obtain rfl := ExpandResult.expanded.inj ((i.expandMI_instr scavenge).symm.trans hexpand)
    obtain rfl := Option.some.inj (hexec.symm.trans hexec')
    exact ⟨hresult, hregs⟩
  · rintro ⟨hresult, hregs⟩
    exact ⟨_, s', i.expandMI_instr scavenge, hexec, hresult, hregs, hsp⟩

/-- **When the expansion computes the value**, for every destination, value and constant. -/
theorem computes_iff (i : LogicImm) (scavenge : MachineInstr → Option Reg) (s : MachineState) :
    i.Computes scavenge s ↔ i.RightWhen s := by
  obtain ⟨s', hexec, hacc, hrest, hsp⟩ := i.exists_execAccImms s
  rw [computes_iff_of_run hexec hsp scavenge, RightWhen, result]
  split_ifs with hdst
  · rw [hdst, hacc]
    exact and_iff_left hrest
  · rw [hrest _ hdst, eq_comm]
    refine and_congr_right fun _ => ?_
    constructor
    · intro h
      rw [← hacc]
      exact h .A fun heq => hdst heq.symm
    · intro h r hr
      by_cases hA : r = .A
      · rw [hA, hacc, h]
      · exact hrest r hA

/-- `A & 0x1234` in the accumulator: the two bytes leave `A & 0x10`. -/
theorem not_computes_ANDIWRdK_A :
    ¬ Computes ⟨.and, .A, 0x1234⟩ (fun _ => none)
      ⟨fun _ => 0xff, ⟨⟨false, false, false, false⟩, 0⟩, 0x1fff, fun _ => 0⟩ := by
  intro h
  obtain ⟨s', hexec, hacc, -, hsp⟩ := exists_execAccImms ⟨.and, .A, 0x1234⟩
    ⟨fun _ => 0xff, ⟨⟨false, false, false, false⟩, 0⟩, 0x1fff, fun _ => 0⟩
  obtain ⟨hresult, -⟩ := (computes_iff_of_run hexec hsp _).mp h
  have heq := hacc.symm.trans hresult
  revert heq
  decide

end LogicImm

end Snes
