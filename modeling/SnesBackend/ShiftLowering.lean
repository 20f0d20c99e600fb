/-
# Lowering of Shifts

`LowerShifts` makes of a shift by a constant as many nodes for a single bit, and of a shift by
another value a loop node, whose pseudo `insertShift` expands.  Both do the same single
steps; of 16 bits a single step is a pseudo of its own, with an instruction for each byte.
-/
import SnesBackend.AtomicRuns
import SnesBackend.ShiftInsertion
import SnesBackend.WordPseudos

namespace Snes

open WordArith BlockLayout

/-! ## Nodes -/

/-- The nodes that `LowerShifts` lowers. -/
inductive ShiftNode where
  | SHL | SRL | ROTL | ROTR | SRA
deriving DecidableEq, Repr

/-- The nodes for a single bit. -/
inductive StepNode where
  | LSL | LSR | ASR | ROL | ROR
deriving DecidableEq, Repr

/-- The nodes for any number of bits. -/
inductive LoopNode where
  | LSLLOOP | LSRLOOP | ASRLOOP | ROLLOOP | RORLOOP
deriving DecidableEq, Repr

/-- The amount of a shift: a constant, or another value. -/
inductive ShiftAmount where
  | constant (k : ℕ)
  | value
deriving DecidableEq, Repr

/-- What becomes of a shift: its first operand, under nodes for a single bit, or a loop node. -/
inductive LoweredShift where
  | operand0
  | node (op : StepNode) (operand : LoweredShift)
  | loop (op : LoopNode)
deriving DecidableEq, Repr

/-- The loop node. -/
def ShiftNode.loopNode : ShiftNode → LoopNode
  | SHL => .LSLLOOP
  | SRL => .LSRLOOP
  | ROTL => .ROLLOOP
  | ROTR => .RORLOOP
  | SRA => .ASRLOOP

/-- `Opc8`. -/
def ShiftNode.opc8 : ShiftNode → StepNode
  | SRA => .ASR
  | ROTL => .ROL
  | ROTR => .ROR
  | SRL => .LSR
  | SHL => .LSL

/-- `while (ShiftAmount--) Victim = DAG.getNode(Opc8, dl, VT, Victim)`. -/
def nestNodes (opc8 : StepNode) : ℕ → LoweredShift → LoweredShift
  | 0, victim => victim
  | shiftAmount + 1, victim => nestNodes opc8 shiftAmount (.node opc8 victim)

/-- `LowerShifts`. -/
def lowerShifts (n : ShiftNode) : ShiftAmount → LoweredShift
  | .value => .loop n.loopNode
  | .constant k => nestNodes n.opc8 k .operand0

/-! ## Selected instructions -/

/-- The instruction for a single bit of a byte, and the pseudo for a single bit of a word. -/
def StepNode.opcode (type : ValueType) (op : StepNode) : Opcode :=
  match type, op with
  | .i8, LSL => .LSLRd
  | .i8, LSR => .LSRRd
  | .i8, ASR => .ASRRd
  | .i8, ROL => .ROLRd
  | .i8, ROR => .RORRd
  | .i16, LSL => .LSLWRd
  | .i16, LSR => .LSRWRd
  | .i16, ASR => .ASRWRd
  | .i16, ROL => .ROLWRd
  | .i16, ROR => .RORWRd

/-- The pseudo of a loop node. -/
def LoopNode.pseudo (type : ValueType) (op : LoopNode) : ShiftPseudo :=
  match type, op with
  | .i8, LSLLOOP => .Lsl8
  | .i8, LSRLOOP => .Lsr8
  | .i8, ASRLOOP => .Asr8
  | .i8, ROLLOOP => .Rol8
  | .i8, RORLOOP => .Ror8
  | .i16, LSLLOOP => .Lsl16
  | .i16, LSRLOOP => .Lsr16
  | .i16, ASRLOOP => .Asr16
  | .i16, ROLLOOP => .Rol16
  | .i16, RORLOOP => .Ror16

/-- **Both lowerings do the same single steps.** -/
theorem opc_pseudo_loopNode (n : ShiftNode) (type : ValueType) :
    (n.loopNode.pseudo type).opc = n.opc8.opcode type := by
  cases n <;> cases type <;> rfl

/-- A single-step instruction on a register: the pseudos have the word, the others its low byte. -/
def stepInstr (opc : Opcode) (r : WordReg) : MachineInstr :=
  match opc with
  | .LSLWRd | .LSRWRd | .ASRWRd | .ROLWRd | .RORWRd => ⟨opc, [.reg (.word r), .reg (.word r)]⟩
  | _ => ⟨opc, [.reg (.byte r.subLo), .reg (.byte r.subLo)]⟩

/-- The instructions of nested nodes, the innermost node first. -/
def LoweredShift.instrs (opcode : StepNode → Opcode) (r : WordReg) :
    LoweredShift → Option (List MachineInstr)
  | operand0 => some []
  | node op operand => (operand.instrs opcode r).map (· ++ [stepInstr (opcode op) r])
  | loop _ => none

/-- Nested nodes are as many single-step instructions. -/
theorem instrs_nestNodes (opcode : StepNode → Opcode) (r : WordReg) (op : StepNode) (k : ℕ)
    (v : LoweredShift) : (nestNodes op k v).instrs opcode r =
      (v.instrs opcode r).map (· ++ List.replicate k (stepInstr (opcode op) r)) := by
  induction k generalizing v with
  | zero => simp [nestNodes]
  | succ k ih =>
      rw [nestNodes, ih, LoweredShift.instrs, Option.map_map]
      congr 1
      funext mis
      rw [Function.comp_apply, List.append_assoc, List.replicate_succ, List.singleton_append]

/-- A shift by a constant is as many single-step instructions. -/
theorem instrs_lowerShifts (opcode : StepNode → Opcode) (r : WordReg) (n : ShiftNode) (k : ℕ) :
    (lowerShifts n (.constant k)).instrs opcode r =
      some (List.replicate k (stepInstr (opcode n.opc8) r)) := by
  rw [lowerShifts, instrs_nestNodes]
  rfl

/-! ## Execution -/

/-- Execute a single-step instruction; a pseudo is expanded first. -/
def execStep (scavenge : MachineInstr → Option Reg) (mi : MachineInstr) (s : MachineState) :
    Option MachineState :=
  match expandMI scavenge mi with
  | .unchanged => execAlu mi s
  | .expanded mis => execAluBlock mis s
  | .failure => none

/-- Execute single-step instructions one after the other. -/
def execSteps (scavenge : MachineInstr → Option Reg) :
    List MachineInstr → MachineState → Option MachineState
  | [], s => some s
  | mi :: rest, s => (execStep scavenge mi s).bind (execSteps scavenge rest)

/-- **As many steps as instructions**: what one instruction makes of a part of the state, `k` of
them make of it `k` times. -/
theorem exists_execSteps_replicate {α : Type} {scavenge : MachineInstr → Option Reg}
    {mi : MachineInstr} (view : MachineState → α) (once : α → α)
    (hstep : ∀ s, ∃ s', execStep scavenge mi s = some s' ∧ view s' = once (view s)) (k : ℕ)
    (s : MachineState) :
    ∃ s', execSteps scavenge (List.replicate k mi) s = some s' ∧ view s' = once^[k] (view s) := by
  induction k generalizing s with
  | zero => exact ⟨s, rfl, rfl⟩
  | succ k ih =>
      obtain ⟨mid, hmid, hview⟩ := hstep s
      obtain ⟨last, hlast, hlastView⟩ := ih mid
      refine ⟨last, ?_, ?_⟩
      · rw [List.replicate_succ, execSteps, hmid]
        exact hlast
      · rw [hlastView, hview, Function.iterate_succ_apply]

/-- The single steps of a loop over virtual registers, when each is carried out in the register `r`
of a machine that is in the state `s` otherwise. -/
def machineStep (scavenge : MachineInstr → Option Reg) (r : WordReg) (s : MachineState) :
    SingleStep :=
  fun opc carry x =>
    let start := (s.setWord r x).setFlags { s.p.toFlags with carry := carry }
    match execStep scavenge (stepInstr opc r) start with
    | some t => (t.word r, t.p.toFlags)
    | none => (x, start.p.toFlags)

/-- What the nested nodes for a constant amount leave in the register of the value. -/
def NodesLeave (scavenge : MachineInstr → Option Reg) (n : ShiftNode) (opcode : StepNode → Opcode)
    (k : ℕ) (type : ValueType) (r : WordReg) (s : MachineState) (y : BitVec type.width) : Prop :=
  ∃ mis s', (lowerShifts n (.constant k)).instrs opcode r = some mis ∧
    execSteps scavenge mis s = some s' ∧ s'.get type r = y

/-- The nested nodes leave what `k` single steps make of the value. -/
theorem nodesLeave_iff {α : Type} {scavenge : MachineInstr → Option Reg} {n : ShiftNode}
    {opcode : StepNode → Opcode} {type : ValueType} {r : WordReg} (view : MachineState → α)
    (once : α → α) (value : α → BitVec type.width) (hvalue : ∀ s, value (view s) = s.get type r)
    (hstep : ∀ s, ∃ s', execStep scavenge (stepInstr (opcode n.opc8) r) s = some s' ∧
      view s' = once (view s)) (k : ℕ) (s : MachineState) (y : BitVec type.width) :
    NodesLeave scavenge n opcode k type r s y ↔ value (once^[k] (view s)) = y := by
  obtain ⟨s', hexec, hview⟩ := exists_execSteps_replicate view once hstep k s
  have hinstrs := instrs_lowerShifts opcode r n k
  rw [← hview, hvalue]
  constructor
  · rintro ⟨mis, s'', hmis, hexec', hy⟩
    obtain rfl := Option.some.inj (hinstrs.symm.trans hmis)
    obtain rfl := Option.some.inj (hexec.symm.trans hexec')
    exact hy
  · intro hy
    exact ⟨_, s', hinstrs, hexec, hy⟩

end Snes
