/-
# Machine Functions before Register Allocation

Blocks of instructions over virtual registers, with phi nodes, terminators and
successors, in layout order; what they do; and what `transferSuccessorsAndUpdatePHIs`
does to the phi nodes.

Instructions other than those that the custom inserters take apart or build are
given by their effect.
-/
import SnesBackend.BlockLayout
import SnesBackend.CompareLowering
import SnesBackend.InstrInfo

namespace Snes

open WordArith BlockLayout

variable {μ : Type}

/-! ## States -/

/-- A state: the virtual registers, the flags, and everything else. -/
structure RegState (μ : Type) where
  vregs : ℕ → BitVec 16
  flags : Flags
  rest : μ

/-- Writing a virtual register. -/
def RegState.set (s : RegState μ) (r : ℕ) (x : BitVec 16) : RegState μ :=
  { s with vregs := Function.update s.vregs r x }

/-- States that agree on the registers below a bound and on everything else. -/
structure AgreeBelow (bound : ℕ) (s t : RegState μ) : Prop where
  vregs : ∀ r < bound, s.vregs r = t.vregs r
  flags : s.flags = t.flags
  rest : s.rest = t.rest

/-- States agree with themselves. -/
theorem AgreeBelow.refl (bound : ℕ) (s : RegState μ) : AgreeBelow bound s s :=
  ⟨fun _ _ => rfl, rfl, rfl⟩

/-- Writing the same value keeps the agreement. -/
theorem AgreeBelow.set {bound : ℕ} {s t : RegState μ} (h : AgreeBelow bound s t) (r : ℕ)
    {x y : BitVec 16} (hxy : x = y) : AgreeBelow bound (s.set r x) (t.set r y) := by
  subst hxy
  refine ⟨fun q hq => ?_, h.flags, h.rest⟩
  simp only [RegState.set, Function.update_apply, h.vregs q hq]

/-- Setting the same flags keeps the agreement. -/
theorem AgreeBelow.withFlags {bound : ℕ} {s t : RegState μ} (h : AgreeBelow bound s t)
    {f g : Flags} (hfg : f = g) :
    AgreeBelow bound { s with flags := f } { t with flags := g } :=
  ⟨h.vregs, hfg, h.rest⟩

/-! ## Instructions -/

/-- The shift pseudos that become loops. -/
inductive ShiftPseudo where
  | Lsl8 | Lsl16 | Asr8 | Asr16 | Lsr8 | Lsr16 | Rol8 | Rol16 | Ror8 | Ror16
deriving DecidableEq, Repr

/-- The single-step instruction of a shift pseudo. -/
def ShiftPseudo.opc : ShiftPseudo → Opcode
  | Lsl8 => .LSLRd
  | Lsl16 => .LSLWRd
  | Asr8 => .ASRRd
  | Asr16 => .ASRWRd
  | Lsr8 => .LSRRd
  | Lsr16 => .LSRWRd
  | Rol8 => .ROLRd
  | Rol16 => .ROLWRd
  | Ror8 => .RORRd
  | Ror16 => .RORWRd

/-- What a single-step instruction makes of the carry and its operand: a result and flags. -/
abbrev SingleStep : Type := Opcode → Bool → BitVec 16 → BitVec 16 × Flags

/-- Instructions that are neither phi nodes nor terminators.  Multiplications, and copies from `A`,
are told apart, but given by their effect too: `A` is part of everything else. -/
inductive VInst (μ : Type) where
  | other (effect : RegState μ → RegState μ)
  | MULRdRr (effect : RegState μ → RegState μ)
  | MULSRdRr (effect : RegState μ → RegState μ)
  | copyFromA (effect : RegState μ → RegState μ)
  | CPIRdK (rd : ℕ) (k : BitVec 16)
  | SUBIRdK (rd src : ℕ) (k : BitVec 16)
  | shift (opc : Opcode) (rd src : ℕ)
  | shiftPseudo (opc : ShiftPseudo) (dst src cnt : ℕ)
  | selectPseudo (dst src src2 : ℕ) (cc : SNESCC)

/-- The single step of a shift pseudo; every round of the loop starts with the carry clear. -/
def ShiftPseudo.once (shift : SingleStep) (p : ShiftPseudo) (x : BitVec 16) : BitVec 16 :=
  (shift p.opc false x).1

/-- The effect of an instruction.  A shift pseudo takes `cnt` single steps and clobbers the flags,
which are left as those of the exhausted count. -/
def VInst.exec (shift : SingleStep) (i : VInst μ) (s : RegState μ) : RegState μ :=
  match i with
  | other effect | MULRdRr effect | MULSRdRr effect | copyFromA effect => effect s
  | CPIRdK rd k => { s with flags := cmpFlags (s.vregs rd) k }
  | SUBIRdK rd src k =>
      { s.set rd (s.vregs src - k) with flags := cmpFlags (s.vregs src) k }
  | .shift opc rd src =>
      { s.set rd (shift opc s.flags.carry (s.vregs src)).1 with
        flags := (shift opc s.flags.carry (s.vregs src)).2 }
  | shiftPseudo p dst src cnt =>
      { s.set dst ((p.once shift)^[(s.vregs cnt).toNat] (s.vregs src)) with
        flags := cmpFlags (0 : BitVec 16) 0 }
  | selectPseudo dst src src2 cc =>
      s.set dst (if cc.holds s.flags then s.vregs src else s.vregs src2)

/-- The effect of a list of instructions. -/
def execAll (shift : SingleStep) (is : List (VInst μ)) (s : RegState μ) : RegState μ :=
  is.foldl (fun s i => i.exec shift s) s

/-- Instructions in sequence. -/
theorem execAll_append (shift : SingleStep) (is js : List (VInst μ)) (s : RegState μ) :
    execAll shift (is ++ js) s = execAll shift js (execAll shift is s) :=
  List.foldl_append

/-- An instruction reads registers below a bound only. -/
def VInst.Below (bound : ℕ) : VInst μ → Prop
  | other effect | MULRdRr effect | MULSRdRr effect | copyFromA effect =>
      ∀ s t, AgreeBelow bound s t → AgreeBelow bound (effect s) (effect t)
  | CPIRdK rd _ => rd < bound
  | SUBIRdK _ src _ => src < bound
  | .shift _ _ src => src < bound
  | shiftPseudo _ _ src cnt => src < bound ∧ cnt < bound
  | selectPseudo _ src src2 _ => src < bound ∧ src2 < bound

/-- Such an instruction keeps agreement. -/
theorem VInst.Below.exec {bound : ℕ} {i : VInst μ} (hi : i.Below bound) (shift : SingleStep)
    {s t : RegState μ} (h : AgreeBelow bound s t) :
    AgreeBelow bound (i.exec shift s) (i.exec shift t) := by
  cases i with
  | other effect | MULRdRr effect | MULSRdRr effect | copyFromA effect => exact hi s t h
  | CPIRdK rd k => exact h.withFlags (by rw [h.vregs rd hi])
  | SUBIRdK rd src k =>
      have hsrc := h.vregs src hi
      exact (h.set rd (by rw [hsrc])).withFlags (by rw [hsrc])
  | shift opc rd src =>
      have hsrc := h.vregs src hi
      exact (h.set rd (by rw [hsrc, h.flags])).withFlags (by rw [hsrc, h.flags])
  | shiftPseudo p dst src cnt =>
      exact (h.set dst (by rw [h.vregs src hi.1, h.vregs cnt hi.2])).withFlags rfl
  | selectPseudo dst src src2 cc =>
      exact h.set dst (by rw [h.vregs src hi.1, h.vregs src2 hi.2, h.flags])

/-- Lists of such instructions keep agreement. -/
theorem execAll_below {bound : ℕ} {is : List (VInst μ)} (his : ∀ i ∈ is, i.Below bound)
    (shift : SingleStep) {s t : RegState μ} (h : AgreeBelow bound s t) :
    AgreeBelow bound (execAll shift is s) (execAll shift is t) := by
  induction is generalizing s t with
  | nil => exact h
  | cons i is ih =>
      rw [List.forall_mem_cons] at his
      exact ih his.2 (his.1.exec shift h)

/-! ## Terminators -/

/-- The conditional branches. -/
inductive BranchOpcode where
  | BREQk | BRNEk | BRGEk | BRLTk | BRSHk | BRLOk | BRMIk | BRPLk
deriving DecidableEq, Repr

/-- `getBrCond`. -/
def getBrCond : SNESCC → BranchOpcode
  | .COND_EQ => .BREQk
  | .COND_NE => .BRNEk
  | .COND_GE => .BRGEk
  | .COND_LT => .BRLTk
  | .COND_SH => .BRSHk
  | .COND_LO => .BRLOk
  | .COND_MI => .BRMIk
  | .COND_PL => .BRPLk

/-- When a conditional branch is taken. -/
def BranchOpcode.taken (b : BranchOpcode) (f : Flags) : Bool :=
  match b with
  | BREQk => f.zero
  | BRNEk => !f.zero
  | BRGEk => !(f.negative != f.overflow)
  | BRLTk => f.negative != f.overflow
  | BRSHk => !f.carry
  | BRLOk => f.carry
  | BRMIk => f.negative
  | BRPLk => !f.negative

/-- The branch of a condition is taken when the condition holds. -/
theorem taken_getBrCond (cc : SNESCC) (f : Flags) : (getBrCond cc).taken f = cc.holds f := by
  cases cc <;> rfl

/-- Terminators. -/
inductive Terminator where
  | branch (opc : BranchOpcode) (target : ℕ)
  | RJMPk (target : ℕ)
  | RET
deriving DecidableEq, Repr

/-- A terminator that control cannot pass. -/
def Terminator.isBarrier : Terminator → Bool
  | branch _ _ => false
  | _ => true

/-- The targets of a terminator. -/
def Terminator.targets : Terminator → List ℕ
  | branch _ target => [target]
  | RJMPk target => [target]
  | RET => []

/-- How control leaves through a list of terminators. -/
def exitOf : List Terminator → Flags → Exit ℕ
  | [], _ => .fallThrough
  | .branch opc target :: ts, f => if opc.taken f then .jump target else exitOf ts f
  | .RJMPk target :: _, _ => .jump target
  | .RET :: _, _ => .stop

/-- Control jumps to the targets only. -/
theorem mem_targets_of_exitOf {ts : List Terminator} {f : Flags} {t : ℕ}
    (h : exitOf ts f = .jump t) : ∃ x ∈ ts, t ∈ x.targets := by
  induction ts with
  | nil => cases h
  | cons x ts ih =>
      have later (h : exitOf ts f = .jump t) : ∃ y ∈ x :: ts, t ∈ y.targets := by
        obtain ⟨y, hy, ht⟩ := ih h
        exact ⟨y, List.mem_cons_of_mem x hy, ht⟩
      cases x with
      | branch opc target =>
          rw [exitOf] at h
          split_ifs at h with taken
          · injection h with h
            exact ⟨_, List.mem_cons_self, by simp [Terminator.targets, h]⟩
          · exact later h
      | RJMPk target =>
          injection h with h
          exact ⟨_, List.mem_cons_self, by simp [Terminator.targets, h]⟩
      | RET => cases h

/-- Control falls through only where there is no barrier. -/
theorem no_barrier_of_exitOf {ts : List Terminator} {f : Flags}
    (h : exitOf ts f = .fallThrough) : ts.any Terminator.isBarrier = false := by
  induction ts with
  | nil => rfl
  | cons x ts ih =>
      cases x with
      | branch opc target =>
          rw [exitOf] at h
          split_ifs at h with taken
          exact ih h
      | RJMPk target => cases h
      | RET => cases h

/-! ## Phi nodes -/

/-- A phi node: its register, and a register for each incoming block. -/
structure MachinePhi where
  dst : ℕ
  incoming : List (ℕ × ℕ)
deriving DecidableEq, Repr

/-- The register that a phi node takes when control comes from a block. -/
def MachinePhi.regFor (phi : MachinePhi) (pred : ℕ) : Option ℕ :=
  (phi.incoming.find? fun x => x.2 = pred).map Prod.fst

/-- The phi nodes of a block, all at once; a node without an entry for the block that control
comes from keeps its register. -/
def evalPhis (phis : List MachinePhi) (pred : Option ℕ) (s : RegState μ) : RegState μ :=
  { s with
    vregs := fun r =>
      match phis.find? fun phi => phi.dst = r with
      | some phi => s.vregs ((pred.bind phi.regFor).getD r)
      | none => s.vregs r }

/-- The number of a block after `fromMBB` has been replaced by `toMBB`. -/
def renameMBB (fromMBB toMBB x : ℕ) : ℕ :=
  if x = fromMBB then toMBB else x

/-- Replacing a block in a phi node. -/
def MachinePhi.rename (fromMBB toMBB : ℕ) (phi : MachinePhi) : MachinePhi :=
  { phi with incoming := phi.incoming.map fun x => (x.1, renameMBB fromMBB toMBB x.2) }

/-! ## Blocks and functions -/

/-- A block. -/
structure MachineBasicBlock (μ : Type) where
  number : ℕ
  phis : List MachinePhi
  insts : List (VInst μ)
  terminators : List Terminator
  successors : List ℕ

/-- What a block does: its phi nodes, its instructions, its terminators. -/
def MachineBasicBlock.run (shift : SingleStep) (b : MachineBasicBlock μ) (pred : Option ℕ)
    (s : RegState μ) : RegState μ × Exit ℕ :=
  let t := execAll shift b.insts (evalPhis b.phis pred s)
  (t, exitOf b.terminators t.flags)

/-- Control may fall through at the end of a block. -/
def MachineBasicBlock.canFallThrough (b : MachineBasicBlock μ) : Prop :=
  b.terminators.any Terminator.isBarrier = false

/-- A function: its blocks in layout order, and the numbers that are not in use. -/
structure MachineFunction (μ : Type) where
  blocks : List (MachineBasicBlock μ)
  numBlockIDs : ℕ
  numVirtRegs : ℕ

/-- The numbers of the blocks, in layout order. -/
def MachineFunction.ids (F : MachineFunction μ) : List ℕ :=
  F.blocks.map MachineBasicBlock.number

/-- The program of a function. -/
def MachineFunction.layout (shift : SingleStep) (F : MachineFunction μ) :
    List (Block ℕ (RegState μ)) :=
  F.blocks.map fun b => ⟨b.number, b.run shift⟩

/-- The names of the program are the numbers of the blocks. -/
theorem MachineFunction.map_id_layout (shift : SingleStep) (F : MachineFunction μ) :
    (F.layout shift).map Block.id = F.ids := by
  rw [layout, List.map_map]
  rfl

/-- Every block that control can fall out of is followed by one of its successors. -/
def MachineFunction.FallsToSuccessor (F : MachineFunction μ) : Prop :=
  ∀ b ∈ F.blocks, b.canFallThrough →
    ∃ t, layoutNext F.ids b.number = some t ∧ t ∈ b.successors

/-- What the machine verifier asks of a function. -/
structure MachineFunction.WellFormed (F : MachineFunction μ) : Prop where
  nodup : F.ids.Nodup
  ids_lt : ∀ b ∈ F.blocks, b.number < F.numBlockIDs
  successors_mem : ∀ b ∈ F.blocks, ∀ t ∈ b.successors, t ∈ F.ids
  targets_mem : ∀ b ∈ F.blocks, ∀ x ∈ b.terminators, ∀ t ∈ x.targets, t ∈ b.successors
  falls : F.FallsToSuccessor
  phis_below : ∀ b ∈ F.blocks, ∀ phi ∈ b.phis, ∀ x ∈ phi.incoming, x.1 < F.numVirtRegs
  phis_pred : ∀ b ∈ F.blocks, ∀ phi ∈ b.phis, ∀ x ∈ phi.incoming,
    ∃ p ∈ F.blocks, p.number = x.2 ∧ b.number ∈ p.successors
  insts_below : ∀ b ∈ F.blocks, ∀ i ∈ b.insts, i.Below F.numVirtRegs

/-- An occurrence of an instruction in a function. -/
structure PseudoSite (F : MachineFunction μ) (mi : VInst μ) where
  pre : List (MachineBasicBlock μ)
  bb : MachineBasicBlock μ
  post : List (MachineBasicBlock μ)
  before : List (VInst μ)
  after : List (VInst μ)
  blocks_eq : F.blocks = pre ++ bb :: post
  insts_eq : bb.insts = before ++ mi :: after

end Snes
