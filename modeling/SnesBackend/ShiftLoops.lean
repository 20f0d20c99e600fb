/-
# Loops of Single Steps

The blocks that `insertShift` makes, run along the edges of the control flow graph, and the two
lowerings of a shift side by side: nested nodes and the loop both give the shifted value.
-/
import SnesBackend.ShiftLowering

namespace Snes

open WordArith BlockLayout

variable {μ : Type}

/-! ## Control along edges -/

/-- The successor that control falls through to: the one that no terminator names. -/
def MachineBasicBlock.fallThroughSuccessor (b : MachineBasicBlock μ) : Option ℕ :=
  b.successors.find? fun t => b.terminators.all fun x => !x.targets.contains t

/-- Where an exit leads along the edges: what falls through goes to that successor. -/
def MachineBasicBlock.edge (b : MachineBasicBlock μ) : Exit ℕ → Exit ℕ
  | .fallThrough => (b.fallThroughSuccessor.map Exit.jump).getD .fallThrough
  | exit => exit

/-- The program of a function along the edges of its control flow graph. -/
def MachineFunction.edges (shift : SingleStep) (F : MachineFunction μ) :
    List (Block ℕ (RegState μ)) :=
  F.blocks.map fun b =>
    ⟨b.number, fun pred s => ((b.run shift pred s).1, b.edge (b.run shift pred s).2)⟩

/-- The step of a block along the edges. -/
theorem step_edges {F : MachineFunction μ} (hF : F.ids.Nodup) (shift : SingleStep)
    {b : MachineBasicBlock μ} (hb : b ∈ F.blocks) (pred : Option ℕ) (s : RegState μ) :
    step (F.edges shift) ⟨pred, .block b.number, s⟩ =
      ⟨some b.number, (b.edge (b.run shift pred s).2).place F.ids b.number,
        (b.run shift pred s).1⟩ := by
  have names : (F.edges shift).map Block.id = F.ids := by
    rw [MachineFunction.edges, List.map_map]
    rfl
  have mem : (⟨b.number, fun pred s => ((b.run shift pred s).1, b.edge (b.run shift pred s).2)⟩ :
      Block ℕ (RegState μ)) ∈ F.edges shift := List.mem_map_of_mem hb
  have key := step_of_mem (by rwa [names]) mem pred s
  rwa [names] at key

/-- A block with one conditional branch leads to its target or to the other successor. -/
theorem place_edge_branch {b : MachineBasicBlock μ} {opc : BranchOpcode} {target next : ℕ}
    (hterminators : b.terminators = [.branch opc target])
    (hnext : b.fallThroughSuccessor = some next) (f : Flags) (ids : List ℕ) (id : ℕ) :
    (b.edge (exitOf b.terminators f)).place ids id =
      .block (if opc.taken f = true then target else next) := by
  rw [hterminators, exitOf]
  split_ifs with htaken
  · rfl
  · rw [exitOf, MachineBasicBlock.edge, hnext]
    rfl

section

variable {F : MachineFunction μ} {p : ShiftPseudo} {dst src cnt : ℕ}

/-- The loop and what is left of the old block are there. -/
theorem mem_insertShift_blocks (site : PseudoSite F (.shiftPseudo p dst src cnt)) :
    site.shiftBB ∈ (insertShift F site).blocks ∧ site.loopBB ∈ (insertShift F site).blocks := by
  constructor
  · have split := List.take_append_drop 1
      (site.pre.map (fun b => b.updatePHIs site.bb (remBBNumber F)) ++ site.shiftBB ::
        site.post.map fun b => b.updatePHIs site.bb (remBBNumber F))
    have mem : site.shiftBB ∈ site.pre.map (fun b => b.updatePHIs site.bb (remBBNumber F)) ++
        site.shiftBB :: site.post.map fun b => b.updatePHIs site.bb (remBBNumber F) :=
      List.mem_append_cons_self
    rw [← split] at mem
    rcases List.mem_append.mp mem with hfirst | hrest
    · exact List.mem_append_left _ hfirst
    · exact List.mem_append_right _ (List.mem_cons_of_mem _ (List.mem_cons_of_mem _ hrest))
  · exact List.mem_append_right _ List.mem_cons_self

/-- Control falls through from the old block to the loop, and from the loop to the rest. -/
theorem fallThroughSuccessor_new (site : PseudoSite F (.shiftPseudo p dst src cnt)) :
    site.shiftBB.fallThroughSuccessor = some (loopBBNumber F) ∧
      site.loopBB.fallThroughSuccessor = some (remBBNumber F) := by
  have ne : loopBBNumber F ≠ remBBNumber F := Nat.ne_of_lt (Nat.lt_succ_self _)
  constructor
  · simp [MachineBasicBlock.fallThroughSuccessor, PseudoSite.shiftBB, Terminator.targets, ne]
  · simp [MachineBasicBlock.fallThroughSuccessor, PseudoSite.loopBB, Terminator.targets, ne.symm]

/-- The step of `LoopBB` along the edges. -/
theorem step_edges_loopBB (hF : F.WellFormed) (site : PseudoSite F (.shiftPseudo p dst src cnt))
    (shift : SingleStep) (pred : Option ℕ) (s : RegState μ) :
    step ((insertShift F site).edges shift) ⟨pred, .block (loopBBNumber F), s⟩ =
      behindTest F (loopBBNumber F)
        (execAll shift site.loopBB.insts (evalPhis site.loopBB.phis pred s)) := by
  have at_loop := step_edges (insertShift_nodup hF site) shift (mem_insertShift_blocks site).2
    pred s
  refine at_loop.trans (congrArg (Config.mk _ · _) ?_)
  refine (place_edge_branch rfl (fallThroughSuccessor_new site).2 _ _ _).trans ?_
  -- the branch is the back edge, the other successor is the exit
  cases hzero : (execAll shift site.loopBB.insts
      (evalPhis site.loopBB.phis pred s)).flags.zero <;> simp [BranchOpcode.taken, hzero]

/-- The step of what is left of the old block along the edges. -/
theorem step_edges_shiftBB (hF : F.WellFormed) (site : PseudoSite F (.shiftPseudo p dst src cnt))
    (shift : SingleStep) (pred : Option ℕ) (s : RegState μ) :
    step ((insertShift F site).edges shift) ⟨pred, .block site.bb.number, s⟩ =
      behindTest F site.bb.number
        (execAll shift site.shiftBB.insts (evalPhis site.shiftBB.phis pred s)) := by
  have at_bb := step_edges (insertShift_nodup hF site) shift (mem_insertShift_blocks site).1
    pred s
  have number_eq : site.shiftBB.number = site.bb.number := updatePHIs_number _ _ _
  rw [number_eq] at at_bb
  refine at_bb.trans (congrArg (Config.mk _ · _) ?_)
  exact place_edge_branch rfl (fallThroughSuccessor_new site).1 _ _ _

/-! ## The loop -/

/-- The state in which the pseudo is reached. -/
def PseudoSite.atPseudo (site : PseudoSite F (.shiftPseudo p dst src cnt)) (shift : SingleStep)
    (c : Config ℕ (RegState μ)) : RegState μ :=
  execAll shift site.before (evalPhis site.shiftBB.phis c.pred c.state)

/-- **The loop along the edges**: control goes through the loop once for each unit of the count, and
`RemBB` takes what as many single steps make of the value. -/
theorem exists_path_edges (hF : F.WellFormed) (site : PseudoSite F (.shiftPseudo p dst src cnt))
    (shift : SingleStep) {c : Config ℕ (RegState μ)} (hplace : c.place = .block site.bb.number) :
    ∃ d, Path ((insertShift F site).edges shift) c (site.bb.number ::
        List.replicate ((site.atPseudo shift c).vregs cnt).toNat (loopBBNumber F)) d ∧
      d.place = .block (remBBNumber F) ∧
      (evalPhis site.remBB.phis d.pred d.state).vregs dst =
        (p.once shift)^[((site.atPseudo shift c).vregs cnt).toNat]
          ((site.atPseudo shift c).vregs src) := by
  obtain ⟨pred, place, s⟩ := c
  simp only at hplace
  subst hplace
  have below := hF.insts_below site.bb site.mem
  rw [site.insts_eq] at below
  have pseudo : (VInst.shiftPseudo p dst src cnt : VInst μ).Below F.numVirtRegs :=
    below _ List.mem_append_cons_self
  have enter := loopInvariant_of_step site shift pred s (step_edges_shiftBB hF site shift pred s)
    pseudo.1 pseudo.2 (AgreeBelow.refl _ _)
  obtain ⟨d, hpath, hexit⟩ := Path.replicate (loopBBNumber F) (LoopInvariant site shift _)
    (fun left c hc => by simpa using hc.place_eq)
    (fun left c hc => hc.next_of_step hF site shift (step_edges_loopBB hF site shift)) _ _ enter
  exact ⟨d, Path.cons rfl hpath, hexit.place_eq, hexit.exit_dst hF site shift⟩

/-- What the loop for a shift pseudo leaves: its single step can be expanded, and control comes to
`RemBB` with the value in the register of the result, after as many rounds as the count says. -/
def LoopLeaves (scavenge : MachineInstr → Option Reg)
    (site : PseudoSite F (.shiftPseudo p dst src cnt)) (r : WordReg) (s : MachineState)
    (c : Config ℕ (RegState μ)) (type : ValueType) (y : BitVec type.width) : Prop :=
  (∀ t, (execStep scavenge (stepInstr p.opc r) t).isSome = true) ∧
    ∃ d, Path ((insertShift F site).edges (machineStep scavenge r s)) c (site.bb.number ::
        List.replicate ((site.atPseudo (machineStep scavenge r s) c).vregs cnt).toNat
          (loopBBNumber F)) d ∧
      d.place = .block (remBBNumber F) ∧
      ((evalPhis site.remBB.phis d.pred d.state).vregs dst).setWidth type.width = y

/-- The loop leaves what the single steps make of the value. -/
theorem loopLeaves_iff (hF : F.WellFormed) (scavenge : MachineInstr → Option Reg)
    (site : PseudoSite F (.shiftPseudo p dst src cnt)) (r : WordReg) (s : MachineState)
    {c : Config ℕ (RegState μ)} (hplace : c.place = .block site.bb.number) (type : ValueType)
    (y : BitVec type.width) :
    LoopLeaves scavenge site r s c type y ↔
      (∀ t, (execStep scavenge (stepInstr p.opc r) t).isSome = true) ∧
        ((p.once (machineStep scavenge r s))^[
            ((site.atPseudo (machineStep scavenge r s) c).vregs cnt).toNat]
          ((site.atPseudo (machineStep scavenge r s) c).vregs src)).setWidth type.width = y := by
  obtain ⟨d, hpath, hrem, hvalue⟩ := exists_path_edges hF site (machineStep scavenge r s) hplace
  refine and_congr_right fun _ => ?_
  rw [← hvalue]
  constructor
  · rintro ⟨d', hpath', -, hy⟩
    rw [hpath.unique hpath']
    exact hy
  · intro hy
    exact ⟨d, hpath, hrem, hy⟩

end

/-! ## Shifts -/

/-- A value of a type is the word of its register, cut to the width. -/
theorem MachineState.get_eq_setWidth (s : MachineState) (type : ValueType) (r : WordReg) :
    s.get type r = (s.word r).setWidth type.width := by
  cases type with
  | i8 => exact (low_of_append _ _).symm
  | i16 => exact (BitVec.setWidth_eq _).symm

/-- The shifts proper. -/
inductive ShiftOp where
  | SHL | SRL | SRA
deriving DecidableEq, Repr

namespace ShiftOp

/-- The node. -/
def node : ShiftOp → ShiftNode
  | SHL => .SHL
  | SRL => .SRL
  | SRA => .SRA

/-- The shifted value. -/
def result {w : ℕ} (op : ShiftOp) (x : BitVec w) (k : ℕ) : BitVec w :=
  match op with
  | SHL => x <<< k
  | SRL => x >>> k
  | SRA => x.sshiftRight k

/-- Shifting by one more bit. -/
theorem result_succ {w : ℕ} (op : ShiftOp) (x : BitVec w) (k : ℕ) :
    op.result (op.result x k) 1 = op.result x (k + 1) := by
  cases op with
  | SHL => exact (BitVec.shiftLeft_add x k 1).symm
  | SRL => exact (BitVec.shiftRight_add x k 1).symm
  | SRA => exact (BitVec.sshiftRight_add).symm

/-- **Shifting by one bit `k` times** is shifting by `k` bits. -/
theorem iterate_result {w : ℕ} (op : ShiftOp) (x : BitVec w) (k : ℕ) :
    (fun y => op.result y 1)^[k] x = op.result x k := by
  induction k with
  | zero => cases op <;> simp [result]
  | succ k ih => rw [Function.iterate_succ_apply', ih, result_succ]

/-- The pseudo for a bit of a word. -/
def wordPseudo : ShiftOp → RegPseudo
  | SHL => .LSLW
  | SRL => .LSRW
  | SRA => .ASRW

/-- **One step** of the machine shifts the register by one bit: the instruction of the byte, or the
expansion of the pseudo of the word. -/
theorem exists_execStep (op : ShiftOp) (type : ValueType) (scavenge : MachineInstr → Option Reg)
    (r : WordReg) (s : MachineState) :
    ∃ s', execStep scavenge (stepInstr (op.node.opc8.opcode type) r) s = some s' ∧
      s'.get type r = op.result (s.get type r) 1 := by
  cases type with
  | i8 =>
      cases op with
      | SHL =>
          refine ⟨_, rfl, ?_⟩
          exact (MachineState.setResult_regs_self s r.subLo _).trans (shiftLeftIn_false _)
      | SRL =>
          refine ⟨_, rfl, ?_⟩
          exact (MachineState.setResult_regs_self s r.subLo _).trans (shiftRightIn_false _)
      | SRA =>
          refine ⟨_, rfl, ?_⟩
          exact (MachineState.setResult_regs_self s r.subLo _).trans (shiftRightIn_msb _)
  | i16 =>
      obtain ⟨mis, s', hexpand, hexec, heffect⟩ :=
        expandMI_wordPseudo scavenge (.reg op.wordPseudo r) s
      have hinstr : stepInstr (op.node.opc8.opcode .i16) r =
          (WordPseudo.reg op.wordPseudo r).instr := by
        cases op <;> rfl
      refine ⟨s', ?_, ?_⟩
      · rw [hinstr, execStep, hexpand]
        exact hexec
      · refine heffect.result.trans ?_
        cases op <;> rfl

/-- **One round** of the loop shifts the value by one bit. -/
theorem setWidth_once (op : ShiftOp) (type : ValueType) (scavenge : MachineInstr → Option Reg)
    (r : WordReg) (s : MachineState) (x : BitVec 16) :
    ((op.node.loopNode.pseudo type).once (machineStep scavenge r s) x).setWidth type.width =
      op.result (x.setWidth type.width) 1 := by
  obtain ⟨t, hexec, hvalue⟩ := op.exists_execStep type scavenge r
    ((s.setWord r x).setFlags { s.p.toFlags with carry := false })
  have hword : ((s.setWord r x).setFlags { s.p.toFlags with carry := false }).word r = x :=
    s.setWord_word_self r x
  rw [MachineState.get_eq_setWidth, MachineState.get_eq_setWidth, hword] at hvalue
  rw [ShiftPseudo.once, opc_pseudo_loopNode, machineStep, hexec]
  exact hvalue

/-- Both lowerings of a shift of a value by less than its width give the shifted value: the nested
nodes in every register and state that holds the value, and the loop in every function, wherever the
pseudo stands, that comes to it with the value and the amount. -/
def LoweredRight (op : ShiftOp) (type : ValueType) (scavenge : MachineInstr → Option Reg) :
    Prop :=
  ∀ (x : BitVec type.width) (k : ℕ), k < type.width →
    (∀ (r : WordReg) (s : MachineState), s.get type r = x →
      NodesLeave scavenge op.node (StepNode.opcode type) k type r s (op.result x k)) ∧
    ∀ (μ : Type) (F : MachineFunction μ) (dst src cnt : ℕ)
      (site : PseudoSite F (.shiftPseudo (op.node.loopNode.pseudo type) dst src cnt))
      (r : WordReg) (s : MachineState) (c : Config ℕ (RegState μ)),
      F.WellFormed → c.place = .block site.bb.number →
      ((site.atPseudo (machineStep scavenge r s) c).vregs src).setWidth type.width = x →
      ((site.atPseudo (machineStep scavenge r s) c).vregs cnt).toNat = k →
      LoopLeaves scavenge site r s c type (op.result x k)

/-- The nested nodes shift by the constant. -/
theorem nodesLeave (op : ShiftOp) (type : ValueType) (scavenge : MachineInstr → Option Reg)
    (k : ℕ) (r : WordReg) (s : MachineState) :
    NodesLeave scavenge op.node (StepNode.opcode type) k type r s
      (op.result (s.get type r) k) := by
  rw [nodesLeave_iff (fun t => t.get type r) (fun y => op.result y 1) id (fun _ => rfl)
    (op.exists_execStep type scavenge r)]
  exact op.iterate_result (s.get type r) k

/-- The loop shifts by the count. -/
theorem loopLeaves {F : MachineFunction μ} (hF : F.WellFormed) (op : ShiftOp) (type : ValueType)
    (scavenge : MachineInstr → Option Reg) {dst src cnt : ℕ}
    (site : PseudoSite F (.shiftPseudo (op.node.loopNode.pseudo type) dst src cnt)) (r : WordReg)
    (s : MachineState) {c : Config ℕ (RegState μ)} (hplace : c.place = .block site.bb.number) :
    LoopLeaves scavenge site r s c type
      (op.result (((site.atPseudo (machineStep scavenge r s) c).vregs src).setWidth type.width)
        ((site.atPseudo (machineStep scavenge r s) c).vregs cnt).toNat) := by
  rw [loopLeaves_iff hF scavenge site r s hplace]
  constructor
  · intro t
    obtain ⟨t', hexec, -⟩ := op.exists_execStep type scavenge r t
    rw [opc_pseudo_loopNode, hexec]
    rfl
  · have hround : Function.Semiconj (fun x : BitVec 16 => x.setWidth type.width)
        ((op.node.loopNode.pseudo type).once (machineStep scavenge r s))
        (fun y => op.result y 1) := op.setWidth_once type scavenge r s
    rw [← iterate_result]
    exact hround.iterate_right _ _

/-- **Both lowerings of a shift agree**, with each other and with the mathematical shift. -/
theorem loweredRight (op : ShiftOp) (type : ValueType) (scavenge : MachineInstr → Option Reg) :
    op.LoweredRight type scavenge := by
  intro x k _
  constructor
  · rintro r s rfl
    exact op.nodesLeave type scavenge k r s
  · rintro μ F dst src cnt site r s c hF hplace rfl rfl
    exact op.loopLeaves hF type scavenge site r s hplace

/-- `0x1234 << 3` by the loop of a shift in a second block. -/
theorem loopLeaves_twoBlocks :
    LoopLeaves (fun _ => none) twoBlocksSite .A
      ⟨fun _ => 0xff, ⟨⟨false, false, false, false⟩, 0⟩, 0x1fff, fun _ => 0⟩
      ⟨some 0, .block 1, ⟨fun r => if r = 0 then 0x1234 else 3, ⟨true, false, false, false⟩, ()⟩⟩
      .i16 (result .SHL (0x1234 : BitVec 16) 3) :=
  (loweredRight .SHL .i16 (fun _ => none) 0x1234 3 (by decide)).2 Unit twoBlocks 2 0 1
    twoBlocksSite .A _ _ twoBlocks_wellFormed rfl rfl rfl

end ShiftOp

end Snes
