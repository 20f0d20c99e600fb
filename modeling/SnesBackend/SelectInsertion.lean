/-
# Selects

`EmitInstrWithCustomInserter` of `SNESISelLowering.cpp` turns a select pseudo into
a branch: the block goes on in `trueMBB`, directly or through `falseMBB`, and
`trueMBB` runs what followed the pseudo.  `falseMBB` stands behind `trueMBB`.
-/
import SnesBackend.BlockSplit

namespace Snes

open WordArith BlockLayout

variable {μ : Type}

/-! ## `EmitInstrWithCustomInserter` -/

section

variable {F : MachineFunction μ} {dst src src2 : ℕ} {cc : SNESCC}

/-- The number of `trueMBB`. -/
def trueMBBNumber (F : MachineFunction μ) : ℕ :=
  F.numBlockIDs

/-- The number of `falseMBB`. -/
def falseMBBNumber (F : MachineFunction μ) : ℕ :=
  F.numBlockIDs + 1

/-- What is left of `MBB`: the branch on the condition. -/
def PseudoSite.selectMBB (site : PseudoSite F (.selectPseudo dst src src2 cc)) :
    MachineBasicBlock μ :=
  { site.bb.updatePHIs site.bb (trueMBBNumber F) with
    insts := site.before
    terminators := [.branch (getBrCond cc) (trueMBBNumber F), .RJMPk (falseMBBNumber F)]
    successors := [falseMBBNumber F, trueMBBNumber F] }

/-- `trueMBB`: the selected value, and what followed the pseudo. -/
def PseudoSite.trueMBB (site : PseudoSite F (.selectPseudo dst src src2 cc)) :
    MachineBasicBlock μ where
  number := trueMBBNumber F
  phis := [⟨dst, [(src, site.bb.number), (src2, falseMBBNumber F)]⟩]
  insts := site.after
  terminators := site.bb.terminators
  successors := site.bb.successors

/-- `falseMBB`: back to `trueMBB`. -/
def falseMBB (F : MachineFunction μ) : MachineBasicBlock μ where
  number := falseMBBNumber F
  phis := []
  insts := []
  terminators := [.RJMPk (trueMBBNumber F)]
  successors := [trueMBBNumber F]

/-- `EmitInstrWithCustomInserter` for a select: both blocks are inserted behind `MBB`. -/
def emitSelect (F : MachineFunction μ) (site : PseudoSite F (.selectPseudo dst src src2 cc)) :
    MachineFunction μ :=
  let update := fun b : MachineBasicBlock μ => b.updatePHIs site.bb (trueMBBNumber F)
  { blocks := site.pre.map update ++
      site.selectMBB :: site.trueMBB :: falseMBB F :: site.post.map update
    numBlockIDs := F.numBlockIDs + 2
    numVirtRegs := F.numVirtRegs }

/-- A select is executed right from a configuration at its block: control runs exactly once through
the instructions that followed it, and comes where it came before, with what the select leaves. -/
def SelectExecutedRight (F : MachineFunction μ)
    (site : PseudoSite F (.selectPseudo dst src src2 cc)) (shift : SingleStep)
    (c c' : Config ℕ (RegState μ)) : Prop :=
  ∃ path d', Path ((emitSelect F site).layout shift) c' path d' ∧
    path.count (trueMBBNumber F) = 1 ∧
    Corresponds F site.bb.number (trueMBBNumber F) (step (F.layout shift) c) d'

/-! ## The layout afterwards -/

/-- The numbers afterwards. -/
theorem emitSelect_ids (site : PseudoSite F (.selectPseudo dst src src2 cc)) :
    (emitSelect F site).ids = site.pre.map MachineBasicBlock.number ++
      site.bb.number :: ([trueMBBNumber F, falseMBBNumber F] ++
        site.post.map MachineBasicBlock.number) := by
  simp [emitSelect, MachineFunction.ids, PseudoSite.selectMBB, PseudoSite.trueMBB, falseMBB,
    Function.comp_def]

/-- There are no repetitions. -/
theorem emitSelect_nodup (hF : F.WellFormed)
    (site : PseudoSite F (.selectPseudo dst src src2 cc)) : (emitSelect F site).ids.Nodup := by
  have true_new : trueMBBNumber F ∉ F.ids := newBB_not_mem hF le_rfl
  have false_new : falseMBBNumber F ∉ F.ids := newBB_not_mem hF (Nat.le_succ _)
  have ne : trueMBBNumber F ≠ falseMBBNumber F := Nat.ne_of_lt (Nat.lt_succ_self _)
  have perm : List.Perm (emitSelect F site).ids
      (trueMBBNumber F :: falseMBBNumber F :: F.ids) := by
    rw [emitSelect_ids, site.ids_eq, List.append_cons, List.append_cons _ _ (List.map _ _)]
    refine List.perm_middle.trans (List.Perm.cons _ ?_)
    exact List.perm_middle
  rw [perm.nodup_iff, List.nodup_cons, List.nodup_cons, List.mem_cons, not_or]
  exact ⟨⟨ne, true_new⟩, false_new, hF.nodup⟩

/-- Other blocks keep their fall-through successors. -/
theorem emitSelect_others (hF : F.WellFormed)
    (site : PseudoSite F (.selectPseudo dst src src2 cc)) {b : MachineBasicBlock μ}
    (hb : b ∈ F.blocks) (hne : b.number ≠ site.bb.number) :
    layoutNext (emitSelect F site).ids b.number = layoutNext F.ids b.number := by
  have hlt := hF.ids_lt b hb
  rw [emitSelect_ids, site.ids_eq]
  refine layoutNext_insert_after _ hne ?_
  simp only [List.mem_cons, List.not_mem_nil, or_false, trueMBBNumber, falseMBBNumber]
  omega

/-- **`trueMBB` falls through to `falseMBB`**. -/
theorem emitSelect_next_trueMBB (hF : F.WellFormed)
    (site : PseudoSite F (.selectPseudo dst src src2 cc)) :
    layoutNext (emitSelect F site).ids (trueMBBNumber F) = some (falseMBBNumber F) := by
  have nodup := emitSelect_nodup hF site
  rw [emitSelect_ids, List.append_cons] at nodup ⊢
  rw [List.cons_append, layoutNext_append]
  · rfl
  · intro h
    exact (List.nodup_append.mp nodup).2.2 _ h _ List.mem_cons_self rfl

/-! ## Up to `trueMBB` -/

/-- `trueMBB` is a block of the new function. -/
theorem trueMBB_mem (site : PseudoSite F (.selectPseudo dst src src2 cc)) :
    site.trueMBB ∈ (emitSelect F site).blocks := by
  simp [emitSelect]

/-- `falseMBB` is a block of the new function. -/
theorem falseMBB_mem (site : PseudoSite F (.selectPseudo dst src src2 cc)) :
    falseMBB F ∈ (emitSelect F site).blocks := by
  simp [emitSelect]

/-- The step of what is left of `MBB`: to `trueMBB` when the condition holds, otherwise to
`falseMBB`. -/
theorem step_selectMBB (hF : F.WellFormed)
    (site : PseudoSite F (.selectPseudo dst src src2 cc)) (shift : SingleStep)
    (pred : Option ℕ) (s : RegState μ) :
    step ((emitSelect F site).layout shift) ⟨pred, .block site.bb.number, s⟩ =
      ⟨some site.bb.number,
        .block (if cc.holds (execAll shift site.before
          (evalPhis site.selectMBB.phis pred s)).flags
          then trueMBBNumber F else falseMBBNumber F),
        execAll shift site.before (evalPhis site.selectMBB.phis pred s)⟩ := by
  have mem : site.selectMBB ∈ (emitSelect F site).blocks := by simp [emitSelect]
  have number_eq : site.selectMBB.number = site.bb.number := updatePHIs_number _ _ _
  have at_bb := step_layout (emitSelect_nodup hF site) shift mem pred s
  rw [number_eq] at at_bb
  rw [at_bb]
  have exit_eq (f : Flags) (ids : List ℕ) (id : ℕ) :
      (exitOf site.selectMBB.terminators f).place ids id =
        .block (if cc.holds f then trueMBBNumber F else falseMBBNumber F) := by
    rw [← taken_getBrCond]
    by_cases taken : (getBrCond cc).taken f = true
    · simp only [PseudoSite.selectMBB, exitOf, taken, if_true, Exit.place]
    · simp only [PseudoSite.selectMBB, exitOf, taken, if_false, Exit.place, Bool.false_eq_true]
  simp only [MachineBasicBlock.run, exit_eq]
  rfl

/-- The step of `falseMBB`: back to `trueMBB`, with nothing changed. -/
theorem step_falseMBB (hF : F.WellFormed)
    (site : PseudoSite F (.selectPseudo dst src src2 cc)) (shift : SingleStep)
    (pred : Option ℕ) (s : RegState μ) :
    step ((emitSelect F site).layout shift) ⟨pred, .block (falseMBBNumber F), s⟩ =
      ⟨some (falseMBBNumber F), .block (trueMBBNumber F), s⟩ :=
  step_layout (emitSelect_nodup hF site) shift (falseMBB_mem site) pred s

/-- The value that the phi node of `trueMBB` brings in. -/
theorem evalPhis_trueMBB (hF : F.WellFormed)
    (site : PseudoSite F (.selectPseudo dst src src2 cc)) (taken : Bool) (s : RegState μ) :
    evalPhis site.trueMBB.phis
        (some (if taken then site.bb.number else falseMBBNumber F)) s =
      s.set dst (if taken then s.vregs src else s.vregs src2) := by
  have hlt := hF.ids_lt site.bb site.mem
  have hne : site.bb.number ≠ falseMBBNumber F := Nat.ne_of_lt (Nat.lt_succ_of_lt hlt)
  have value : (evalPhis site.trueMBB.phis
      (some (if taken then site.bb.number else falseMBBNumber F)) s).vregs =
      Function.update s.vregs dst (if taken then s.vregs src else s.vregs src2) := by
    funext r
    by_cases hdst : r = dst
    · subst hdst
      cases taken <;> simp [evalPhis, PseudoSite.trueMBB, MachinePhi.regFor, hne]
    · simp [evalPhis, PseudoSite.trueMBB, Ne.symm hdst, hdst]
  rw [RegState.set, ← value]
  rfl

/-- **Control reaches `trueMBB`** for the first time with what the select leaves, for every outcome
of the condition. -/
theorem select_reaches_trueMBB (hF : F.WellFormed)
    (site : PseudoSite F (.selectPseudo dst src src2 cc)) (shift : SingleStep)
    {c c' : Config ℕ (RegState μ)}
    (h : Corresponds F site.bb.number (trueMBBNumber F) c c')
    (hplace : c.place = .block site.bb.number) :
    ∃ path e, Path ((emitSelect F site).layout shift) c' path e ∧
      path.count (trueMBBNumber F) = 0 ∧ e.place = .block (trueMBBNumber F) ∧
      AgreeBelow F.numVirtRegs
        (execAll shift (site.before ++ [.selectPseudo dst src src2 cc])
          (evalPhis site.bb.phis c.pred c.state))
        (evalPhis site.trueMBB.phis e.pred e.state) := by
  obtain ⟨pred, place, s⟩ := c
  obtain ⟨pred', place', s'⟩ := c'
  obtain ⟨place_eq, -, pred_eq, pred_mem, agree⟩ := h
  simp only at hplace place_eq pred_eq pred_mem agree
  subst hplace place_eq pred_eq
  have below : ∀ i ∈ site.bb.insts, i.Below F.numVirtRegs := hF.insts_below site.bb site.mem
  rw [site.insts_eq] at below
  have true_new : trueMBBNumber F ∉ F.ids := newBB_not_mem hF le_rfl
  have phis := evalPhis_updatePHIs hF site.mem site.mem true_new pred_mem agree
  have start := execAll_below (fun i hi => below i (List.mem_append_left _ hi)) shift phis
  have selected := (below _ List.mem_append_cons_self).exec shift start
  have at_bb := step_selectMBB hF site shift
    (pred.map (renameMBB site.bb.number (trueMBBNumber F))) s'
  have hlt := hF.ids_lt site.bb site.mem
  have bb_ne : site.bb.number ≠ trueMBBNumber F := Nat.ne_of_lt hlt
  have false_ne : falseMBBNumber F ≠ trueMBBNumber F := Nat.ne_of_gt (Nat.lt_succ_self _)
  -- the state at the end of what is left of the block
  set t := execAll shift site.before
    (evalPhis site.selectMBB.phis (pred.map (renameMBB site.bb.number (trueMBBNumber F))) s')
    with ht
  have phi := evalPhis_trueMBB hF site (cc.holds t.flags) t
  have leaves : AgreeBelow F.numVirtRegs
      (execAll shift (site.before ++ [.selectPseudo dst src src2 cc])
        (evalPhis site.bb.phis pred s))
      (evalPhis site.trueMBB.phis
        (some (if cc.holds t.flags then site.bb.number else falseMBBNumber F)) t) := by
    rw [phi, execAll_append]
    exact selected
  cases taken : cc.holds t.flags with
  | true =>
      rw [taken, if_pos rfl] at at_bb leaves
      refine ⟨[site.bb.number], _, Path.single rfl, ?_, ?_, ?_⟩
      · simp [bb_ne]
      · rw [at_bb]
      · rw [at_bb]
        exact leaves
  | false =>
      rw [taken, if_neg Bool.false_ne_true] at at_bb leaves
      refine ⟨[site.bb.number, falseMBBNumber F],
        ⟨some (falseMBBNumber F), .block (trueMBBNumber F), t⟩,
        Path.cons rfl ?_, ?_, rfl, leaves⟩
      · rw [at_bb, ← step_falseMBB hF site shift (some site.bb.number) t]
        exact Path.single rfl
      · simp [bb_ne, false_ne]

/-! ## When a select is executed right -/

/-- Where control leaves `trueMBB` from there: as the old block does. -/
theorem exit_trueMBB (hF : F.WellFormed)
    (site : PseudoSite F (.selectPseudo dst src src2 cc)) (shift : SingleStep)
    {pred pred' : Option ℕ} {s s' : RegState μ}
    (agree : AgreeBelow F.numVirtRegs
      (execAll shift (site.before ++ [.selectPseudo dst src src2 cc])
        (evalPhis site.bb.phis pred s)) (evalPhis site.trueMBB.phis pred' s')) :
    (site.trueMBB.run shift pred' s').2 = (site.bb.run shift pred s).2 := by
  have below : ∀ i ∈ site.after, i.Below F.numVirtRegs := by
    intro i hi
    apply hF.insts_below site.bb site.mem
    rw [site.insts_eq]
    exact List.mem_append_right _ (List.mem_cons_of_mem _ hi)
  have insts := execAll_below below shift agree
  rw [← execAll_append, List.append_assoc, List.singleton_append, ← site.insts_eq] at insts
  exact congrArg (exitOf site.bb.terminators) insts.flags.symm

/-- Exits other than falling through lead to the same place in every layout. -/
theorem place_eq_of_ne_fallThrough {e : Exit ℕ} (h : e ≠ .fallThrough) (ids ids' : List ℕ)
    (id id' : ℕ) : e.place ids id = e.place ids' id' := by
  cases e with
  | jump target => rfl
  | stop => rfl
  | fallThrough => exact absurd rfl h

/-- **Falling out of `trueMBB`** leads to `falseMBB`: after one run of `trueMBB` a path that has
just left it stands there. -/
theorem place_of_fallThrough (hF : F.WellFormed)
    (site : PseudoSite F (.selectPseudo dst src src2 cc)) (shift : SingleStep)
    {e d : Config ℕ (RegState μ)} {path : List ℕ}
    (at_true : e.place = .block (trueMBBNumber F))
    (falls : (site.trueMBB.run shift e.pred e.state).2 = .fallThrough)
    (hpath : Path ((emitSelect F site).layout shift) e path d)
    (hcount : path.count (trueMBBNumber F) = 1) (hpred : d.pred = some (trueMBBNumber F)) :
    d.place = .block (falseMBBNumber F) := by
  have false_ne : falseMBBNumber F ≠ trueMBBNumber F := Nat.ne_of_gt (Nat.lt_succ_self _)
  have step_true : step ((emitSelect F site).layout shift) e =
      ⟨some (trueMBBNumber F), .block (falseMBBNumber F),
        (site.trueMBB.run shift e.pred e.state).1⟩ := by
    obtain ⟨pred, place, s⟩ := e
    simp only at at_true falls
    subst at_true
    rw [show trueMBBNumber F = site.trueMBB.number from rfl,
      step_layout (emitSelect_nodup hF site) shift (trueMBB_mem site), falls, Exit.place]
    rw [show site.trueMBB.number = trueMBBNumber F from rfl, emitSelect_next_trueMBB hF site]
  obtain ⟨rfl, rfl⟩ | ⟨path₁, rfl, hpath₁⟩ := hpath.eq_nil_or_step at_true
  · exact absurd hcount (by simp)
  rw [step_true] at hpath₁
  rw [List.count_cons_self, Nat.succ_inj] at hcount
  obtain ⟨rfl, rfl⟩ | ⟨path₂, rfl, hpath₂⟩ := hpath₁.eq_nil_or_step rfl
  · rfl
  rw [step_falseMBB hF site shift] at hpath₂
  obtain ⟨rfl, rfl⟩ | ⟨path₃, rfl, -⟩ := hpath₂.eq_nil_or_step rfl
  · exact absurd (Option.some.inj hpred) false_ne
  · rw [List.count_cons_of_ne false_ne, List.count_cons_self] at hcount
    exact absurd hcount (Nat.succ_ne_zero _)

/-- A select whose block falls through at its end is executed wrong: control runs into `falseMBB`,
where the old program cannot be. -/
theorem not_selectExecutedRight_of_fallThrough (hF : F.WellFormed)
    (site : PseudoSite F (.selectPseudo dst src src2 cc)) (shift : SingleStep)
    {c c' : Config ℕ (RegState μ)} (h : Corresponds F site.bb.number (trueMBBNumber F) c c')
    (hplace : c.place = .block site.bb.number)
    (falls : (site.bb.run shift c.pred c.state).2 = .fallThrough) :
    ¬ SelectExecutedRight F site shift c c' := by
  obtain ⟨path, e, hpath, hcount, at_true, agree⟩ := select_reaches_trueMBB hF site shift h hplace
  rintro ⟨path', d', hpath', hcount', hd⟩
  rcases hpath.extends_or hpath' with ⟨rest, rfl, hrest⟩ | ⟨rest, rfl, -⟩
  · rw [List.count_append, hcount, Nat.zero_add] at hcount'
    have hpred : d'.pred = some (trueMBBNumber F) := by
      obtain ⟨pred, place, s⟩ := c
      simp only at hplace hd
      subst hplace
      rw [hd.pred_eq, step_layout hF.nodup shift site.mem, Option.map_some, renameMBB,
        if_pos rfl]
    have exit_eq := exit_trueMBB hF site shift agree
    have at_false := place_of_fallThrough hF site shift at_true (exit_eq.trans falls) hrest
      hcount' hpred
    have false_new : falseMBBNumber F ∉ F.ids := newBB_not_mem hF (Nat.le_succ _)
    exact false_new (hd.place_mem _ (hd.place_eq.symm.trans at_false))
  · -- the run ends before `trueMBB`
    rw [List.count_append] at hcount
    omega

/-- A select whose block is left by a branch or a return is executed right. -/
theorem selectExecutedRight_of_exit (hF : F.WellFormed)
    (site : PseudoSite F (.selectPseudo dst src src2 cc)) (shift : SingleStep)
    {c c' : Config ℕ (RegState μ)} (h : Corresponds F site.bb.number (trueMBBNumber F) c c')
    (hplace : c.place = .block site.bb.number)
    (exits : (site.bb.run shift c.pred c.state).2 ≠ .fallThrough) :
    SelectExecutedRight F site shift c c' := by
  obtain ⟨path, e, hpath, hcount, at_true, agree⟩ := select_reaches_trueMBB hF site shift h hplace
  refine ⟨path ++ [trueMBBNumber F], _, hpath.append (Path.single at_true), ?_, ?_⟩
  · rw [List.count_append, hcount, List.count_singleton_self, Nat.zero_add]
  · have moved := Corresponds.step_moved hF (emitSelect_nodup hF site) shift site
      (trueMBB_mem site) rfl rfl at_true agree (place_eq_of_ne_fallThrough exits _ _ _ _)
    obtain ⟨pred, place, s⟩ := c
    simp only at hplace moved
    subst hplace
    exact moved

/-- Every step of the old program is matched by a path of the new one, when the block of the select
ends in a barrier. -/
theorem emitSelect_step (hF : F.WellFormed)
    (site : PseudoSite F (.selectPseudo dst src src2 cc)) (hends : ¬ site.bb.canFallThrough)
    (shift : SingleStep) (c c' : Config ℕ (RegState μ)) (id : ℕ) (hplace : c.place = .block id)
    (h : Corresponds F site.bb.number (trueMBBNumber F) c c') :
    ∃ path d', Path ((emitSelect F site).layout shift) c' path d' ∧
      Corresponds F site.bb.number (trueMBBNumber F) (step (F.layout shift) c) d' := by
  obtain ⟨b, hb, rfl⟩ := List.mem_map.mp (h.place_mem id hplace)
  by_cases hne : b.number = site.bb.number
  · rw [hne] at hplace
    have exits : (site.bb.run shift c.pred c.state).2 ≠ .fallThrough :=
      fun falls => hends (no_barrier_of_exitOf falls)
    obtain ⟨path, d', hpath, -, hd⟩ := selectExecutedRight_of_exit hF site shift h hplace exits
    exact ⟨path, d', hpath, hd⟩
  · have mem : b.updatePHIs site.bb (trueMBBNumber F) ∈ (emitSelect F site).blocks := by
      rw [site.blocks_eq, List.mem_append, List.mem_cons] at hb
      simp only [emitSelect, List.mem_append, List.mem_cons, List.mem_map]
      rcases hb with hb | rfl | hb
      · exact Or.inl ⟨b, hb, rfl⟩
      · exact absurd rfl hne
      · exact Or.inr (Or.inr (Or.inr (Or.inr ⟨b, hb, rfl⟩)))
    exact ⟨[b.number], _, Path.single (h.place_eq.trans hplace),
      h.step_other hF (emitSelect_nodup hF site) shift site.mem hb (newBB_not_mem hF le_rfl) hne
        mem (emitSelect_others hF site hb hne) hplace⟩

/-- **Whole runs**: when the block of the select ends in a barrier, the new program simulates the
old one. -/
theorem emitSelect_simulates (hF : F.WellFormed)
    (site : PseudoSite F (.selectPseudo dst src src2 cc)) (hends : ¬ site.bb.canFallThrough)
    (shift : SingleStep) {c c' d : Config ℕ (RegState μ)} {path : List ℕ}
    (hpath : Path (F.layout shift) c path d)
    (h : Corresponds F site.bb.number (trueMBBNumber F) c c') :
    ∃ path' d', Path ((emitSelect F site).layout shift) c' path' d' ∧
      Corresponds F site.bb.number (trueMBBNumber F) d d' :=
  Path.simulate _ (emitSelect_step hF site hends shift) hpath c' h

/-- **When a select is executed right**: exactly when control does not fall through at the end of
its block. -/
theorem selectExecutedRight_iff (F : MachineFunction μ) (hF : F.WellFormed)
    (site : PseudoSite F (.selectPseudo dst src src2 cc)) (shift : SingleStep)
    (c c' : Config ℕ (RegState μ)) (h : Corresponds F site.bb.number (trueMBBNumber F) c c')
    (hplace : c.place = .block site.bb.number) :
    SelectExecutedRight F site shift c c' ↔
      (site.bb.run shift c.pred c.state).2 ≠ .fallThrough := by
  constructor
  · intro right falls
    exact not_selectExecutedRight_of_fallThrough hF site shift h hplace falls right
  · exact selectExecutedRight_of_exit hF site shift h hplace

end

/-- A function with a select in a block that falls through to a return. -/
def fallingSelect : MachineFunction Unit where
  blocks := [⟨0, [], [.selectPseudo 2 0 1 .COND_EQ], [], [1]⟩, ⟨1, [], [], [.RET], []⟩]
  numBlockIDs := 2
  numVirtRegs := 3

/-- It is well formed. -/
theorem fallingSelect_wellFormed : fallingSelect.WellFormed where
  nodup := by decide
  ids_lt := by simp [fallingSelect]
  successors_mem := by simp [fallingSelect, MachineFunction.ids]
  targets_mem := by simp [fallingSelect, Terminator.targets]
  falls := by
    simp [MachineFunction.FallsToSuccessor, fallingSelect, MachineFunction.ids, layoutNext,
      MachineBasicBlock.canFallThrough, Terminator.isBarrier]
  phis_below := by simp [fallingSelect]
  phis_pred := by simp [fallingSelect]
  insts_below := by simp [fallingSelect, VInst.Below]

/-- Its select. -/
def fallingSelectSite : PseudoSite fallingSelect (.selectPseudo 2 0 1 .COND_EQ) where
  pre := []
  bb := ⟨0, [], [.selectPseudo 2 0 1 .COND_EQ], [], [1]⟩
  post := [⟨1, [], [], [.RET], []⟩]
  before := []
  after := []
  blocks_eq := rfl
  insts_eq := rfl

/-- The start of the function, with all registers zero and the zero flag set. -/
def fallingSelectStart : Config ℕ (RegState Unit) where
  pred := none
  place := .block 0
  state := ⟨fun _ => 0, ⟨false, true, false, false⟩, ()⟩

/-- The starts before and after correspond. -/
theorem fallingSelectStart_corresponds :
    Corresponds fallingSelect 0 2 fallingSelectStart fallingSelectStart where
  place_eq := rfl
  place_mem := by
    intro t ht
    cases ht
    decide
  pred_eq := rfl
  pred_mem := by simp [fallingSelectStart]
  agree := AgreeBelow.refl _ _

/-- **A select in a falling block is executed wrong**: control runs into `falseMBB`. -/
theorem not_selectExecutedRight_fallingSelect :
    ¬ SelectExecutedRight fallingSelect fallingSelectSite (fun _ _ x => (x, ⟨false, false, false,
      false⟩)) fallingSelectStart fallingSelectStart :=
  not_selectExecutedRight_of_fallThrough fallingSelect_wellFormed fallingSelectSite _
    fallingSelectStart_corresponds rfl rfl

/-- The condition at that function. -/
theorem selectExecutedRight_fallingSelect_iff :
    SelectExecutedRight fallingSelect fallingSelectSite (fun _ _ x => (x, ⟨false, false, false,
      false⟩)) fallingSelectStart fallingSelectStart ↔
      (fallingSelectSite.bb.run (fun _ _ x => (x, ⟨false, false, false, false⟩))
        fallingSelectStart.pred fallingSelectStart.state).2 ≠ .fallThrough :=
  selectExecutedRight_iff fallingSelect fallingSelect_wellFormed fallingSelectSite _ _ _
    fallingSelectStart_corresponds rfl

end Snes
