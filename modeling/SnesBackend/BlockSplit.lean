/-
# Moving the End of a Block into a New Block

The custom inserters move the instructions behind a pseudo into a new block and
give that block the successors of the old one.  `Corresponds` relates runs of the
function before and after: the new block takes the place of the old one where
control came from.  Blocks other than the one that is split keep the relation,
and so does the new block once its phi nodes have brought in what the pseudo
would have left.
-/
import SnesBackend.MachineFunction

namespace Snes

open WordArith BlockLayout

variable {μ : Type}

/-! ## Blocks by number -/

/-- Blocks of a well-formed function with the same number are the same. -/
theorem MachineFunction.WellFormed.eq_of_number {F : MachineFunction μ} (hF : F.WellFormed)
    {a b : MachineBasicBlock μ} (ha : a ∈ F.blocks) (hb : b ∈ F.blocks)
    (h : a.number = b.number) : a = b :=
  List.inj_on_of_nodup_map hF.nodup ha hb h

/-- The numbers of the new blocks are new. -/
theorem newBB_not_mem {F : MachineFunction μ} (hF : F.WellFormed) {k : ℕ}
    (hk : F.numBlockIDs ≤ k) : k ∉ F.ids := by
  intro h
  obtain ⟨b, hb, rfl⟩ := List.mem_map.mp h
  exact absurd (hF.ids_lt b hb) (not_lt.mpr hk)

/-- The numbers of the function, in terms of the site. -/
theorem PseudoSite.ids_eq {F : MachineFunction μ} {mi : VInst μ} (site : PseudoSite F mi) :
    F.ids = site.pre.map MachineBasicBlock.number ++
      site.bb.number :: site.post.map MachineBasicBlock.number := by
  rw [MachineFunction.ids, site.blocks_eq, List.map_append, List.map_cons]

/-- The block of a site is a block of the function. -/
theorem PseudoSite.mem {F : MachineFunction μ} {mi : VInst μ} (site : PseudoSite F mi) :
    site.bb ∈ F.blocks := by
  rw [site.blocks_eq]
  exact List.mem_append_cons_self

/-- **The step of a block** of a function. -/
theorem step_layout {F : MachineFunction μ} (hF : F.ids.Nodup) (shift : SingleStep)
    {b : MachineBasicBlock μ} (hb : b ∈ F.blocks) (pred : Option ℕ) (s : RegState μ) :
    step (F.layout shift) ⟨pred, .block b.number, s⟩ =
      ⟨some b.number, (b.run shift pred s).2.place F.ids b.number, (b.run shift pred s).1⟩ := by
  have nodup : ((F.layout shift).map Block.id).Nodup := by rwa [F.map_id_layout]
  have mem : (⟨b.number, b.run shift⟩ : Block ℕ (RegState μ)) ∈ F.layout shift :=
    List.mem_map_of_mem hb
  have key := step_of_mem nodup mem pred s
  rwa [F.map_id_layout] at key

/-- Control goes from a block to its successors. -/
theorem MachineFunction.WellFormed.place_mem {F : MachineFunction μ} (hF : F.WellFormed)
    {b : MachineBasicBlock μ} (hb : b ∈ F.blocks) {f : Flags} {t : ℕ}
    (h : (exitOf b.terminators f).place F.ids b.number = .block t) : t ∈ F.ids := by
  apply hF.successors_mem b hb
  cases hexit : exitOf b.terminators f with
  | jump target =>
      obtain ⟨x, hx, ht⟩ := mem_targets_of_exitOf hexit
      rw [hexit, Exit.place, Place.block.injEq] at h
      exact h ▸ hF.targets_mem b hb x hx target ht
  | stop =>
      rw [hexit] at h
      cases h
  | fallThrough =>
      obtain ⟨next, hnext, hmem⟩ := hF.falls b hb (no_barrier_of_exitOf hexit)
      rw [hexit, Exit.place, hnext, Place.block.injEq] at h
      exact h ▸ hmem

/-! ## Phi nodes of the successors -/

/-- `transferSuccessorsAndUpdatePHIs`, for one block of the function: in the phi nodes of the
transferred successors `toMBB` replaces `fromMBB`. -/
def MachineBasicBlock.updatePHIs (b fromMBB : MachineBasicBlock μ) (toMBB : ℕ) :
    MachineBasicBlock μ :=
  if b.number ∈ fromMBB.successors then
    { b with phis := b.phis.map (MachinePhi.rename fromMBB.number toMBB) }
  else b

section Fields

variable (b fromMBB : MachineBasicBlock μ) (toMBB : ℕ)

@[simp] theorem updatePHIs_number : (b.updatePHIs fromMBB toMBB).number = b.number := by
  unfold MachineBasicBlock.updatePHIs
  split_ifs <;> rfl

@[simp] theorem updatePHIs_insts : (b.updatePHIs fromMBB toMBB).insts = b.insts := by
  unfold MachineBasicBlock.updatePHIs
  split_ifs <;> rfl

@[simp] theorem updatePHIs_terminators :
    (b.updatePHIs fromMBB toMBB).terminators = b.terminators := by
  unfold MachineBasicBlock.updatePHIs
  split_ifs <;> rfl

@[simp] theorem updatePHIs_successors :
    (b.updatePHIs fromMBB toMBB).successors = b.successors := by
  unfold MachineBasicBlock.updatePHIs
  split_ifs <;> rfl

end Fields

/-- In a well-formed function the phi nodes of all blocks are updated: those of other blocks do not
mention the old block. -/
theorem updatePHIs_phis {F : MachineFunction μ} (hF : F.WellFormed)
    {fromMBB b : MachineBasicBlock μ} (hfrom : fromMBB ∈ F.blocks) (hb : b ∈ F.blocks)
    (toMBB : ℕ) :
    (b.updatePHIs fromMBB toMBB).phis = b.phis.map (MachinePhi.rename fromMBB.number toMBB) := by
  unfold MachineBasicBlock.updatePHIs
  split_ifs with hsucc
  · rfl
  · have same : ∀ phi ∈ b.phis, MachinePhi.rename fromMBB.number toMBB phi = phi := by
      intro phi hphi
      have kept : ∀ x ∈ phi.incoming, (x.1, renameMBB fromMBB.number toMBB x.2) = x := by
        intro x hx
        obtain ⟨p, hp, hnum, hmem⟩ := hF.phis_pred b hb phi hphi x hx
        have hne : x.2 ≠ fromMBB.number := by
          intro h
          exact hsucc (hF.eq_of_number hp hfrom (hnum.trans h) ▸ hmem)
        rw [renameMBB, if_neg hne]
      rw [MachinePhi.rename, List.map_congr_left kept, List.map_id']
    rw [List.map_congr_left same, List.map_id']

/-- Replacing a block by a fresh one does not confuse blocks. -/
theorem renameMBB_eq_iff {a b x y : ℕ} (hx : x ≠ b) (hy : y ≠ b) :
    renameMBB a b x = renameMBB a b y ↔ x = y := by
  unfold renameMBB
  split_ifs with hxa hya hya
  · exact ⟨fun _ => hxa.trans hya.symm, fun _ => rfl⟩
  · exact ⟨fun h => absurd h.symm hy, fun h => absurd (h ▸ hxa) hya⟩
  · exact ⟨fun h => absurd h hx, fun h => absurd (h ▸ hya) hxa⟩
  · exact Iff.rfl

/-- A phi node takes the same register from the new block as from the old one. -/
theorem regFor_rename {phi : MachinePhi} {a b p : ℕ} (hphi : ∀ x ∈ phi.incoming, x.2 ≠ b)
    (hp : p ≠ b) : (phi.rename a b).regFor (renameMBB a b p) = phi.regFor p := by
  have same : ∀ x ∈ phi.incoming,
      decide (renameMBB a b x.2 = renameMBB a b p) = decide (x.2 = p) := by
    intro x hx
    rw [decide_eq_decide]
    exact renameMBB_eq_iff (hphi x hx) hp
  rw [MachinePhi.regFor, MachinePhi.regFor, MachinePhi.rename, List.find?_map, Option.map_map]
  exact congrArg (Option.map Prod.fst) (List.find?_congr same)

/-- Updated phi nodes bring in the same values. -/
theorem evalPhis_rename {bound a b : ℕ} {phis : List MachinePhi} {pred : Option ℕ}
    {s t : RegState μ} (hfresh : ∀ phi ∈ phis, ∀ x ∈ phi.incoming, x.2 ≠ b)
    (hbelow : ∀ phi ∈ phis, ∀ x ∈ phi.incoming, x.1 < bound) (hpred : ∀ p ∈ pred, p ≠ b)
    (h : AgreeBelow bound s t) :
    AgreeBelow bound (evalPhis phis pred s)
      (evalPhis (phis.map (MachinePhi.rename a b)) (pred.map (renameMBB a b)) t) := by
  refine ⟨fun r hr => ?_, h.flags, h.rest⟩
  have find : (phis.map (MachinePhi.rename a b)).find? (fun phi => phi.dst = r) =
      (phis.find? fun phi => phi.dst = r).map (MachinePhi.rename a b) := List.find?_map ..
  simp only [evalPhis, find]
  cases hphi : phis.find? fun phi => decide (phi.dst = r) with
  | none => exact h.vregs r hr
  | some phi =>
      have mem : phi ∈ phis := List.mem_of_find?_eq_some hphi
      have reg : (pred.map (renameMBB a b)).bind (phi.rename a b).regFor = pred.bind phi.regFor := by
        cases pred with
        | none => rfl
        | some p => exact regFor_rename (hfresh phi mem) (hpred p rfl)
      simp only [Option.map_some, reg]
      apply h.vregs
      cases hreg : pred.bind phi.regFor with
      | none => exact hr
      | some q =>
          obtain ⟨p, -, hq⟩ := Option.bind_eq_some_iff.mp hreg
          obtain ⟨x, hx, rfl⟩ := Option.map_eq_some_iff.mp hq
          exact hbelow phi mem x (List.mem_of_find?_eq_some hx)

/-- **Updated blocks** bring in the same values, entered from the new block in place of the old
one. -/
theorem evalPhis_updatePHIs {F : MachineFunction μ} (hF : F.WellFormed)
    {fromMBB b : MachineBasicBlock μ} (hfrom : fromMBB ∈ F.blocks) (hb : b ∈ F.blocks)
    {toMBB : ℕ} (hto : toMBB ∉ F.ids) {pred : Option ℕ} (hpred : ∀ p ∈ pred, p ∈ F.ids)
    {s t : RegState μ} (h : AgreeBelow F.numVirtRegs s t) :
    AgreeBelow F.numVirtRegs (evalPhis b.phis pred s)
      (evalPhis (b.updatePHIs fromMBB toMBB).phis
        (pred.map (renameMBB fromMBB.number toMBB)) t) := by
  rw [updatePHIs_phis hF hfrom hb]
  refine evalPhis_rename ?_ (hF.phis_below b hb) (fun p hp heq => hto (heq ▸ hpred p hp)) h
  intro phi hphi x hx heq
  obtain ⟨p, hp, hnum, -⟩ := hF.phis_pred b hb phi hphi x hx
  exact hto (heq ▸ hnum ▸ List.mem_map_of_mem hp)

/-! ## Corresponding runs -/

/-- Configurations of the function before and after correspond: control is at the same block, it
came from the same one, with `toMBB` in place of `fromMBB`, and the states agree. -/
structure Corresponds (F : MachineFunction μ) (fromMBB toMBB : ℕ)
    (c c' : Config ℕ (RegState μ)) : Prop where
  place_eq : c'.place = c.place
  place_mem : ∀ t, c.place = .block t → t ∈ F.ids
  pred_eq : c'.pred = c.pred.map (renameMBB fromMBB toMBB)
  pred_mem : ∀ p ∈ c.pred, p ∈ F.ids
  agree : AgreeBelow F.numVirtRegs c.state c'.state

/-- **Other blocks keep the correspondence**, when they are updated and keep their place in the
layout. -/
theorem Corresponds.step_other {F F' : MachineFunction μ} (hF : F.WellFormed)
    (hF' : F'.ids.Nodup) (shift : SingleStep) {fromMBB b : MachineBasicBlock μ} {toMBB : ℕ}
    (hfrom : fromMBB ∈ F.blocks) (hb : b ∈ F.blocks) (hto : toMBB ∉ F.ids)
    (hne : b.number ≠ fromMBB.number) (hb' : b.updatePHIs fromMBB toMBB ∈ F'.blocks)
    (hnext : layoutNext F'.ids b.number = layoutNext F.ids b.number)
    {c c' : Config ℕ (RegState μ)} (h : Corresponds F fromMBB.number toMBB c c')
    (hplace : c.place = .block b.number) :
    Corresponds F fromMBB.number toMBB (step (F.layout shift) c) (step (F'.layout shift) c') := by
  obtain ⟨pred, place, s⟩ := c
  obtain ⟨pred', place', s'⟩ := c'
  obtain ⟨place_eq, -, pred_eq, pred_mem, agree⟩ := h
  simp only at hplace place_eq pred_eq pred_mem agree
  subst hplace place_eq pred_eq
  have phis := evalPhis_updatePHIs hF hfrom hb hto pred_mem agree
  have insts := execAll_below (hF.insts_below b hb) shift phis
  have at_b' := step_layout hF' shift hb' (pred.map (renameMBB fromMBB.number toMBB)) s'
  rw [updatePHIs_number] at at_b'
  rw [step_layout hF.nodup shift hb, at_b']
  simp only [MachineBasicBlock.run, updatePHIs_insts, updatePHIs_terminators, ← insts.flags]
  refine ⟨?_, ?_, ?_, ?_, insts⟩
  · cases exitOf b.terminators
        (execAll shift b.insts (evalPhis b.phis pred s)).flags with
    | jump target => rfl
    | stop => rfl
    | fallThrough => simp only [Exit.place, hnext]
  · intro t ht
    exact hF.place_mem hb ht
  · simp only [Option.map_some, renameMBB, if_neg hne]
  · rintro p hp
    rw [Option.mem_some_iff] at hp
    exact hp ▸ List.mem_map_of_mem hb

/-- **The new block ends like the old one**: entered with what the pseudo would have left, it runs
the moved instructions and leaves for the same place. -/
theorem Corresponds.step_moved {F F' : MachineFunction μ} (hF : F.WellFormed)
    (hF' : F'.ids.Nodup) (shift : SingleStep) {mi : VInst μ} (site : PseudoSite F mi)
    {moved : MachineBasicBlock μ} (hmoved : moved ∈ F'.blocks)
    (insts_eq : moved.insts = site.after) (terminators_eq : moved.terminators = site.bb.terminators)
    {pred : Option ℕ} {s : RegState μ} {d : Config ℕ (RegState μ)}
    (hplace : d.place = .block moved.number)
    (agree : AgreeBelow F.numVirtRegs
      (execAll shift (site.before ++ [mi]) (evalPhis site.bb.phis pred s))
      (evalPhis moved.phis d.pred d.state))
    (exits : (site.bb.run shift pred s).2.place F'.ids moved.number =
      (site.bb.run shift pred s).2.place F.ids site.bb.number) :
    Corresponds F site.bb.number moved.number
      (step (F.layout shift) ⟨pred, .block site.bb.number, s⟩) (step (F'.layout shift) d) := by
  obtain ⟨pred', place', s'⟩ := d
  simp only at hplace agree
  subst hplace
  have below : ∀ i ∈ site.after, i.Below F.numVirtRegs := by
    intro i hi
    apply hF.insts_below site.bb site.mem
    rw [site.insts_eq]
    exact List.mem_append_right _ (List.mem_cons_of_mem mi hi)
  have whole : execAll shift site.bb.insts (evalPhis site.bb.phis pred s) =
      execAll shift site.after
        (execAll shift (site.before ++ [mi]) (evalPhis site.bb.phis pred s)) := by
    rw [site.insts_eq, ← execAll_append, List.append_assoc, List.singleton_append]
  have insts := execAll_below below shift agree
  rw [step_layout hF.nodup shift site.mem, step_layout hF' shift hmoved]
  have same_exit : (moved.run shift pred' s').2 = (site.bb.run shift pred s).2 := by
    simp only [MachineBasicBlock.run, insts_eq, terminators_eq, whole, insts.flags]
  refine ⟨?_, ?_, ?_, ?_, ?_⟩
  · simp only [same_exit, exits]
  · intro t ht
    exact hF.place_mem site.mem ht
  · simp only [Option.map_some, renameMBB, if_true]
  · rintro p hp
    rw [Option.mem_some_iff] at hp
    exact hp ▸ List.mem_map_of_mem site.mem
  · simp only [MachineBasicBlock.run, insts_eq, whole]
    exact insts

end Snes
