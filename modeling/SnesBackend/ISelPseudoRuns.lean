/-
# Runs Across the Expansion of Pseudos

Where there are no multiplications, every shift is the first pseudo of the first block
and every select stands in a block that ends in a barrier, the function that
`ExpandISelPseudos` makes runs like the old one: every round gives a function that
mirrors the one before.
-/
import SnesBackend.ISelPseudos

namespace Snes

open WordArith BlockLayout SteppedLoop

variable {μ : Type}

/-! ## Runs of the new function -/

/-- A function that mirrors another one, from every block, with all that the registers of the other
one hold. -/
structure RunsLike (shift : SingleStep) (F F' : MachineFunction μ) : Prop where
  ids_subset : ∀ id ∈ F.ids, id ∈ F'.ids
  ids_le : F.numBlockIDs ≤ F'.numBlockIDs
  regs_le : F.numVirtRegs ≤ F'.numVirtRegs
  mirrors : ∃ R, Mirrors F.isOld (F.layout shift) (F'.layout shift) R ∧
    (∀ c c', R c c' → AgreeBelow F.numVirtRegs c.state c'.state) ∧
    ∀ id ∈ F.ids, ∀ s, R ⟨none, .block id, s⟩ ⟨none, .block id, s⟩

/-- States that agree on more registers agree. -/
theorem AgreeBelow.mono {bound bound' : ℕ} (hbound : bound ≤ bound') {s t : RegState μ}
    (h : AgreeBelow bound' s t) : AgreeBelow bound s t :=
  ⟨fun r hr => h.vregs r (hr.trans_le hbound), h.flags, h.rest⟩

/-- Agreement is transitive. -/
theorem AgreeBelow.trans {bound : ℕ} {s t u : RegState μ} (h : AgreeBelow bound s t)
    (h' : AgreeBelow bound t u) : AgreeBelow bound s u :=
  ⟨fun r hr => (h.vregs r hr).trans (h'.vregs r hr), h.flags.trans h'.flags, h.rest.trans h'.rest⟩

section

variable {shift : SingleStep} {F F' F'' : MachineFunction μ}

/-- A well-formed function runs like itself. -/
theorem RunsLike.refl (hF : F.WellFormed) : RunsLike shift F F where
  ids_subset := fun _ h => h
  ids_le := le_rfl
  regs_le := le_rfl
  mirrors := by
    refine ⟨fun c c' => c = c' ∧ ∀ id, c.place = .block id → id ∈ F.ids, ⟨?_, ?_⟩, ?_, ?_⟩
    · rintro c _ ⟨rfl, -⟩
      rfl
    · rintro c _ id hplace ⟨rfl, hmem⟩
      obtain ⟨b, hb, rfl⟩ := List.mem_map.mp (hmem id hplace)
      refine ⟨[b.number], _, F.filter_isOld (hF.ids_lt b hb), .single hplace, rfl, ?_⟩
      obtain ⟨pred, place, s⟩ := c
      simp only at hplace
      subst hplace
      rw [step_layout hF.nodup shift hb]
      exact fun id hid => hF.place_mem hb hid
    · rintro c _ ⟨rfl, -⟩
      exact AgreeBelow.refl _ _
    · intro id hid s
      refine ⟨rfl, fun id' heq => ?_⟩
      obtain rfl := Place.block.inj heq
      exact hid

/-- **Running like is transitive**. -/
theorem RunsLike.trans (h : RunsLike shift F F') (h' : RunsLike shift F' F'') :
    RunsLike shift F F'' where
  ids_subset := fun id hid => h'.ids_subset id (h.ids_subset id hid)
  ids_le := h.ids_le.trans h'.ids_le
  regs_le := h.regs_le.trans h'.regs_le
  mirrors := by
    obtain ⟨R, hmirrors, hagree, hstart⟩ := h.mirrors
    obtain ⟨R', hmirrors', hagree', hstart'⟩ := h'.mirrors
    refine ⟨_, hmirrors.trans hmirrors' fun id hid => ?_, ?_, fun id hid s => ?_⟩
    · exact decide_eq_true ((of_decide_eq_true hid).trans_le h.ids_le)
    · rintro c c'' ⟨c', hR, hR'⟩
      exact (hagree c c' hR).trans ((hagree' c' c'' hR').mono h.regs_le)
    · exact ⟨_, hstart id hid s, hstart' id (h.ids_subset id hid) s⟩

/-- At the start of a block runs correspond. -/
theorem corresponds_start (fromMBB toMBB : ℕ) {id : ℕ} (hid : id ∈ F.ids) (s : RegState μ) :
    Corresponds F fromMBB toMBB ⟨none, .block id, s⟩ ⟨none, .block id, s⟩ where
  place_eq := rfl
  place_mem := fun _ heq => Place.block.inj heq ▸ hid
  pred_eq := rfl
  pred_mem := by rintro p ⟨⟩
  agree := AgreeBelow.refl _ _

/-- A split function that mirrors the old one runs like it. -/
theorem SplitsInto.runsLike {bb head moved other : MachineBasicBlock μ}
    (h : SplitsInto F F' bb head moved other)
    (hmirrors : Mirrors F.isOld (F.layout shift) (F'.layout shift)
      (Corresponds F bb.number moved.number)) : RunsLike shift F F' where
  ids_subset := fun _ hid => h.ids_subset hid
  ids_le := h.ids_le
  regs_le := h.regs_le
  mirrors := ⟨_, hmirrors, fun _ _ hc => hc.agree, fun _ hid s => corresponds_start _ _ hid s⟩

end

/-! ## Where the inserters are right -/

/-- There are no multiplications, every shift is the first pseudo of the first block, and every
select stands in a block that ends in a barrier. -/
structure MachineFunction.Expandable (F : MachineFunction μ) : Prop where
  noMuls : ∀ b ∈ F.blocks, ∀ i ∈ b.insts, i.isMul = false
  shifts : ∀ MI : VInst μ, MI.isShiftPseudo = true → ∀ site : PseudoSite F MI,
    site.pre = [] ∧ NoISelPseudos site.before
  selects : ∀ b ∈ F.blocks, (∃ i ∈ b.insts, i.isSelectPseudo = true) → ¬ b.canFallThrough

/-- No instruction of a list is a shift. -/
def NoShifts (is : List (VInst μ)) : Prop :=
  ∀ i ∈ is, i.isShiftPseudo = false

/-- Without pseudos there are no shifts. -/
theorem NoISelPseudos.noShifts {is : List (VInst μ)} (h : NoISelPseudos is) : NoShifts is :=
  fun i hi => (Bool.or_eq_false_iff.mp (h i hi)).1

/-- Nor selects. -/
theorem NoISelPseudos.noSelects {is : List (VInst μ)} (h : NoISelPseudos is) {i : VInst μ}
    (hi : i ∈ is) : i.isSelectPseudo = false :=
  (Bool.or_eq_false_iff.mp (h i hi)).2

section

variable {F F' : MachineFunction μ} {mi : VInst μ}

/-- Behind a pseudo there are no shifts in its block. -/
theorem MachineFunction.Expandable.after (h : F.Expandable) (site : PseudoSite F mi)
    (hmi : mi.isISelPseudo = true) : NoShifts site.after := by
  intro i hi
  by_contra hshift
  obtain ⟨first, rest, hafter⟩ := List.append_of_mem hi
  let later : PseudoSite F i :=
    { site with
      before := site.before ++ mi :: first
      after := rest
      insts_eq := by rw [site.insts_eq, hafter, List.append_assoc, List.cons_append] }
  have none := (h.shifts i (Bool.eq_true_of_not_eq_false hshift) later).2
  have hook := none mi List.mem_append_cons_self
  rw [hmi] at hook
  cases hook

/-- Nor are there any in the blocks behind it. -/
theorem MachineFunction.Expandable.post (h : F.Expandable) (site : PseudoSite F mi)
    {b : MachineBasicBlock μ} (hb : b ∈ site.post) : NoShifts b.insts := by
  intro i hi
  by_contra hshift
  obtain ⟨first, rest, hpost⟩ := List.append_of_mem hb
  obtain ⟨before, after, hinsts⟩ := List.append_of_mem hi
  let later : PseudoSite F i :=
    { pre := site.pre ++ site.bb :: first
      bb := b
      post := rest
      before := before
      after := after
      blocks_eq := by rw [site.blocks_eq, hpost, List.append_assoc, List.cons_append]
      insts_eq := hinsts }
  have first_block := (h.shifts i (Bool.eq_true_of_not_eq_false hshift) later).1
  exact List.append_ne_nil_of_right_ne_nil _ (List.cons_ne_nil _ _) first_block

/-- **An expansion leaves no shifts**, so that the inserters are right again. -/
theorem SplitsInto.expandable {head moved other : MachineBasicBlock μ} {site : PseudoSite F mi}
    (h : SplitsInto F F' site.bb head moved other) (hF : F.WellFormed) (hexp : F.Expandable)
    (hmi : mi.isISelPseudo = true) (pre : ∀ b ∈ site.pre, NoISelPseudos b.insts)
    (head_none : NoISelPseudos head.insts) (other_none : NoISelPseudos other.insts)
    (moved_insts : moved.insts = site.after) : F'.Expandable where
  noMuls := by
    intro b' hb' i hi
    rcases h.inst site.mem hb' hi with ⟨b, hb, hold⟩ | ⟨hook, -⟩
    · exact hexp.noMuls b hb i hold
    · exact (VInst.of_hook_eq_false hook).2
  shifts := by
    have noShifts : ∀ b' ∈ F'.blocks, NoShifts b'.insts := by
      intro b' hb'
      rcases h.cases hb' with rfl | rfl | rfl | ⟨b, hb, hne, rfl⟩
      · exact head_none.noShifts
      · rw [moved_insts]
        exact hexp.after site hmi
      · exact other_none.noShifts
      · rw [updatePHIs_insts]
        rcases (site.mem_iff hF b).mpr ⟨hb, hne⟩ with hb | hb
        · exact (pre b hb).noShifts
        · exact hexp.post site hb
    intro MI hMI site'
    have none := noShifts site'.bb site'.mem MI site'.inst_mem
    rw [hMI] at none
    cases none
  selects := by
    rintro b' hb' ⟨i, hi, hselect⟩ hfall
    have contradiction (hnone : i.isSelectPseudo = false) : False := by
      rw [hselect] at hnone
      cases hnone
    rcases h.cases hb' with rfl | rfl | rfl | ⟨b, hb, -, rfl⟩
    · exact contradiction (head_none.noSelects hi)
    · rw [moved_insts] at hi
      rw [MachineBasicBlock.canFallThrough, h.moved_terminators] at hfall
      exact hexp.selects site.bb site.mem ⟨i, site.after_mem hi, hselect⟩ hfall
    · exact contradiction (other_none.noSelects hi)
    · rw [updatePHIs_insts] at hi
      rw [MachineBasicBlock.canFallThrough, updatePHIs_terminators] at hfall
      exact hexp.selects b hb ⟨i, hi, hselect⟩ hfall

end

/-! ## The whole function -/

/-- What every round keeps: the function is well formed, the inserters are right in it, and it runs
like the one at the start. -/
structure ExpandedRight (F F' : MachineFunction μ) : Prop where
  wellFormed : F'.WellFormed
  usesOwnRegs : F'.UsesOwnRegs
  expandable : F'.Expandable
  runsLike : ∀ shift, RunsLike shift F F'

end Snes
