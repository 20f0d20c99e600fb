/-
# Expanding the Pseudos of Instruction Selection

`ExpandISelPseudos` goes through the instructions of a function and gives each one
with a custom inserter to `EmitInstrWithCustomInserter`; when another block comes
back, it goes on at the start of that.  The iteration ends, whatever blocks the
inserters put where, leaves no pseudo behind, and clears `A` behind every
multiplication.
-/
import SnesBackend.ClearedProducts
import SnesBackend.SteppedLoop

namespace Snes

open WordArith BlockLayout SteppedLoop

variable {μ : Type}

/-! ## `runOnMachineFunction` -/

/-- The iteration: the function, the block `I`, the instruction `MBBI` of that block, and whether
something has been expanded. -/
structure ExpandISelState (μ : Type) where
  MF : MachineFunction μ
  I : ℕ
  MBBI : ℕ
  Changed : Bool

/-- The site of an instruction that has been found by its indices. -/
def PseudoSite.ofGet {F : MachineFunction μ} {I MBBI : ℕ} {MBB : MachineBasicBlock μ}
    {MI : VInst μ} (hMBB : F.blocks[I]? = some MBB) (hMI : MBB.insts[MBBI]? = some MI) :
    PseudoSite F MI where
  pre := F.blocks.take I
  bb := MBB
  post := F.blocks.drop (I + 1)
  before := MBB.insts.take MBBI
  after := MBB.insts.drop (MBBI + 1)
  blocks_eq := by
    obtain ⟨hI, rfl⟩ := List.getElem?_eq_some_iff.mp hMBB
    rw [List.cons_getElem_drop_succ, List.take_append_drop]
  insts_eq := by
    obtain ⟨hMBBI, rfl⟩ := List.getElem?_eq_some_iff.mp hMI
    rw [List.cons_getElem_drop_succ, List.take_append_drop]

section

variable (clearA : RegState μ → RegState μ)

/-- `EmitInstrWithCustomInserter`: the new function, and the block that comes back.  It asserts that
it is given no other instructions. -/
def emitInstrWithCustomInserter (F : MachineFunction μ) :
    {MI : VInst μ} → PseudoSite F MI → Option (MachineFunction μ × ℕ)
  | .shiftPseudo .., site => some (insertShift F site, remBBNumber F)
  | .MULRdRr _, site | .MULSRdRr _, site =>
      (F.insertMul clearA site).map fun MF => (MF, site.bb.number)
  | .selectPseudo .., site => some (emitSelect F site, trueMBBNumber F)
  | _, _ => none

/-- One round of the iteration.  Phi nodes and terminators have no inserters, so it goes through the
other instructions of a block only. -/
def expandISelStep (s : ExpandISelState μ) :
    ExpandISelState μ ⊕ Option (MachineFunction μ × Bool) :=
  match hMBB : s.MF.blocks[s.I]? with
  | none => .inr (some (s.MF, s.Changed))
  | some MBB =>
      match hMI : MBB.insts[s.MBBI]? with
      | none => .inl { s with I := s.I + 1, MBBI := 0 }
      | some MI =>
          if MI.usesCustomInsertionHook then
            match emitInstrWithCustomInserter clearA s.MF (PseudoSite.ofGet hMBB hMI) with
            | none => .inr none
            | some (MF, NewMBB) =>
                if NewMBB = MBB.number then .inl ⟨MF, s.I, s.MBBI + 1, true⟩
                else .inl ⟨MF, MF.ids.idxOf NewMBB, 0, true⟩
          else .inl { s with MBBI := s.MBBI + 1 }

/-- The start of the iteration. -/
def expandISelStart (MF : MachineFunction μ) : ExpandISelState μ :=
  ⟨MF, 0, 0, false⟩

/-! ## What a round does -/

/-- What a round can do. -/
inductive ExpandISelMove : ExpandISelState μ → ExpandISelState μ → Prop
  | nextBlock {s : ExpandISelState μ} {MBB : MachineBasicBlock μ}
      (hMBB : s.MF.blocks[s.I]? = some MBB) (hend : MBB.insts.length ≤ s.MBBI) :
      ExpandISelMove s { s with I := s.I + 1, MBBI := 0 }
  | nextInst {s : ExpandISelState μ} {MBB : MachineBasicBlock μ} {MI : VInst μ}
      (hMBB : s.MF.blocks[s.I]? = some MBB) (hMI : MBB.insts[s.MBBI]? = some MI)
      (hno : MI.usesCustomInsertionHook = false) :
      ExpandISelMove s { s with MBBI := s.MBBI + 1 }
  | mul {s : ExpandISelState μ} {MI : VInst μ} (hmul : MI.isMul = true)
      (site : PseudoSite s.MF MI) (hpre : site.pre = s.MF.blocks.take s.I)
      (hbb : s.MF.blocks[s.I]? = some site.bb) (hbefore : site.before.length = s.MBBI)
      {code rest : List MulInst}
      (hplace : insertMul (site.bb.following site.after) = some (code, rest)) :
      ExpandISelMove s
        ⟨{ s.MF with blocks := site.pre ++ site.mulBB clearA code.length :: site.post }, s.I,
          s.MBBI + 1, true⟩
  | shift {s : ExpandISelState μ} {p : ShiftPseudo} {dst src cnt : ℕ}
      (site : PseudoSite s.MF (.shiftPseudo p dst src cnt))
      (hpre : site.pre = s.MF.blocks.take s.I) (hbb : s.MF.blocks[s.I]? = some site.bb)
      (hbefore : site.before.length = s.MBBI) :
      ExpandISelMove s ⟨insertShift s.MF site,
        (insertShift s.MF site).ids.idxOf (remBBNumber s.MF), 0, true⟩
  | select {s : ExpandISelState μ} {dst src src2 : ℕ} {cc : SNESCC}
      (site : PseudoSite s.MF (.selectPseudo dst src src2 cc))
      (hpre : site.pre = s.MF.blocks.take s.I) (hbb : s.MF.blocks[s.I]? = some site.bb)
      (hbefore : site.before.length = s.MBBI) :
      ExpandISelMove s ⟨emitSelect s.MF site,
        (emitSelect s.MF site).ids.idxOf (trueMBBNumber s.MF), 0, true⟩

end

section

variable {clearA : RegState μ → RegState μ} {s t : ExpandISelState μ}

/-- The site of a round has as many instructions before it as the round has passed. -/
theorem length_before_ofGet {I MBBI : ℕ} {F : MachineFunction μ} {MBB : MachineBasicBlock μ}
    {MI : VInst μ} (hMBB : F.blocks[I]? = some MBB) (hMI : MBB.insts[MBBI]? = some MI) :
    (PseudoSite.ofGet hMBB hMI).before.length = MBBI := by
  obtain ⟨hlt, -⟩ := List.getElem?_eq_some_iff.mp hMI
  exact (List.length_take).trans (min_eq_left hlt.le)

/-- A multiplication is cleared in its place. -/
theorem expandISelMove_of_mul {MI : VInst μ} (hmul : MI.isMul = true) (site : PseudoSite s.MF MI)
    (hpre : site.pre = s.MF.blocks.take s.I) (hbb : s.MF.blocks[s.I]? = some site.bb)
    (hbefore : site.before.length = s.MBBI) {MF : MachineFunction μ}
    (hMF : s.MF.insertMul clearA site = some MF) :
    ExpandISelMove clearA s ⟨MF, s.I, s.MBBI + 1, true⟩ := by
  obtain ⟨⟨code, rest⟩, hplace, rfl⟩ := Option.map_eq_some_iff.mp hMF
  exact .mul hmul site hpre hbb hbefore hplace

/-- **What a round does**, when it is not the last one. -/
theorem expandISelMove_of_step (hids : ∀ b ∈ s.MF.blocks, b.number < s.MF.numBlockIDs)
    (h : expandISelStep clearA s = .inl t) : ExpandISelMove clearA s t := by
  unfold expandISelStep at h
  split at h
  · cases h
  · rename_i MBB hMBB
    have old := hids MBB (List.mem_of_getElem? hMBB)
    split at h
    · rename_i hMI
      obtain rfl := Sum.inl.inj h
      exact .nextBlock hMBB (List.getElem?_eq_none_iff.mp hMI)
    · rename_i MI hMI
      have hbefore := length_before_ofGet hMBB hMI
      split_ifs at h with hook
      · split at h
        · cases h
        rename_i MF NewMBB hemit
        cases MI with
        | MULRdRr _ | MULSRdRr _ =>
            obtain ⟨MF', hMF', heq⟩ := Option.map_eq_some_iff.mp hemit
            obtain ⟨rfl, rfl⟩ := Prod.mk.inj heq
            rw [if_pos (show (PseudoSite.ofGet hMBB hMI).bb.number = MBB.number from rfl)] at h
            obtain rfl := Sum.inl.inj h
            exact expandISelMove_of_mul rfl (PseudoSite.ofGet hMBB hMI) rfl hMBB hbefore hMF'
        | shiftPseudo p dst src cnt =>
            obtain ⟨rfl, rfl⟩ := Prod.mk.inj (Option.some.inj hemit)
            have new : remBBNumber s.MF ≠ MBB.number := Nat.ne_of_gt (Nat.lt_succ_of_lt old)
            rw [if_neg new] at h
            obtain rfl := Sum.inl.inj h
            exact .shift (PseudoSite.ofGet hMBB hMI) rfl hMBB hbefore
        | selectPseudo dst src src2 cc =>
            obtain ⟨rfl, rfl⟩ := Prod.mk.inj (Option.some.inj hemit)
            have new : trueMBBNumber s.MF ≠ MBB.number := Nat.ne_of_gt old
            rw [if_neg new] at h
            obtain rfl := Sum.inl.inj h
            exact .select (PseudoSite.ofGet hMBB hMI) rfl hMBB hbefore
        | other | copyFromA | CPIRdK | SUBIRdK | shift => cases hook
      · obtain rfl := Sum.inl.inj h
        exact .nextInst hMBB hMI (Bool.eq_false_of_not_eq_true hook)

/-- The last round stands behind all blocks. -/
theorem expandISelStep_done (hstay : s.MF.MulsStay) {result : Option (MachineFunction μ × Bool)}
    (h : expandISelStep clearA s = .inr result) :
    s.MF.blocks.length ≤ s.I ∧ result = some (s.MF, s.Changed) := by
  unfold expandISelStep at h
  split at h
  · rename_i hMBB
    exact ⟨List.getElem?_eq_none_iff.mp hMBB, (Sum.inr.inj h).symm⟩
  · rename_i MBB hMBB
    split at h
    · cases h
    · rename_i MI hMI
      split_ifs at h with hook
      -- every inserter has a result
      split at h
      · rename_i hemit
        cases MI with
        | MULRdRr _ | MULSRdRr _ =>
            obtain ⟨code, rest, -, hMF⟩ :=
              exists_insertMul clearA hstay (PseudoSite.ofGet hMBB hMI) rfl
            rw [emitInstrWithCustomInserter, hMF] at hemit
            cases hemit
        | shiftPseudo | selectPseudo => cases hemit
        | other | copyFromA | CPIRdK | SUBIRdK | shift => cases hook
      · split_ifs at h

end

/-! ## Where the iteration goes on -/

/-- The pseudos. -/
def VInst.isISelPseudo (i : VInst μ) : Bool :=
  i.isShiftPseudo || i.isSelectPseudo

/-- No instruction of a list is a pseudo. -/
def NoISelPseudos (is : List (VInst μ)) : Prop :=
  ∀ i ∈ is, i.isISelPseudo = false

/-- What has a custom inserter is a pseudo or a multiplication. -/
theorem VInst.hook_eq (i : VInst μ) :
    i.usesCustomInsertionHook = (i.isISelPseudo || i.isMul) := by
  cases i <;> rfl

/-- A multiplication is no pseudo. -/
theorem VInst.isISelPseudo_of_isMul {i : VInst μ} (h : i.isMul = true) :
    i.isISelPseudo = false := by
  cases i with
  | MULRdRr | MULSRdRr => rfl
  | other | copyFromA | CPIRdK | SUBIRdK | shift | shiftPseudo | selectPseudo => cases h

/-- An instruction without a custom inserter is neither. -/
theorem VInst.of_hook_eq_false {i : VInst μ} (h : i.usesCustomInsertionHook = false) :
    i.isISelPseudo = false ∧ i.isMul = false := by
  rw [i.hook_eq] at h
  exact Bool.or_eq_false_iff.mp h

section

variable {F : MachineFunction μ} {p : ShiftPseudo} {dst src src2 cnt : ℕ} {cc : SNESCC}

/-- Where a shift stands, the first three blocks afterwards are the old first block, or what is left
of it, and the two new ones. -/
theorem insertShift_blocks (site : PseudoSite F (.shiftPseudo p dst src cnt)) :
    ∃ a rest, (insertShift F site).blocks = a :: site.loopBB :: site.remBB :: rest ∧
      (∃ b ∈ F.blocks, a.number = b.number) ∧
      ((site.pre = [] ∧ a = site.shiftBB) ∨ ∃ b ∈ site.pre, a.insts = b.insts) := by
  cases hpre : site.pre with
  | nil =>
      exact ⟨site.shiftBB, _, insertShift_blocks_of_first site hpre,
        ⟨site.bb, site.mem, updatePHIs_number _ _ _⟩, .inl ⟨rfl, rfl⟩⟩
  | cons first rest =>
      refine ⟨first.updatePHIs site.bb (remBBNumber F), _, by simp [insertShift, hpre]; rfl,
        ⟨first, ?_, updatePHIs_number _ _ _⟩,
        .inr ⟨first, List.mem_cons_self, updatePHIs_insts _ _ _⟩⟩
      rw [site.blocks_eq, hpre]
      exact List.mem_cons_self

/-- **A shift sends the iteration back** to the third block, wherever the shift stands. -/
theorem idxOf_remBB (hids : ∀ b ∈ F.blocks, b.number < F.numBlockIDs)
    (site : PseudoSite F (.shiftPseudo p dst src cnt)) :
    (insertShift F site).ids.idxOf (remBBNumber F) = 2 := by
  obtain ⟨a, rest, hblocks, ⟨b, hb, hnumber⟩, -⟩ := insertShift_blocks site
  have hlt := hids b hb
  have first_ne : a.number ≠ remBBNumber F := by
    unfold remBBNumber
    omega
  have loop_ne : loopBBNumber F ≠ remBBNumber F := Nat.ne_of_lt (Nat.lt_succ_self _)
  have ids_eq : (insertShift F site).ids = a.number :: loopBBNumber F :: remBBNumber F ::
      rest.map MachineBasicBlock.number := by
    rw [MachineFunction.ids, hblocks]
    rfl
  rw [ids_eq, List.idxOf_cons_ne _ first_ne, List.idxOf_cons_ne _ loop_ne, List.idxOf_cons_self]

/-- A select sends the iteration to the block behind its own. -/
theorem idxOf_trueMBB (hids : ∀ b ∈ F.blocks, b.number < F.numBlockIDs)
    (site : PseudoSite F (.selectPseudo dst src src2 cc)) :
    (emitSelect F site).ids.idxOf (trueMBBNumber F) = site.pre.length + 1 := by
  have new : trueMBBNumber F ∉ site.pre.map MachineBasicBlock.number ++ [site.bb.number] := by
    rw [← List.map_singleton, ← List.map_append]
    intro h
    obtain ⟨b, hb, hnumber⟩ := List.mem_map.mp h
    have mem : b ∈ F.blocks := by
      rw [site.blocks_eq, List.append_cons]
      exact List.mem_append_left _ hb
    exact (hids b mem).ne hnumber
  rw [emitSelect_ids, List.append_cons, List.idxOf_append_of_notMem new, List.cons_append,
    List.idxOf_cons_self]
  simp

end

/-! ## Nothing is left behind -/

/-- The pseudos of a block. -/
def MachineBasicBlock.pseudoCount (b : MachineBasicBlock μ) : ℕ :=
  b.insts.countP VInst.isISelPseudo

/-- The pseudos of a function. -/
def MachineFunction.pseudoCount (F : MachineFunction μ) : ℕ :=
  (F.blocks.map MachineBasicBlock.pseudoCount).sum

/-- The iteration is through with the first instructions of a list: they hold no pseudos, and `A` is
cleared behind the multiplications among them. -/
structure ThroughWith (clearA : RegState μ → RegState μ) (n : ℕ) (insts : List (VInst μ)) :
    Prop where
  noPseudos : NoISelPseudos (insts.take n)
  cleared : MulsCleared clearA n insts

/-- What the iteration is through with, as it stands in a function. -/
structure ExpandISelState.Scanned (clearA : RegState μ → RegState μ) (s : ExpandISelState μ) :
    Prop where
  ids_lt : ∀ b ∈ s.MF.blocks, b.number < s.MF.numBlockIDs
  blocks : ∀ b ∈ s.MF.blocks.take s.I, ThroughWith clearA b.insts.length b.insts
  insts : ∀ b, s.MF.blocks[s.I]? = some b → ThroughWith clearA s.MBBI b.insts

section

variable {clearA : RegState μ → RegState μ} {F : MachineFunction μ} {p : ShiftPseudo}
  {dst src src2 cnt : ℕ} {cc : SNESCC}

/-- Counting the pseudos of a function at a site. -/
theorem PseudoSite.pseudoCount_eq {mi : VInst μ} (site : PseudoSite F mi)
    (hmi : mi.isISelPseudo = true) :
    F.pseudoCount = (site.pre.map MachineBasicBlock.pseudoCount).sum +
      (site.before.countP VInst.isISelPseudo + site.after.countP VInst.isISelPseudo + 1) +
      (site.post.map MachineBasicBlock.pseudoCount).sum := by
  rw [MachineFunction.pseudoCount, site.blocks_eq, List.map_append, List.map_cons,
    MachineBasicBlock.pseudoCount, site.insts_eq, List.sum_append, List.sum_cons,
    List.countP_append, List.countP_cons_of_pos hmi]
  omega

/-- Updating phi nodes leaves the pseudos. -/
theorem map_pseudoCount_updatePHIs (blocks : List (MachineBasicBlock μ))
    (fromMBB : MachineBasicBlock μ) (toMBB : ℕ) :
    (blocks.map fun b => b.updatePHIs fromMBB toMBB).map MachineBasicBlock.pseudoCount =
      blocks.map MachineBasicBlock.pseudoCount := by
  simp [MachineBasicBlock.pseudoCount, Function.comp_def]

/-- A shift takes one pseudo away. -/
theorem pseudoCount_insertShift (site : PseudoSite F (.shiftPseudo p dst src cnt)) :
    (insertShift F site).pseudoCount + 1 = F.pseudoCount := by
  have parts (blocks : List (MachineBasicBlock μ)) :
      ((blocks.take 1).map MachineBasicBlock.pseudoCount).sum +
        ((blocks.drop 1).map MachineBasicBlock.pseudoCount).sum =
        (blocks.map MachineBasicBlock.pseudoCount).sum := by
    rw [← List.sum_append, ← List.map_append, List.take_append_drop]
  have split := parts (site.pre.map (fun b => b.updatePHIs site.bb (remBBNumber F)) ++
    site.shiftBB :: site.post.map fun b => b.updatePHIs site.bb (remBBNumber F))
  have head_eq : site.shiftBB.pseudoCount = site.before.countP VInst.isISelPseudo :=
    List.countP_append
  have loop_eq : site.loopBB.pseudoCount = 0 := rfl
  have rem_eq : site.remBB.pseudoCount = site.after.countP VInst.isISelPseudo := rfl
  rw [List.map_append, List.map_cons, List.sum_append, List.sum_cons,
    map_pseudoCount_updatePHIs, map_pseudoCount_updatePHIs, head_eq] at split
  rw [site.pseudoCount_eq rfl, MachineFunction.pseudoCount, insertShift, List.map_append,
    List.map_cons, List.map_cons, List.sum_append, List.sum_cons, List.sum_cons, loop_eq, rem_eq]
  omega

/-- So does a select. -/
theorem pseudoCount_emitSelect (site : PseudoSite F (.selectPseudo dst src src2 cc)) :
    (emitSelect F site).pseudoCount + 1 = F.pseudoCount := by
  have head_eq : site.selectMBB.pseudoCount = site.before.countP VInst.isISelPseudo :=
    rfl
  have true_eq : site.trueMBB.pseudoCount = site.after.countP VInst.isISelPseudo := rfl
  have false_eq : (falseMBB F).pseudoCount = 0 := rfl
  rw [site.pseudoCount_eq rfl, MachineFunction.pseudoCount, emitSelect, List.map_append,
    List.map_cons, List.map_cons, List.map_cons, List.sum_append, List.sum_cons, List.sum_cons,
    List.sum_cons, map_pseudoCount_updatePHIs, map_pseudoCount_updatePHIs, head_eq, true_eq,
    false_eq]
  omega

/-- A multiplication is none, and none comes behind it. -/
theorem pseudoCount_mulBB {mi : VInst μ} (site : PseudoSite F mi) (copies : ℕ) :
    (site.mulBB clearA copies).pseudoCount = site.bb.pseudoCount := by
  have after_eq : site.after.countP VInst.isISelPseudo =
      (site.after.take copies).countP VInst.isISelPseudo +
        (site.after.drop copies).countP VInst.isISelPseudo := by
    rw [← List.countP_append, List.take_append_drop]
  have clear_eq : (site.after.take copies ++ .other clearA :: site.after.drop copies).countP
      VInst.isISelPseudo = site.after.countP VInst.isISelPseudo := by
    rw [List.countP_append, List.countP_cons_of_neg (by simp [VInst.isISelPseudo,
      VInst.isShiftPseudo, VInst.isSelectPseudo]), after_eq]
  rw [MachineBasicBlock.pseudoCount, MachineBasicBlock.pseudoCount, PseudoSite.mulBB,
    List.countP_append, List.countP_cons, clear_eq, site.insts_eq, List.countP_append,
    List.countP_cons]

/-- The old numbers are below the next free one after two blocks more. -/
theorem ids_lt_add_two (hids : ∀ b ∈ F.blocks, b.number < F.numBlockIDs) :
    ∀ t ∈ F.ids, t < F.numBlockIDs + 2 := by
  intro t ht
  obtain ⟨b, hb, rfl⟩ := List.mem_map.mp ht
  exact Nat.lt_add_right 2 (hids b hb)

/-- The numbers of the blocks after a shift. -/
theorem insertShift_ids_lt (hids : ∀ b ∈ F.blocks, b.number < F.numBlockIDs)
    (site : PseudoSite F (.shiftPseudo p dst src cnt)) :
    ∀ b ∈ (insertShift F site).blocks, b.number < (insertShift F site).numBlockIDs := by
  have old := ids_lt_add_two hids
  have numbers : ∀ t ∈ (insertShift F site).ids, t < F.numBlockIDs + 2 := by
    intro t ht
    rw [insertShift_ids, List.mem_append, List.mem_cons, List.mem_cons] at ht
    unfold loopBBNumber remBBNumber at ht
    rcases ht with ht | rfl | rfl | ht
    · exact old t (List.mem_of_mem_take ht)
    · omega
    · omega
    · exact old t (List.mem_of_mem_drop ht)
  exact fun b hb => numbers b.number (List.mem_map_of_mem hb)

/-- The numbers of the blocks after a select. -/
theorem emitSelect_ids_lt (hids : ∀ b ∈ F.blocks, b.number < F.numBlockIDs)
    (site : PseudoSite F (.selectPseudo dst src src2 cc)) :
    ∀ b ∈ (emitSelect F site).blocks, b.number < (emitSelect F site).numBlockIDs := by
  have old := ids_lt_add_two hids
  have numbers : ∀ t ∈ (emitSelect F site).ids, t < F.numBlockIDs + 2 := by
    intro t ht
    rw [site.ids_eq] at old
    rw [emitSelect_ids] at ht
    simp only [List.mem_append, List.mem_cons, List.not_mem_nil, or_false, trueMBBNumber,
      falseMBBNumber] at old ht
    rcases ht with ht | rfl | (rfl | rfl) | ht
    · exact old t (.inl ht)
    · exact old _ (.inr (.inl rfl))
    · omega
    · omega
    · exact old t (.inr (.inr ht))
  exact fun b hb => numbers b.number (List.mem_map_of_mem hb)

/-- The blocks beside the one of a multiplication stay. -/
theorem forall_mem_mulBlocks_iff {mi : VInst μ} (site : PseudoSite F mi) (copies : ℕ)
    {property : MachineBasicBlock μ → Prop} (hF : ∀ b ∈ F.blocks, property b)
    (hmul : property (site.mulBB clearA copies)) :
    ∀ b ∈ site.pre ++ site.mulBB clearA copies :: site.post, property b := by
  rw [site.blocks_eq] at hF
  intro b hb
  rcases List.mem_append.mp hb with hb | hb
  · exact hF b (List.mem_append_left _ hb)
  · rcases List.mem_cons.mp hb with rfl | hb
    · exact hmul
    · exact hF b (List.mem_append_right _ (List.mem_cons_of_mem _ hb))

end

section

variable {clearA : RegState μ → RegState μ} {s t : ExpandISelState μ} {mi : VInst μ}

/-- The site of a round has as many blocks before it as the iteration has gone through. -/
theorem length_pre_of_site (site : PseudoSite s.MF mi) (hpre : site.pre = s.MF.blocks.take s.I)
    (hbb : s.MF.blocks[s.I]? = some site.bb) : site.pre.length = s.I := by
  obtain ⟨hlt, -⟩ := List.getElem?_eq_some_iff.mp hbb
  rw [hpre, List.length_take, min_eq_left hlt.le]

/-- Nothing has been passed at the start of a block. -/
theorem throughWith_zero (insts : List (VInst μ)) : ThroughWith clearA 0 insts where
  noPseudos := by
    rw [List.take_zero]
    rintro i ⟨⟩
  cleared := mulsCleared_zero insts

/-- What has been passed before a site. -/
theorem ExpandISelState.Scanned.site (h : s.Scanned clearA) (site : PseudoSite s.MF mi)
    (hpre : site.pre = s.MF.blocks.take s.I) (hbb : s.MF.blocks[s.I]? = some site.bb)
    (hbefore : site.before.length = s.MBBI) :
    (∀ b ∈ site.pre, ThroughWith clearA b.insts.length b.insts) ∧ NoISelPseudos site.before ∧
      MulsCleared clearA site.before.length (site.before ++ mi :: site.after) := by
  obtain ⟨noPseudos, cleared⟩ := h.insts site.bb hbb
  rw [← hbefore, site.insts_eq] at noPseudos cleared
  rw [List.take_left] at noPseudos
  exact ⟨hpre ▸ h.blocks, noPseudos, cleared⟩

/-- What is left of a block that is split has been passed. -/
theorem throughWith_head (site : PseudoSite s.MF mi) (hmi : mi.usesCustomInsertionHook = true)
    (before : NoISelPseudos site.before)
    (cleared : MulsCleared clearA site.before.length (site.before ++ mi :: site.after))
    {tail : List (VInst μ)}
    (htail : ∀ i ∈ tail, i.usesCustomInsertionHook = false ∧ i.fromA = false) (n : ℕ) :
    ThroughWith clearA n (site.before ++ tail) where
  noPseudos := by
    intro i hi
    rcases List.mem_append.mp (List.mem_of_mem_take hi) with hi | hi
    · exact before i hi
    · exact (VInst.of_hook_eq_false (htail i hi).1).1
  cleared := cleared.split hmi
    (fun i hi => ⟨(VInst.of_hook_eq_false (htail i hi).1).2, (htail i hi).2⟩) n

/-- **Every round leaves what it has passed done**, even when it goes back. -/
theorem ExpandISelMove.scanned (hmove : ExpandISelMove clearA s t) (h : s.Scanned clearA) :
    t.Scanned clearA := by
  cases hmove with
  | @nextBlock MBB hMBB hend =>
      refine ⟨h.ids_lt, fun b hb => ?_, fun b _ => throughWith_zero b.insts⟩
      rw [List.take_add_one, hMBB, Option.toList_some, List.mem_append, List.mem_singleton] at hb
      rcases hb with hb | rfl
      · exact h.blocks b hb
      · obtain ⟨noPseudos, cleared⟩ := h.insts b hMBB
        refine ⟨?_, fun before mi after heq hlt => cleared before mi after heq (hlt.trans_le hend)⟩
        rw [List.take_of_length_le hend] at noPseudos
        rwa [List.take_length]
  | @nextInst MBB MI hMBB hMI hno =>
      obtain ⟨noPseudo, noMul⟩ := VInst.of_hook_eq_false hno
      refine ⟨h.ids_lt, h.blocks, fun b hb => ?_⟩
      obtain rfl := Option.some.inj (hMBB.symm.trans hb)
      obtain ⟨noPseudos, cleared⟩ := h.insts _ hMBB
      refine ⟨fun i hi => ?_, cleared.next hMI noMul⟩
      rw [List.take_add_one, hMI, Option.toList_some, List.mem_append, List.mem_singleton] at hi
      rcases hi with hi | rfl
      · exact noPseudos i hi
      · exact noPseudo
  | @mul MI hmul site hpre hbb hbefore code rest hplace =>
      obtain ⟨pre, before, cleared⟩ := h.site site hpre hbb hbefore
      have hI := length_pre_of_site site hpre hbb
      refine ⟨?_, fun b hb => pre b ?_, fun b hb => ?_⟩
      · exact forall_mem_mulBlocks_iff site code.length h.ids_lt (h.ids_lt site.bb site.mem)
      · rwa [← hI, List.take_left] at hb
      · rw [← hI, List.getElem?_append_right le_rfl, Nat.sub_self, List.getElem?_cons_zero] at hb
        obtain rfl := Option.some.inj hb
        have behind : ClearsBehind clearA _ _ _ := clearsBehind_of_insertMul hplace
        rw [← hbefore]
        refine ⟨fun i hi => ?_, cleared.insertMul hmul ⟨_, _, behind⟩⟩
        rw [PseudoSite.mulBB, List.take_length_add_append, List.take_succ_cons, List.take_zero,
          List.mem_append, List.mem_singleton] at hi
        rcases hi with hi | rfl
        · exact before i hi
        · exact VInst.isISelPseudo_of_isMul hmul
  | shift site hpre hbb hbefore =>
      -- the iteration goes on in the third block: only the first two have to be done
      obtain ⟨pre, before, cleared⟩ := h.site site hpre hbb hbefore
      refine ⟨insertShift_ids_lt h.ids_lt site, fun b hb => ?_, fun b _ => throughWith_zero b.insts⟩
      obtain ⟨a, rest, hblocks, -, hfirst⟩ := insertShift_blocks site
      simp only [idxOf_remBB h.ids_lt site, hblocks, List.take_succ_cons, List.take_zero,
        List.mem_cons, List.not_mem_nil, or_false] at hb
      rcases hb with rfl | rfl
      · rcases hfirst with ⟨-, rfl⟩ | ⟨first, hmem, hinsts⟩
        · exact throughWith_head site rfl before cleared (by simp [VInst.fromA,
            VInst.usesCustomInsertionHook]) _
        · rw [hinsts]
          exact pre first hmem
      · refine ⟨fun i hi => ?_, fun before mi after heq _ hmul => ?_⟩
        · rcases List.mem_pair.mp (List.mem_of_mem_take hi) with rfl | rfl <;> rfl
        · have mem : mi ∈ site.loopBB.insts := by simp [heq]
          rcases List.mem_pair.mp mem with rfl | rfl <;> cases hmul
  | select site hpre hbb hbefore =>
      -- it goes on behind the block of the select, of which only the first part is left
      obtain ⟨pre, before, cleared⟩ := h.site site hpre hbb hbefore
      refine ⟨emitSelect_ids_lt h.ids_lt site, fun b hb => ?_, fun b _ => throughWith_zero b.insts⟩
      have blocks_eq : (emitSelect s.MF site).blocks = site.pre.map (fun b =>
          b.updatePHIs site.bb (trueMBBNumber s.MF)) ++ site.selectMBB :: _ := rfl
      simp only [idxOf_trueMBB h.ids_lt site, blocks_eq] at hb
      rw [List.take_append, List.length_map, Nat.add_sub_cancel_left, List.take_succ_cons,
        List.take_zero, List.mem_append, List.mem_singleton] at hb
      rcases hb with hb | rfl
      · obtain ⟨a, ha, rfl⟩ := List.mem_map.mp (List.mem_of_mem_take hb)
        rw [updatePHIs_insts]
        exact pre a ha
      · have nothing : ∀ i ∈ ([] : List (VInst μ)),
            i.usesCustomInsertionHook = false ∧ i.fromA = false := by
          rintro i ⟨⟩
        have head := throughWith_head site rfl before cleared nothing site.selectMBB.insts.length
        rwa [List.append_nil] at head

end

/-! ## What every round keeps -/

/-- What the iteration is through with as a whole has no pseudos. -/
theorem ThroughWith.noISelPseudos {clearA : RegState μ → RegState μ} {insts : List (VInst μ)}
    (h : ThroughWith clearA insts.length insts) : NoISelPseudos insts := by
  have none := h.noPseudos
  rwa [List.take_length] at none

/-- Some instruction of a function has a custom inserter: a shift, a select or a multiplication. -/
def MachineFunction.hasCustomInserters (F : MachineFunction μ) : Bool :=
  F.blocks.any fun b => b.insts.any VInst.usesCustomInsertionHook

/-- What the iteration has done to a function: two blocks for each pseudo. -/
structure ExpandISelState.Counts (F : MachineFunction μ) (s : ExpandISelState μ) : Prop where
  length : s.MF.blocks.length + 2 * s.MF.pseudoCount = F.blocks.length + 2 * F.pseudoCount
  ids : s.MF.numBlockIDs + 2 * s.MF.pseudoCount = F.numBlockIDs + 2 * F.pseudoCount

/-- `Changed` is set by the first custom inserter. -/
structure ExpandISelState.Tracks (F : MachineFunction μ) (s : ExpandISelState μ) : Prop where
  changed : s.Changed = true → F.hasCustomInserters = true
  unchanged : s.Changed = false → s.MF = F
  blocks : s.Changed = false → ∀ b ∈ s.MF.blocks.take s.I, ∀ i ∈ b.insts,
    i.usesCustomInsertionHook = false
  insts : s.Changed = false → ∀ b, s.MF.blocks[s.I]? = some b →
    ∀ i ∈ b.insts.take s.MBBI, i.usesCustomInsertionHook = false

/-- What the iteration makes of a function: no pseudos, two blocks for each one, and `A` is cleared
behind every multiplication. -/
structure ExpandedInto (clearA : RegState μ → RegState μ) (F F' : MachineFunction μ) : Prop where
  none_left : F'.pseudoCount = 0
  cleared : ∀ b ∈ F'.blocks, MulsCleared clearA b.insts.length b.insts
  length : F'.blocks.length = F.blocks.length + 2 * F.pseudoCount
  ids : F'.numBlockIDs = F.numBlockIDs + 2 * F.pseudoCount

section

variable {clearA : RegState μ → RegState μ} {F : MachineFunction μ} {p : ShiftPseudo}
  {dst src src2 cnt : ℕ} {cc : SNESCC}

/-- What `insertMul` looks at is there after a shift. -/
theorem mulsStay_insertShift (hF : F.MulsStay)
    (site : PseudoSite F (.shiftPseudo p dst src cnt)) : (insertShift F site).MulsStay := by
  have old (b : MachineBasicBlock μ) (hb : b ∈ F.blocks) :
      (b.updatePHIs site.bb (remBBNumber F)).MulsStay :=
    (mulsStay_updatePHIs_iff _ _).mpr (hF b hb)
  have head : site.shiftBB.MulsStay := by
    intro before mi after heq hmul
    rcases after with _ | ⟨i, after⟩
    · obtain ⟨-, hlast⟩ := List.append_inj' heq rfl
      obtain rfl := (List.cons.inj hlast).1
      cases hmul
    · refine .inl ?_
      rw [MachineBasicBlock.following, List.length_append, List.length_map, List.length_map]
      have one : site.shiftBB.terminators.length = 1 := rfl
      rw [List.length_cons, one]
      omega
  have updated : ∀ b ∈ site.pre.map (fun b => b.updatePHIs site.bb (remBBNumber F)) ++
      site.shiftBB :: site.post.map fun b => b.updatePHIs site.bb (remBBNumber F), b.MulsStay := by
    intro b hb
    simp only [List.mem_append, List.mem_cons, List.mem_map] at hb
    rcases hb with ⟨a, ha, rfl⟩ | rfl | ⟨a, ha, rfl⟩
    · exact old a (by simp [site.blocks_eq, ha])
    · exact head
    · exact old a (by simp [site.blocks_eq, ha])
  intro b hb
  rw [insertShift, List.mem_append, List.mem_cons, List.mem_cons] at hb
  rcases hb with hb | rfl | rfl | hb
  · exact updated b (List.mem_of_mem_take hb)
  · refine mulsStay_of_noMuls fun i hi => ?_
    rcases List.mem_pair.mp hi with rfl | rfl <;> rfl
  · exact (hF site.bb site.mem).of_suffix rfl (site.insts_eq.trans (List.append_cons _ _ _))
  · exact updated b (List.mem_of_mem_drop hb)

/-- And after a select. -/
theorem mulsStay_emitSelect (hF : F.MulsStay)
    (site : PseudoSite F (.selectPseudo dst src src2 cc)) : (emitSelect F site).MulsStay := by
  have old (b : MachineBasicBlock μ) (hb : b ∈ F.blocks) :
      (b.updatePHIs site.bb (trueMBBNumber F)).MulsStay :=
    (mulsStay_updatePHIs_iff _ _).mpr (hF b hb)
  intro b hb
  simp only [emitSelect, List.mem_append, List.mem_cons, List.mem_map] at hb
  rcases hb with ⟨a, ha, rfl⟩ | rfl | rfl | rfl | ⟨a, ha, rfl⟩
  · exact old a (by simp [site.blocks_eq, ha])
  · intro before mi after _ _
    refine .inl ?_
    rw [MachineBasicBlock.following, List.length_append, List.length_map, List.length_map]
    exact Nat.le_add_left 2 _
  · exact (hF site.bb site.mem).of_suffix rfl (site.insts_eq.trans (List.append_cons _ _ _))
  · exact mulsStay_of_noMuls (by rintro i ⟨⟩)
  · exact old a (by simp [site.blocks_eq, ha])

end

section

variable {clearA : RegState μ → RegState μ} {F : MachineFunction μ} {s t : ExpandISelState μ}

/-- What `insertMul` looks at is there after every round. -/
theorem ExpandISelMove.mulsStay (hmove : ExpandISelMove clearA s t) (h : s.MF.MulsStay) :
    t.MF.MulsStay := by
  cases hmove with
  | nextBlock _ _ => exact h
  | nextInst _ _ _ => exact h
  | mul hmul site hpre hbb hbefore hplace =>
      exact forall_mem_mulBlocks_iff site _ h (mulsStay_mulBB site (h site.bb site.mem) _)
  | shift site _ _ _ => exact mulsStay_insertShift h site
  | select site _ _ _ => exact mulsStay_emitSelect h site

/-- A multiplication leaves the pseudos. -/
theorem pseudoCount_mulBlocks (clearA : RegState μ → RegState μ) {mi : VInst μ}
    (site : PseudoSite F mi) (copies : ℕ) :
    MachineFunction.pseudoCount
        { F with blocks := site.pre ++ site.mulBB clearA copies :: site.post } = F.pseudoCount := by
  rw [MachineFunction.pseudoCount, MachineFunction.pseudoCount, site.blocks_eq, List.map_append,
    List.map_append, List.map_cons, List.map_cons, pseudoCount_mulBB]

/-- Every round keeps the counts. -/
theorem ExpandISelMove.counts (hmove : ExpandISelMove clearA s t) (h : s.Counts F) :
    t.Counts F := by
  obtain ⟨length, ids⟩ := h
  cases hmove with
  | nextBlock hMBB hend => exact ⟨length, ids⟩
  | nextInst hMBB hMI hno => exact ⟨length, ids⟩
  | @mul MI hmul site hpre hbb hbefore code rest hplace =>
      have count := pseudoCount_mulBlocks clearA site code.length
      have blocks := congrArg List.length site.blocks_eq
      rw [List.length_append, List.length_cons] at blocks
      refine ⟨?_, ?_⟩ <;> simp only [count, List.length_append, List.length_cons] <;> omega
  | shift site hpre hbb hbefore =>
      have count := pseudoCount_insertShift site
      have blocks : (insertShift s.MF site).blocks.length = s.MF.blocks.length + 2 := by
        have lengths := congrArg List.length (insertShift_ids site)
        simp only [MachineFunction.ids, List.length_map, List.length_append, List.length_cons,
          List.length_take, List.length_drop] at lengths
        omega
      have numbers : (insertShift s.MF site).numBlockIDs = s.MF.numBlockIDs + 2 := rfl
      refine ⟨?_, ?_⟩ <;> simp only <;> omega
  | select site hpre hbb hbefore =>
      have count := pseudoCount_emitSelect site
      have blocks : (emitSelect s.MF site).blocks.length = s.MF.blocks.length + 2 := by
        have lengths := congrArg List.length (emitSelect_ids site)
        have old := congrArg List.length site.ids_eq
        simp only [MachineFunction.ids, List.length_map, List.length_append, List.length_cons]
          at lengths old
        simp only [List.length_nil] at lengths
        omega
      have numbers : (emitSelect s.MF site).numBlockIDs = s.MF.numBlockIDs + 2 := rfl
      refine ⟨?_, ?_⟩ <;> simp only <;> omega

/-- A custom inserter is one of the function's own, as long as nothing has been changed. -/
theorem ExpandISelState.Tracks.hasCustomInserters (h : s.Tracks F) {mi : VInst μ}
    (site : PseudoSite s.MF mi) (hmi : mi.usesCustomInsertionHook = true) :
    F.hasCustomInserters = true := by
  cases hchanged : s.Changed with
  | true => exact h.changed hchanged
  | false =>
      rw [← h.unchanged hchanged, MachineFunction.hasCustomInserters, List.any_eq_true]
      exact ⟨site.bb, site.mem, List.any_eq_true.mpr ⟨mi, site.inst_mem, hmi⟩⟩

/-- Every round keeps track of changes. -/
theorem ExpandISelMove.tracks (hmove : ExpandISelMove clearA s t) (h : s.Tracks F) :
    t.Tracks F := by
  cases hmove with
  | @nextBlock MBB hMBB hend =>
      refine ⟨h.changed, h.unchanged, fun hchanged b hb => ?_, fun _ b _ i hi => ?_⟩
      · rw [List.take_add_one, hMBB, Option.toList_some, List.mem_append, List.mem_singleton] at hb
        rcases hb with hb | rfl
        · exact h.blocks hchanged b hb
        · have whole := h.insts hchanged b hMBB
          rwa [List.take_of_length_le hend] at whole
      · rw [List.take_zero] at hi
        cases hi
  | @nextInst MBB MI hMBB hMI hno =>
      refine ⟨h.changed, h.unchanged, h.blocks, fun hchanged b hb i hi => ?_⟩
      obtain rfl := Option.some.inj (hMBB.symm.trans hb)
      rw [List.take_add_one, hMI, Option.toList_some, List.mem_append, List.mem_singleton] at hi
      rcases hi with hi | rfl
      · exact h.insts hchanged _ hMBB i hi
      · exact hno
  | mul hmul site _ _ _ _ =>
      exact ⟨fun _ => h.hasCustomInserters site (VInst.hook_of_isMul hmul), nofun, nofun, nofun⟩
  | shift site _ _ _ => exact ⟨fun _ => h.hasCustomInserters site rfl, nofun, nofun, nofun⟩
  | select site _ _ _ => exact ⟨fun _ => h.hasCustomInserters site rfl, nofun, nofun, nofun⟩

/-- Behind all blocks `Changed` says whether there was a custom inserter. -/
theorem ExpandISelState.Tracks.changed_eq (h : s.Tracks F) (hend : s.MF.blocks.length ≤ s.I) :
    s.Changed = F.hasCustomInserters := by
  cases hchanged : s.Changed with
  | true => exact (h.changed hchanged).symm
  | false =>
      have blocks := h.blocks hchanged
      rw [List.take_of_length_le hend, h.unchanged hchanged] at blocks
      refine (List.any_eq_false.mpr fun b hb => ?_).symm
      rw [Bool.not_eq_true, List.any_eq_false]
      exact fun i hi => by simp [blocks b hb i hi]

/-- Behind all blocks no pseudos are left. -/
theorem ExpandISelState.Scanned.pseudoCount_eq_zero (h : s.Scanned clearA)
    (hend : s.MF.blocks.length ≤ s.I) : s.MF.pseudoCount = 0 := by
  have blocks := h.blocks
  rw [List.take_of_length_le hend] at blocks
  rw [MachineFunction.pseudoCount, List.sum_eq_zero_iff]
  intro n hn
  obtain ⟨b, hb, rfl⟩ := List.mem_map.mp hn
  have noPseudos := (blocks b hb).noISelPseudos
  rw [MachineBasicBlock.pseudoCount, List.countP_eq_zero]
  intro i hi
  simp [noPseudos i hi]

/-! ## The iteration ends -/

/-- What an instruction can still add to: a multiplication comes with an instruction more. -/
def VInst.weight (i : VInst μ) : ℕ :=
  if i.isMul then 2 else 1

/-- What every round lowers: the pseudos, the blocks to come, the instructions to come. -/
def ExpandISelState.rank (s : ExpandISelState μ) : ℕ ×ₗ ℕ ×ₗ ℕ :=
  toLex (s.MF.pseudoCount, toLex (s.MF.blocks.length - s.I,
    (s.MF.blocks[s.I]?.map fun b => ((b.insts.drop s.MBBI).map VInst.weight).sum).getD 0))

/-- **Every round lowers the rank.** -/
theorem ExpandISelMove.rank_lt (hmove : ExpandISelMove clearA s t) : t.rank < s.rank := by
  unfold ExpandISelState.rank
  rw [Prod.Lex.toLex_lt_toLex]
  cases hmove with
  | nextBlock hMBB hend =>
      obtain ⟨hI, -⟩ := List.getElem?_eq_some_iff.mp hMBB
      refine .inr ⟨rfl, ?_⟩
      rw [Prod.Lex.toLex_lt_toLex]
      left
      simp only
      omega
  | @nextInst MBB MI hMBB hMI hno =>
      obtain ⟨hMBBI, hget⟩ := List.getElem?_eq_some_iff.mp hMI
      refine .inr ⟨rfl, ?_⟩
      rw [Prod.Lex.toLex_lt_toLex]
      refine .inr ⟨rfl, ?_⟩
      have weight : MI.weight = 1 := by rw [VInst.weight, (VInst.of_hook_eq_false hno).2]; rfl
      simp only [hMBB, Option.map_some, Option.getD_some, List.drop_eq_getElem_cons hMBBI, hget,
        List.map_cons, List.sum_cons, weight]
      omega
  | @mul MI hmul site hpre hbb hbefore code rest hplace =>
      have hI := length_pre_of_site site hpre hbb
      have blocks : s.MF.blocks.length =
          (site.pre ++ site.mulBB clearA code.length :: site.post).length := by
        rw [site.blocks_eq, List.length_append, List.length_append, List.length_cons,
          List.length_cons]
      have new : (site.pre ++ site.mulBB clearA code.length :: site.post)[s.I]? =
          some (site.mulBB clearA code.length) := by
        rw [← hI, List.getElem?_append_right le_rfl, Nat.sub_self, List.getElem?_cons_zero]
      have behind : site.bb.insts.drop s.MBBI = MI :: site.after := by
        rw [site.insts_eq, ← hbefore, List.drop_left]
      have behind' : (site.mulBB clearA code.length).insts.drop (s.MBBI + 1) =
          site.after.take code.length ++ .other clearA :: site.after.drop code.length := by
        rw [PseudoSite.mulBB, ← hbefore, List.drop_length_add_append, List.drop_succ_cons,
          List.drop_zero]
      have weights : ((site.after.take code.length ++
          VInst.other clearA :: site.after.drop code.length).map VInst.weight).sum =
          (site.after.map VInst.weight).sum + 1 := by
        have whole : (site.after.map VInst.weight).sum =
            ((site.after.take code.length).map VInst.weight).sum +
              ((site.after.drop code.length).map VInst.weight).sum := by
          rw [← List.sum_append, ← List.map_append, List.take_append_drop]
        rw [List.map_append, List.map_cons, List.sum_append, List.sum_cons, whole]
        show _ + (1 + _) = _
        omega
      have weight : MI.weight = 2 := by rw [VInst.weight, hmul]; rfl
      -- the instruction that is new weighs what the multiplication weighed more
      refine .inr ⟨pseudoCount_mulBlocks clearA site code.length, ?_⟩
      rw [Prod.Lex.toLex_lt_toLex]
      refine .inr ⟨by rw [blocks], ?_⟩
      simp only [new, hbb, Option.map_some, Option.getD_some, behind, behind', weights,
        List.map_cons, List.sum_cons, weight]
      omega
  | shift site hpre hbb hbefore =>
      left
      have count := pseudoCount_insertShift site
      simp only
      omega
  | select site hpre hbb hbefore =>
      left
      have count := pseudoCount_emitSelect site
      simp only
      omega

/-- The invariant of the iteration, with what else every round keeps. -/
structure ExpandISelState.Inv (clearA : RegState μ → RegState μ) (F : MachineFunction μ)
    (kept : MachineFunction μ → Prop) (s : ExpandISelState μ) : Prop where
  scanned : s.Scanned clearA
  stays : s.MF.MulsStay
  counts : s.Counts F
  tracks : s.Tracks F
  kept : kept s.MF

/-- The invariant holds at the start. -/
theorem expandISelStart_inv {kept : MachineFunction μ → Prop}
    (hids : ∀ b ∈ F.blocks, b.number < F.numBlockIDs) (hmuls : F.MulsStay) (hF : kept F) :
    (expandISelStart F).Inv clearA F kept where
  scanned := ⟨hids, by simp [expandISelStart], fun b _ => throughWith_zero b.insts⟩
  stays := hmuls
  counts := ⟨rfl, rfl⟩
  tracks := ⟨nofun, fun _ => rfl, by simp [expandISelStart], by simp [expandISelStart]⟩
  kept := hF

/-- **The iteration ends** with no pseudos left, and with what every round keeps. -/
theorem expandISel_returns (kept : MachineFunction μ → Prop)
    (hids : ∀ b ∈ F.blocks, b.number < F.numBlockIDs) (hmuls : F.MulsStay) (hF : kept F)
    (next : ∀ s t : ExpandISelState μ, s.Scanned clearA → kept s.MF → ExpandISelMove clearA s t →
      kept t.MF) :
    ∃ F', Returns (expandISelStep clearA) (expandISelStart F) (some (F', F.hasCustomInserters)) ∧
      ExpandedInto clearA F F' ∧ kept F' := by
  have returns : ∃ result, Returns (expandISelStep clearA) (expandISelStart F) result ∧
      ∃ F', result = some (F', F.hasCustomInserters) ∧ ExpandedInto clearA F F' ∧ kept F' := by
    refine exists_returns (InvImage.wf ExpandISelState.rank wellFounded_lt)
      (fun s t (hs : s.Inv clearA F kept) hstep => ?_)
      (fun s result (hs : s.Inv clearA F kept) hstep => ?_) (expandISelStart_inv hids hmuls hF)
    · have hmove := expandISelMove_of_step hs.scanned.ids_lt hstep
      exact ⟨⟨hmove.scanned hs.scanned, hmove.mulsStay hs.stays, hmove.counts hs.counts,
        hmove.tracks hs.tracks, next s t hs.scanned hs.kept hmove⟩, hmove.rank_lt⟩
    · obtain ⟨hend, rfl⟩ := expandISelStep_done hs.stays hstep
      obtain ⟨length, ids⟩ := hs.counts
      have none_left := hs.scanned.pseudoCount_eq_zero hend
      have cleared := hs.scanned.blocks
      rw [List.take_of_length_le hend] at cleared
      rw [none_left] at length ids
      exact ⟨s.MF, by rw [hs.tracks.changed_eq hend],
        ⟨none_left, fun b hb => (cleared b hb).cleared, length, ids⟩, hs.kept⟩
  obtain ⟨result, hreturns, F', rfl, hpost⟩ := returns
  exact ⟨F', hreturns, hpost⟩

/-- **All pseudos are expanded**: the iteration ends for every function, wherever its pseudos stand,
with no pseudo left and two new blocks for each one that was there, and with `A` cleared behind
every multiplication. -/
theorem expandISelPseudos_expands (clearA : RegState μ → RegState μ) (F : MachineFunction μ)
    (hids : ∀ b ∈ F.blocks, b.number < F.numBlockIDs) (hmuls : F.MulsStay) :
    ∃ F', Returns (expandISelStep clearA) (expandISelStart F) (some (F', F.hasCustomInserters)) ∧
      ExpandedInto clearA F F' := by
  obtain ⟨F', hreturns, hexpanded, -⟩ :=
    expandISel_returns (fun _ => True) hids hmuls trivial fun _ _ _ _ _ => trivial
  exact ⟨F', hreturns, hexpanded⟩

end

/-- A multiplication, and the shift of its result in the next block. -/
def mulAndShift : MachineFunction Unit where
  blocks := [⟨0, [], [.MULRdRr id, .copyFromA id], [.RJMPk 1], [1]⟩,
    ⟨1, [], [.shiftPseudo .Lsl16 2 0 1], [.RET], []⟩]
  numBlockIDs := 2
  numVirtRegs := 3

/-- The copy and the jump follow the multiplication. -/
theorem mulAndShift_mulsStay : mulAndShift.MulsStay := by
  intro b hb
  rcases List.mem_pair.mp hb with rfl | rfl
  · rintro before mi after heq hmul
    rcases before with _ | ⟨i, before⟩
    · obtain ⟨rfl, rfl⟩ := List.cons.inj heq
      exact .inl (by decide)
    · have mem : mi ∈ [VInst.copyFromA id] := by simp [(List.cons.inj heq).2]
      obtain rfl := List.mem_singleton.mp mem
      cases hmul
  · exact mulsStay_of_noMuls (by simp [VInst.isMul])

/-- Its pass, which clears `A` in the first block and goes back from the second one. -/
theorem expandISelPseudos_expands_mulAndShift :
    ∃ F', Returns (expandISelStep id) (expandISelStart mulAndShift)
        (some (F', mulAndShift.hasCustomInserters)) ∧ ExpandedInto id mulAndShift F' :=
  expandISelPseudos_expands id mulAndShift (by simp [mulAndShift]) mulAndShift_mulsStay

end Snes
