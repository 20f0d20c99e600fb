/-
# Shifts by a Variable Amount

`insertShift` of `SNESISelLowering.cpp` turns a shift pseudo into a loop of single
steps.  The two new blocks go behind the first block of the function, wherever the
pseudo stands.
-/
import SnesBackend.BlockSplit

namespace Snes

open WordArith BlockLayout

variable {μ : Type}

/-! ## `insertShift` -/

section

variable {F : MachineFunction μ} {p : ShiftPseudo} {dst src cnt : ℕ}

/-- The number of `LoopBB`. -/
def loopBBNumber (F : MachineFunction μ) : ℕ :=
  F.numBlockIDs

/-- The number of `RemBB`. -/
def remBBNumber (F : MachineFunction μ) : ℕ :=
  F.numBlockIDs + 1

/-- The first virtual register that is created. -/
def shiftAmtReg (F : MachineFunction μ) : ℕ :=
  F.numVirtRegs

/-- The second one. -/
def shiftAmtReg2 (F : MachineFunction μ) : ℕ :=
  F.numVirtRegs + 1

/-- The third one. -/
def shiftReg (F : MachineFunction μ) : ℕ :=
  F.numVirtRegs + 2

/-- The fourth one. -/
def shiftReg2 (F : MachineFunction μ) : ℕ :=
  F.numVirtRegs + 3

/-- What is left of `BB`: the comparison of the count with zero and the branch to `RemBB`. -/
def PseudoSite.shiftBB (site : PseudoSite F (.shiftPseudo p dst src cnt)) :
    MachineBasicBlock μ :=
  { site.bb.updatePHIs site.bb (remBBNumber F) with
    insts := site.before ++ [.CPIRdK cnt 0]
    terminators := [.branch .BREQk (remBBNumber F)]
    successors := [loopBBNumber F, remBBNumber F] }

/-- `LoopBB`: one single step, and the count goes down. -/
def PseudoSite.loopBB (site : PseudoSite F (.shiftPseudo p dst src cnt)) :
    MachineBasicBlock μ where
  number := loopBBNumber F
  phis :=
    [⟨shiftReg F, [(src, site.bb.number), (shiftReg2 F, loopBBNumber F)]⟩,
      ⟨shiftAmtReg F, [(cnt, site.bb.number), (shiftAmtReg2 F, loopBBNumber F)]⟩]
  insts := [.shift p.opc (shiftReg2 F) (shiftReg F), .SUBIRdK (shiftAmtReg2 F) (shiftAmtReg F) 1]
  terminators := [.branch .BRNEk (loopBBNumber F)]
  successors := [remBBNumber F, loopBBNumber F]

/-- `RemBB`: the result, and what followed the pseudo. -/
def PseudoSite.remBB (site : PseudoSite F (.shiftPseudo p dst src cnt)) :
    MachineBasicBlock μ where
  number := remBBNumber F
  phis := [⟨dst, [(src, site.bb.number), (shiftReg2 F, loopBBNumber F)]⟩]
  insts := site.after
  terminators := site.bb.terminators
  successors := site.bb.successors

/-- `insertShift`: both blocks are inserted at `begin()` plus one. -/
def insertShift (F : MachineFunction μ) (site : PseudoSite F (.shiftPseudo p dst src cnt)) :
    MachineFunction μ :=
  let update := fun b : MachineBasicBlock μ => b.updatePHIs site.bb (remBBNumber F)
  let blocks := site.pre.map update ++ site.shiftBB :: site.post.map update
  { blocks := blocks.take 1 ++ site.loopBB :: site.remBB :: blocks.drop 1
    numBlockIDs := F.numBlockIDs + 2
    numVirtRegs := F.numVirtRegs + 4 }

/-- The count of a shift pseudo when control comes to its block. -/
def PseudoSite.count (site : PseudoSite F (.shiftPseudo p dst src cnt)) (shift : SingleStep)
    (c : Config ℕ (RegState μ)) : ℕ :=
  ((execAll shift site.before (evalPhis site.bb.phis c.pred c.state)).vregs cnt).toNat

/-- In the first block, the new blocks stand between it and the rest. -/
theorem insertShift_blocks_of_first (site : PseudoSite F (.shiftPseudo p dst src cnt))
    (hfirst : site.pre = []) :
    (insertShift F site).blocks = site.shiftBB :: site.loopBB :: site.remBB ::
      site.post.map fun b => b.updatePHIs site.bb (remBBNumber F) := by
  simp [insertShift, hfirst]

/-- The layout when the pseudo stands in the first block. -/
theorem insertShift_ids_of_first (site : PseudoSite F (.shiftPseudo p dst src cnt))
    (hfirst : site.pre = []) :
    (insertShift F site).ids = site.bb.number :: loopBBNumber F :: remBBNumber F ::
      site.post.map MachineBasicBlock.number := by
  simp [insertShift_blocks_of_first site hfirst, MachineFunction.ids, PseudoSite.shiftBB,
    PseudoSite.loopBB, PseudoSite.remBB, Function.comp_def]

/-- The new blocks stand behind the first one. -/
theorem insertShift_ids (site : PseudoSite F (.shiftPseudo p dst src cnt)) :
    (insertShift F site).ids =
      F.ids.take 1 ++ loopBBNumber F :: remBBNumber F :: F.ids.drop 1 := by
  have same : (site.pre.map (fun b => b.updatePHIs site.bb (remBBNumber F)) ++ site.shiftBB ::
      site.post.map fun b => b.updatePHIs site.bb (remBBNumber F)).map
        MachineBasicBlock.number = F.ids := by
    rw [site.ids_eq]
    simp [PseudoSite.shiftBB, Function.comp_def]
  rw [MachineFunction.ids, insertShift, List.map_append, List.map_cons, List.map_cons,
    List.map_take, List.map_drop, same]
  rfl

/-- The new layout has no repetitions. -/
theorem insertShift_nodup (hF : F.WellFormed)
    (site : PseudoSite F (.shiftPseudo p dst src cnt)) : (insertShift F site).ids.Nodup := by
  have loop_new : loopBBNumber F ∉ F.ids := newBB_not_mem hF le_rfl
  have rem_new : remBBNumber F ∉ F.ids := newBB_not_mem hF (Nat.le_succ _)
  have ne : loopBBNumber F ≠ remBBNumber F := Nat.ne_of_lt (Nat.lt_succ_self _)
  have moved : (insertShift F site).ids.Perm (loopBBNumber F :: remBBNumber F :: F.ids) := by
    have key : (F.ids.take 1 ++ ([loopBBNumber F, remBBNumber F] ++ F.ids.drop 1)).Perm
        ([loopBBNumber F, remBBNumber F] ++ (F.ids.take 1 ++ F.ids.drop 1)) :=
      List.perm_append_comm_assoc _ _ _
    rw [List.take_append_drop] at key
    rw [insertShift_ids]
    exact key
  rw [moved.nodup_iff, List.nodup_cons, List.nodup_cons, List.mem_cons, not_or]
  exact ⟨⟨ne, loop_new⟩, rem_new, hF.nodup⟩

/-- Behind the first block, nothing changes place. -/
theorem insertShift_others_of_first (hF : F.WellFormed)
    (site : PseudoSite F (.shiftPseudo p dst src cnt)) (hfirst : site.pre = []) :
    ∀ b ∈ F.blocks, b.number ≠ site.bb.number →
      layoutNext (insertShift F site).ids b.number = layoutNext F.ids b.number := by
  intro b hb hne
  have hlt := hF.ids_lt b hb
  rw [insertShift_ids_of_first site hfirst, site.ids_eq, hfirst]
  refine @layoutNext_insert_after _ _ [] [loopBBNumber F, remBBNumber F] _ _ _ hne ?_
  simp only [List.mem_cons, List.not_mem_nil, or_false, loopBBNumber, remBBNumber]
  omega

/-- Control falls from the old block into the loop, from the loop into the rest, and from there to
where it fell before. -/
theorem insertShift_layoutNext_of_first (hF : F.WellFormed)
    (site : PseudoSite F (.shiftPseudo p dst src cnt)) (hfirst : site.pre = []) :
    layoutNext (insertShift F site).ids site.bb.number = some (loopBBNumber F) ∧
      layoutNext (insertShift F site).ids (loopBBNumber F) = some (remBBNumber F) ∧
      layoutNext (insertShift F site).ids (remBBNumber F) =
        layoutNext F.ids site.bb.number := by
  have hlt := hF.ids_lt site.bb site.mem
  have hloop : site.bb.number ≠ loopBBNumber F := Nat.ne_of_lt hlt
  have hrem : site.bb.number ≠ remBBNumber F := Nat.ne_of_lt (Nat.lt_succ_of_lt hlt)
  have ne : loopBBNumber F ≠ remBBNumber F := Nat.ne_of_lt (Nat.lt_succ_self _)
  rw [insertShift_ids_of_first site hfirst, site.ids_eq, hfirst, List.map_nil, List.nil_append]
  refine ⟨?_, ?_, ?_⟩
  · simp [layoutNext]
  · simp [layoutNext, hloop]
  · simp [layoutNext, hrem, ne]

/-- Between two rounds of the loop: `left` of the `count` single steps are still to come, the value
and the amount are in the registers that the phi nodes take when control comes from `c.pred`, and
the other registers are as in `start`. -/
structure LoopInvariant (site : PseudoSite F (.shiftPseudo p dst src cnt)) (shift : SingleStep)
    (start : RegState μ) (left : ℕ) (c : Config ℕ (RegState μ)) : Prop where
  place_eq : c.place = .block (if left = 0 then remBBNumber F else loopBBNumber F)
  entered : ∃ value amount,
    ((c.pred = some site.bb.number ∧ value = src ∧ amount = cnt) ∨
      (c.pred = some (loopBBNumber F) ∧ value = shiftReg2 F ∧ amount = shiftAmtReg2 F)) ∧
    c.state.vregs value =
      (p.once shift)^[(start.vregs cnt).toNat - left] (start.vregs src) ∧
    (c.state.vregs amount).toNat = left
  left_le : left ≤ (start.vregs cnt).toNat
  carry : c.state.flags.carry = false
  exhausted : left = 0 → c.state.flags = cmpFlags (0 : BitVec 16) 0
  vregs : ∀ r < F.numVirtRegs, c.state.vregs r = start.vregs r
  rest : c.state.rest = start.rest

/-- What the phi nodes of `LoopBB` bring in. -/
theorem evalPhis_loopBB (hF : F.WellFormed) (site : PseudoSite F (.shiftPseudo p dst src cnt))
    {pred : Option ℕ} {value amount : ℕ}
    (h : (pred = some site.bb.number ∧ value = src ∧ amount = cnt) ∨
      (pred = some (loopBBNumber F) ∧ value = shiftReg2 F ∧ amount = shiftAmtReg2 F))
    (s : RegState μ) :
    (evalPhis site.loopBB.phis pred s).vregs (shiftReg F) = s.vregs value ∧
      (evalPhis site.loopBB.phis pred s).vregs (shiftAmtReg F) = s.vregs amount := by
  have hne : site.bb.number ≠ loopBBNumber F := Nat.ne_of_lt (hF.ids_lt site.bb site.mem)
  rcases h with ⟨rfl, rfl, rfl⟩ | ⟨rfl, rfl, rfl⟩
  · simp [evalPhis, PseudoSite.loopBB, MachinePhi.regFor, shiftReg, shiftAmtReg]
  · simp [evalPhis, PseudoSite.loopBB, MachinePhi.regFor, shiftReg, shiftAmtReg, hne]

/-- The registers below the bound are not those of `LoopBB`. -/
theorem evalPhis_loopBB_below (site : PseudoSite F (.shiftPseudo p dst src cnt))
    (pred : Option ℕ) (s : RegState μ) {r : ℕ} (hr : r < F.numVirtRegs) :
    (evalPhis site.loopBB.phis pred s).vregs r = s.vregs r := by
  have hvalue : shiftReg F ≠ r := by unfold shiftReg; omega
  have hamount : shiftAmtReg F ≠ r := by unfold shiftAmtReg; omega
  simp [evalPhis, PseudoSite.loopBB, hvalue, hamount]

/-- Counting down by one: the amount, and the zero flag, tell whether a round is left. -/
theorem sub_one_round {a : BitVec 16} {left : ℕ} (ha : a.toNat = left + 1) :
    (a - 1).toNat = left ∧ (cmpFlags a 1).carry = false ∧
      ((cmpFlags a 1).zero = true ↔ left = 0) ∧
      (left = 0 → cmpFlags a 1 = cmpFlags (0 : BitVec 16) 0) := by
  have hlt := a.isLt
  have one : (1 : BitVec 16).toNat = 1 := rfl
  have sub : (a - 1).toNat = left := by
    rw [BitVec.toNat_sub_of_le (BitVec.le_def.mpr (by omega)), ha, one, Nat.add_sub_cancel]
  refine ⟨sub, ?_, ?_, ?_⟩
  · rw [cmpFlags, subFlags_carry, decide_eq_false_iff_not]
    omega
  · rw [cmpFlags, subFlags_zero, beq_iff_eq, ← BitVec.toNat_inj]
    omega
  · rintro rfl
    have : a = 1 := BitVec.eq_of_toNat_eq ha
    subst this
    decide

/-- What the instructions of `LoopBB` do with the carry clear. -/
theorem exec_loopBB (site : PseudoSite F (.shiftPseudo p dst src cnt)) (shift : SingleStep)
    {s : RegState μ} (carry : s.flags.carry = false) :
    (execAll shift site.loopBB.insts s).flags = cmpFlags (s.vregs (shiftAmtReg F)) 1 ∧
      (execAll shift site.loopBB.insts s).vregs (shiftReg2 F) =
        p.once shift (s.vregs (shiftReg F)) ∧
      (execAll shift site.loopBB.insts s).vregs (shiftAmtReg2 F) =
        s.vregs (shiftAmtReg F) - 1 ∧
      (∀ r < F.numVirtRegs, (execAll shift site.loopBB.insts s).vregs r = s.vregs r) ∧
      (execAll shift site.loopBB.insts s).rest = s.rest := by
  have ne_amount : shiftAmtReg F ≠ shiftReg2 F := by unfold shiftAmtReg shiftReg2; omega
  have ne_value : shiftReg2 F ≠ shiftAmtReg2 F := by unfold shiftAmtReg2 shiftReg2; omega
  simp only [execAll, PseudoSite.loopBB, List.foldl_cons, List.foldl_nil, VInst.exec,
    RegState.set, Function.update_of_ne ne_amount, Function.update_of_ne ne_value,
    Function.update_self, ShiftPseudo.once, carry, true_and, and_true]
  intro r hr
  have hvalue : r ≠ shiftReg2 F := by unfold shiftReg2; omega
  have hamount : r ≠ shiftAmtReg2 F := by unfold shiftAmtReg2; omega
  rw [Function.update_of_ne hamount, Function.update_of_ne hvalue]

/-- Where `BRNEk` leads. -/
theorem place_BRNEk (ids : List ℕ) (id target : ℕ) {next : ℕ} (f : Flags)
    (hnext : layoutNext ids id = some next) :
    (exitOf [.branch .BRNEk target] f).place ids id =
      .block (if f.zero = true then next else target) := by
  by_cases hzero : f.zero = true
  · simp only [exitOf, BranchOpcode.taken, hzero, Bool.not_true, Bool.false_eq_true, if_false,
      Exit.place, hnext, if_true]
  · simp only [exitOf, BranchOpcode.taken, hzero, Bool.not_false, if_true, Exit.place, if_false,
      Bool.false_eq_true]

/-- Where `BREQk` leads. -/
theorem place_BREQk (ids : List ℕ) (id target : ℕ) {next : ℕ} (f : Flags)
    (hnext : layoutNext ids id = some next) :
    (exitOf [.branch .BREQk target] f).place ids id =
      .block (if f.zero = true then target else next) := by
  by_cases hzero : f.zero = true
  · simp only [exitOf, BranchOpcode.taken, hzero, if_true, Exit.place]
  · simp only [exitOf, BranchOpcode.taken, hzero, Bool.false_eq_true, if_false, Exit.place, hnext]

/-- Behind a comparison, for the blocks that lead to `RemBB` when the zero flag is set and to
`LoopBB` otherwise. -/
def behindTest (F : MachineFunction μ) (id : ℕ) (t : RegState μ) : Config ℕ (RegState μ) :=
  ⟨some id, .block (if t.flags.zero = true then remBBNumber F else loopBBNumber F), t⟩

/-- **One round of the loop**, in any program that runs `LoopBB` and leaves it by its test: one more
single step is taken, one less is left. -/
theorem LoopInvariant.next_of_step (hF : F.WellFormed)
    (site : PseudoSite F (.shiftPseudo p dst src cnt)) (shift : SingleStep)
    {L : List (Block ℕ (RegState μ))}
    (hstep : ∀ pred s, step L ⟨pred, .block (loopBBNumber F), s⟩ =
      behindTest F (loopBBNumber F)
        (execAll shift site.loopBB.insts (evalPhis site.loopBB.phis pred s)))
    {start : RegState μ} {left : ℕ} {c : Config ℕ (RegState μ)}
    (h : LoopInvariant site shift start (left + 1) c) :
    LoopInvariant site shift start left (step L c) := by
  obtain ⟨pred, place, s⟩ := c
  obtain ⟨place_eq, ⟨value, amount, hpred, hvalue, hamount⟩, left_le, carry, -, vregs, rest⟩ := h
  rw [if_neg (Nat.succ_ne_zero left)] at place_eq
  simp only at place_eq hpred hvalue hamount carry vregs rest
  subst place_eq
  obtain ⟨phi_value, phi_amount⟩ := evalPhis_loopBB hF site hpred s
  obtain ⟨flags_eq, value_eq, amount_eq, vregs_eq, rest_eq⟩ :=
    exec_loopBB site shift (s := evalPhis site.loopBB.phis pred s) carry
  rw [phi_amount] at flags_eq amount_eq
  obtain ⟨sub, sub_carry, sub_zero, sub_exhausted⟩ := sub_one_round hamount
  rw [← flags_eq] at sub_zero
  have rounds : (start.vregs cnt).toNat - left = ((start.vregs cnt).toNat - (left + 1)) + 1 := by
    omega
  rw [hstep]
  refine ⟨?_, ?_, by omega, ?_, ?_, ?_, ?_⟩
  · exact congrArg Place.block (if_congr sub_zero rfl rfl)
  · refine ⟨shiftReg2 F, shiftAmtReg2 F, Or.inr ⟨rfl, rfl, rfl⟩, ?_, ?_⟩
    · rw [rounds, Function.iterate_succ_apply', ← hvalue, ← phi_value]
      exact value_eq
    · exact (congrArg BitVec.toNat amount_eq).trans sub
  · exact (congrArg Flags.carry flags_eq).trans sub_carry
  · intro hleft
    exact flags_eq.trans (sub_exhausted hleft)
  · intro r hr
    exact (vregs_eq r hr).trans ((evalPhis_loopBB_below site pred s hr).trans (vregs r hr))
  · exact rest_eq.trans rest

/-- **One round of the loop** in the layout. -/
theorem LoopInvariant.next (hF : F.WellFormed)
    (site : PseudoSite F (.shiftPseudo p dst src cnt)) (hfirst : site.pre = [])
    (shift : SingleStep) {start : RegState μ} {left : ℕ} {c : Config ℕ (RegState μ)}
    (h : LoopInvariant site shift start (left + 1) c) :
    LoopInvariant site shift start left (step ((insertShift F site).layout shift) c) := by
  refine h.next_of_step hF site shift fun pred s => ?_
  have mem : site.loopBB ∈ (insertShift F site).blocks := by
    rw [insertShift_blocks_of_first site hfirst]
    exact List.mem_cons_of_mem _ List.mem_cons_self
  have at_loop := step_layout (insertShift_nodup hF site) shift mem pred s
  have next := (insertShift_layoutNext_of_first hF site hfirst).2.1
  rw [show loopBBNumber F = site.loopBB.number from rfl, at_loop, MachineBasicBlock.run]
  exact congrArg (Config.mk _ · _) (place_BRNEk _ _ _ _ next)

/-- **Into the loop**, in any program that runs what is left of `BB` and leaves it by its test:
behind the comparison with zero all single steps are still to come. -/
theorem loopInvariant_of_step (site : PseudoSite F (.shiftPseudo p dst src cnt))
    (shift : SingleStep) {L : List (Block ℕ (RegState μ))} (pred : Option ℕ) (s : RegState μ)
    (hstep : step L ⟨pred, .block site.bb.number, s⟩ = behindTest F site.bb.number
      (execAll shift site.shiftBB.insts (evalPhis site.shiftBB.phis pred s)))
    {start : RegState μ} (hsrc : src < F.numVirtRegs) (hcnt : cnt < F.numVirtRegs)
    (agree : AgreeBelow F.numVirtRegs start
      (execAll shift site.before (evalPhis site.shiftBB.phis pred s))) :
    LoopInvariant site shift start (start.vregs cnt).toNat
      (step L ⟨pred, .block site.bb.number, s⟩) := by
  have whole : execAll shift site.shiftBB.insts (evalPhis site.shiftBB.phis pred s) =
      { execAll shift site.before (evalPhis site.shiftBB.phis pred s) with
        flags := cmpFlags (start.vregs cnt) 0 } := by
    rw [agree.vregs cnt hcnt]
    exact execAll_append shift site.before [.CPIRdK cnt 0] _
  have zero : (cmpFlags (start.vregs cnt) 0).zero = true ↔ (start.vregs cnt).toNat = 0 := by
    rw [cmpFlags, subFlags_zero, beq_iff_eq, ← BitVec.toNat_inj]
    rfl
  rw [hstep, whole]
  refine ⟨?_, ?_, le_rfl, ?_, ?_, ?_, ?_⟩
  · exact congrArg Place.block (if_congr zero rfl rfl)
  · refine ⟨src, cnt, Or.inl ⟨rfl, rfl, rfl⟩, ?_, ?_⟩
    · rw [Nat.sub_self]
      exact (agree.vregs src hsrc).symm
    · exact congrArg BitVec.toNat (agree.vregs cnt hcnt).symm
  · exact subFlags_carry (start.vregs cnt) 0
  · intro hzero
    have : start.vregs cnt = 0 := BitVec.eq_of_toNat_eq hzero
    rw [this]
    rfl
  · intro r hr
    exact (agree.vregs r hr).symm
  · exact agree.rest.symm

/-- **Into the loop** in the layout. -/
theorem loopInvariant_shiftBB (hF : F.WellFormed)
    (site : PseudoSite F (.shiftPseudo p dst src cnt)) (hfirst : site.pre = [])
    (shift : SingleStep) (pred : Option ℕ) (s : RegState μ) {start : RegState μ}
    (hsrc : src < F.numVirtRegs) (hcnt : cnt < F.numVirtRegs)
    (agree : AgreeBelow F.numVirtRegs start
      (execAll shift site.before (evalPhis site.shiftBB.phis pred s))) :
    LoopInvariant site shift start (start.vregs cnt).toNat
      (step ((insertShift F site).layout shift) ⟨pred, .block site.bb.number, s⟩) := by
  refine loopInvariant_of_step site shift pred s ?_ hsrc hcnt agree
  have mem : site.shiftBB ∈ (insertShift F site).blocks := by
    rw [insertShift_blocks_of_first site hfirst]
    exact List.mem_cons_self
  have number_eq : site.shiftBB.number = site.bb.number := updatePHIs_number _ _ _
  have at_bb := step_layout (insertShift_nodup hF site) shift mem pred s
  rw [number_eq] at at_bb
  have next := (insertShift_layoutNext_of_first hF site hfirst).1
  rw [at_bb, MachineBasicBlock.run]
  exact congrArg (Config.mk _ · _) (place_BREQk _ _ _ _ next)

/-- What the phi node of `RemBB` takes when no step is left. -/
theorem LoopInvariant.exit_dst (hF : F.WellFormed)
    (site : PseudoSite F (.shiftPseudo p dst src cnt)) (shift : SingleStep) {start : RegState μ}
    {c : Config ℕ (RegState μ)} (h : LoopInvariant site shift start 0 c) :
    (evalPhis site.remBB.phis c.pred c.state).vregs dst =
      (p.once shift)^[(start.vregs cnt).toNat] (start.vregs src) := by
  obtain ⟨value, amount, hpred, hvalue, -⟩ := h.entered
  have hne : site.bb.number ≠ loopBBNumber F := Nat.ne_of_lt (hF.ids_lt site.bb site.mem)
  have phi : (evalPhis site.remBB.phis c.pred c.state).vregs dst = c.state.vregs value := by
    rcases hpred with ⟨hpred, rfl, -⟩ | ⟨hpred, rfl, -⟩ <;>
      simp [evalPhis, PseudoSite.remBB, MachinePhi.regFor, hpred, hne]
  rw [phi, hvalue, Nat.sub_zero]

/-- **Out of the loop**: `RemBB` starts with what the pseudo would have left. -/
theorem LoopInvariant.exit (hF : F.WellFormed)
    (site : PseudoSite F (.shiftPseudo p dst src cnt)) (shift : SingleStep) {start : RegState μ}
    {c : Config ℕ (RegState μ)} (h : LoopInvariant site shift start 0 c) :
    AgreeBelow F.numVirtRegs ((VInst.shiftPseudo p dst src cnt).exec shift start)
      (evalPhis site.remBB.phis c.pred c.state) := by
  refine ⟨fun r hr => ?_, (h.exhausted rfl).symm, h.rest.symm⟩
  by_cases hdst : r = dst
  · subst hdst
    rw [h.exit_dst hF]
    simp [VInst.exec, RegState.set]
  · have phi : (evalPhis site.remBB.phis c.pred c.state).vregs r = c.state.vregs r := by
      simp [evalPhis, PseudoSite.remBB, Ne.symm hdst]
    rw [phi, h.vregs r hr]
    simp [VInst.exec, RegState.set, hdst]

/-! ## When a shift is inserted right -/

/-- In the first block the new program does what the pseudo says. -/
theorem insertShift_runs_of_first (hF : F.WellFormed)
    (site : PseudoSite F (.shiftPseudo p dst src cnt)) (hfirst : site.pre = [])
    (shift : SingleStep) {c c' : Config ℕ (RegState μ)}
    (h : Corresponds F site.bb.number (remBBNumber F) c c')
    (hplace : c.place = .block site.bb.number) :
    ∃ d', Path ((insertShift F site).layout shift) c'
        (site.bb.number :: (List.replicate (site.count shift c) (loopBBNumber F) ++
          [remBBNumber F])) d' ∧
      Corresponds F site.bb.number (remBBNumber F) (step (F.layout shift) c) d' := by
  obtain ⟨pred, place, s⟩ := c
  obtain ⟨pred', place', s'⟩ := c'
  obtain ⟨place_eq, -, pred_eq, pred_mem, agree⟩ := h
  simp only at hplace place_eq pred_eq pred_mem agree
  subst hplace place_eq pred_eq
  have below : ∀ i ∈ site.bb.insts, i.Below F.numVirtRegs := hF.insts_below site.bb site.mem
  rw [site.insts_eq] at below
  have pseudo : (VInst.shiftPseudo p dst src cnt : VInst μ).Below F.numVirtRegs :=
    below _ List.mem_append_cons_self
  -- both programs run the instructions before the pseudo
  have phis := evalPhis_updatePHIs hF site.mem site.mem
    (newBB_not_mem hF (Nat.le_succ F.numBlockIDs)) pred_mem agree
  have start := execAll_below (fun i hi => below i (List.mem_append_left _ hi)) shift phis
  -- then the new one enters the loop and leaves it
  have enter := loopInvariant_shiftBB hF site hfirst shift
    (pred.map (renameMBB site.bb.number (remBBNumber F))) s' pseudo.1 pseudo.2 start
  obtain ⟨d, hpath, hexit⟩ := Path.replicate (loopBBNumber F) (LoopInvariant site shift _)
    (fun left c hc => by simpa using hc.place_eq) (fun left c hc => hc.next hF site hfirst shift)
    _ _ enter
  have at_rem : d.place = .block (remBBNumber F) := hexit.place_eq
  have mem : site.remBB ∈ (insertShift F site).blocks := by
    rw [insertShift_blocks_of_first site hfirst]
    exact List.mem_cons_of_mem _ (List.mem_cons_of_mem _ List.mem_cons_self)
  refine ⟨step ((insertShift F site).layout shift) d,
    Path.cons rfl (hpath.append (Path.single at_rem)), ?_⟩
  refine Corresponds.step_moved hF (insertShift_nodup hF site) shift site mem rfl
    rfl at_rem ?_ ?_
  · rw [execAll_append]
    exact hexit.exit hF site shift
  · have next := (insertShift_layoutNext_of_first hF site hfirst).2.2
    cases (site.bb.run shift pred s).2 with
    | jump target => rfl
    | stop => rfl
    | fallThrough =>
        rw [show site.remBB.number = remBBNumber F from rfl, Exit.place, Exit.place, next]

/-- Every step of the old program is matched by a path of the new one. -/
theorem insertShift_step_of_first (hF : F.WellFormed)
    (site : PseudoSite F (.shiftPseudo p dst src cnt)) (hfirst : site.pre = [])
    (shift : SingleStep) (c c' : Config ℕ (RegState μ)) (id : ℕ) (hplace : c.place = .block id)
    (h : Corresponds F site.bb.number (remBBNumber F) c c') :
    ∃ path d', Path ((insertShift F site).layout shift) c' path d' ∧
      Corresponds F site.bb.number (remBBNumber F) (step (F.layout shift) c) d' := by
  obtain ⟨b, hb, rfl⟩ := List.mem_map.mp (h.place_mem id hplace)
  by_cases hne : b.number = site.bb.number
  · rw [hne] at hplace
    obtain ⟨d', hpath, hd⟩ := insertShift_runs_of_first hF site hfirst shift h hplace
    exact ⟨_, d', hpath, hd⟩
  · have mem : b.updatePHIs site.bb (remBBNumber F) ∈ (insertShift F site).blocks := by
      rw [site.blocks_eq, hfirst, List.nil_append, List.mem_cons] at hb
      rw [insertShift_blocks_of_first site hfirst]
      rcases hb with rfl | hb
      · exact absurd rfl hne
      · simp only [List.mem_cons, List.mem_map]
        exact Or.inr (Or.inr (Or.inr ⟨b, hb, rfl⟩))
    exact ⟨[b.number], _, Path.single (h.place_eq.trans hplace),
      h.step_other hF (insertShift_nodup hF site) shift site.mem hb
        (newBB_not_mem hF (Nat.le_succ F.numBlockIDs)) hne mem
        (insertShift_others_of_first hF site hfirst b hb hne) hplace⟩

/-- **Whole runs**: with the pseudo in the first block, the new program simulates the old one. -/
theorem insertShift_simulates_of_first (hF : F.WellFormed)
    (site : PseudoSite F (.shiftPseudo p dst src cnt)) (hfirst : site.pre = [])
    (shift : SingleStep) {c c' d : Config ℕ (RegState μ)} {path : List ℕ}
    (hpath : Path (F.layout shift) c path d)
    (h : Corresponds F site.bb.number (remBBNumber F) c c') :
    ∃ path' d', Path ((insertShift F site).layout shift) c' path' d' ∧
      Corresponds F site.bb.number (remBBNumber F) d d' :=
  Path.simulate _ (insertShift_step_of_first hF site hfirst shift) hpath c' h

end

/-- A function of two blocks with a shift in the second one: the first falls through to the
second. -/
def twoBlocks : MachineFunction Unit where
  blocks := [⟨0, [], [], [], [1]⟩, ⟨1, [], [.shiftPseudo .Lsl16 2 0 1], [.RET], []⟩]
  numBlockIDs := 2
  numVirtRegs := 3

/-- It is well formed. -/
theorem twoBlocks_wellFormed : twoBlocks.WellFormed where
  nodup := by decide
  ids_lt := by simp [twoBlocks]
  successors_mem := by simp [twoBlocks, MachineFunction.ids]
  targets_mem := by simp [twoBlocks, Terminator.targets]
  falls := by
    simp [MachineFunction.FallsToSuccessor, twoBlocks, MachineFunction.ids, layoutNext,
      MachineBasicBlock.canFallThrough, Terminator.isBarrier]
  phis_below := by simp [twoBlocks]
  phis_pred := by simp [twoBlocks]
  insts_below := by simp [twoBlocks, VInst.Below]

/-- Its shift. -/
def twoBlocksSite : PseudoSite twoBlocks (.shiftPseudo .Lsl16 2 0 1) where
  pre := [⟨0, [], [], [], [1]⟩]
  bb := ⟨1, [], [.shiftPseudo .Lsl16 2 0 1], [.RET], []⟩
  post := []
  before := []
  after := []
  blocks_eq := rfl
  insts_eq := rfl

end Snes
