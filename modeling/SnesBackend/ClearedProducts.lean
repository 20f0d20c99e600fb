/-
# Clearing A behind Multiplications

`insertMul` in a machine function: behind a multiplication, and behind the copies from
`A` that follow it, comes an instruction that clears `A`.  Nothing that is done to a
block further on separates the two again.
-/
import SnesBackend.InsertedBlocks
import SnesBackend.Multiplication

namespace Snes

variable {μ : Type}

/-! ## `insertMul` -/

/-- The copies from `A`. -/
def VInst.fromA : VInst μ → Bool
  | copyFromA _ => true
  | _ => false

/-- An instruction as `isCopyMulResult` sees it. -/
def VInst.asMulInst : VInst μ → MulInst
  | copyFromA _ => .COPY (.virtual 0) (.main .A)
  | _ => .other id

/-- What follows in a block: the rest of its instructions, and its terminators. -/
def MachineBasicBlock.following (b : MachineBasicBlock μ) (after : List (VInst μ)) :
    List MulInst :=
  after.map VInst.asMulInst ++ b.terminators.map fun _ => .other id

section

variable (clearA : RegState μ → RegState μ) {F : MachineFunction μ} {mi : VInst μ}

/-- The block of a multiplication, with `EORRdRr A, A, A` behind it and so many instructions. -/
def PseudoSite.mulBB (site : PseudoSite F mi) (copies : ℕ) : MachineBasicBlock μ :=
  { site.bb with
    insts := site.before ++
      mi :: (site.after.take copies ++ .other clearA :: site.after.drop copies) }

/-- `insertMul`, which stays in the block.  There is no result where it looks at the end of the
block. -/
def MachineFunction.insertMul (F : MachineFunction μ) (site : PseudoSite F mi) :
    Option (MachineFunction μ) :=
  (Snes.insertMul (site.bb.following site.after)).map fun place =>
    { F with blocks := site.pre ++ site.mulBB clearA place.1.length :: site.post }

end

/-! ## What is cleared -/

section

variable {clearA : RegState μ → RegState μ}

/-- What stands behind a multiplication: the copies from `A`, two at most, and the instruction that
clears it. -/
structure ClearsBehind (clearA : RegState μ → RegState μ) (after code rest : List (VInst μ)) :
    Prop where
  after_eq : after = code ++ .other clearA :: rest
  copies : ∀ i ∈ code, i.fromA = true
  at_most : code.length ≤ 2
  all : code.length < 2 → ∀ i ∈ rest.head?, i.fromA = false

/-- `A` is cleared behind the multiplications among the first instructions of a list. -/
def MulsCleared (clearA : RegState μ → RegState μ) (n : ℕ) (insts : List (VInst μ)) : Prop :=
  ∀ before mi after, insts = before ++ mi :: after → before.length < n → mi.isMul = true →
    ∃ code rest, ClearsBehind clearA after code rest

/-- `isCopyMulResult` sees the copies from `A`. -/
theorem VInst.fromA_asMulInst (i : VInst μ) : i.asMulInst.fromA = i.fromA := by
  cases i <;> rfl

/-- An instruction with a custom inserter is neither a copy nor one that clears `A`. -/
theorem VInst.of_usesCustomInsertionHook (clearA : RegState μ → RegState μ) {i : VInst μ}
    (h : i.usesCustomInsertionHook = true) : i.fromA = false ∧ i ≠ .other clearA := by
  cases i with
  | MULRdRr | MULSRdRr | shiftPseudo | selectPseudo => exact ⟨rfl, nofun⟩
  | other | copyFromA | CPIRdK | SUBIRdK | shift => cases h

/-- A multiplication has a custom inserter. -/
theorem VInst.hook_of_isMul {i : VInst μ} (h : i.isMul = true) :
    i.usesCustomInsertionHook = true := by
  cases i with
  | MULRdRr | MULSRdRr => rfl
  | other | copyFromA | CPIRdK | SUBIRdK | shift | shiftPseudo | selectPseudo => cases h

/-- **Where `insertMul` puts the instruction**, `A` is cleared. -/
theorem clearsBehind_of_insertMul {b : MachineBasicBlock μ} {after : List (VInst μ)}
    {code rest : List MulInst} (h : insertMul (b.following after) = some (code, rest)) :
    ClearsBehind clearA (after.take code.length ++ .other clearA :: after.drop code.length)
      (after.take code.length) (after.drop code.length) := by
  obtain ⟨hcode, -⟩ := eq_of_insertMul h
  have notCopy : (MulInst.other id).fromA = false := rfl
  have terminators : ((b.terminators.map fun _ => MulInst.other id).take 2).takeWhile
      MulInst.fromA = [] := by
    cases b.terminators <;> rfl
  rw [MachineBasicBlock.following] at hcode
  rcases after with _ | ⟨i, _ | ⟨j, after⟩⟩
  · rw [List.map_nil, List.nil_append, terminators] at hcode
    subst hcode
    exact ⟨rfl, nofun, by simp, fun _ => nofun⟩
  · cases hi : i.fromA with
    | false =>
        obtain rfl : code = [] := by simp [hcode, VInst.fromA_asMulInst, hi]
        exact ⟨rfl, nofun, by simp, fun _ => by simpa using hi⟩
    | true =>
        obtain rfl : code = [i.asMulInst] := by
          simp [hcode, VInst.fromA_asMulInst, hi, notCopy]
        exact ⟨rfl, by simpa using hi, by simp, fun _ => nofun⟩
  · cases hi : i.fromA with
    | false =>
        obtain rfl : code = [] := by simp [hcode, VInst.fromA_asMulInst, hi]
        exact ⟨rfl, nofun, by simp, fun _ => by simpa using hi⟩
    | true =>
        cases hj : j.fromA with
        | false =>
            obtain rfl : code = [i.asMulInst] := by
              simp [hcode, VInst.fromA_asMulInst, hi, hj]
            exact ⟨rfl, by simpa using hi, by simp, fun _ => by simpa using hj⟩
        | true =>
            obtain rfl : code = [i.asMulInst, j.asMulInst] := by
              simp [hcode, VInst.fromA_asMulInst, hi, hj]
            exact ⟨rfl, by simp [hi, hj], by simp, fun h => absurd h (by simp)⟩

/-- **A place further on** can be changed: what is cleared before it stays cleared. -/
theorem ClearsBehind.replace {y after code rest tail : List (VInst μ)} {x : VInst μ}
    (h : ClearsBehind clearA (y ++ x :: after) code rest)
    (hx : x.usesCustomInsertionHook = true) (htail : ∀ i ∈ tail.head?, i.fromA = false) :
    ∃ rest', ClearsBehind clearA (y ++ tail) code rest' := by
  obtain ⟨notCopy, notClear⟩ := VInst.of_usesCustomInsertionHook clearA hx
  have split := List.append_eq_append_iff.mp h.after_eq
  rcases split with ⟨as, hcode, htail'⟩ | ⟨bs, hy, hrest⟩
  · -- the place is no copy and does not clear `A`
    rcases as with _ | ⟨a, as⟩
    · exact absurd (List.cons.inj htail').1 notClear
    · obtain ⟨rfl, -⟩ := List.cons.inj htail'
      have copy := h.copies x (by simp [hcode])
      rw [notCopy] at copy
      cases copy
  · rcases bs with _ | ⟨b, bs⟩
    · exact absurd (List.cons.inj hrest).1.symm notClear
    · obtain ⟨rfl, hrest'⟩ := List.cons.inj hrest
      refine ⟨bs ++ tail, ?_, h.copies, h.at_most, fun hlt i hi => ?_⟩
      · rw [hy, List.append_assoc, List.cons_append]
      · rcases bs with _ | ⟨b, bs⟩
        · exact htail i hi
        · refine h.all hlt i ?_
          rw [hrest']
          exact hi

/-- At the start nothing has to be cleared. -/
theorem mulsCleared_zero (insts : List (VInst μ)) : MulsCleared clearA 0 insts :=
  fun _ _ _ _ hlt => absurd hlt (Nat.not_lt_zero _)

/-- An instruction that is no multiplication is passed. -/
theorem MulsCleared.next {insts : List (VInst μ)} {n : ℕ} {i : VInst μ}
    (h : MulsCleared clearA n insts) (hi : insts[n]? = some i) (hmul : i.isMul = false) :
    MulsCleared clearA (n + 1) insts := by
  rintro before mi after rfl hlt hmi
  rcases Nat.lt_succ_iff_lt_or_eq.mp hlt with hlt | heq
  · exact h before mi after rfl hlt hmi
  · rw [← heq, List.getElem?_append_right le_rfl, Nat.sub_self, List.getElem?_cons_zero] at hi
    rw [Option.some.inj hi, hmul] at hmi
    cases hmi

/-- Two places in a list: the first is the second one, or before it. -/
theorem eq_or_before {α : Type} {before before' after after' : List α} {a a' : α}
    (h : before' ++ a' :: after' = before ++ a :: after) (hle : before'.length ≤ before.length) :
    (before' = before ∧ a' = a ∧ after' = after) ∨
      ∃ y, before = before' ++ a' :: y ∧ after' = y ++ a :: after := by
  rcases List.append_eq_append_iff.mp h with ⟨as, hbefore, hafter⟩ | ⟨bs, hbefore, hafter⟩
  · rcases as with _ | ⟨x, y⟩
    · rw [List.append_nil] at hbefore
      obtain ⟨rfl, rfl⟩ := List.cons.inj hafter
      exact .inl ⟨hbefore.symm, rfl, rfl⟩
    · obtain ⟨rfl, rfl⟩ := List.cons.inj hafter
      exact .inr ⟨y, hbefore, rfl⟩
  · have none : bs = [] := by
      have lengths := congrArg List.length hbefore
      rw [List.length_append] at lengths
      exact List.eq_nil_of_length_eq_zero (by omega)
    subst none
    rw [List.append_nil] at hbefore
    obtain ⟨rfl, rfl⟩ := List.cons.inj hafter
    exact .inl ⟨hbefore, rfl, rfl⟩

/-- **What is cleared before an instruction with a custom inserter** stays cleared, whatever comes
in its place. -/
theorem MulsCleared.before {before after tail : List (VInst μ)} {mi : VInst μ}
    (h : MulsCleared clearA before.length (before ++ mi :: after))
    (hmi : mi.usesCustomInsertionHook = true) (htail : ∀ i ∈ tail.head?, i.fromA = false) :
    ∀ before' mi' y, before = before' ++ mi' :: y → mi'.isMul = true →
      ∃ code rest, ClearsBehind clearA (y ++ tail) code rest := by
  rintro before' mi' y rfl hmul
  have place : (before' ++ mi' :: y) ++ mi :: after = before' ++ mi' :: (y ++ mi :: after) := by
    rw [List.append_assoc, List.cons_append]
  obtain ⟨code, rest, hclears⟩ := h before' mi' (y ++ mi :: after) place (by simp) hmul
  obtain ⟨rest', hclears'⟩ := hclears.replace hmi htail
  exact ⟨code, rest', hclears'⟩

/-- Behind a multiplication `A` is cleared. -/
theorem MulsCleared.insertMul {before after new : List (VInst μ)} {mi : VInst μ}
    (h : MulsCleared clearA before.length (before ++ mi :: after)) (hmi : mi.isMul = true)
    (hnew : ∃ code rest, ClearsBehind clearA new code rest) :
    MulsCleared clearA (before.length + 1) (before ++ mi :: new) := by
  have hook := VInst.hook_of_isMul hmi
  intro before' mi' after' heq hlt hmul
  rcases eq_or_before heq.symm (Nat.le_of_lt_succ hlt) with ⟨-, -, rfl⟩ | ⟨y, hbefore, rfl⟩
  · exact hnew
  · refine h.before hook (fun i hi => ?_) before' mi' y hbefore hmul
    obtain rfl := Option.some.inj hi
    exact (VInst.of_usesCustomInsertionHook clearA hook).1

/-- When a block is split, its first part is cleared. -/
theorem MulsCleared.split {before after tail : List (VInst μ)} {mi : VInst μ}
    (h : MulsCleared clearA before.length (before ++ mi :: after))
    (hmi : mi.usesCustomInsertionHook = true)
    (htail : ∀ i ∈ tail, i.isMul = false ∧ i.fromA = false) (n : ℕ) :
    MulsCleared clearA n (before ++ tail) := by
  intro before' mi' after' heq _ hmul
  rcases List.append_eq_append_iff.mp heq with ⟨as, hbefore, htail'⟩ | ⟨bs, hbefore, htail'⟩
  · have mem : mi' ∈ tail := by simp [htail']
    rw [(htail mi' mem).1] at hmul
    cases hmul
  · rcases bs with _ | ⟨x, y⟩
    · have mem : mi' ∈ tail := by
        rw [← List.nil_append tail, ← htail']
        exact List.mem_cons_self
      rw [(htail mi' mem).1] at hmul
      cases hmul
    · obtain ⟨rfl, rfl⟩ := List.cons.inj htail'
      exact h.before hmi (fun i hi => (htail i (List.mem_of_head? hi)).2) before' mi' y hbefore hmul

end

/-! ## Staying in the block -/

/-- Behind the multiplications of a block are the instructions that `insertMul` looks at. -/
def MachineBasicBlock.MulsStay (b : MachineBasicBlock μ) : Prop :=
  ∀ before mi after, b.insts = before ++ mi :: after → mi.isMul = true →
    StaysInBlock (b.following after)

/-- And behind those of a function. -/
def MachineFunction.MulsStay (F : MachineFunction μ) : Prop :=
  ∀ b ∈ F.blocks, b.MulsStay

section

variable {clearA : RegState μ → RegState μ} {F : MachineFunction μ} {mi : VInst μ}
  {b b' : MachineBasicBlock μ}

/-- Where there is no multiplication, nothing is looked at. -/
theorem mulsStay_of_noMuls (h : ∀ i ∈ b.insts, i.isMul = false) : b.MulsStay := by
  intro before mi after heq hmul
  have none := h mi (by simp [heq])
  rw [hmul] at none
  cases none

/-- A part of a block with the same end. -/
theorem MachineBasicBlock.MulsStay.of_suffix (h : b.MulsStay)
    (hterminators : b'.terminators = b.terminators) {front : List (VInst μ)}
    (hinsts : b.insts = front ++ b'.insts) : b'.MulsStay := by
  intro before mi after heq hmul
  have stays := h (front ++ before) mi after (by rw [hinsts, heq, List.append_assoc]) hmul
  rwa [MachineBasicBlock.following, hterminators]

/-- Updating phi nodes leaves them. -/
theorem mulsStay_updatePHIs_iff (fromMBB : MachineBasicBlock μ) (toMBB : ℕ) :
    (b.updatePHIs fromMBB toMBB).MulsStay ↔ b.MulsStay := by
  unfold MachineBasicBlock.MulsStay MachineBasicBlock.following
  rw [updatePHIs_insts, updatePHIs_terminators]

/-- `insertMul` finds its place. -/
theorem exists_insertMul (clearA : RegState μ → RegState μ) (hF : F.MulsStay)
    (site : PseudoSite F mi) (hmi : mi.isMul = true) :
    ∃ code rest, insertMul (site.bb.following site.after) = some (code, rest) ∧
      F.insertMul clearA site =
        some { F with blocks := site.pre ++ site.mulBB clearA code.length :: site.post } := by
  have stays := hF site.bb site.mem site.before mi site.after site.insts_eq hmi
  obtain ⟨⟨code, rest⟩, hplace⟩ :=
    Option.isSome_iff_exists.mp ((isSome_insertMul_iff _).mpr stays)
  exact ⟨code, rest, hplace, by rw [MachineFunction.insertMul, hplace]; rfl⟩

/-- The instruction that clears `A` is looked at and is no copy. -/
theorem staysInBlock_of_clear {after : List (VInst μ)} (h : .other clearA ∈ after) :
    StaysInBlock (b.following after) := by
  rcases after with _ | ⟨i, after⟩
  · cases h
  · by_cases hone : after = [] ∧ b.terminators = []
    · obtain ⟨rfl, hterminators⟩ := hone
      obtain rfl := List.mem_singleton.mp h
      exact .inr ⟨.other id, by simp [MachineBasicBlock.following, hterminators]; rfl, rfl⟩
    · refine .inl ?_
      rw [MachineBasicBlock.following, List.length_append, List.length_map, List.length_map,
        List.length_cons]
      by_contra hshort
      exact hone ⟨List.eq_nil_of_length_eq_zero (by omega),
        List.eq_nil_of_length_eq_zero (by omega)⟩

/-- **What `insertMul` looks at is still there afterwards.** -/
theorem mulsStay_mulBB (site : PseudoSite F mi)
    (hstay : site.bb.MulsStay) (copies : ℕ) : (site.mulBB clearA copies).MulsStay := by
  intro before mi' after heq hmul
  have cleared (y : List (VInst μ)) : .other clearA ∈
      y ++ .other clearA :: site.after.drop copies := List.mem_append_cons_self
  rcases le_or_gt before.length site.before.length with hle | hgt
  · rcases eq_or_before heq.symm hle with ⟨-, -, rfl⟩ | ⟨y, -, rfl⟩
    · exact staysInBlock_of_clear (cleared _)
    · exact staysInBlock_of_clear
        (List.mem_append_right _ (List.mem_cons_of_mem _ (cleared _)))
  · rcases eq_or_before heq hgt.le with ⟨rfl, -⟩ | ⟨y, -, hnew⟩
    · exact absurd hgt (lt_irrefl _)
    rcases le_or_gt y.length (site.after.take copies).length with hle' | hgt'
    · rcases eq_or_before hnew.symm hle' with ⟨-, rfl, -⟩ | ⟨z, -, rfl⟩
      · cases hmul
      · exact staysInBlock_of_clear (cleared z)
    · -- behind the instruction that clears `A` nothing has changed
      rcases eq_or_before hnew hgt'.le with ⟨rfl, -⟩ | ⟨z, -, hdrop⟩
      · exact absurd hgt' (lt_irrefl _)
      refine hstay (site.before ++ mi :: (site.after.take copies ++ z)) mi' after ?_ hmul
      rw [site.insts_eq, List.append_assoc, List.cons_append, List.append_assoc, ← hdrop,
        List.take_append_drop]

end

end Snes
