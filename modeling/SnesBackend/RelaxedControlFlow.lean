/-
# Control Flow of Relaxed Functions

Branch relaxation keeps what a function does: a run of the relaxed function goes
through the same blocks with the same states, and on the way through new blocks
that only jump.  And it does what it is for: emitted one behind the other, the
blocks have branches that the fixups bring to their destinations.
-/
import SnesBackend.RelaxationSizes

namespace Snes

open WordArith BlockLayout SteppedLoop

variable {α σ : Type} {size : α → ℕ} {functionAlign : ℕ}

/-! ## The program of a function -/

/-- What an instruction does that is no terminator. -/
def BlockInstr.exec (exec : α → σ → σ) : BlockInstr α → σ → σ
  | inst mi, s => exec mi s
  | _, s => s

/-- What the instructions of a block do before its terminators decide where to go. -/
def execInstrs (exec : α → σ → σ) (instrs : List (BlockInstr α)) (s : σ) : σ :=
  instrs.foldl (fun s mi => mi.exec exec s) s

/-- The block as part of a program. -/
def RelaxBlock.toBlock (exec : α → σ → σ) (flags : σ → Flags) (b : RelaxBlock α) : Block ℕ σ where
  id := b.number
  run _ s := (execInstrs exec b.instrs s,
    exitOf (terminatorsOf b.instrs) (flags (execInstrs exec b.instrs s)))

/-- The program of a function. -/
def programOf (exec : α → σ → σ) (flags : σ → Flags) (blocks : List (RelaxBlock α)) :
    List (Block ℕ σ) :=
  blocks.map (RelaxBlock.toBlock exec flags)

variable {exec : α → σ → σ} {flags : σ → Flags}

/-- The names of the blocks of a program are the numbers. -/
theorem map_id_programOf (blocks : List (RelaxBlock α)) :
    (programOf exec flags blocks).map Block.id = blocks.map RelaxBlock.number := by
  rw [programOf, List.map_map]
  rfl

/-- Offsets do not matter to a program. -/
theorem programOf_of_unplaced {blocks blocks' : List (RelaxBlock α)}
    (h : blocks'.map RelaxBlock.unplaced = blocks.map RelaxBlock.unplaced) :
    programOf exec flags blocks' = programOf exec flags blocks :=
  map_eq_of_unplaced h _ fun _ => rfl

/-- The step of a block of a program. -/
theorem step_programOf {blocks : List (RelaxBlock α)}
    (hnodup : (blocks.map RelaxBlock.number).Nodup) {b : RelaxBlock α} (hb : b ∈ blocks)
    {c : Config ℕ σ} (hc : c.place = .block b.number) :
    step (programOf exec flags blocks) c = ⟨some b.number,
      (exitOf (terminatorsOf b.instrs) (flags (execInstrs exec b.instrs c.state))).place
        (blocks.map RelaxBlock.number) b.number, execInstrs exec b.instrs c.state⟩ := by
  obtain ⟨pred, place, s⟩ := c
  obtain rfl : place = .block b.number := hc
  have hstep := step_of_mem (L := programOf exec flags blocks) (by rwa [map_id_programOf])
    (List.mem_map_of_mem hb) pred s
  rw [map_id_programOf] at hstep
  exact hstep

/-- Without a block of that name, control is lost. -/
theorem step_programOf_of_not_mem {blocks : List (RelaxBlock α)} {id : ℕ}
    (hid : id ∉ blocks.map RelaxBlock.number) {c : Config ℕ σ} (hc : c.place = .block id) :
    step (programOf exec flags blocks) c = { c with place := .lost } := by
  have none : (programOf exec flags blocks).find? (fun b => b.id = id) = none := by
    rw [List.find?_eq_none]
    intro b hb heq
    rw [decide_eq_true_iff] at heq
    have mem : b.id ∈ (programOf exec flags blocks).map Block.id := List.mem_map_of_mem hb
    rw [map_id_programOf, heq] at mem
    exact hid mem
  simp only [step, hc, none]

/-! ## A fix keeps the runs -/

/-- A block of other blocks that does what a block does and goes where it goes, or goes there over a
new block that only jumps. -/
structure GoesAs (exec : α → σ → σ) (numBlockIDs : ℕ) (blocks blocks' : List (RelaxBlock α))
    (b b' : RelaxBlock α) : Prop where
  number : b'.number = b.number
  body : ∀ s, execInstrs exec b'.instrs s = execInstrs exec b.instrs s
  goes : ∀ f, (exitOf (terminatorsOf b'.instrs) f).place (blocks'.map RelaxBlock.number) b.number =
      (exitOf (terminatorsOf b.instrs) f).place (blocks.map RelaxBlock.number) b.number ∨
    ∃ dest, jumpBlock numBlockIDs dest ∈ blocks'.map RelaxBlock.unplaced ∧
      (exitOf (terminatorsOf b'.instrs) f).place (blocks'.map RelaxBlock.number) b.number =
        .block numBlockIDs ∧
      (exitOf (terminatorsOf b.instrs) f).place (blocks.map RelaxBlock.number) b.number =
        .block dest

/-- Control goes from block to block. -/
theorem RelaxInv.closed_step {blocks : List (RelaxBlock α)} {n : ℕ} (h : RelaxInv size blocks n)
    {c : Config ℕ σ} {id id' : ℕ} (hc : c.place = .block id)
    (hstep : (step (programOf exec flags blocks) c).place = .block id') :
    id' ∈ blocks.map RelaxBlock.number := by
  by_cases hid : id ∈ blocks.map RelaxBlock.number
  · obtain ⟨b, hb, rfl⟩ := List.mem_map.mp hid
    rw [step_programOf h.nodup hb hc] at hstep
    simp only at hstep
    cases hexit : exitOf (terminatorsOf b.instrs) (flags (execInstrs exec b.instrs c.state)) with
    | jump dest =>
        obtain ⟨t, ht, hdest⟩ := mem_targets_of_exitOf hexit
        rw [hexit] at hstep
        exact Place.block.inj hstep ▸ h.targets b hb t ht dest hdest
    | stop =>
        rw [hexit] at hstep
        cases hstep
    | fallThrough =>
        rw [hexit, Exit.place] at hstep
        cases hnext : layoutNext (blocks.map RelaxBlock.number) b.number with
        | none =>
            rw [hnext] at hstep
            cases hstep
        | some next =>
            rw [hnext] at hstep
            exact Place.block.inj hstep ▸ mem_of_layoutNext hnext
  · rw [step_programOf_of_not_mem hid hc] at hstep
    cases hstep

/-- **Programs whose blocks go as others do** differ in detours only. -/
theorem detours_of_goesAs {blocks blocks' : List (RelaxBlock α)} {n : ℕ}
    (h : RelaxInv size blocks n) (hnodup : (blocks'.map RelaxBlock.number).Nodup)
    (hnumbers : ∀ k < n, k ∉ blocks.map RelaxBlock.number → k ∉ blocks'.map RelaxBlock.number)
    (hgoes : ∀ b ∈ blocks, ∃ b' ∈ blocks', GoesAs exec n blocks blocks' b b') :
    Detours (fun k => decide (k < n)) (programOf exec flags blocks)
      (programOf exec flags blocks') := by
  refine ⟨fun c c' id hc hid hsame => ?_, fun c id hc hid id' hstep => ?_⟩
  · have hc' : c'.place = .block id := hsame.place.symm.trans hc
    by_cases hmem : id ∈ blocks.map RelaxBlock.number
    · obtain ⟨b, hb, rfl⟩ := List.mem_map.mp hmem
      obtain ⟨b', hb', hgo⟩ := hgoes b hb
      rw [step_programOf h.nodup hb hc, step_programOf hnodup hb' (hgo.number ▸ hc'), hgo.number,
        hgo.body, ← hsame.state]
      rcases hgo.goes (flags (execInstrs exec b.instrs c.state)) with
        hplace | ⟨dest, hj, hvia, hdest⟩
      · exact .inl ⟨hplace.symm, rfl⟩
      · refine .inr ⟨n, by simp, hvia, ?_⟩
        obtain ⟨j, hjmem, hjump⟩ := List.mem_map.mp hj
        obtain ⟨number, -, instrs, -, -⟩ := RelaxBlock.mk.inj hjump
        rw [step_programOf hnodup hjmem (by rw [hvia, number]), instrs]
        exact ⟨hdest, rfl⟩
    · rw [step_programOf_of_not_mem hmem hc,
        step_programOf_of_not_mem (hnumbers id (of_decide_eq_true hid) hmem) hc']
      exact .inl ⟨rfl, hsame.state⟩
  · obtain ⟨b, hb, rfl⟩ := List.mem_map.mp (h.closed_step hc hstep)
    exact decide_eq_true (h.below b hb)

/-- The opposite branch is taken when the branch is not. -/
@[simp]
theorem BranchOpcode.taken_reversed (opc : BranchOpcode) (f : Flags) :
    opc.reversed.taken f = !opc.taken f := by
  rw [BranchOpcode.reversed, taken_getBrCond, holds_getOppositeCondition,
    holds_getCondFromBranchOpc]

/-- The terminators of a block do nothing. -/
theorem execInstrs_endingIn (exec : α → σ → σ) (body : List (BlockInstr α)) (e : BranchEnd)
    (s : σ) : execInstrs exec (endingIn body e) s = execInstrs exec body s := by
  have ends : ∀ (ts : List Terminator) (t : σ),
      (ts.map BlockInstr.terminator).foldl (fun s (mi : BlockInstr α) => mi.exec exec s) t = t := by
    intro ts t
    induction ts with
    | nil => rfl
    | cons x ts ih => exact ih
  rw [execInstrs, endingIn, List.foldl_append, ends]
  rfl

/-- **Another end that goes to the same places**, for the blocks in the same order. -/
theorem detours_withEnd {before after : List (RelaxBlock α)} {b : RelaxBlock α} {n : ℕ}
    (h : RelaxInv size (before ++ b :: after) n) {body : List (BlockInstr α)} {e e' : BranchEnd}
    (hends : b.Ends body e)
    (hgoes : ∀ f, (exitOf e'.terminators f).place ((before ++ b :: after).map RelaxBlock.number)
        b.number =
      (exitOf e.terminators f).place ((before ++ b :: after).map RelaxBlock.number) b.number) :
    Detours (fun k => decide (k < n)) (programOf exec flags (before ++ b :: after))
      (programOf exec flags (before ++ b.withEnd size body e' :: after)) := by
  have numbers : (before ++ b.withEnd size body e' :: after).map RelaxBlock.number =
      (before ++ b :: after).map RelaxBlock.number := by
    simp [RelaxBlock.withEnd]
  refine detours_of_goesAs h (numbers ▸ h.nodup) (fun k _ hk => numbers ▸ hk) fun a ha => ?_
  rw [List.mem_append, List.mem_cons] at ha
  rcases ha with ha | rfl | ha
  · exact ⟨a, List.mem_append_left _ ha, rfl, fun _ => rfl, fun f => .inl (by rw [numbers])⟩
  · refine ⟨a.withEnd size body e', List.mem_append_right _ List.mem_cons_self, rfl, fun s => ?_,
      fun f => .inl ?_⟩
    · rw [RelaxBlock.withEnd, execInstrs_endingIn, hends.instrs, execInstrs_endingIn]
    · rw [RelaxBlock.withEnd, terminatorsOf_endingIn hends.body, hends.instrs,
        terminatorsOf_endingIn hends.body]
      rw [← hgoes f]
      exact congrArg (fun ids => (exitOf e'.terminators f).place ids a.number) numbers
  · exact ⟨a, List.mem_append_right _ (List.mem_cons_of_mem _ ha), rfl, fun _ => rfl,
      fun f => .inl (by rw [numbers])⟩

/-- **A new block with a jump** for the other destination. -/
theorem detours_newBlock {before after : List (RelaxBlock α)} {b : RelaxBlock α} {n : ℕ}
    (h : RelaxInv size (before ++ b :: after) n) {body : List (BlockInstr α)} {opc : BranchOpcode}
    {dest other : ℕ} (hends : b.Ends body (.branchElse opc dest other)) :
    Detours (fun k => decide (k < n)) (programOf exec flags (before ++ b :: after))
      (programOf exec flags (before ++ b.withEnd size body (.branchElse opc.reversed n dest) ::
        jumpBlock n other :: after)) := by
  have mem : b ∈ before ++ b :: after := List.mem_append_right _ List.mem_cons_self
  have hother : other ∈ (before ++ b :: after).map RelaxBlock.number :=
    h.mem_of_ends mem hends (List.mem_cons_of_mem _ (List.mem_singleton_self _))
      (List.mem_singleton_self other)
  have hdest : dest ∈ (before ++ b :: after).map RelaxBlock.number :=
    h.mem_of_ends mem hends List.mem_cons_self (List.mem_singleton_self dest)
  have numbers : (before ++ b.withEnd size body (.branchElse opc.reversed n dest) ::
      jumpBlock n other :: after).map RelaxBlock.number =
        before.map RelaxBlock.number ++ b.number :: ([n] ++ after.map RelaxBlock.number) := by
    simp [RelaxBlock.withEnd, jumpBlock]
  have same : ∀ a ∈ before ++ b :: after, a.number ≠ b.number → ∀ f,
      (exitOf (terminatorsOf a.instrs) f).place
          ((before ++ b.withEnd size body (.branchElse opc.reversed n dest) ::
            jumpBlock n other :: after).map RelaxBlock.number) a.number =
        (exitOf (terminatorsOf a.instrs) f).place ((before ++ b :: after).map RelaxBlock.number)
          a.number := by
    intro a ha hne f
    have hlt := h.below a ha
    have hnew : a.number ∉ [n] := by
      rw [List.mem_singleton]
      omega
    have next : layoutNext (before.map RelaxBlock.number ++ b.number :: ([n] ++ _)) a.number = _ :=
      layoutNext_insert_after (after.map RelaxBlock.number) hne hnew
    rw [numbers, List.map_append, List.map_cons]
    cases exitOf (terminatorsOf a.instrs) f with
    | jump target => rfl
    | stop => rfl
    | fallThrough => rw [Exit.place, Exit.place, next]
  have others : ∀ a ∈ before ++ after, a ∈ before ++ b :: after ∧ a.number ≠ b.number := by
    intro a ha
    have nodup := h.nodup
    rw [List.map_append, List.map_cons, List.nodup_middle, List.nodup_cons, ← List.map_append]
      at nodup
    refine ⟨?_, fun heq => nodup.1 (heq ▸ List.mem_map_of_mem ha)⟩
    rw [List.mem_append, List.mem_cons]
    exact (List.mem_append.mp ha).imp_right .inr
  refine detours_of_goesAs h ((h.insertJump hother).withEnd hends.body ?_ ?_).nodup
    (fun k hk hnot => ?_) fun a ha => ?_
  · simp [jumpBlock]
  · simp only [List.map_append, List.map_cons, List.mem_append, List.mem_cons] at hdest ⊢
    tauto
  · rw [numbers]
    simp only [List.map_append, List.map_cons, List.mem_append, List.mem_cons] at hnot ⊢
    have hne : k ≠ n := by omega
    tauto
  · by_cases hab : a = b
    · subst hab
      refine ⟨a.withEnd size body (.branchElse opc.reversed n dest),
        List.mem_append_right _ List.mem_cons_self, rfl, fun s => ?_, fun f => ?_⟩
      · rw [RelaxBlock.withEnd, execInstrs_endingIn, hends.instrs, execInstrs_endingIn]
      · rw [RelaxBlock.withEnd, terminatorsOf_endingIn hends.body, hends.instrs,
          terminatorsOf_endingIn hends.body]
        simp only [BranchEnd.terminators, exitOf, BranchOpcode.taken_reversed]
        cases opc.taken f with
        | true => exact .inl rfl
        | false =>
            refine .inr ⟨other, List.mem_map.mpr ⟨jumpBlock n other, ?_, rfl⟩, rfl, rfl⟩
            exact List.mem_append_right _ (List.mem_cons_of_mem _ List.mem_cons_self)
    · have ha' : a ∈ before ++ after := by
        rw [List.mem_append, List.mem_cons] at ha
        exact List.mem_append.mpr (ha.imp_right fun h => h.resolve_left hab)
      refine ⟨a, ?_, rfl, fun _ => rfl, fun f => .inl (same a ha (others a ha').2 f)⟩
      rw [List.mem_append, List.mem_cons, List.mem_cons]
      exact (List.mem_append.mp ha').imp_right fun h => .inr (.inr h)

/-- **Every fix keeps the runs.** -/
theorem FixedAs.detours {before after : List (RelaxBlock α)} {b : RelaxBlock α} {n : ℕ}
    {body : List (BlockInstr α)} {opc : BranchOpcode} {dest : ℕ} {fixed : FixedBlocks α}
    (hfixed : FixedAs size functionAlign (before ++ b :: after) b after n body opc dest fixed)
    (h : RelaxInv size (before ++ b :: after) n) :
    Detours (fun k => decide (k < n)) (programOf exec flags (before ++ b :: after))
      (programOf exec flags (before ++ fixed.block :: fixed.after)) := by
  have unplaced : ∀ (b' : RelaxBlock α) (after' : List (RelaxBlock α)),
      programOf exec flags (before ++ b'.restarted functionAlign ::
          adjustFrom functionAlign (b'.restarted functionAlign) after') =
        programOf exec flags (before ++ b' :: after') := by
    intro b' after'
    apply programOf_of_unplaced
    rw [List.map_append, List.map_append, List.map_cons, List.map_cons, map_unplaced_adjustFrom,
      unplaced_restarted]
  cases hfixed with
  | @exchanged other hends near =>
      refine detours_withEnd h hends fun f => ?_
      simp only [BranchEnd.terminators, exitOf, BranchOpcode.taken_reversed]
      cases opc.taken f <;> rfl
  | newBlock hends far =>
      rw [FixedBlocks.placed, unplaced]
      exact detours_newBlock h hends
  | @overJump next rest hends hafter =>
      subst hafter
      rw [FixedBlocks.placed, unplaced]
      refine detours_withEnd h hends fun f => ?_
      have nodup := h.nodup
      rw [List.map_append, List.map_cons] at nodup
      have notBefore : b.number ∉ before.map RelaxBlock.number := by
        intro hmem
        exact (List.nodup_append.mp nodup).2.2 _ hmem _ List.mem_cons_self rfl
      have hnext : layoutNext ((before ++ b :: next :: rest).map RelaxBlock.number) b.number =
          some next.number := by
        rw [List.map_append, List.map_cons, layoutNext_append _ notBefore]
        rfl
      simp only [BranchEnd.terminators, exitOf, BranchOpcode.taken_reversed]
      cases opc.taken f with
      | false =>
          rw [Bool.not_false, if_pos rfl, if_neg Bool.false_ne_true, Exit.place, Exit.place, hnext]
      | true => rfl

/-- The scan does not change what a function does. -/
theorem programOf_scanFunction (blocks : List (RelaxBlock α)) :
    programOf exec flags (scanFunction size functionAlign blocks) =
      programOf exec flags blocks := by
  rw [programOf_of_unplaced (map_unplaced_scanFunction blocks), programOf, List.map_map]
  rfl

/-- The runs of a function are those of the function itself. -/
theorem RelaxInv.sameRuns {blocks : List (RelaxBlock α)} {n : ℕ} (h : RelaxInv size blocks n) :
    SameRuns (fun k => decide (k < n)) (programOf exec flags blocks)
      (programOf exec flags blocks) := by
  refine Detours.sameRuns (detours_of_goesAs h h.nodup (fun _ _ hk => hk) fun b hb => ?_)
  exact ⟨b, hb, rfl, fun _ => rfl, fun _ => .inl rfl⟩

/-- Every step keeps the runs. -/
theorem RelaxMove.keeps_runs {scanned blocks : List (RelaxBlock α)} {s t : RelaxState α}
    (hmove : RelaxMove size functionAlign s (.inl t)) (h : s.Inv size functionAlign scanned)
    (hlength : blocks.length ≤ s.progress.numBlockIDs)
    (hruns : SameRuns (fun k => decide (k < blocks.length)) (programOf exec flags blocks)
      (programOf exec flags s.blocks)) :
    blocks.length ≤ t.progress.numBlockIDs ∧
      SameRuns (fun k => decide (k < blocks.length)) (programOf exec flags blocks)
        (programOf exec flags t.blocks) := by
  cases hmove with
  | again changed =>
      rw [RelaxState.blocks, List.append_nil] at hruns
      exact ⟨hlength, hruns⟩
  | skip none =>
      refine ⟨hlength, ?_⟩
      rw [RelaxState.blocks, List.append_assoc]
      exact hruns
  | enter ends last => exact ⟨hlength, hruns⟩
  | leave =>
      refine ⟨hlength, ?_⟩
      rw [RelaxState.blocks, List.append_assoc]
      exact hruns
  | pass near => exact ⟨hlength, hruns⟩
  | @fix before after b body todo opc dest fixed progress far fixedAs =>
      have more : progress.numBlockIDs ≤ fixed.numBlockIDs := by
        cases fixedAs with
        | exchanged ends near => exact le_rfl
        | newBlock ends far => exact Nat.le_succ _
        | overJump ends hafter => exact le_rfl
      refine ⟨hlength.trans more, hruns.trans (fixedAs.detours h.blocks).sameRuns fun k hk => ?_⟩
      exact decide_eq_true ((of_decide_eq_true hk).trans_le hlength)

/-- **A relaxed function runs as the function did**: through the same blocks, in the same states, to
the same end, if the blocks that are new are not looked at.  Where the limit is in an `unsigned`,
the offsets of the model are those of the source. -/
theorem relaxed_sameRuns {blocks blocks' : List (RelaxBlock α)} {madeChange : Bool}
    (h : Relaxable blocks) (exec : α → σ → σ) (flags : σ → Flags)
    (hreturns : Returns (relaxStep size functionAlign) (relaxStart size functionAlign blocks)
      (.relaxed blocks' madeChange)) :
    SameRuns (fun k => decide (k < blocks.length)) (programOf exec flags blocks)
        (programOf exec flags blocks') ∧
      (relaxLimit size blocks < 2 ^ 32 → StaysUnsigned size functionAlign blocks) := by
  refine ⟨?_, h.staysUnsigned⟩
  let Kept : RelaxState α → Prop := fun t => blocks.length ≤ t.progress.numBlockIDs ∧
    SameRuns (fun k => decide (k < blocks.length)) (programOf exec flags blocks)
      (programOf exec flags t.blocks)
  have start : SameRuns (fun k => decide (k < blocks.length)) (programOf exec flags blocks)
      (programOf exec flags (scanFunction size functionAlign blocks)) := by
    have runs : SameRuns (fun k => decide (k < blocks.length))
        (programOf exec flags (scanFunction size functionAlign blocks)) _ := h.scanned.1.sameRuns
    rwa [programOf_scanFunction] at runs ⊢
  have kept : Kept (relaxStart size functionAlign blocks) := ⟨le_rfl, start⟩
  obtain ⟨progress, -, -, -, -, runs⟩ := h.relaxed kept
    (fun s t hinv hs hmove => hmove.keeps_runs hinv hs.1 hs.2) hreturns
  rwa [RelaxState.blocks, List.append_nil] at runs

/-- A function with a new block, over the flags as its states. -/
theorem relaxed_sameRuns_farFunction :
    SameRuns (fun k => decide (k < 4)) (programOf (fun _ f => f) id farFunction)
        (programOf (fun _ f => f) id farFunctionRelaxed) ∧
      StaysUnsigned (2 * ·) 1 farFunction :=
  (relaxed_sameRuns relaxable_farFunction (fun _ f => f) id returns_farFunction).imp_right
    fun hfits => hfits relaxLimit_farFunction

end Snes
