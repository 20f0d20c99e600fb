/-
# Sizes of Relaxed Functions

`BasicBlockInfo` counts in an `unsigned`, the model in numbers.  A fix adds a jump at
most, and moves the blocks from the one that is fixed on by no more than their own
sizes and padding; for each block there are two fixes at most that move anything.  So
all offsets stay below a limit that can be read off the function before, and where that
is below 2 ^ 32 nothing wraps.
-/
import SnesBackend.RelaxationRuns

namespace Snes

open SteppedLoop

variable {α : Type} {size : α → ℕ} {functionAlign : ℕ}

/-! ## The limit -/

/-- The code of blocks without padding. -/
def codeSize (size : α → ℕ) (blocks : List (RelaxBlock α)) : ℕ :=
  (blocks.map fun b => computeBlockSize size b.instrs).sum

/-- More than the padding that stands before a block. -/
def RelaxBlock.padding (b : RelaxBlock α) : ℕ :=
  if b.alignment = 0 then 0 else 2 ^ (b.alignment + 1)

/-- The sizes of blocks together, as they have been computed. -/
def totalSize (blocks : List (RelaxBlock α)) : ℕ :=
  (blocks.map RelaxBlock.size).sum

/-- Their padding together. -/
def totalPadding (blocks : List (RelaxBlock α)) : ℕ :=
  (blocks.map RelaxBlock.padding).sum

/-- How far a fix moves the end of a function at most. -/
def relaxStride (size : α → ℕ) (blocks : List (RelaxBlock α)) : ℕ :=
  2 * (codeSize size blocks + 4 * blocks.length) + totalPadding blocks

/-- Where no block ends behind, in any state of the loop. -/
def relaxLimit (size : α → ℕ) (blocks : List (RelaxBlock α)) : ℕ :=
  (2 * blocks.length + 1) * relaxStride size blocks

/-- In no state of the loop a block ends where an `unsigned` has wrapped. -/
def StaysUnsigned (size : α → ℕ) (functionAlign : ℕ) (blocks : List (RelaxBlock α)) : Prop :=
  ∀ s, Reaches (relaxStep size functionAlign) (relaxStart size functionAlign blocks) s →
    ∀ b ∈ s.blocks, b.offset + b.size < 2 ^ 32

/-! ## Placing blocks -/

/-- There is less padding than the alignment. -/
theorem offsetToAlignment_lt (value : ℕ) {align : ℕ} (h : 0 < align) :
    offsetToAlignment value align < align := by
  have lower := Nat.div_mul_le_self (value + align - 1) align
  unfold offsetToAlignment
  omega

/-- What follows a block begins at its end, with no more than the padding. -/
theorem RelaxBlock.postOffset_le (functionAlign : ℕ) (b c : RelaxBlock α) :
    b.postOffset functionAlign c.alignment ≤ b.offset + b.size + c.padding := by
  have less := offsetToAlignment_lt (b.offset + b.size) (Nat.two_pow_pos c.alignment)
  have double : 2 ^ (c.alignment + 1) = 2 * 2 ^ c.alignment := pow_succ' 2 c.alignment
  rw [postOffset, padding]
  split_ifs <;> omega

/-- Blocks placed one behind the other end before all sizes and paddings together. -/
theorem end_adjustFrom_le {prev : RelaxBlock α} {blocks : List (RelaxBlock α)}
    (hzero : ∀ b ∈ blocks, b.number ≠ 0) :
    ∀ c ∈ prev :: adjustFrom functionAlign prev blocks,
      c.offset + c.size ≤ prev.offset + prev.size + totalSize blocks + totalPadding blocks := by
  induction blocks generalizing prev with
  | nil =>
      intro c hc
      obtain rfl := List.mem_singleton.mp hc
      exact le_rfl
  | cons b rest ih =>
      rw [List.forall_mem_cons] at hzero
      have hpost := RelaxBlock.postOffset_le functionAlign prev b
      have hsize : totalSize (b :: rest) = b.size + totalSize rest := rfl
      have hpadding : totalPadding (b :: rest) = b.padding + totalPadding rest := rfl
      rw [adjustFrom, if_neg hzero.1, hsize, hpadding]
      intro c hc
      rcases List.mem_cons.mp hc with rfl | hc
      · omega
      · have hle := ih hzero.2 c hc
        simp only at hle
        omega

/-- A block that is moved behind its own end, and the blocks behind it. -/
theorem end_placed_le {b : RelaxBlock α} {after : List (RelaxBlock α)} (n : ℕ)
    (hzero : ∀ c ∈ after, c.number ≠ 0) :
    ∀ c ∈ (FixedBlocks.placed functionAlign b after n).block ::
        (FixedBlocks.placed functionAlign b after n).after,
      c.offset + c.size ≤
        b.offset + 2 * totalSize (b :: after) + totalPadding (b :: after) := by
  have hsize : totalSize (b :: after) = b.size + totalSize after := rfl
  have hpadding : totalPadding (b :: after) = b.padding + totalPadding after := rfl
  have moved : (b.restarted functionAlign).offset ≤ b.offset + b.size + b.padding ∧
      (b.restarted functionAlign).size = b.size := by
    have hpost := RelaxBlock.postOffset_le functionAlign b b
    unfold RelaxBlock.restarted
    split_ifs
    -- block zero stays where it is
    · exact ⟨by omega, rfl⟩
    · exact ⟨hpost, rfl⟩
  intro c hc
  have hle : c.offset + c.size ≤ (b.restarted functionAlign).offset +
      (b.restarted functionAlign).size + totalSize after + totalPadding after :=
    end_adjustFrom_le hzero c hc
  omega

/-! ## What every fix keeps -/

/-- The function before, the fixes that have moved blocks, and the blocks afterwards. -/
structure BoundedBy (size : α → ℕ) (blocks : List (RelaxBlock α)) (fixes : ℕ)
    (blocks' : List (RelaxBlock α)) : Prop where
  left : fixes + fixesLeft blocks' ≤ 2 * blocks.length
  total : totalSize blocks' ≤ codeSize size blocks + 2 * fixes
  padding : totalPadding blocks' = totalPadding blocks
  ends : ∀ b ∈ blocks', b.offset + b.size ≤ (fixes + 1) * relaxStride size blocks

section

variable {blocks before after after' : List (RelaxBlock α)} {b b' : RelaxBlock α} {n fixes : ℕ}

/-- The totals of blocks with another part at the end. -/
theorem total_append (before after : List (RelaxBlock α)) :
    totalSize (before ++ after) = totalSize before + totalSize after ∧
      totalPadding (before ++ after) = totalPadding before + totalPadding after := by
  constructor <;> simp [totalSize, totalPadding]

/-- Placing blocks again leaves the totals. -/
theorem total_placed (functionAlign : ℕ) (before after : List (RelaxBlock α)) (b : RelaxBlock α)
    (n : ℕ) :
    totalSize (before ++ (FixedBlocks.placed functionAlign b after n).block ::
        (FixedBlocks.placed functionAlign b after n).after) = totalSize (before ++ b :: after) ∧
      totalPadding (before ++ (FixedBlocks.placed functionAlign b after n).block ::
        (FixedBlocks.placed functionAlign b after n).after) =
          totalPadding (before ++ b :: after) := by
  have unplaced : (before ++ (FixedBlocks.placed functionAlign b after n).block ::
      (FixedBlocks.placed functionAlign b after n).after).map RelaxBlock.unplaced =
        (before ++ b :: after).map RelaxBlock.unplaced := by
    rw [List.map_append, List.map_append, List.map_cons, List.map_cons, FixedBlocks.placed,
      map_unplaced_adjustFrom, unplaced_restarted]
  exact ⟨congrArg List.sum (map_eq_of_unplaced unplaced RelaxBlock.size fun _ => rfl),
    congrArg List.sum (map_eq_of_unplaced unplaced RelaxBlock.padding fun _ => rfl)⟩

/-- **A fix that moves blocks** moves them by a stride at most. -/
theorem BoundedBy.placed (h : BoundedBy size blocks fixes (before ++ b :: after))
    (hoffset : b'.offset = b.offset)
    (hleft : fixesLeft (before ++ b' :: after') < fixesLeft (before ++ b :: after))
    (hsize : totalSize (b' :: after') = totalSize (b :: after) + 2)
    (hpadding : totalPadding (b' :: after') = totalPadding (b :: after))
    (hzero : ∀ c ∈ after', c.number ≠ 0) :
    BoundedBy size blocks (fixes + 1)
      (before ++ (FixedBlocks.placed functionAlign b' after' n).block ::
        (FixedBlocks.placed functionAlign b' after' n).after) := by
  obtain ⟨left, size_le, padding, ends⟩ := h
  obtain ⟨old_size, old_padding⟩ := total_append before (b :: after)
  obtain ⟨new_size, new_padding⟩ := total_append before (b' :: after')
  obtain ⟨placed_size, placed_padding⟩ := total_placed functionAlign before after' b' n
  have stride : (fixes + 1 + 1) * relaxStride size blocks =
      (fixes + 1) * relaxStride size blocks + relaxStride size blocks := Nat.succ_mul _ _
  have start := ends b (List.mem_append_right _ List.mem_cons_self)
  have distance : relaxStride size blocks =
      2 * (codeSize size blocks + 4 * blocks.length) + totalPadding blocks := rfl
  refine ⟨?_, ?_, ?_, List.forall_mem_append.mpr ⟨fun c hc => ?_, fun c hc => ?_⟩⟩
  · rw [fixesLeft_placed]
    omega
  · omega
  · omega
  -- the blocks before stay, and the others start behind one that was within the bound
  · have hle := ends c (List.mem_append_left _ hc)
    omega
  · have hle := end_placed_le n hzero c hc
    omega

end

/-- **Every fix keeps the bounds.** -/
theorem FixedAs.bounded {blocks before after : List (RelaxBlock α)} {b : RelaxBlock α} {n : ℕ}
    {body : List (BlockInstr α)} {opc : BranchOpcode} {dest : ℕ} {fixed : FixedBlocks α}
    (hfixed : FixedAs size functionAlign (before ++ b :: after) b after n body opc dest fixed)
    (h : RelaxInv size (before ++ b :: after) n)
    (hplaced : Placed functionAlign (before ++ b :: after))
    (hfar : isBlockInRange size (before ++ b :: after) b body (.branch opc dest) dest = some false)
    {fixes : ℕ} (hbounded : BoundedBy size blocks fixes (before ++ b :: after)) :
    ∃ fixes, BoundedBy size blocks fixes (before ++ fixed.block :: fixed.after) := by
  have mem : b ∈ before ++ b :: after := List.mem_append_right _ List.mem_cons_self
  have oldSize {e : BranchEnd} (hends : b.Ends body e) :
      b.size = computeBlockSize size body + 2 * e.terminators.length := by
    rw [h.sizes b mem, hends.instrs, computeBlockSize_endingIn]
  have newSize (near far : ℕ) : (b.withEnd size body (.branchElse opc.reversed near far)).size =
      computeBlockSize size body + 4 := computeBlockSize_endingIn _ _ _
  have totals (c : RelaxBlock α) (rest : List (RelaxBlock α)) :
      totalSize (c :: rest) = c.size + totalSize rest ∧
        totalPadding (c :: rest) = c.padding + totalPadding rest := ⟨rfl, rfl⟩
  cases hfixed with
  | @exchanged other hends near =>
      have same : (b.withEnd size body (.branchElse opc.reversed other dest)).size = b.size :=
        (newSize _ _).trans (oldSize hends).symm
      have hleft := fixesLeft_exchanged h hplaced hends hfar
      obtain ⟨left, size_le, padding, ends⟩ := hbounded
      rw [(total_append _ _).1, (totals _ _).1] at size_le
      rw [(total_append _ _).2, (totals _ _).2] at padding
      refine ⟨fixes, (Nat.add_le_add_left hleft fixes).trans left, ?_, ?_, ?_⟩
      · rw [(total_append _ _).1, (totals _ _).1, same]
        exact size_le
      · rw [(total_append _ _).2, (totals _ _).2]
        exact padding
      · rw [List.forall_mem_append, List.forall_mem_cons] at ends ⊢
        exact ⟨ends.1, same ▸ ends.2.1, ends.2.2⟩
  | @newBlock other hends far =>
      refine ⟨fixes + 1, hbounded.placed rfl (fixesLeft_newBlock h hplaced hends hfar) ?_ ?_ ?_⟩
      · have old := oldSize hends
        have jump : (jumpBlock n other : RelaxBlock α).size = 2 := rfl
        rw [(totals _ _).1, (totals _ _).1, (totals _ _).1, newSize, jump, old]
        simp only [BranchEnd.terminators, List.length_cons, List.length_nil]
        omega
      · have jump : (jumpBlock n other : RelaxBlock α).padding = 0 := rfl
        rw [(totals _ _).2, (totals _ _).2, (totals _ _).2, jump, Nat.zero_add]
        rfl
      · have used : n ≠ 0 := Nat.ne_of_gt (Nat.zero_lt_of_lt (h.below b mem))
        exact List.forall_mem_cons.mpr ⟨used, h.after_zero⟩
  | @overJump next rest hends hafter =>
      refine ⟨fixes + 1, hbounded.placed rfl (fixesLeft_overJump hends next.number) ?_ rfl
        h.after_zero⟩
      have old := oldSize hends
      rw [(totals _ _).1, (totals _ _).1, newSize, old]
      simp only [BranchEnd.terminators, List.length_cons, List.length_nil]
      omega

/-- Every step keeps them. -/
theorem RelaxMove.bounded {scanned blocks : List (RelaxBlock α)} {s t : RelaxState α}
    (hmove : RelaxMove size functionAlign s (.inl t)) (h : s.Inv size functionAlign scanned)
    (hbounded : ∃ fixes, BoundedBy size blocks fixes s.blocks) :
    ∃ fixes, BoundedBy size blocks fixes t.blocks := by
  cases hmove with
  | again changed => simpa [RelaxState.blocks] using hbounded
  | skip none => simpa [RelaxState.blocks, List.append_assoc] using hbounded
  | enter ends last => exact hbounded
  | leave => simpa [RelaxState.blocks, List.append_assoc] using hbounded
  | pass near => exact hbounded
  | fix far fixedAs =>
      obtain ⟨fixes, hbounded⟩ := hbounded
      exact fixedAs.bounded h.blocks h.placed far hbounded

/-! ## Runs -/

/-- A block has two fixes at most. -/
theorem RelaxBlock.fixesLeft_le_two (b : RelaxBlock α) (next : Option (RelaxBlock α)) :
    b.fixesLeft next ≤ 2 := by
  unfold RelaxBlock.fixesLeft
  split
  · exact le_rfl
  · split_ifs <;> omega
  · exact Nat.zero_le 2

/-- So a function has two for each block. -/
theorem fixesLeft_le (blocks : List (RelaxBlock α)) : fixesLeft blocks ≤ 2 * blocks.length := by
  induction blocks with
  | nil => exact le_rfl
  | cons b rest ih =>
      have hle := b.fixesLeft_le_two rest.head?
      rw [fixesLeft, List.length_cons]
      omega

/-- The bounds hold at the start. -/
theorem Relaxable.bounded {blocks : List (RelaxBlock α)} (h : Relaxable blocks) :
    BoundedBy size blocks 0 (scanFunction size functionAlign blocks) := by
  have unplaced : (scanFunction size functionAlign blocks).map RelaxBlock.unplaced = _ :=
    map_unplaced_scanFunction blocks
  have total : totalSize (blocks.map (RelaxBlock.measured size)) = codeSize size blocks := by
    simp only [totalSize, codeSize, List.map_map]
    rfl
  have padding : totalPadding (blocks.map (RelaxBlock.measured size)) = totalPadding blocks := by
    simp only [totalPadding, List.map_map]
    rfl
  have length := congrArg List.length unplaced
  simp only [List.length_map] at length
  refine ⟨?_, ?_, ?_, ?_⟩
  · rw [Nat.zero_add, ← length]
    exact fixesLeft_le _
  · rw [totalSize, map_eq_of_unplaced unplaced RelaxBlock.size fun _ => rfl]
    exact total.le
  · rw [totalPadding, map_eq_of_unplaced unplaced RelaxBlock.padding fun _ => rfl]
    exact padding
  · have measured : RelaxInv size (blocks.map (RelaxBlock.measured size)) blocks.length :=
      h.measured
    rcases blocks with _ | ⟨b, rest⟩
    · rintro c ⟨⟩
    · intro c hc
      rw [h.scanFunction_cons] at hc
      have hle : c.offset + c.size ≤ (b.measured size).offset + (b.measured size).size +
          totalSize (rest.map (RelaxBlock.measured size)) +
          totalPadding (rest.map (RelaxBlock.measured size)) :=
        end_adjustFrom_le measured.zeroFirst c hc
      have hsize : totalSize ((b :: rest).map (RelaxBlock.measured size)) =
          (b.measured size).size + totalSize (rest.map (RelaxBlock.measured size)) := rfl
      have hpadding : totalPadding ((b :: rest).map (RelaxBlock.measured size)) =
          b.padding + totalPadding (rest.map (RelaxBlock.measured size)) := rfl
      have start : (b.measured size).offset = 0 := rfl
      have distance : relaxStride size (b :: rest) =
          2 * (codeSize size (b :: rest) + 4 * (b :: rest).length) + totalPadding (b :: rest) := rfl
      omega

/-- **No block ends behind the limit**, in any state that the loop comes to. -/
theorem end_le_relaxLimit {blocks : List (RelaxBlock α)} (h : Relaxable blocks) {s : RelaxState α}
    (hreaches : Reaches (relaxStep size functionAlign) (relaxStart size functionAlign blocks) s) :
    ∀ b ∈ s.blocks, b.offset + b.size ≤ relaxLimit size blocks := by
  let Bounded : RelaxState α → Prop := fun t => ∃ fixes, BoundedBy size blocks fixes t.blocks
  have start : Bounded (relaxStart size functionAlign blocks) := ⟨0, h.bounded⟩
  obtain ⟨-, fixes, left, -, -, ends⟩ :=
    h.reached start (fun s t hinv hs hmove => hmove.bounded hinv hs) hreaches
  intro b hb
  refine (ends b hb).trans (Nat.mul_le_mul_right _ ?_)
  omega

/-- Where the limit is in an `unsigned`, so is everything else. -/
theorem Relaxable.staysUnsigned {blocks : List (RelaxBlock α)} (h : Relaxable blocks)
    (hlimit : relaxLimit size blocks < 2 ^ 32) : StaysUnsigned size functionAlign blocks :=
  fun _ hreaches b hb => (end_le_relaxLimit h hreaches b hb).trans_lt hlimit

/-- **Branch relaxation returns** for every function that can be relaxed: with all branches in range
and the offsets that `verify` asserts, or at an unconditional branch that is out of range, which the
target cannot relax.  No assertion fails, no block is split, and where the limit is in an
`unsigned`, nothing wraps. -/
theorem runOnMachineFunction_relaxes {blocks : List (RelaxBlock α)} (h : Relaxable blocks) :
    (∃ outcome,
      Returns (relaxStep size functionAlign) (relaxStart size functionAlign blocks) outcome ∧
      outcome.Good size functionAlign (scanFunction size functionAlign blocks)) ∧
    (relaxLimit size blocks < 2 ^ 32 → StaysUnsigned size functionAlign blocks) := by
  refine ⟨?_, h.staysUnsigned⟩
  have wf : WellFounded fun t s : RelaxState α => t.rank < s.rank :=
    InvImage.wf RelaxState.rank wellFounded_lt
  refine exists_returns wf (fun s t hs hstep => ?_) (fun s outcome hs hstep => ?_) h.inv
  · have hmove := hs.moves
    rw [hstep] at hmove
    exact ⟨hmove.keeps hs, hmove.rank_lt hs⟩
  · have hmove := hs.moves
    rw [hstep] at hmove
    exact hmove.good hs

/-- A branch and a jump of one block over long blocks; an instruction is its number of words. -/
def farFunction : List (RelaxBlock ℕ) :=
  [⟨0, 0, [.inst 1, .terminator (.branch .BREQk 2), .terminator (.RJMPk 3)], 0, 0⟩,
    ⟨1, 0, [.inst 50, .terminator .RET], 0, 0⟩,
    ⟨2, 0, [.inst 50, .terminator .RET], 0, 0⟩,
    ⟨3, 0, [.terminator .RET], 0, 0⟩]

/-- The same with a new block for the jump. -/
def farFunctionRelaxed : List (RelaxBlock ℕ) :=
  [⟨0, 0, [.inst 1, .terminator (.branch .BRNEk 4), .terminator (.RJMPk 2)], 0, 6⟩,
    ⟨4, 0, [.terminator (.RJMPk 3)], 6, 2⟩,
    ⟨1, 0, [.inst 50, .terminator .RET], 8, 102⟩,
    ⟨2, 0, [.inst 50, .terminator .RET], 110, 102⟩,
    ⟨3, 0, [.terminator .RET], 212, 2⟩]

/-- It can be relaxed. -/
theorem relaxable_farFunction : Relaxable farFunction := by
  refine ⟨rfl, ?_, by decide, ?_⟩
  · intro b hb
    simp only [farFunction, List.mem_cons, List.not_mem_nil, or_false] at hb
    rcases hb with rfl | rfl | rfl | rfl
    · exact ⟨[.inst 1], .branchElse .BREQk 2 3, rfl, rfl⟩
    · exact ⟨[.inst 50], .ret, rfl, rfl⟩
    · exact ⟨[.inst 50], .ret, rfl, rfl⟩
    · exact ⟨[], .ret, rfl, rfl⟩
  · intro b hb opc dest h
    obtain rfl := Option.some.inj hb
    cases h

/-- Relaxing it. -/
theorem returns_farFunction : Returns (relaxStep (2 * ·) 1) (relaxStart (2 * ·) 1 farFunction)
    (.relaxed farFunctionRelaxed true) :=
  returns_iff_exists_iterate.mpr ⟨40, rfl⟩

/-- Its limit. -/
theorem relaxLimit_farFunction : relaxLimit (2 * ·) farFunction < 2 ^ 32 := by
  decide

/-- The loop returns for it, and nothing wraps. -/
theorem runOnMachineFunction_relaxes_farFunction :
    (∃ outcome, Returns (relaxStep (2 * ·) 1) (relaxStart (2 * ·) 1 farFunction) outcome ∧
      outcome.Good (2 * ·) 1 (scanFunction (2 * ·) 1 farFunction)) ∧
    StaysUnsigned (2 * ·) 1 farFunction :=
  (runOnMachineFunction_relaxes relaxable_farFunction).imp_right fun hfits =>
    hfits relaxLimit_farFunction

end Snes
