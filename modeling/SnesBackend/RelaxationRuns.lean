/-
# Runs of Branch Relaxation

The invariants of the blocks, which every fix keeps: their sizes are exact, and
each block is placed behind the one before it, as `verify` asserts.  Placing the
blocks again from the block that is fixed moves that block too, so the distances
may shrink again later; the loop ends nevertheless, since a branch is fixed for
good when it goes to a new block right behind it.
-/
import SnesBackend.BranchRelaxation

namespace Snes

open BlockLayout SteppedLoop

variable {α : Type} {size : α → ℕ} {functionAlign : ℕ}

/-! ## Offsets -/

/-- The end of a block is not behind what follows it. -/
theorem RelaxBlock.le_postOffset (b : RelaxBlock α) (alignment : ℕ) :
    b.offset + b.size ≤ b.postOffset functionAlign alignment := by
  have pos : 0 < 2 ^ alignment := Nat.two_pow_pos alignment
  rw [postOffset]
  split_ifs <;> omega

/-- What follows a block without alignment begins at its end. -/
@[simp]
theorem RelaxBlock.postOffset_zero (b : RelaxBlock α) :
    b.postOffset functionAlign 0 = b.offset + b.size := by
  rw [postOffset, if_pos rfl]

/-- The next multiple of an alignment. -/
theorem add_offsetToAlignment (value : ℕ) {align : ℕ} (h : 0 < align) :
    value + offsetToAlignment value align = (value + align - 1) / align * align := by
  have lower := Nat.div_add_mod (value + align - 1) align
  have rest := Nat.mod_lt (value + align - 1) h
  rw [Nat.mul_comm] at lower
  unfold offsetToAlignment
  omega

/-- What follows a block is aligned. -/
theorem RelaxBlock.postOffset_mod (b : RelaxBlock α) (alignment : ℕ) :
    b.postOffset functionAlign alignment % 2 ^ alignment = 0 := by
  have pos : 0 < 2 ^ alignment := Nat.two_pow_pos alignment
  have next := add_offsetToAlignment (b.offset + b.size) pos
  simp only [postOffset]
  split_ifs with hzero hle
  · rw [hzero, pow_zero, Nat.mod_one]
  · rw [next, Nat.mul_mod_left]
  · rw [Nat.add_right_comm, next, Nat.add_mod_right, Nat.mul_mod_left]

/-- A block without its offset. -/
def RelaxBlock.unplaced (b : RelaxBlock α) : RelaxBlock α :=
  { b with offset := 0 }

/-- `adjustBlockOffsets` changes offsets only. -/
theorem map_unplaced_adjustFrom (prev : RelaxBlock α) (blocks : List (RelaxBlock α)) :
    (adjustFrom functionAlign prev blocks).map RelaxBlock.unplaced =
      blocks.map RelaxBlock.unplaced := by
  induction blocks generalizing prev with
  | nil => rfl
  | cons b rest ih =>
      rw [adjustFrom]
      split_ifs
      · rw [List.map_cons, List.map_cons, ih]
      · rw [List.map_cons, List.map_cons, ih]
        rfl

/-- Moving the start block changes its offset only. -/
theorem unplaced_restarted (b : RelaxBlock α) :
    (b.restarted functionAlign).unplaced = b.unplaced := by
  unfold RelaxBlock.restarted
  split_ifs <;> rfl

/-- The start block is moved forward. -/
theorem offset_le_restarted (b : RelaxBlock α) :
    b.offset ≤ (b.restarted functionAlign).offset := by
  unfold RelaxBlock.restarted
  split_ifs
  · exact le_rfl
  · exact (Nat.le_add_right _ _).trans (b.le_postOffset _)

/-- A block begins behind another one, and right behind it if it is nothing but a jump. -/
structure Follows (functionAlign : ℕ) (a b : RelaxBlock α) : Prop where
  behind : a.postOffset functionAlign b.alignment ≤ b.offset
  jump : ∀ dest, b.instrs = [.terminator (.RJMPk dest)] →
    b.offset = a.postOffset functionAlign b.alignment

/-- What `verify` asserts of the offsets, with blocks of a single jump placed exactly. -/
structure Placed (functionAlign : ℕ) (blocks : List (RelaxBlock α)) : Prop where
  aligned : ∀ b ∈ blocks, b.offset % 2 ^ b.alignment = 0
  follows : blocks.IsChain (Follows functionAlign)

/-- Blocks placed one behind the other. -/
theorem placed_adjustFrom {prev : RelaxBlock α} {blocks : List (RelaxBlock α)}
    (hprev : prev.offset % 2 ^ prev.alignment = 0) (hzero : ∀ b ∈ blocks, b.number ≠ 0) :
    Placed functionAlign (prev :: adjustFrom functionAlign prev blocks) := by
  induction blocks generalizing prev with
  | nil => exact ⟨by simpa [adjustFrom] using hprev, .singleton _⟩
  | cons b rest ih =>
      rw [List.forall_mem_cons] at hzero
      rw [adjustFrom, if_neg hzero.1]
      have next : Placed functionAlign (_ :: adjustFrom functionAlign
          { b with offset := prev.postOffset functionAlign b.alignment } rest) :=
        ih (prev.postOffset_mod b.alignment) hzero.2
      exact ⟨List.forall_mem_cons.mpr ⟨hprev, next.aligned⟩,
        .cons_cons ⟨le_rfl, fun _ _ => rfl⟩ next.follows⟩

/-- The first blocks can be followed by anything that begins no earlier, is placed itself, and does
not begin with a jump. -/
theorem Placed.append {before : List (RelaxBlock α)} {b b' : RelaxBlock α}
    {after after' : List (RelaxBlock α)} (h : Placed functionAlign (before ++ b :: after))
    (halign : b'.alignment = b.alignment) (hoffset : b.offset ≤ b'.offset)
    (hjump : ∀ dest, b'.instrs ≠ [.terminator (.RJMPk dest)])
    (hrest : Placed functionAlign (b' :: after')) :
    Placed functionAlign (before ++ b' :: after') := by
  refine ⟨fun c hc => ?_, ?_⟩
  · rcases List.mem_append.mp hc with hc | hc
    · exact h.aligned c (List.mem_append_left _ hc)
    · exact hrest.aligned c hc
  · have follows := List.isChain_append.mp h.follows
    refine List.isChain_append.mpr ⟨follows.1, hrest.follows, fun x hx y hy => ?_⟩
    obtain rfl := Option.some.inj hy
    refine ⟨?_, fun dest hinstrs => absurd hinstrs (hjump dest)⟩
    rw [halign]
    exact (follows.2.2 x hx b rfl).behind.trans hoffset

/-- A part of placed blocks is placed. -/
theorem Placed.of_append {before after : List (RelaxBlock α)}
    (h : Placed functionAlign (before ++ after)) : Placed functionAlign after :=
  ⟨fun b hb => h.aligned b (List.mem_append_right _ hb), (List.isChain_append.mp h.follows).2.1⟩

/-- What follows a block follows any other one with the same end. -/
theorem Placed.of_end {b b' : RelaxBlock α} {after : List (RelaxBlock α)}
    (h : Placed functionAlign (b :: after)) (halign : b'.alignment = b.alignment)
    (hoffset : b'.offset = b.offset) (hsize : b'.size = b.size) :
    Placed functionAlign (b' :: after) := by
  have post : ∀ k, b'.postOffset functionAlign k = b.postOffset functionAlign k := by
    intro k
    rw [RelaxBlock.postOffset, RelaxBlock.postOffset, hoffset, hsize]
  refine ⟨fun c hc => ?_, ?_⟩
  · rcases List.mem_cons.mp hc with rfl | hc
    · rw [halign, hoffset]
      exact h.aligned b List.mem_cons_self
    · exact h.aligned c (List.mem_cons_of_mem _ hc)
  · refine List.isChain_cons.mpr ⟨fun y hy => ?_, (List.isChain_cons.mp h.follows).2⟩
    have follows := (List.isChain_cons.mp h.follows).1 y hy
    exact ⟨(post y.alignment).trans_le follows.behind,
      fun dest hinstrs => (follows.jump dest hinstrs).trans (post y.alignment).symm⟩

/-- The start block is aligned where it is moved to. -/
theorem restarted_mod {b : RelaxBlock α} (h : b.offset % 2 ^ b.alignment = 0) :
    (b.restarted functionAlign).offset % 2 ^ (b.restarted functionAlign).alignment = 0 := by
  unfold RelaxBlock.restarted
  split_ifs
  · exact h
  · exact b.postOffset_mod b.alignment

/-! ## The invariant of the blocks -/

/-- What every fix keeps: numbers are unique and in use, only the first block may be block zero,
terminators stand at the ends of blocks, sizes are exact, destinations exist, and the last block
does not fall through a branch. -/
structure RelaxInv (size : α → ℕ) (blocks : List (RelaxBlock α)) (numBlockIDs : ℕ) : Prop where
  nodup : (blocks.map RelaxBlock.number).Nodup
  below : ∀ b ∈ blocks, b.number < numBlockIDs
  zeroFirst : ∀ b ∈ blocks.tail, b.number ≠ 0
  ends : ∀ b ∈ blocks, ∃ body e, b.Ends body e
  sizes : ∀ b ∈ blocks, b.size = computeBlockSize size b.instrs
  targets : ∀ b ∈ blocks, ∀ t ∈ terminatorsOf b.instrs, ∀ dest ∈ t.targets,
    dest ∈ blocks.map RelaxBlock.number
  closed : ∀ b ∈ blocks.getLast?, ∀ opc dest, terminatorsOf b.instrs ≠ [.branch opc dest]

/-- The block of a list that differs in its offset only. -/
theorem exists_of_map_unplaced {blocks blocks' : List (RelaxBlock α)}
    (h : blocks'.map RelaxBlock.unplaced = blocks.map RelaxBlock.unplaced) {b : RelaxBlock α}
    (hb : b ∈ blocks') :
    ∃ c ∈ blocks, c.number = b.number ∧ c.instrs = b.instrs ∧ c.size = b.size := by
  have mem : b.unplaced ∈ blocks.map RelaxBlock.unplaced := h ▸ List.mem_map_of_mem hb
  obtain ⟨c, hc, same⟩ := List.mem_map.mp mem
  obtain ⟨number, -, instrs, -, size⟩ := RelaxBlock.mk.inj same
  exact ⟨c, hc, number, instrs, size⟩

/-- What does not depend on the offset is the same. -/
theorem map_eq_of_unplaced {β : Type} {blocks blocks' : List (RelaxBlock α)}
    (h : blocks'.map RelaxBlock.unplaced = blocks.map RelaxBlock.unplaced) (f : RelaxBlock α → β)
    (hf : ∀ b, f b.unplaced = f b) : blocks'.map f = blocks.map f := by
  have through : ∀ l : List (RelaxBlock α), l.map f = (l.map RelaxBlock.unplaced).map f := by
    intro l
    rw [List.map_map]
    exact List.map_congr_left fun b _ => (hf b).symm
  rw [through, h, ← through]

/-- **The invariant does not depend on the offsets.** -/
theorem RelaxInv.of_unplaced {blocks blocks' : List (RelaxBlock α)} {n : ℕ}
    (h : RelaxInv size blocks n)
    (heq : blocks'.map RelaxBlock.unplaced = blocks.map RelaxBlock.unplaced) :
    RelaxInv size blocks' n := by
  have numbers := map_eq_of_unplaced heq RelaxBlock.number fun _ => rfl
  have tails : blocks'.tail.map RelaxBlock.unplaced = blocks.tail.map RelaxBlock.unplaced := by
    rw [List.map_tail, List.map_tail, heq]
  refine ⟨numbers ▸ h.nodup, fun b hb => ?_, fun b hb => ?_, fun b hb => ?_, fun b hb => ?_,
    fun b hb => ?_, fun b hb => ?_⟩
  · obtain ⟨c, hc, number, -⟩ := exists_of_map_unplaced heq hb
    exact number ▸ h.below c hc
  · obtain ⟨c, hc, number, -⟩ := exists_of_map_unplaced tails hb
    exact number ▸ h.zeroFirst c hc
  · obtain ⟨c, hc, -, instrs, -⟩ := exists_of_map_unplaced heq hb
    obtain ⟨body, e, hends⟩ := h.ends c hc
    exact ⟨body, e, instrs ▸ hends.instrs, hends.body⟩
  · obtain ⟨c, hc, -, instrs, sizes⟩ := exists_of_map_unplaced heq hb
    rw [← sizes, ← instrs, h.sizes c hc]
  · obtain ⟨c, hc, -, instrs, -⟩ := exists_of_map_unplaced heq hb
    rw [numbers, ← instrs]
    exact h.targets c hc
  · have last : (blocks'.map RelaxBlock.instrs).getLast? =
        (blocks.map RelaxBlock.instrs).getLast? := by
      rw [map_eq_of_unplaced heq RelaxBlock.instrs fun _ => rfl]
    rw [List.getLast?_map, List.getLast?_map, Option.mem_def.mp hb, Option.map_some] at last
    obtain ⟨c, hc, instrs⟩ := Option.map_eq_some_iff.mp last.symm
    rw [← instrs]
    exact h.closed c hc

/-- **Another end for a block** keeps the invariant. -/
theorem RelaxInv.withEnd {before after : List (RelaxBlock α)} {b : RelaxBlock α} {n : ℕ}
    (h : RelaxInv size (before ++ b :: after) n) {body : List (BlockInstr α)}
    (hbody : terminatorsOf body = []) {opc : BranchOpcode} {dest other : ℕ}
    (hdest : dest ∈ (before ++ b :: after).map RelaxBlock.number)
    (hother : other ∈ (before ++ b :: after).map RelaxBlock.number) :
    RelaxInv size (before ++ b.withEnd size body (.branchElse opc dest other) :: after) n := by
  have numbers : (before ++ b.withEnd size body (.branchElse opc dest other) :: after).map
      RelaxBlock.number = (before ++ b :: after).map RelaxBlock.number := by
    simp [RelaxBlock.withEnd]
  have terminators : terminatorsOf (b.withEnd size body (.branchElse opc dest other)).instrs =
      [.branch opc dest, .RJMPk other] :=
    terminatorsOf_endingIn hbody
  have cases : ∀ c ∈ before ++ b.withEnd size body (.branchElse opc dest other) :: after,
      c ∈ before ++ b :: after ∨ c = b.withEnd size body (.branchElse opc dest other) := by
    intro c hc
    simp only [List.mem_append, List.mem_cons] at hc ⊢
    tauto
  have mem : b ∈ before ++ b :: after := List.mem_append_right _ List.mem_cons_self
  refine ⟨numbers ▸ h.nodup, fun c hc => ?_, fun c hc => ?_, fun c hc => ?_, fun c hc => ?_,
    fun c hc => ?_, fun c hc => ?_⟩
  · rcases cases c hc with hc | rfl
    · exact h.below c hc
    · exact h.below b mem
  · cases before with
    | nil => exact h.zeroFirst c hc
    | cons x before =>
        rcases List.mem_append.mp hc with hc | hc
        · exact h.zeroFirst c (List.mem_append_left _ hc)
        · rcases List.mem_cons.mp hc with rfl | hc
          · exact h.zeroFirst b (List.mem_append_right _ List.mem_cons_self)
          · exact h.zeroFirst c (List.mem_append_right _ (List.mem_cons_of_mem _ hc))
  · rcases cases c hc with hc | rfl
    · exact h.ends c hc
    · exact ⟨body, _, rfl, hbody⟩
  · rcases cases c hc with hc | rfl
    · exact h.sizes c hc
    · rfl
  · rw [numbers]
    rcases cases c hc with hc | rfl
    · exact h.targets c hc
    · rw [terminators]
      intro t ht d hd
      rcases List.mem_cons.mp ht with rfl | ht
      · exact List.mem_singleton.mp hd ▸ hdest
      · obtain rfl := List.mem_singleton.mp ht
        exact List.mem_singleton.mp hd ▸ hother
  · intro opc' dest' hterminators
    rcases List.eq_nil_or_concat after with rfl | ⟨after, last, rfl⟩
    · rw [List.getLast?_concat] at hc
      obtain rfl := Option.some.inj hc
      rw [terminators] at hterminators
      cases hterminators
    · refine h.closed c ?_ opc' dest' hterminators
      rw [Option.mem_def, List.concat_eq_append, ← List.cons_append, ← List.append_assoc,
        List.getLast?_concat] at hc ⊢
      exact hc

/-- **A new block with a jump** behind a block keeps the invariant. -/
theorem RelaxInv.insertJump {before after : List (RelaxBlock α)} {b : RelaxBlock α} {n : ℕ}
    (h : RelaxInv size (before ++ b :: after) n) {dest : ℕ}
    (hdest : dest ∈ (before ++ b :: after).map RelaxBlock.number) :
    RelaxInv size (before ++ b :: jumpBlock n dest :: after) (n + 1) := by
  have cases : ∀ c ∈ before ++ b :: jumpBlock n dest :: after,
      c ∈ before ++ b :: after ∨ c = jumpBlock n dest := by
    intro c hc
    simp only [List.mem_append, List.mem_cons] at hc ⊢
    tauto
  have numbers : ∀ m ∈ (before ++ b :: after).map RelaxBlock.number,
      m ∈ (before ++ b :: jumpBlock n dest :: after).map RelaxBlock.number := by
    intro m hm
    simp only [List.map_append, List.map_cons, List.mem_append, List.mem_cons] at hm ⊢
    tauto
  have pos : n ≠ 0 := by
    have hb := h.below b (List.mem_append_right _ List.mem_cons_self)
    omega
  have fresh : n ∉ (before ++ b :: after).map RelaxBlock.number := by
    intro hn
    obtain ⟨c, hc, hnumber⟩ := List.mem_map.mp hn
    exact absurd (h.below c hc) (by omega)
  refine ⟨?_, fun c hc => ?_, fun c hc => ?_, fun c hc => ?_, fun c hc => ?_, fun c hc => ?_,
    fun c hc => ?_⟩
  · have perm : ((before ++ b :: jumpBlock n dest :: after).map RelaxBlock.number).Perm
        (n :: (before ++ b :: after).map RelaxBlock.number) := by
      have middle : ((before.map RelaxBlock.number ++ [b.number]) ++
          n :: after.map RelaxBlock.number).Perm
            (n :: ((before.map RelaxBlock.number ++ [b.number]) ++ after.map RelaxBlock.number)) :=
        List.perm_middle
      simpa [jumpBlock] using middle
    exact perm.nodup_iff.mpr (List.nodup_cons.mpr ⟨fresh, h.nodup⟩)
  · rcases cases c hc with hc | rfl
    · exact (h.below c hc).trans (Nat.lt_succ_self n)
    · exact Nat.lt_succ_self n
  · rcases cases c (List.mem_of_mem_tail hc) with hmem | rfl
    · cases before with
      | nil =>
          rcases List.mem_cons.mp hc with rfl | hc
          · exact pos
          · exact h.zeroFirst c hc
      | cons x before =>
          rcases List.mem_append.mp hc with hc | hc
          · exact h.zeroFirst c (List.mem_append_left _ hc)
          · rcases List.mem_cons.mp hc with rfl | hc
            · exact h.zeroFirst _ (List.mem_append_right _ List.mem_cons_self)
            · rcases List.mem_cons.mp hc with rfl | hc
              · exact pos
              · exact h.zeroFirst c (List.mem_append_right _ (List.mem_cons_of_mem _ hc))
    · exact pos
  · rcases cases c hc with hc | rfl
    · exact h.ends c hc
    · exact ⟨[], .jump dest, rfl, rfl⟩
  · rcases cases c hc with hc | rfl
    · exact h.sizes c hc
    · rfl
  · rcases cases c hc with hc | rfl
    · exact fun t ht d hd => numbers d (h.targets c hc t ht d hd)
    · intro t ht d hd
      obtain rfl := List.mem_singleton.mp ht
      exact numbers d (List.mem_singleton.mp hd ▸ hdest)
  · intro opc' dest' hterminators
    rcases List.eq_nil_or_concat after with rfl | ⟨after, last, rfl⟩
    · rw [List.append_cons, List.getLast?_concat] at hc
      obtain rfl := Option.some.inj hc
      cases hterminators
    · refine h.closed c ?_ opc' dest' hterminators
      rw [Option.mem_def, List.concat_eq_append, ← List.cons_append, ← List.cons_append,
        ← List.append_assoc, List.getLast?_concat] at hc
      rw [Option.mem_def, List.concat_eq_append, ← List.cons_append, ← List.append_assoc,
        List.getLast?_concat]
      exact hc

/-! ## Every fix keeps the invariants -/

/-- A block with a conditional branch at its end is no single jump. -/
theorem withEnd_ne_jump (b : RelaxBlock α) {body : List (BlockInstr α)}
    (hbody : terminatorsOf body = []) (opc : BranchOpcode) (dest other d : ℕ) :
    (b.withEnd size body (.branchElse opc dest other)).instrs ≠ [.terminator (.RJMPk d)] := by
  intro h
  have terminators := congrArg terminatorsOf h
  rw [RelaxBlock.withEnd, terminatorsOf_endingIn hbody] at terminators
  cases terminators

/-- Block zero is not behind another block. -/
theorem RelaxInv.after_zero {before after : List (RelaxBlock α)} {b : RelaxBlock α} {n : ℕ}
    (h : RelaxInv size (before ++ b :: after) n) : ∀ c ∈ after, c.number ≠ 0 := by
  intro c hc
  refine h.zeroFirst c ?_
  cases before with
  | nil => exact hc
  | cons x before => exact List.mem_append_right _ (List.mem_cons_of_mem _ hc)

/-- **Placing the blocks again** from one on keeps both invariants. -/
theorem placed_keeps {before after after' : List (RelaxBlock α)} {b b' : RelaxBlock α} {n : ℕ}
    (hplaced : Placed functionAlign (before ++ b :: after))
    (h : RelaxInv size (before ++ b' :: after') n) (halign : b'.alignment = b.alignment)
    (hoffset : b'.offset = b.offset) (hjump : ∀ dest, b'.instrs ≠ [.terminator (.RJMPk dest)]) :
    RelaxInv size (before ++ b'.restarted functionAlign ::
        adjustFrom functionAlign (b'.restarted functionAlign) after') n ∧
      Placed functionAlign (before ++ b'.restarted functionAlign ::
        adjustFrom functionAlign (b'.restarted functionAlign) after') := by
  have same : (b'.restarted functionAlign).alignment = b'.alignment ∧
      (b'.restarted functionAlign).instrs = b'.instrs := by
    unfold RelaxBlock.restarted
    split_ifs <;> exact ⟨rfl, rfl⟩
  constructor
  · refine h.of_unplaced ?_
    rw [List.map_append, List.map_append, List.map_cons, List.map_cons, map_unplaced_adjustFrom,
      unplaced_restarted]
  · have aligned : b'.offset % 2 ^ b'.alignment = 0 := by
      rw [halign, hoffset]
      exact hplaced.aligned b (List.mem_append_right _ List.mem_cons_self)
    refine hplaced.append (same.1.trans halign) ?_ (fun dest => same.2 ▸ hjump dest)
      (placed_adjustFrom (restarted_mod aligned) h.after_zero)
    rw [← hoffset]
    exact offset_le_restarted b'

/-- The destination of a branch at the end of a block is the number of a block. -/
theorem RelaxInv.mem_of_ends {blocks : List (RelaxBlock α)} {n : ℕ} (h : RelaxInv size blocks n)
    {b : RelaxBlock α} (hb : b ∈ blocks) {body : List (BlockInstr α)} {e : BranchEnd}
    (hends : b.Ends body e) {t : Terminator} (ht : t ∈ e.terminators) {dest : ℕ}
    (hdest : dest ∈ t.targets) : dest ∈ blocks.map RelaxBlock.number := by
  refine h.targets b hb t ?_ dest hdest
  rwa [hends.instrs, terminatorsOf_endingIn hends.body]

/-- **Every fix keeps the invariants.** -/
theorem FixedAs.keeps {before after : List (RelaxBlock α)} {b : RelaxBlock α} {n : ℕ}
    {body : List (BlockInstr α)} {opc : BranchOpcode} {dest : ℕ} {fixed : FixedBlocks α}
    (hfixed : FixedAs size functionAlign (before ++ b :: after) b after n body opc dest fixed)
    (h : RelaxInv size (before ++ b :: after) n)
    (hplaced : Placed functionAlign (before ++ b :: after)) :
    RelaxInv size (before ++ fixed.block :: fixed.after) fixed.numBlockIDs ∧
      Placed functionAlign (before ++ fixed.block :: fixed.after) := by
  have mem : b ∈ before ++ b :: after := List.mem_append_right _ List.mem_cons_self
  cases hfixed with
  | @exchanged other hends near =>
      have hdest := h.mem_of_ends mem hends (List.mem_cons_self) (List.mem_singleton_self dest)
      have hother := h.mem_of_ends mem hends (List.mem_cons_of_mem _ (List.mem_singleton_self _))
        (List.mem_singleton_self other)
      refine ⟨h.withEnd hends.body hother hdest, ?_⟩
      have sameSize :
          (b.withEnd size body (.branchElse opc.reversed other dest)).size = b.size := by
        rw [h.sizes b mem, hends.instrs, computeBlockSize_endingIn, RelaxBlock.withEnd,
          computeBlockSize_endingIn]
        rfl
      exact hplaced.append rfl le_rfl (withEnd_ne_jump b hends.body _ _ _)
        (hplaced.of_append.of_end rfl rfl sameSize)
  | @newBlock other hends far =>
      have hdest := h.mem_of_ends mem hends (List.mem_cons_self) (List.mem_singleton_self dest)
      have hother := h.mem_of_ends mem hends (List.mem_cons_of_mem _ (List.mem_singleton_self _))
        (List.mem_singleton_self other)
      have inserted := h.insertJump hother
      refine placed_keeps hplaced (inserted.withEnd hends.body ?_ ?_) rfl rfl
        (withEnd_ne_jump b hends.body _ _ _)
      · simp [jumpBlock]
      · simp only [List.map_append, List.map_cons, List.mem_append, List.mem_cons] at hdest ⊢
        tauto
  | @overJump next rest hends hafter =>
      subst hafter
      have hdest := h.mem_of_ends mem hends (List.mem_cons_self) (List.mem_singleton_self dest)
      refine placed_keeps hplaced (h.withEnd hends.body ?_ hdest) rfl rfl
        (withEnd_ne_jump b hends.body _ _ _)
      simp

/-! ## Every fix makes progress -/

/-- A block that is nothing but a jump, without alignment. -/
def RelaxBlock.isJump (b : RelaxBlock α) : Bool :=
  match b.instrs with
  | [.terminator (.RJMPk _)] => b.alignment = 0
  | _ => false

/-- How often the branch of a block may still be given a jump of its own: never again if it goes
over the single jump that follows. -/
def RelaxBlock.fixesLeft (b : RelaxBlock α) (next : Option (RelaxBlock α)) : ℕ :=
  match terminatorsOf b.instrs with
  | [.branch _ _] => 2
  | [.branch _ dest, .RJMPk _] =>
      if next.any fun c => c.isJump && c.number = dest then 0 else 1
  | _ => 0

/-- How often any branch may still be given a jump of its own. -/
def fixesLeft : List (RelaxBlock α) → ℕ
  | [] => 0
  | b :: rest => b.fixesLeft rest.head? + fixesLeft rest

/-- The conditional branch of a block, with a jump behind it, does not reach its destination. -/
def RelaxBlock.isFar (offset : ℕ → Option ℕ) (b : RelaxBlock α) : Bool :=
  match terminatorsOf b.instrs with
  | [.branch opc dest, .RJMPk _] =>
      (offset dest).any fun destOffset : ℕ => !(Terminator.branch opc dest).isBranchOffsetInRange
        (destOffset - (b.offset + (b.size - 4) : ℕ) : ℤ)
  | _ => false

/-- How many branches with a jump behind them do not reach their destination. -/
def farBranches (blocks : List (RelaxBlock α)) : ℕ :=
  blocks.countP (RelaxBlock.isFar (blockOffset blocks))

/-- Offsets do not matter to the fixes that are left. -/
theorem fixesLeft_unplaced (blocks : List (RelaxBlock α)) :
    fixesLeft (blocks.map RelaxBlock.unplaced) = fixesLeft blocks := by
  induction blocks with
  | nil => rfl
  | cons b rest ih =>
      rw [List.map_cons, fixesLeft, fixesLeft, ih]
      congr 1
      cases rest <;> rfl

/-- The same numbers of fixes are left in blocks that differ in their offsets. -/
theorem fixesLeft_of_unplaced {blocks blocks' : List (RelaxBlock α)}
    (h : blocks'.map RelaxBlock.unplaced = blocks.map RelaxBlock.unplaced) :
    fixesLeft blocks' = fixesLeft blocks := by
  rw [← fixesLeft_unplaced blocks', h, fixesLeft_unplaced]

/-- The fixes that are left before a block, if it is no single jump, do not depend on it. -/
theorem fixesLeft_append (before after after' : List (RelaxBlock α)) {b b' : RelaxBlock α}
    (hb : b.isJump = false) (hb' : b'.isJump = false) :
    ∃ k, fixesLeft (before ++ b :: after) = k + fixesLeft (b :: after) ∧
      fixesLeft (before ++ b' :: after') = k + fixesLeft (b' :: after') := by
  induction before with
  | nil => exact ⟨0, (Nat.zero_add _).symm, (Nat.zero_add _).symm⟩
  | cons x before ih =>
      obtain ⟨k, hk, hk'⟩ := ih
      have head : x.fixesLeft (before ++ b :: after).head? =
          x.fixesLeft (before ++ b' :: after').head? := by
        cases before with
        | nil => simp [RelaxBlock.fixesLeft, hb, hb']
        | cons y before => rfl
      refine ⟨x.fixesLeft (before ++ b :: after).head? + k, ?_, ?_⟩
      · rw [List.cons_append, fixesLeft, hk, Nat.add_assoc]
      · rw [List.cons_append, fixesLeft, hk', head, Nat.add_assoc]

/-- The offset of a block, where numbers are unique. -/
theorem blockOffset_of_mem {blocks : List (RelaxBlock α)}
    (hnodup : (blocks.map RelaxBlock.number).Nodup) {b : RelaxBlock α} (hb : b ∈ blocks) :
    blockOffset blocks b.number = some b.offset := by
  induction blocks with
  | nil => cases hb
  | cons a blocks ih =>
      rw [List.map_cons, List.nodup_cons] at hnodup
      rcases List.mem_cons.mp hb with rfl | hb
      · rw [blockOffset, List.find?_cons_of_pos (by simp)]
        rfl
      · have hne : a.number ≠ b.number := fun heq => hnodup.1 (heq ▸ List.mem_map_of_mem hb)
        rw [blockOffset, List.find?_cons_of_neg (by simpa using hne)]
        exact ih hnodup.2 hb

/-- What a single jump is. -/
theorem RelaxBlock.isJump_iff {b : RelaxBlock α} :
    b.isJump = true ↔ b.alignment = 0 ∧ ∃ dest, b.instrs = [.terminator (.RJMPk dest)] := by
  unfold isJump
  split
  · next dest hinstrs =>
      rw [decide_eq_true_iff, hinstrs]
      simp
  · next hne =>
      simp only [Bool.false_eq_true, false_iff, not_and, not_exists]
      intro _ dest hinstrs
      exact hne dest hinstrs

/-- A block with a branch at its end is no single jump. -/
theorem RelaxBlock.Ends.isJump {b : RelaxBlock α} {body : List (BlockInstr α)} {e : BranchEnd}
    (h : b.Ends body e) (he : ∀ dest, e ≠ .jump dest) : b.isJump = false := by
  rw [Bool.eq_false_iff, Ne, RelaxBlock.isJump_iff]
  rintro ⟨-, dest, hinstrs⟩
  have terminators := congrArg terminatorsOf hinstrs
  rw [h.instrs, terminatorsOf_endingIn h.body] at terminators
  exact he dest (BranchEnd.terminators_inj terminators)

/-- A branch that goes to the single jump behind its block reaches it. -/
theorem fixesLeft_of_far {before after : List (RelaxBlock α)} {b : RelaxBlock α} {n : ℕ}
    (h : RelaxInv size (before ++ b :: after) n)
    (hplaced : Placed functionAlign (before ++ b :: after)) {body : List (BlockInstr α)}
    {opc : BranchOpcode} {dest other : ℕ} (hends : b.Ends body (.branchElse opc dest other))
    (hfar : isBlockInRange size (before ++ b :: after) b body (.branch opc dest) dest =
      some false) : b.fixesLeft after.head? = 1 := by
  rw [RelaxBlock.fixesLeft, hends.instrs, terminatorsOf_endingIn hends.body]
  refine if_neg fun hany => ?_
  obtain ⟨c, hc, hjump⟩ := (Option.any_eq_true _ _).mp hany
  rw [Bool.and_eq_true, RelaxBlock.isJump_iff, decide_eq_true_iff] at hjump
  obtain ⟨⟨halign, d, hinstrs⟩, hnumber⟩ := hjump
  obtain ⟨rest, rfl⟩ := List.head?_eq_some_iff.mp hc
  have offset : blockOffset (before ++ b :: c :: rest) dest = some c.offset := by
    rw [← hnumber]
    exact blockOffset_of_mem h.nodup (by simp)
  have behind : c.offset = b.offset + b.size := by
    have follows := (List.isChain_cons.mp hplaced.of_append.follows).1 c rfl
    rw [follows.jump d hinstrs, halign, RelaxBlock.postOffset_zero]
  have bSize : b.size = computeBlockSize size body + 4 := by
    rw [h.sizes b (by simp), hends.instrs, computeBlockSize_endingIn]
    rfl
  rw [isBlockInRange, offset, Option.map_some, behind, bSize, Option.some_inj] at hfar
  refine Bool.false_ne_true (hfar.symm.trans ?_)
  rw [Terminator.isBranchOffsetInRange, decide_eq_true_iff]
  push_cast
  omega

/-- **A fix that exchanges destinations** leaves fewer branches that are far. -/
theorem farBranches_exchanged {before after : List (RelaxBlock α)} {b : RelaxBlock α} {n : ℕ}
    (h : RelaxInv size (before ++ b :: after) n) {body : List (BlockInstr α)} {opc : BranchOpcode}
    {dest other : ℕ} (hends : b.Ends body (.branchElse opc dest other))
    (hfar : isBlockInRange size (before ++ b :: after) b body (.branch opc dest) dest = some false)
    (hnear : isBlockInRange size (before ++ b :: after) b body (.branch opc dest) other =
      some true) :
    farBranches (before ++ b.withEnd size body (.branchElse opc.reversed other dest) :: after) <
      farBranches (before ++ b :: after) := by
  have offsets : blockOffset
      (before ++ b.withEnd size body (.branchElse opc.reversed other dest) :: after) =
        blockOffset (before ++ b :: after) := by
    funext k
    simp only [blockOffset, List.find?_append, List.find?_cons, RelaxBlock.withEnd]
    cases before.find? fun c => c.number = k with
    | some c => rfl
    | none =>
        simp only [Option.none_or]
        cases decide (b.number = k) <;> rfl
  have bSize : b.size = computeBlockSize size body + 4 := by
    rw [h.sizes b (by simp), hends.instrs, computeBlockSize_endingIn]
    rfl
  have far : b.isFar (blockOffset (before ++ b :: after)) = true := by
    obtain ⟨offset, hoffset, hrange⟩ := Option.map_eq_some_iff.mp hfar
    rw [RelaxBlock.isFar, hends.instrs, terminatorsOf_endingIn hends.body, bSize]
    simp only [BranchEnd.terminators, hoffset, Option.any_some, Nat.add_sub_cancel, hrange]
    rfl
  have near : (b.withEnd size body (.branchElse opc.reversed other dest)).isFar
      (blockOffset (before ++ b :: after)) = false := by
    obtain ⟨offset, hoffset, hrange⟩ := Option.map_eq_some_iff.mp hnear
    rw [RelaxBlock.isFar, RelaxBlock.withEnd, terminatorsOf_endingIn hends.body,
      computeBlockSize_endingIn]
    simp only [BranchEnd.terminators, hoffset, Option.any_some, List.length_cons, List.length_nil,
      Nat.zero_add, Nat.reduceMul, Nat.reduceAdd, Nat.add_sub_cancel]
    rw [Terminator.isBranchOffsetInRange] at hrange ⊢
    rw [hrange]
    rfl
  simp only [farBranches, offsets, List.countP_append, List.countP_cons, far, near]
  simp

/-- A block with another end ends so. -/
theorem RelaxBlock.ends_withEnd (b : RelaxBlock α) {body : List (BlockInstr α)}
    (hbody : terminatorsOf body = []) (e : BranchEnd) : (b.withEnd size body e).Ends body e :=
  ⟨rfl, hbody⟩

/-- A branch with a jump behind it is given a jump of its own once at most. -/
theorem RelaxBlock.Ends.fixesLeft_le {b : RelaxBlock α} {body : List (BlockInstr α)}
    {opc : BranchOpcode} {dest other : ℕ} (h : b.Ends body (.branchElse opc dest other))
    (next : Option (RelaxBlock α)) : b.fixesLeft next ≤ 1 := by
  rw [RelaxBlock.fixesLeft, h.instrs, terminatorsOf_endingIn h.body]
  simp only [BranchEnd.terminators]
  split_ifs
  · exact Nat.zero_le 1
  · exact le_rfl

/-- Placing blocks again leaves as many fixes. -/
theorem fixesLeft_placed (before after : List (RelaxBlock α)) (b : RelaxBlock α) (n : ℕ) :
    fixesLeft (before ++ (FixedBlocks.placed functionAlign b after n).block ::
        (FixedBlocks.placed functionAlign b after n).after) = fixesLeft (before ++ b :: after) := by
  apply fixesLeft_of_unplaced
  rw [List.map_append, List.map_append, List.map_cons, List.map_cons, FixedBlocks.placed,
    map_unplaced_adjustFrom, unplaced_restarted]

/-- The destinations of a branch are exchanged where as many fixes are left. -/
theorem fixesLeft_exchanged {before after : List (RelaxBlock α)} {b : RelaxBlock α} {n : ℕ}
    {body : List (BlockInstr α)} {opc : BranchOpcode} {dest other : ℕ}
    (h : RelaxInv size (before ++ b :: after) n)
    (hplaced : Placed functionAlign (before ++ b :: after))
    (hends : b.Ends body (.branchElse opc dest other))
    (hfar : isBlockInRange size (before ++ b :: after) b body (.branch opc dest) dest =
      some false) :
    fixesLeft (before ++ b.withEnd size body (.branchElse opc.reversed other dest) :: after) ≤
      fixesLeft (before ++ b :: after) := by
  have hends' : (b.withEnd size body (.branchElse opc.reversed other dest)).Ends body _ :=
    b.ends_withEnd hends.body _
  obtain ⟨k, hk, hk'⟩ := fixesLeft_append before after after
    (hends.isJump (by simp)) (hends'.isJump (by simp))
  have old := fixesLeft_of_far h hplaced hends hfar
  have new := hends'.fixesLeft_le after.head?
  rw [hk, hk', fixesLeft, fixesLeft, old]
  omega

/-- A new block takes a fix away. -/
theorem fixesLeft_newBlock {before after : List (RelaxBlock α)} {b : RelaxBlock α} {n : ℕ}
    {body : List (BlockInstr α)} {opc : BranchOpcode} {dest other : ℕ}
    (h : RelaxInv size (before ++ b :: after) n)
    (hplaced : Placed functionAlign (before ++ b :: after))
    (hends : b.Ends body (.branchElse opc dest other))
    (hfar : isBlockInRange size (before ++ b :: after) b body (.branch opc dest) dest =
      some false) :
    fixesLeft (before ++ b.withEnd size body (.branchElse opc.reversed n dest) ::
        jumpBlock n other :: after) < fixesLeft (before ++ b :: after) := by
  have hends' : (b.withEnd size body (.branchElse opc.reversed n dest)).Ends body _ :=
    b.ends_withEnd hends.body _
  obtain ⟨k, hk, hk'⟩ := fixesLeft_append before after (jumpBlock n other :: after)
    (hends.isJump (by simp)) (hends'.isJump (by simp))
  have old := fixesLeft_of_far h hplaced hends hfar
  have new : (b.withEnd size body (.branchElse opc.reversed n dest)).fixesLeft
      (some (jumpBlock n other)) = 0 := by
    rw [RelaxBlock.fixesLeft, hends'.instrs, terminatorsOf_endingIn hends.body]
    exact if_pos (by simp [RelaxBlock.isJump, jumpBlock])
  have jump : (jumpBlock n other : RelaxBlock α).fixesLeft after.head? = 0 := rfl
  rw [hk, hk', fixesLeft, fixesLeft, fixesLeft, List.head?_cons, old, new, jump]
  omega

/-- So does a branch over a jump. -/
theorem fixesLeft_overJump {before after : List (RelaxBlock α)} {b : RelaxBlock α}
    {body : List (BlockInstr α)} {opc : BranchOpcode} {dest : ℕ}
    (hends : b.Ends body (.branch opc dest)) (next : ℕ) :
    fixesLeft (before ++ b.withEnd size body (.branchElse opc.reversed next dest) :: after) <
      fixesLeft (before ++ b :: after) := by
  have hends' : (b.withEnd size body (.branchElse opc.reversed next dest)).Ends body _ :=
    b.ends_withEnd hends.body _
  obtain ⟨k, hk, hk'⟩ := fixesLeft_append before after after
    (hends.isJump (by simp)) (hends'.isJump (by simp))
  have old : b.fixesLeft after.head? = 2 := by
    rw [RelaxBlock.fixesLeft, hends.instrs, terminatorsOf_endingIn hends.body]
    rfl
  have new := hends'.fixesLeft_le after.head?
  rw [hk, hk', fixesLeft, fixesLeft, old]
  omega

/-- **Every fix makes progress**: fewer fixes are left, or as many at most and fewer branches are
far. -/
theorem FixedAs.progress {before after : List (RelaxBlock α)} {b : RelaxBlock α} {n : ℕ}
    {body : List (BlockInstr α)} {opc : BranchOpcode} {dest : ℕ} {fixed : FixedBlocks α}
    (hfixed : FixedAs size functionAlign (before ++ b :: after) b after n body opc dest fixed)
    (h : RelaxInv size (before ++ b :: after) n)
    (hplaced : Placed functionAlign (before ++ b :: after))
    (hfar : isBlockInRange size (before ++ b :: after) b body (.branch opc dest) dest =
      some false) :
    fixesLeft (before ++ fixed.block :: fixed.after) < fixesLeft (before ++ b :: after) ∨
      fixesLeft (before ++ fixed.block :: fixed.after) ≤ fixesLeft (before ++ b :: after) ∧
        farBranches (before ++ fixed.block :: fixed.after) <
          farBranches (before ++ b :: after) := by
  cases hfixed with
  | @exchanged other hends near =>
      exact .inr ⟨fixesLeft_exchanged h hplaced hends hfar, farBranches_exchanged h hends hfar near⟩
  | @newBlock other hends far =>
      rw [fixesLeft_placed]
      exact .inl (fixesLeft_newBlock h hplaced hends hfar)
  | @overJump next rest hends hafter =>
      rw [fixesLeft_placed]
      exact .inl (fixesLeft_overJump hends next.number)

/-! ## The invariant of the loop -/

/-- The blocks of a state. -/
def RelaxState.blocks : RelaxState α → List (RelaxBlock α)
  | visit before after _ => before ++ after
  | branches before b after _ _ _ => before ++ b :: after

/-- What the loop keeps beside the blocks. -/
def RelaxState.progress : RelaxState α → RelaxProgress
  | visit _ _ progress => progress
  | branches _ _ _ _ _ progress => progress

/-- The branches among the first instructions of a block reach their destinations. -/
def BranchesInRange (size : α → ℕ) (blocks : List (RelaxBlock α)) (b : RelaxBlock α)
    (instrs : List (BlockInstr α)) : Prop :=
  ∀ pre t post, instrs = pre ++ .terminator t :: post → ∀ dest ∈ t.targets,
    isBlockInRange size blocks b pre t dest = some true

/-- The jump at the end of a block reaches its destination. -/
def LastJumpInRange (size : α → ℕ) (blocks : List (RelaxBlock α)) (b : RelaxBlock α) : Prop :=
  ∀ pre dest, b.instrs = pre ++ [.terminator (.RJMPk dest)] →
    isBlockInRange size blocks b pre (.RJMPk dest) dest = some true

/-- Where the loop is in a block: between two of the terminators at its end. -/
def RelaxState.BetweenTerminators : RelaxState α → Prop
  | visit _ _ _ => True
  | branches _ b _ passed todo _ => ∃ body e done rest, b.Ends body e ∧
      e.terminators = done ++ rest ∧ passed = body ++ done.map .terminator ∧
      todo = rest.map .terminator

/-- What the round has found in range so far. -/
def RelaxState.VisitedInRange (size : α → ℕ) : RelaxState α → Prop
  | visit before after _ => ∀ c ∈ before, BranchesInRange size (before ++ after) c c.instrs
  | branches before b after passed _ _ =>
      (∀ c ∈ before, BranchesInRange size (before ++ b :: after) c c.instrs) ∧
        LastJumpInRange size (before ++ b :: after) b ∧
        BranchesInRange size (before ++ b :: after) b passed

/-- **The invariant of the loop**, for blocks that were given these offsets first. -/
structure RelaxState.Inv (size : α → ℕ) (functionAlign : ℕ) (scanned : List (RelaxBlock α))
    (s : RelaxState α) : Prop where
  blocks : RelaxInv size s.blocks s.progress.numBlockIDs
  placed : Placed functionAlign s.blocks
  between : s.BetweenTerminators
  inRange : s.progress.changed = false → s.VisitedInRange size
  unchanged : s.progress.madeChange = false → s.progress.changed = false ∧ s.blocks = scanned

/-- What one step of the loop does. -/
inductive RelaxMove (size : α → ℕ) (functionAlign : ℕ) :
    RelaxState α → RelaxState α ⊕ RelaxOutcome α → Prop where
  | again {before : List (RelaxBlock α)} {progress : RelaxProgress}
      (changed : progress.changed = true) :
      RelaxMove size functionAlign (.visit before [] progress)
        (.inl (.visit [] before { progress with changed := false }))
  | finish {before : List (RelaxBlock α)} {progress : RelaxProgress}
      (unchanged : progress.changed = false) :
      RelaxMove size functionAlign (.visit before [] progress)
        (.inr (.relaxed before progress.madeChange))
  | skip {before after : List (RelaxBlock α)} {b : RelaxBlock α} {progress : RelaxProgress}
      (none : terminatorsOf b.instrs = []) :
      RelaxMove size functionAlign (.visit before (b :: after) progress)
        (.inl (.visit (before ++ [b]) after progress))
  | enter {before after : List (RelaxBlock α)} {b : RelaxBlock α} {progress : RelaxProgress}
      {body : List (BlockInstr α)} {e : BranchEnd} (ends : b.Ends body e)
      (last : LastJumpInRange size (before ++ b :: after) b) :
      RelaxMove size functionAlign (.visit before (b :: after) progress)
        (.inl (.branches before b after body (e.terminators.map .terminator) progress))
  | unreachable {before after : List (RelaxBlock α)} {b : RelaxBlock α} {progress : RelaxProgress}
      {pre post : List (BlockInstr α)} {dest : ℕ}
      (instrs : b.instrs = pre ++ .terminator (.RJMPk dest) :: post)
      (far : isBlockInRange size (before ++ b :: after) b pre (.RJMPk dest) dest = some false) :
      RelaxMove size functionAlign (.visit before (b :: after) progress) (.inr .indirectBranch)
  | leave {before after : List (RelaxBlock α)} {b : RelaxBlock α} {passed : List (BlockInstr α)}
      {progress : RelaxProgress} :
      RelaxMove size functionAlign (.branches before b after passed [] progress)
        (.inl (.visit (before ++ [b]) after progress))
  | pass {before after : List (RelaxBlock α)} {b : RelaxBlock α} {passed todo : List (BlockInstr α)}
      {t : Terminator} {progress : RelaxProgress}
      (near : ∀ opc dest, t = .branch opc dest →
        isBlockInRange size (before ++ b :: after) b passed t dest = some true) :
      RelaxMove size functionAlign
        (.branches before b after passed (.terminator t :: todo) progress)
        (.inl (.branches before b after (passed ++ [.terminator t]) todo progress))
  | fix {before after : List (RelaxBlock α)} {b : RelaxBlock α} {body todo : List (BlockInstr α)}
      {opc : BranchOpcode} {dest : ℕ} {fixed : FixedBlocks α} {progress : RelaxProgress}
      (far : isBlockInRange size (before ++ b :: after) b body (.branch opc dest) dest = some false)
      (fixedAs : FixedAs size functionAlign (before ++ b :: after) b after progress.numBlockIDs body
        opc dest fixed) :
      RelaxMove size functionAlign
        (.branches before b after body (.terminator (.branch opc dest) :: todo) progress)
        (.inl (.atTerminators before fixed.block fixed.after ⟨fixed.numBlockIDs, true, true⟩))

/-- A conditional branch is the first terminator of its block. -/
theorem BranchEnd.branch_cases {e : BranchEnd} {done rest : List Terminator} {opc : BranchOpcode}
    {dest : ℕ} (h : e.terminators = done ++ .branch opc dest :: rest) :
    done = [] ∧ (e = .branch opc dest ∧ rest = [] ∨
      ∃ other, e = .branchElse opc dest other ∧ rest = [.RJMPk other]) := by
  have length := congrArg List.length h
  rw [List.length_append, List.length_cons] at length
  rcases done with _ | ⟨t, _ | ⟨t', done⟩⟩
  · refine ⟨rfl, ?_⟩
    cases e <;> simp_all [terminators]
  · cases e <;> simp_all [terminators]
  · exfalso
    have bound : e.terminators.length ≤ 2 := by cases e <;> simp [terminators]
    simp only [List.length_cons] at length
    omega

/-- A jump is the last terminator of its block. -/
theorem BranchEnd.rest_eq_nil {e : BranchEnd} {done rest : List Terminator} {dest : ℕ}
    (h : e.terminators = done ++ .RJMPk dest :: rest) : rest = [] := by
  have length := congrArg List.length h
  rw [List.length_append, List.length_cons] at length
  rcases done with _ | ⟨t, done⟩
  · cases e <;> simp_all [terminators]
  · have bound : e.terminators.length ≤ 2 := by cases e <;> simp [terminators]
    rw [List.length_cons] at length
    exact List.eq_nil_of_length_eq_zero (by omega)

/-- Where the last instruction is found. -/
theorem getLastNonDebugInstr_some {instrs pre : List (BlockInstr α)} {last : BlockInstr α}
    (h : getLastNonDebugInstr instrs = some (pre, last)) :
    ∃ post, instrs = pre ++ last :: post := by
  obtain ⟨last', hlast, heq⟩ := Option.map_eq_some_iff.mp h
  obtain ⟨rfl, rfl⟩ := Prod.mk.inj heq
  obtain ⟨post, hpost⟩ := List.rdropWhile_prefix BlockInstr.isDebugValue instrs
  refine ⟨post, ?_⟩
  rw [List.append_cons, List.dropLast_append_getLast? _ hlast, hpost]

/-- A block in which no last instruction is found has no terminators. -/
theorem terminatorsOf_of_getLastNonDebugInstr {instrs : List (BlockInstr α)}
    (h : getLastNonDebugInstr instrs = none) : terminatorsOf instrs = [] := by
  rw [getLastNonDebugInstr, Option.map_eq_none_iff, List.getLast?_eq_none_iff,
    List.rdropWhile_eq_nil_iff] at h
  refine terminatorsOf_eq_nil_iff.mpr fun mi hmi => ?_
  have debug := h mi hmi
  cases mi with
  | debugValue => rfl
  | inst mi => cases debug
  | terminator t => cases debug

/-- A terminator of a list of instructions. -/
theorem mem_terminatorsOf {pre post : List (BlockInstr α)} (t : Terminator) :
    t ∈ terminatorsOf (pre ++ .terminator t :: post) := by
  rw [terminatorsOf_append, terminatorsOf_cons_terminator]
  exact List.mem_append_right _ List.mem_cons_self

/-- Whether a block is in range is known of every block. -/
theorem isBlockInRange_ne_none {blocks : List (RelaxBlock α)} {dest : ℕ}
    (hdest : dest ∈ blocks.map RelaxBlock.number) (b : RelaxBlock α) (pre : List (BlockInstr α))
    (t : Terminator) : isBlockInRange size blocks b pre t dest ≠ none := by
  obtain ⟨c, hc, hnumber⟩ := List.mem_map.mp hdest
  intro h
  rw [isBlockInRange, Option.map_eq_none_iff, blockOffset, Option.map_eq_none_iff,
    List.find?_eq_none] at h
  exact h c hc (decide_eq_true hnumber)

/-- Every block has an offset. -/
theorem blockOffset_isSome {blocks : List (RelaxBlock α)} {dest : ℕ}
    (hdest : dest ∈ blocks.map RelaxBlock.number) : (blockOffset blocks dest).isSome = true := by
  obtain ⟨c, hc, hnumber⟩ := List.mem_map.mp hdest
  rw [blockOffset, Option.isSome_map, List.find?_isSome]
  exact ⟨c, hc, decide_eq_true hnumber⟩

/-- A block that ends in a conditional branch is not the last one. -/
theorem RelaxInv.after_ne_nil {before after : List (RelaxBlock α)} {b : RelaxBlock α} {n : ℕ}
    (h : RelaxInv size (before ++ b :: after) n) {body : List (BlockInstr α)} {opc : BranchOpcode}
    {dest : ℕ} (hends : b.Ends body (.branch opc dest)) : after ≠ [] := by
  rintro rfl
  refine h.closed b ?_ opc dest ?_
  · rw [Option.mem_def, List.getLast?_concat]
  · rw [hends.instrs, terminatorsOf_endingIn hends.body]
    rfl

/-- **Each step of the loop** is one of the moves. -/
theorem RelaxState.Inv.moves {scanned : List (RelaxBlock α)} {s : RelaxState α}
    (h : s.Inv size functionAlign scanned) :
    RelaxMove size functionAlign s (relaxStep size functionAlign s) := by
  rcases s with ⟨before, _ | ⟨b, after⟩, progress⟩ | ⟨before, b, after, passed, todo, progress⟩
  · rw [relaxStep]
    split_ifs with hchanged
    · exact .again hchanged
    · exact .finish (Bool.eq_false_iff.mpr hchanged)
  · have mem : b ∈ before ++ b :: after := List.mem_append_right _ List.mem_cons_self
    obtain ⟨body, e, hends⟩ := h.blocks.ends b mem
    rw [relaxStep]
    cases hlast : getLastNonDebugInstr b.instrs with
    | none => exact .skip (terminatorsOf_of_getLastNonDebugInstr hlast)
    | some found =>
        obtain ⟨pre, last⟩ := found
        obtain ⟨post, hinstrs⟩ := getLastNonDebugInstr_some hlast
        cases hcheck : lastBranchInRange size (before ++ b :: after) b pre last with
        | none =>
            exfalso
            rcases last with _ | mi | (⟨opc, dest⟩ | dest | _)
            case terminator.RJMPk =>
              refine isBlockInRange_ne_none ?_ b pre (.RJMPk dest) hcheck
              exact h.blocks.targets b mem (.RJMPk dest) (hinstrs ▸ mem_terminatorsOf _) dest
                (List.mem_singleton_self dest)
            all_goals cases hcheck
        | some reached =>
            cases reached with
            | true =>
                simp only [hcheck]
                rw [RelaxState.atTerminators, hends.instrs, getFirstTerminator_endingIn hends.body]
                refine .enter hends fun pre' dest hinstrs' => ?_
                rw [hinstrs', getLastNonDebugInstr_concat] at hlast
                obtain ⟨rfl, rfl⟩ := Prod.mk.inj (Option.some.inj hlast)
                exact hcheck
            | false =>
                simp only [hcheck]
                rcases last with _ | mi | (⟨opc, dest⟩ | dest | _)
                case terminator.RJMPk => exact .unreachable hinstrs hcheck
                all_goals cases hcheck
  · obtain ⟨body, e, done, rest, hends, hts, rfl, rfl⟩ := h.between
    have mem : b ∈ before ++ b :: after := List.mem_append_right _ List.mem_cons_self
    rcases rest with _ | ⟨t, rest⟩
    · exact .leave
    rw [List.map_cons, relaxStep]
    rcases t with ⟨opc, dest⟩ | dest | _
    case RJMPk | RET => exact .pass fun _ _ ht => Terminator.noConfusion ht
    have hdest := h.blocks.mem_of_ends mem hends (hts ▸ List.mem_append_right _ List.mem_cons_self)
      (List.mem_singleton_self dest)
    obtain ⟨rfl, hcases⟩ := BranchEnd.branch_cases hts
    rw [List.map_nil, List.append_nil]
    cases hcheck : isBlockInRange size (before ++ b :: after) b body (.branch opc dest) dest with
    | none => exact absurd hcheck (isBlockInRange_ne_none hdest b body _)
    | some reached =>
        rw [branchInRange, hcheck]
        cases reached with
        | true =>
            refine .pass fun opc' dest' ht => ?_
            obtain ⟨rfl, rfl⟩ := Terminator.branch.inj ht
            exact hcheck
        | false =>
            have single : isConditionalBranchNext
                (rest.map .terminator : List (BlockInstr α)) = false := by
              rcases hcases with ⟨-, rfl⟩ | ⟨other, -, rfl⟩ <;> rfl
            have fixable : (b.Ends body (.branch opc dest) ∧ after ≠ []) ∨
                ∃ other, b.Ends body (.branchElse opc dest other) ∧
                  (blockOffset (before ++ b :: after) other).isSome = true := by
              rcases hcases with ⟨rfl, -⟩ | ⟨other, rfl, -⟩
              · exact .inl ⟨hends, h.blocks.after_ne_nil hends⟩
              · exact .inr ⟨other, hends, blockOffset_isSome (h.blocks.mem_of_ends mem hends
                  (List.mem_cons_of_mem _ (List.mem_singleton_self _))
                  (List.mem_singleton_self other))⟩
            obtain ⟨fixed, hfixed, hfixedAs⟩ : ∃ fixed, fixupConditionalBranch size functionAlign
                before b after progress.numBlockIDs body (.branch opc dest) = some fixed ∧ _ :=
              exists_fixedAs fixable (h.blocks.sizes b mem)
            simp only [relaxFar, BlockInstr.terminator?, single, hfixed]
            exact .fix hcheck hfixedAs

/-- What is left of a round: the terminators of this block, and the blocks behind it. -/
def RelaxState.roundLeft : RelaxState α → ℕ
  | visit _ after _ => (after.map fun b => b.instrs.length + 2).sum
  | branches _ _ after _ todo _ =>
      todo.length + 1 + (after.map fun b => b.instrs.length + 2).sum

/-- What every step lowers: the fixes, the far branches, whether another round is due, and what is
left of the round. -/
def RelaxState.rank (s : RelaxState α) : ℕ ×ₗ ℕ ×ₗ ℕ ×ₗ ℕ :=
  toLex (fixesLeft s.blocks, toLex (farBranches s.blocks,
    toLex (s.progress.changed.toNat, s.roundLeft)))

/-- A step that leaves the blocks as they are lowers the rank with what is left of the round. -/
theorem RelaxState.rank_lt_of_blocks {s t : RelaxState α} (hblocks : t.blocks = s.blocks)
    (h : t.progress.changed.toNat < s.progress.changed.toNat ∨
      t.progress.changed = s.progress.changed ∧ t.roundLeft < s.roundLeft) : t.rank < s.rank := by
  unfold rank
  rw [hblocks, Prod.Lex.toLex_lt_toLex]
  refine .inr ⟨rfl, ?_⟩
  rw [Prod.Lex.toLex_lt_toLex]
  refine .inr ⟨rfl, ?_⟩
  rw [Prod.Lex.toLex_lt_toLex]
  rcases h with h | ⟨hchanged, hleft⟩
  · exact .inl h
  · exact .inr ⟨congrArg Bool.toNat hchanged, hleft⟩

/-- A step that fixes a branch lowers the rank. -/
theorem RelaxState.rank_lt_of_progress {s t : RelaxState α}
    (h : fixesLeft t.blocks < fixesLeft s.blocks ∨
      fixesLeft t.blocks ≤ fixesLeft s.blocks ∧ farBranches t.blocks < farBranches s.blocks) :
    t.rank < s.rank := by
  unfold rank
  rw [Prod.Lex.toLex_lt_toLex]
  rcases h with h | ⟨hfixes, hfar⟩
  · exact .inl h
  · rcases hfixes.lt_or_eq with hfixes | hfixes
    · exact .inl hfixes
    · refine .inr ⟨hfixes, ?_⟩
      rw [Prod.Lex.toLex_lt_toLex]
      exact .inl hfar

/-- **Every step lowers the rank.** -/
theorem RelaxMove.rank_lt {scanned : List (RelaxBlock α)} {s t : RelaxState α}
    (hmove : RelaxMove size functionAlign s (.inl t)) (h : s.Inv size functionAlign scanned) :
    t.rank < s.rank := by
  cases hmove with
  | again changed =>
      refine RelaxState.rank_lt_of_blocks (by simp [RelaxState.blocks]) (.inl ?_)
      simp [RelaxState.progress, changed]
  | skip none =>
      refine RelaxState.rank_lt_of_blocks (by simp [RelaxState.blocks]) (.inr ⟨rfl, ?_⟩)
      simp [RelaxState.roundLeft]
  | @enter before after b progress body e ends last =>
      refine RelaxState.rank_lt_of_blocks (by simp [RelaxState.blocks]) (.inr ⟨rfl, ?_⟩)
      have length := congrArg List.length ends.instrs
      rw [endingIn, List.length_append] at length
      simp only [RelaxState.roundLeft, List.map_cons, List.sum_cons]
      omega
  | leave =>
      refine RelaxState.rank_lt_of_blocks (by simp [RelaxState.blocks]) (.inr ⟨rfl, ?_⟩)
      simp [RelaxState.roundLeft]
  | pass near =>
      refine RelaxState.rank_lt_of_blocks (by simp [RelaxState.blocks]) (.inr ⟨rfl, ?_⟩)
      simp [RelaxState.roundLeft]
  | fix far fixedAs =>
      exact RelaxState.rank_lt_of_progress (fixedAs.progress h.blocks h.placed far)

/-- After a fix the block has another conditional branch at its end. -/
theorem FixedAs.ends {blocks after : List (RelaxBlock α)} {b : RelaxBlock α} {n : ℕ}
    {body : List (BlockInstr α)} {opc : BranchOpcode} {dest : ℕ} {fixed : FixedBlocks α}
    (h : FixedAs size functionAlign blocks b after n body opc dest fixed) :
    ∃ near far, fixed.block.Ends body (.branchElse opc.reversed near far) := by
  have restarted : ∀ b' : RelaxBlock α, (b'.restarted functionAlign).instrs = b'.instrs := by
    intro b'
    unfold RelaxBlock.restarted
    split_ifs <;> rfl
  cases h with
  | @exchanged other hends near => exact ⟨other, dest, rfl, hends.body⟩
  | newBlock hends far => exact ⟨n, dest, restarted _, hends.body⟩
  | @overJump next rest hends hafter => exact ⟨next.number, dest, restarted _, hends.body⟩

/-- The branches of a list of instructions with another one behind it. -/
theorem BranchesInRange.concat {blocks : List (RelaxBlock α)} {b : RelaxBlock α}
    {instrs : List (BlockInstr α)} (h : BranchesInRange size blocks b instrs) {t : Terminator}
    (ht : ∀ dest ∈ t.targets, isBlockInRange size blocks b instrs t dest = some true) :
    BranchesInRange size blocks b (instrs ++ [.terminator t]) := by
  intro pre t' post heq dest hdest
  rcases List.eq_nil_or_concat post with rfl | ⟨post, last, rfl⟩
  · obtain ⟨rfl, hlast⟩ := List.append_inj' heq rfl
    obtain rfl := BlockInstr.terminator.inj (List.cons.inj hlast).1
    exact ht dest hdest
  · rw [List.concat_eq_append, ← List.cons_append, ← List.append_assoc] at heq
    exact h pre t' post (List.append_inj' heq rfl).1 dest hdest

/-- Instructions without terminators have no branches. -/
theorem branchesInRange_of_nil (blocks : List (RelaxBlock α)) (b : RelaxBlock α)
    {instrs : List (BlockInstr α)} (h : terminatorsOf instrs = []) :
    BranchesInRange size blocks b instrs := by
  rintro pre t post rfl
  exact absurd (h ▸ mem_terminatorsOf t) (List.not_mem_nil)

/-- A step that leaves the blocks as they are keeps the invariant, if it does what the round
asks. -/
theorem RelaxState.Inv.of_blocks {scanned : List (RelaxBlock α)} {s t : RelaxState α}
    (h : s.Inv size functionAlign scanned) (hblocks : t.blocks = s.blocks)
    (hprogress : t.progress = s.progress) (between : t.BetweenTerminators)
    (inRange : s.VisitedInRange size → t.VisitedInRange size) :
    t.Inv size functionAlign scanned := by
  refine ⟨?_, ?_, between, fun hchanged => ?_, ?_⟩
  · rw [hblocks, hprogress]
    exact h.blocks
  · rw [hblocks]
    exact h.placed
  · rw [hprogress] at hchanged
    exact inRange (h.inRange hchanged)
  · rw [hblocks, hprogress]
    exact h.unchanged

/-- **Every step keeps the invariant.** -/
theorem RelaxMove.keeps {scanned : List (RelaxBlock α)} {s t : RelaxState α}
    (hmove : RelaxMove size functionAlign s (.inl t)) (h : s.Inv size functionAlign scanned) :
    t.Inv size functionAlign scanned := by
  cases hmove with
  | @again before progress changed =>
      have same : before ++ [] = [] ++ before := List.append_nil before
      have hblocks : RelaxInv size ([] ++ before) progress.numBlockIDs := same ▸ h.blocks
      have hplaced : Placed functionAlign ([] ++ before) := same ▸ h.placed
      refine ⟨hblocks, hplaced, trivial, fun _ c hc => absurd hc List.not_mem_nil, fun hmade => ?_⟩
      have hchanged := (h.unchanged hmade).1
      rw [RelaxState.progress, changed] at hchanged
      cases hchanged
  | @skip before after b progress none =>
      refine h.of_blocks (by simp [RelaxState.blocks]) rfl trivial fun hvisited c hc => ?_
      rw [List.append_assoc, List.singleton_append]
      rcases List.mem_append.mp hc with hc | hc
      · exact hvisited c hc
      · obtain rfl := List.mem_singleton.mp hc
        exact branchesInRange_of_nil _ _ none
  | @enter before after b progress body e ends last =>
      refine h.of_blocks rfl rfl ⟨body, e, [], e.terminators, ends, rfl, by simp, rfl⟩
        fun hvisited => ⟨hvisited, last, branchesInRange_of_nil _ _ ends.body⟩
  | @leave before after b passed progress =>
      refine h.of_blocks (by simp [RelaxState.blocks]) rfl trivial fun hvisited c hc => ?_
      rw [List.append_assoc, List.singleton_append]
      rcases List.mem_append.mp hc with hc | hc
      · exact hvisited.1 c hc
      · obtain rfl := List.mem_singleton.mp hc
        obtain ⟨body, e, done, rest, hends, hts, rfl, hrest⟩ := h.between
        obtain rfl := List.map_eq_nil_iff.mp hrest.symm
        rw [hends.instrs, endingIn, hts, List.append_nil]
        exact hvisited.2.2
  | @pass before after b passed todo t progress near =>
      obtain ⟨body, e, done, rest, hends, hts, rfl, hrest⟩ := h.between
      obtain ⟨t', rest, rfl, ht', rfl⟩ := List.map_eq_cons_iff.mp hrest.symm
      obtain rfl := BlockInstr.terminator.inj ht'
      refine h.of_blocks rfl rfl ⟨body, e, done ++ [t'], rest, hends, by simp [hts], by simp, rfl⟩
        fun hvisited => ⟨hvisited.1, hvisited.2.1, hvisited.2.2.concat fun dest hdest => ?_⟩
      rcases t' with ⟨opc, d⟩ | d | _
      · obtain rfl := List.mem_singleton.mp hdest
        exact near opc dest rfl
      · obtain rfl := List.mem_singleton.mp hdest
        refine hvisited.2.1 _ dest ?_
        rw [hends.instrs, endingIn, hts, BranchEnd.rest_eq_nil hts]
        simp
      · cases hdest
  | @fix before after b body todo opc dest fixed progress far fixedAs =>
      have kept := fixedAs.keeps h.blocks h.placed
      obtain ⟨near', far', hends⟩ := fixedAs.ends
      refine ⟨kept.1, kept.2, ?_, ?_, ?_⟩
      · rw [RelaxState.atTerminators, hends.instrs, getFirstTerminator_endingIn hends.body]
        exact ⟨body, _, [], _, hends, rfl, by simp, rfl⟩
      · rintro ⟨⟩
      · rintro ⟨⟩

/-! ## Runs -/

/-- A function that can be relaxed: its blocks are numbered in layout order, terminators stand at
their ends, destinations exist, and the last block does not fall through a branch. -/
structure Relaxable (blocks : List (RelaxBlock α)) : Prop where
  numbers : blocks.map RelaxBlock.number = List.range blocks.length
  ends : ∀ b ∈ blocks, ∃ body e, b.Ends body e
  targets : ∀ b ∈ blocks, ∀ t ∈ terminatorsOf b.instrs, ∀ dest ∈ t.targets, dest < blocks.length
  closed : ∀ b ∈ blocks.getLast?, ∀ opc dest, terminatorsOf b.instrs ≠ [.branch opc dest]

/-- What the pass asserts of the blocks at its end, and what the branches need: sizes are exact,
offsets are those of `verify`, and every branch is in range. -/
structure Verified (size : α → ℕ) (functionAlign : ℕ) (blocks : List (RelaxBlock α)) : Prop where
  sizes : ∀ b ∈ blocks, b.size = computeBlockSize size b.instrs
  aligned : ∀ b ∈ blocks, b.offset % 2 ^ b.alignment = 0
  behind : blocks.IsChain fun a b => a.postOffset functionAlign b.alignment ≤ b.offset
  inRange : ∀ b ∈ blocks, BranchesInRange size blocks b b.instrs

/-- A block as `scanFunction` finds it first. -/
def RelaxBlock.measured (size : α → ℕ) (b : RelaxBlock α) : RelaxBlock α :=
  { b with offset := 0, size := computeBlockSize size b.instrs }

/-- The measured blocks of a function have the invariant of the blocks. -/
theorem Relaxable.measured {blocks : List (RelaxBlock α)} (h : Relaxable blocks) :
    RelaxInv size (blocks.map (RelaxBlock.measured size)) blocks.length := by
  have numbers : (blocks.map (RelaxBlock.measured size)).map RelaxBlock.number =
      List.range blocks.length := by
    rw [List.map_map, ← h.numbers]
    rfl
  have mem : ∀ {c}, c ∈ blocks.map (RelaxBlock.measured size) →
      ∃ b ∈ blocks, c = b.measured size := by
    intro c hc
    obtain ⟨b, hb, rfl⟩ := List.mem_map.mp hc
    exact ⟨b, hb, rfl⟩
  refine ⟨numbers ▸ List.nodup_range, fun c hc => ?_, fun c hc => ?_, fun c hc => ?_,
    fun c hc => ?_, fun c hc => ?_, fun c hc => ?_⟩
  · exact List.mem_range.mp (numbers ▸ List.mem_map_of_mem hc)
  · have tail := congrArg List.tail numbers
    rw [← List.map_tail] at tail
    have hnumber : c.number ∈ (List.range blocks.length).tail := tail ▸ List.mem_map_of_mem hc
    cases hlength : blocks.length with
    | zero =>
        rw [hlength] at hnumber
        cases hnumber
    | succ n =>
        rw [hlength, List.range_succ_eq_map, List.tail_cons] at hnumber
        obtain ⟨k, -, hk⟩ := List.mem_map.mp hnumber
        omega
  · obtain ⟨b, hb, rfl⟩ := mem hc
    obtain ⟨body, e, hends⟩ := h.ends b hb
    exact ⟨body, e, hends.instrs, hends.body⟩
  · obtain ⟨b, hb, rfl⟩ := mem hc
    rfl
  · obtain ⟨b, hb, rfl⟩ := mem hc
    rw [numbers]
    exact fun t ht dest hdest => List.mem_range.mpr (h.targets b hb t ht dest hdest)
  · rw [Option.mem_def, List.getLast?_map] at hc
    obtain ⟨b, hb, rfl⟩ := Option.map_eq_some_iff.mp hc
    exact h.closed b hb

/-- The scan places the measured blocks. -/
theorem map_unplaced_scanFunction (blocks : List (RelaxBlock α)) :
    (scanFunction size functionAlign blocks).map RelaxBlock.unplaced =
      (blocks.map (RelaxBlock.measured size)).map RelaxBlock.unplaced := by
  cases blocks with
  | nil => rfl
  | cons b rest => exact map_unplaced_adjustFrom _ _

/-- The scan leaves the first block at its place, and places the others behind it. -/
theorem Relaxable.scanFunction_cons {b : RelaxBlock α} {rest : List (RelaxBlock α)}
    (h : Relaxable (b :: rest)) :
    scanFunction size functionAlign (b :: rest) = b.measured size ::
      adjustFrom functionAlign (b.measured size) (rest.map (RelaxBlock.measured size)) := by
  have zero : b.number = 0 := by
    have numbers := h.numbers
    rw [List.map_cons, List.length_cons, List.range_succ_eq_map] at numbers
    exact (List.cons.inj numbers).1
  have same : (b.measured size).restarted functionAlign = b.measured size := if_pos zero
  have scan : scanFunction size functionAlign (b :: rest) = adjustBlockOffsets functionAlign
      (b.measured size) (rest.map (RelaxBlock.measured size)) :=
    rfl
  rw [scan, adjustBlockOffsets_eq, same]

/-- **The scan** of a function gives what the loop keeps. -/
theorem Relaxable.scanned {blocks : List (RelaxBlock α)} (h : Relaxable blocks) :
    RelaxInv size (scanFunction size functionAlign blocks) blocks.length ∧
      Placed functionAlign (scanFunction size functionAlign blocks) := by
  refine ⟨h.measured.of_unplaced (map_unplaced_scanFunction blocks), ?_⟩
  have measured : RelaxInv size (blocks.map (RelaxBlock.measured size)) blocks.length := h.measured
  rcases blocks with _ | ⟨b, rest⟩
  · exact ⟨fun b hb => absurd hb List.not_mem_nil, .nil⟩
  · rw [h.scanFunction_cons]
    exact placed_adjustFrom (Nat.zero_mod _) measured.zeroFirst

/-- The invariant holds at the start. -/
theorem Relaxable.inv {blocks : List (RelaxBlock α)} (h : Relaxable blocks) :
    (relaxStart size functionAlign blocks).Inv size functionAlign
      (scanFunction size functionAlign blocks) :=
  ⟨h.scanned.1, h.scanned.2, trivial, fun _ _ hc => absurd hc List.not_mem_nil,
    fun _ => ⟨rfl, rfl⟩⟩

/-- **The rule for relaxation**: what every move keeps, every state has that the loop comes to. -/
theorem Relaxable.reached {blocks : List (RelaxBlock α)} (h : Relaxable blocks)
    {P : RelaxState α → Prop} (start : P (relaxStart size functionAlign blocks))
    (moves : ∀ s t, s.Inv size functionAlign (scanFunction size functionAlign blocks) → P s →
      RelaxMove size functionAlign s (.inl t) → P t) {t : RelaxState α}
    (hreaches : Reaches (relaxStep size functionAlign) (relaxStart size functionAlign blocks) t) :
    t.Inv size functionAlign (scanFunction size functionAlign blocks) ∧ P t := by
  have next : ∀ s t, s.Inv size functionAlign (scanFunction size functionAlign blocks) ∧ P s →
      relaxStep size functionAlign s = .inl t →
      t.Inv size functionAlign (scanFunction size functionAlign blocks) ∧ P t := by
    rintro s t ⟨hinv, hs⟩ hstep
    have hmove := hinv.moves
    rw [hstep] at hmove
    exact ⟨hmove.keeps hinv, moves s t hinv hs hmove⟩
  exact hreaches.invariant next ⟨h.inv, start⟩

/-- **The rule for relaxed functions**: what every move keeps holds of the blocks in the end. -/
theorem Relaxable.relaxed {blocks blocks' : List (RelaxBlock α)} {madeChange : Bool}
    (h : Relaxable blocks) {P : RelaxState α → Prop}
    (start : P (relaxStart size functionAlign blocks))
    (moves : ∀ s t, s.Inv size functionAlign (scanFunction size functionAlign blocks) → P s →
      RelaxMove size functionAlign s (.inl t) → P t)
    (hreturns : Returns (relaxStep size functionAlign) (relaxStart size functionAlign blocks)
      (.relaxed blocks' madeChange)) :
    ∃ progress : RelaxProgress, progress.changed = false ∧ progress.madeChange = madeChange ∧
      (RelaxState.visit blocks' [] progress).Inv size functionAlign
        (scanFunction size functionAlign blocks) ∧
      P (.visit blocks' [] progress) := by
  obtain ⟨t, hreaches, hlast⟩ := hreturns.exists_last
  obtain ⟨hinv, ht⟩ := h.reached start moves hreaches
  have hmove := hinv.moves
  rw [hlast] at hmove
  cases hmove with
  | @finish _ progress unchanged => exact ⟨progress, unchanged, rfl, hinv, ht⟩

/-- At the end of a round that has changed nothing, every branch is in range. -/
theorem RelaxState.Inv.verified {scanned blocks : List (RelaxBlock α)} {progress : RelaxProgress}
    (h : (RelaxState.visit blocks [] progress).Inv size functionAlign scanned)
    (unchanged : progress.changed = false) : Verified size functionAlign blocks := by
  have same : blocks ++ [] = blocks := List.append_nil blocks
  have inv : RelaxInv size blocks progress.numBlockIDs := same ▸ h.blocks
  have placed : Placed functionAlign blocks := same ▸ h.placed
  refine ⟨inv.sizes, placed.aligned, placed.follows.imp fun a b hab => hab.behind, ?_⟩
  have visited := h.inRange unchanged
  simp only [RelaxState.VisitedInRange, same] at visited
  exact visited

/-- What the loop may end with. -/
inductive RelaxOutcome.Good (size : α → ℕ) (functionAlign : ℕ) (scanned : List (RelaxBlock α)) :
    RelaxOutcome α → Prop where
  | relaxed {blocks : List (RelaxBlock α)} {madeChange : Bool}
      (verified : Verified size functionAlign blocks)
      (unchanged : madeChange = false → blocks = scanned) :
      Good size functionAlign scanned (.relaxed blocks madeChange)
  | indirectBranch : Good size functionAlign scanned .indirectBranch

/-- A last step ends well. -/
theorem RelaxMove.good {scanned : List (RelaxBlock α)} {s : RelaxState α} {outcome : RelaxOutcome α}
    (hmove : RelaxMove size functionAlign s (.inr outcome))
    (h : s.Inv size functionAlign scanned) : outcome.Good size functionAlign scanned := by
  cases hmove with
  | @finish before progress unchanged =>
      have same : before ++ [] = before := List.append_nil before
      exact .relaxed (h.verified unchanged) fun hmade => same ▸ (h.unchanged hmade).2
  | unreachable instrs far => exact .indirectBranch

end Snes
