/-
# Addresses of Relaxed Functions

The offsets of branch relaxation are estimates: a block that is placed again may
be placed too far back.  The distances between them are never too short, so the
branches of a relaxed function, emitted one block behind the other, are in range
of the fixups, which bring them to their destinations.
-/
import SnesBackend.RelaxationSizes
import SnesBackend.BranchFixups

namespace Snes

open SteppedLoop

variable {α : Type} {size : α → ℕ} {functionAlign : ℕ}

/-! ## Emitted blocks -/

/-- The address of a block, if the blocks are emitted from an address on, each at its alignment. -/
def blockAddress (size : α → ℕ) (number : ℕ) : ℕ → List (RelaxBlock α) → Option ℕ
  | _, [] => none
  | address, b :: rest =>
      let start := address + offsetToAlignment address (2 ^ b.alignment)
      if b.number = number then some start
      else blockAddress size number (start + computeBlockSize size b.instrs) rest

/-- The relative branch that a terminator is. -/
def Terminator.relBranch? : Terminator → Option RelBranch
  | branch .BREQk _ => some .BREQk
  | branch .BRNEk _ => some .BRNEk
  | branch .BRSHk _ => some .BRSHk
  | branch .BRLOk _ => some .BRLOk
  | branch .BRMIk _ => some .BRMIk
  | branch .BRPLk _ => some .BRPLk
  | branch .BRGEk _ => some .BRGEk
  | branch .BRLTk _ => some .BRLTk
  | RJMPk _ => some .RJMPk
  | RET => none

/-- Without alignment nothing is skipped. -/
@[simp]
theorem offsetToAlignment_one (value : ℕ) : offsetToAlignment value 1 = 0 := by
  simp [offsetToAlignment]

/-- The address of a block is behind the code of the blocks before it. -/
theorem blockAddress_append {pre post : List (RelaxBlock α)} {b : RelaxBlock α}
    (halign : ∀ c ∈ pre ++ b :: post, c.alignment = 0)
    (hb : b.number ∉ pre.map RelaxBlock.number) (address : ℕ) :
    blockAddress size b.number address (pre ++ b :: post) = some (address + codeSize size pre) := by
  induction pre generalizing address with
  | nil =>
      rw [List.nil_append, blockAddress, halign b List.mem_cons_self, pow_zero,
        offsetToAlignment_one, if_pos rfl]
      rfl
  | cons a pre ih =>
      rw [List.map_cons, List.mem_cons, not_or] at hb
      rw [List.cons_append, blockAddress, halign a List.mem_cons_self, pow_zero,
        offsetToAlignment_one, if_neg (Ne.symm hb.1),
        ih (fun c hc => halign c (List.mem_cons_of_mem a hc)) hb.2]
      simp only [codeSize, List.map_cons, List.sum_cons, Nat.add_zero, Nat.add_assoc]

/-- Between two blocks, the offsets are apart by the code between them, or more. -/
theorem codeSize_le_offset {a c : RelaxBlock α} {mid post : List (RelaxBlock α)}
    (hsizes : ∀ b ∈ a :: mid, b.size = computeBlockSize size b.instrs)
    (hbehind : (a :: (mid ++ c :: post)).IsChain fun x y =>
      x.postOffset functionAlign y.alignment ≤ y.offset) :
    a.offset + codeSize size (a :: mid) ≤ c.offset := by
  induction mid generalizing a with
  | nil =>
      have next := (List.isChain_cons.mp hbehind).1 c rfl
      have le : _ ≤ a.postOffset functionAlign c.alignment := a.le_postOffset _
      have aSize := hsizes a List.mem_cons_self
      simp only [codeSize, List.map_cons, List.map_nil, List.sum_cons, List.sum_nil]
      omega
  | cons b mid ih =>
      have next := (List.isChain_cons.mp hbehind).1 b rfl
      have le : _ ≤ a.postOffset functionAlign b.alignment := a.le_postOffset _
      have aSize := hsizes a List.mem_cons_self
      have rest := ih (fun x hx => hsizes x (List.mem_cons_of_mem a hx))
        (List.isChain_cons.mp hbehind).2
      simp only [codeSize, List.map_cons, List.sum_cons] at rest ⊢
      omega

/-- A distance is in the direction of another one, and no longer. -/
def Within (d estimate : ℤ) : Prop :=
  0 ≤ d ∧ d ≤ estimate ∨ estimate ≤ d ∧ d ≤ 0

/-- **The estimated distances are long enough**: from a place in a block to any block. -/
theorem exists_emitted {blocks : List (RelaxBlock α)} (h : Verified size functionAlign blocks)
    (hnodup : (blocks.map RelaxBlock.number).Nodup) (halign : ∀ b ∈ blocks, b.alignment = 0)
    {b c : RelaxBlock α} (hb : b ∈ blocks) (hc : c ∈ blocks) {k : ℕ} (hk : k ≤ b.size)
    (address : ℕ) :
    ∃ u v : List (RelaxBlock α),
      blockAddress size b.number address blocks = some (address + codeSize size u) ∧
      blockAddress size c.number address blocks = some (address + codeSize size v) ∧
      Within (codeSize size v - (codeSize size u + k : ℕ) : ℤ)
        (c.offset - (b.offset + k : ℕ) : ℤ) := by
  have notBefore : ∀ {a : RelaxBlock α} {pre post : List (RelaxBlock α)},
      blocks = pre ++ a :: post → a.number ∉ pre.map RelaxBlock.number := by
    rintro a pre post rfl
    rw [List.map_append, List.map_cons, List.nodup_middle, List.nodup_cons, List.mem_append,
      not_or] at hnodup
    exact hnodup.1.1
  have address_of : ∀ {a : RelaxBlock α} {pre post : List (RelaxBlock α)},
      blocks = pre ++ a :: post →
      blockAddress size a.number address blocks = some (address + codeSize size pre) := by
    intro a pre post heq
    have habsent := notBefore heq
    subst heq
    exact blockAddress_append halign habsent address
  have apart : ∀ {a d : RelaxBlock α} {pre mid post : List (RelaxBlock α)},
      blocks = pre ++ a :: (mid ++ d :: post) →
      a.offset + codeSize size (a :: mid) ≤ d.offset := by
    rintro a d pre mid post rfl
    refine codeSize_le_offset (fun x hx => h.sizes x ?_) (List.isChain_append.mp h.behind).2.1
    rw [List.mem_append, ← List.cons_append]
    exact .inr (List.mem_append_left _ hx)
  have total : ∀ xs ys : List (RelaxBlock α),
      codeSize size (xs ++ ys) = codeSize size xs + codeSize size ys := by
    intro xs ys
    rw [codeSize, List.map_append, List.sum_append, codeSize, codeSize]
  have first : ∀ (a : RelaxBlock α) (xs : List (RelaxBlock α)), a ∈ blocks →
      a.size ≤ codeSize size (a :: xs) := by
    intro a xs ha
    rw [h.sizes a ha, codeSize, List.map_cons, List.sum_cons]
    exact Nat.le_add_right _ _
  obtain ⟨pre, post, heq⟩ := List.append_of_mem hb
  have hmem := hc
  rw [heq, List.mem_append, List.mem_cons] at hmem
  rcases hmem with hmem | rfl | hmem
  · obtain ⟨u, mid, rfl⟩ := List.append_of_mem hmem
    rw [List.append_assoc, List.cons_append] at heq
    have hle := apart heq
    refine ⟨u ++ c :: mid, u, address_of (by simpa using heq), address_of heq, .inr ?_⟩
    rw [total]
    push_cast
    omega
  · refine ⟨pre, pre, address_of heq, address_of heq, .inr ?_⟩
    push_cast
    omega
  · obtain ⟨mid, rest, rfl⟩ := List.append_of_mem hmem
    have hle := apart heq
    have hsize := first b mid hb
    refine ⟨pre, pre ++ b :: mid, address_of heq, address_of (by simpa using heq), .inl ?_⟩
    rw [total]
    push_cast
    omega

/-! ## Branches and their fixups -/

/-- A branch at `p` is encoded, and its fixup brings it to `q`. -/
def RelBranch.Resolves (r : RelBranch) (e : MCExpr) (p q : BitVec 64) : Prop :=
  ∃ data, resolvedFragment [] [] (r.mcInst (.expr e)) false (q - p) = some (.ok data) ∧
    p + 2 + BitVec.ofInt 64 (2 * r.displacement data) = q

/-- Every branch that relaxation leaves alone is brought to its destination, with the exception of a
jump over the whole range backwards. -/
theorem RelBranch.resolves_of_range (r : RelBranch) (e : MCExpr) {p q : BitVec 64}
    (heven : (q - p).toInt % 2 = 0)
    (hrange : if r.isJump then -4096 ≤ (q - p).toInt ∧ (q - p).toInt ≤ 4095
      else -64 ≤ (q - p).toInt ∧ (q - p).toInt ≤ 63)
    (hlast : ¬ (r.isJump = true ∧ (q - p).toInt = -4096)) : r.Resolves e p q := by
  have inRange : r.InRange (q - p).toInt := by
    unfold RelBranch.InRange
    rcases r.cond_or_jump with ⟨hjump, -, hwidth, -⟩ | ⟨hjump, -, hwidth, -⟩ <;>
      rw [hwidth] <;> rw [hjump] at hrange <;>
      simp only [Bool.false_eq_true, if_false, if_true] at hrange <;> omega
  have written : 2 * r.writtenDisplacement (q - p) + 2 = (q - p).toInt := by
    rw [r.writtenDisplacement_eq inRange]
    rcases r.cond_or_jump with ⟨hjump, -, hwidth, -⟩ | ⟨hjump, -, hwidth, -⟩ <;>
      rw [hwidth] <;> rw [hjump] at hrange hlast <;>
      simp only [Bool.false_eq_true, if_false, if_true, true_and] at hrange hlast <;> omega
  obtain ⟨data, hdata, hreaches⟩ := (RelBranch.resolves_of_inRange inRange).mpr written
  refine ⟨data, hdata, (hreaches p).trans ?_⟩
  rw [BitVec.add_comm, BitVec.sub_add_cancel]

/-- A difference of addresses as a number. -/
theorem toInt_sub_ofNat {x y : ℕ} (hlow : -2 ^ 62 ≤ (y - x : ℤ)) (hhigh : (y - x : ℤ) < 2 ^ 62) :
    (BitVec.ofNat 64 y - BitVec.ofNat 64 x).toInt = y - x := by
  rw [BitVec.toInt_sub, BitVec.toInt_ofNat', BitVec.toInt_ofNat', Int.sub_bmod_bmod,
    Int.bmod_sub_bmod, Int.bmod_eq_of_le (by omega) (by omega)]

/-- Code whose instructions have even sizes has even size. -/
theorem computeBlockSize_even (heven : ∀ mi, size mi % 2 = 0) (instrs : List (BlockInstr α)) :
    computeBlockSize size instrs % 2 = 0 := by
  induction instrs with
  | nil => rfl
  | cons mi rest ih =>
      have head : BlockInstr.getInstSizeInBytes size mi % 2 = 0 := by
        cases mi with
        | debugValue => rfl
        | inst mi => exact heven mi
        | terminator t =>
            rw [BlockInstr.getInstSizeInBytes, getInstSizeInBytes_terminator]
      have split : computeBlockSize size (mi :: rest) =
          BlockInstr.getInstSizeInBytes size mi + computeBlockSize size rest := rfl
      omega

/-- Blocks of such code have even size. -/
theorem codeSize_even (heven : ∀ mi, size mi % 2 = 0) (blocks : List (RelaxBlock α)) :
    codeSize size blocks % 2 = 0 := by
  induction blocks with
  | nil => rfl
  | cons b rest ih =>
      have head := computeBlockSize_even heven b.instrs
      have split : codeSize size (b :: rest) =
          computeBlockSize size b.instrs + codeSize size rest := rfl
      omega

/-- A distance that is no longer than one in range is in range. -/
theorem Terminator.range_of_within {t : Terminator} {d estimate : ℤ}
    (h : t.isBranchOffsetInRange estimate = true) (hwithin : Within d estimate) :
    ∃ r, t.relBranch? = some r ∧ if r.isJump then -4096 ≤ d ∧ d ≤ 4095 else -64 ≤ d ∧ d ≤ 63 := by
  unfold Within at hwithin
  rcases t with ⟨opc, dest⟩ | dest | _
  · rw [Terminator.isBranchOffsetInRange, decide_eq_true_iff] at h
    have range : -64 ≤ d ∧ d ≤ 63 := by omega
    cases opc <;> exact ⟨_, rfl, range⟩
  · rw [Terminator.isBranchOffsetInRange, decide_eq_true_iff] at h
    exact ⟨.RJMPk, rfl, by simp only [RelBranch.isJump, if_true]; omega⟩
  · cases h

/-- The alignments of blocks placed again. -/
theorem FixedAs.alignment {blocks after : List (RelaxBlock α)} {b : RelaxBlock α} {n : ℕ}
    {body : List (BlockInstr α)} {opc : BranchOpcode} {dest : ℕ} {fixed : FixedBlocks α}
    (h : FixedAs size functionAlign blocks b after n body opc dest fixed)
    (hb : ∀ c ∈ b :: after, c.alignment = 0) :
    ∀ c ∈ fixed.block :: fixed.after, c.alignment = 0 := by
  have placed : ∀ (b' : RelaxBlock α) (after' : List (RelaxBlock α)),
      (∀ c ∈ b' :: after', c.alignment = 0) →
      ∀ c ∈ b'.restarted functionAlign ::
          adjustFrom functionAlign (b'.restarted functionAlign) after', c.alignment = 0 := by
    intro b' after' h' c hc
    have same : (b'.restarted functionAlign ::
        adjustFrom functionAlign (b'.restarted functionAlign) after').map RelaxBlock.alignment =
          (b' :: after').map RelaxBlock.alignment := by
      refine map_eq_of_unplaced ?_ RelaxBlock.alignment fun _ => rfl
      rw [List.map_cons, List.map_cons, map_unplaced_adjustFrom, unplaced_restarted]
    obtain ⟨a, ha, halign⟩ := List.mem_map.mp (same ▸ List.mem_map_of_mem hc)
    exact halign ▸ h' a ha
  rw [List.forall_mem_cons] at hb
  cases h with
  | exchanged ends near => exact List.forall_mem_cons.mpr hb
  | newBlock ends far =>
      exact placed _ _ (List.forall_mem_cons.mpr ⟨hb.1, List.forall_mem_cons.mpr ⟨rfl, hb.2⟩⟩)
  | overJump ends hafter => exact placed _ _ (List.forall_mem_cons.mpr hb)

/-- Relaxation aligns no block. -/
theorem RelaxMove.alignment {s t : RelaxState α} (h : RelaxMove size functionAlign s (.inl t))
    (hs : ∀ b ∈ s.blocks, b.alignment = 0) : ∀ b ∈ t.blocks, b.alignment = 0 := by
  cases h with
  | again changed => simpa [RelaxState.blocks] using hs
  | skip none => simpa [RelaxState.blocks, List.append_assoc] using hs
  | enter ends last => exact hs
  | leave => simpa [RelaxState.blocks, List.append_assoc] using hs
  | pass near => exact hs
  | @fix before after b body todo opc dest fixed progress far fixedAs =>
      have parts := List.forall_mem_append.mp hs
      exact List.forall_mem_append.mpr ⟨parts.1, fixedAs.alignment parts.2⟩

/-- **Every branch of a relaxed function reaches its destination**, once the blocks are emitted and
the fixups applied: the branch of a block at `p` goes to the address `q` of its destination.  The
exception is a jump by -4096.  Where the limit is in an `unsigned`, the offsets of the model are
those of the source. -/
theorem relaxed_resolves {blocks blocks' : List (RelaxBlock α)} {madeChange : Bool}
    (h : Relaxable blocks) (halign : ∀ b ∈ blocks, b.alignment = 0)
    (heven : ∀ mi, size mi % 2 = 0)
    (hreturns : Returns (relaxStep size functionAlign) (relaxStart size functionAlign blocks)
      (.relaxed blocks' madeChange)) {b : RelaxBlock α} (hb : b ∈ blocks')
    {before after : List (BlockInstr α)} {t : Terminator}
    (hinstrs : b.instrs = before ++ .terminator t :: after) {dest : ℕ} (hdest : dest ∈ t.targets)
    (address : ℕ) (e : MCExpr) :
    (∃ r source target, t.relBranch? = some r ∧
      blockAddress size b.number address blocks' = some source ∧
      blockAddress size dest address blocks' = some target ∧
      (r.isJump = true ∧ (target - (source + computeBlockSize size before : ℕ) : ℤ) = -4096 ∨
        r.Resolves e (.ofNat 64 (source + computeBlockSize size before)) (.ofNat 64 target))) ∧
    (relaxLimit size blocks < 2 ^ 32 → StaysUnsigned size functionAlign blocks) := by
  refine ⟨?_, h.staysUnsigned⟩
  let Unaligned : RelaxState α → Prop := fun t => ∀ b ∈ t.blocks, b.alignment = 0
  have start : Unaligned (relaxStart size functionAlign blocks) := by
    intro c hc
    have same : (scanFunction size functionAlign blocks).map RelaxBlock.alignment =
        blocks.map RelaxBlock.alignment := by
      rw [map_eq_of_unplaced (map_unplaced_scanFunction blocks) RelaxBlock.alignment fun _ => rfl,
        List.map_map]
      rfl
    obtain ⟨a, ha, heq⟩ := List.mem_map.mp (same ▸ List.mem_map_of_mem hc)
    exact heq ▸ halign a ha
  obtain ⟨progress, unchanged, -, hinv, halign'⟩ :=
    h.relaxed start (fun s t _ hs hmove => hmove.alignment hs) hreturns
  have verified := hinv.verified unchanged
  have inv : RelaxInv size blocks' progress.numBlockIDs := List.append_nil blocks' ▸ hinv.blocks
  have aligned : ∀ c ∈ blocks', c.alignment = 0 :=
    fun c hc => halign' c (List.mem_append_left _ hc)
  obtain ⟨c, hc, rfl⟩ := List.mem_map.mp
    (inv.targets b hb t (hinstrs ▸ mem_terminatorsOf t) dest hdest)
  have hk : computeBlockSize size before ≤ b.size := by
    rw [inv.sizes b hb, hinstrs, computeBlockSize_append]
    exact Nat.le_add_right _ _
  obtain ⟨u, v, hsource, htarget, hwithin⟩ := exists_emitted verified inv.nodup aligned hb hc hk
    address
  have inRange := verified.inRange b hb before t after hinstrs c.number hdest
  rw [isBlockInRange, blockOffset_of_mem inv.nodup hc, Option.map_some, Option.some_inj] at inRange
  obtain ⟨r, hr, hrange⟩ := Terminator.range_of_within inRange hwithin
  refine ⟨r, _, _, hr, hsource, htarget, ?_⟩
  have even := computeBlockSize_even heven before
  have evenU := codeSize_even heven u
  have evenV := codeSize_even heven v
  have bounds :
      -4096 ≤ (codeSize size v - (codeSize size u + computeBlockSize size before : ℕ) : ℤ) ∧
      (codeSize size v - (codeSize size u + computeBlockSize size before : ℕ) : ℤ) ≤ 4095 := by
    split_ifs at hrange <;> omega
  have distance : (BitVec.ofNat 64 (address + codeSize size v) -
      BitVec.ofNat 64 (address + codeSize size u + computeBlockSize size before)).toInt =
        codeSize size v - (codeSize size u + computeBlockSize size before : ℕ) := by
    rw [toInt_sub_ofNat (by push_cast at bounds ⊢; omega) (by push_cast at bounds ⊢; omega)]
    push_cast
    ring
  by_cases hlast : r.isJump = true ∧
      (codeSize size v - (codeSize size u + computeBlockSize size before : ℕ) : ℤ) = -4096
  · refine .inl ⟨hlast.1, ?_⟩
    rw [← hlast.2]
    push_cast
    ring
  · refine .inr (r.resolves_of_range e ?_ ?_ ?_)
    · rw [distance]
      push_cast
      omega
    · rwa [distance]
    · rwa [distance]

/-- The reversed branch of a relaxed function, emitted from 32768 on. -/
theorem relaxed_resolves_farFunction :
    (∃ r source target, (Terminator.branch .BRNEk 4).relBranch? = some r ∧
      blockAddress (2 * ·) 0 32768 farFunctionRelaxed = some source ∧
      blockAddress (2 * ·) 4 32768 farFunctionRelaxed = some target ∧
      (r.isJump = true ∧
          (target - (source + computeBlockSize (2 * ·) [.inst 1] : ℕ) : ℤ) = -4096 ∨
        r.Resolves (.symbolRef 0) (.ofNat 64 (source + computeBlockSize (2 * ·) [.inst 1]))
          (.ofNat 64 target))) ∧
    StaysUnsigned (2 * ·) 1 farFunction := by
  have mem : ⟨0, 0, _, 0, 6⟩ ∈ farFunctionRelaxed := List.mem_cons_self
  have instrs : [.inst 1, .terminator (.branch .BRNEk 4), .terminator (.RJMPk 2)] =
      [.inst 1] ++ BlockInstr.terminator (.branch .BRNEk 4) :: [.terminator (.RJMPk 2)] := rfl
  exact (relaxed_resolves relaxable_farFunction (by decide) (fun mi => Nat.mul_mod_right 2 mi)
    returns_farFunction mem instrs (List.mem_singleton_self 4) 32768 (.symbolRef 0)).imp_right
      fun hfits => hfits relaxLimit_farFunction

end Snes
