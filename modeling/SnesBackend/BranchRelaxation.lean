/-
# Branch Relaxation

`BranchRelaxation.cpp` with the hooks of `SNESInstrInfo`: the offsets of the blocks
are computed, conditional branches whose destination is too far are replaced by a
reversed branch over a jump, and this is repeated until nothing changes.

The function is kept as a list of blocks in layout order, each with its entry of
`BlockInfo`; the loop over blocks and branches is given by its steps.
-/
import SnesBackend.BranchAnalysis

namespace Snes

open WordArith BlockLayout SteppedLoop

variable {α : Type}

/-! ## Sizes and offsets -/

/-- `getInstSizeInBytes`, given the sizes of the instructions that are no terminators. -/
def BlockInstr.getInstSizeInBytes (size : α → ℕ) : BlockInstr α → ℕ
  | debugValue => 0
  | inst mi => size mi
  | terminator t => t.getInstSizeInBytes

/-- `computeBlockSize`. -/
def computeBlockSize (size : α → ℕ) (instrs : List (BlockInstr α)) : ℕ :=
  (instrs.map (BlockInstr.getInstSizeInBytes size)).sum

/-- A block: its number, the logarithm of its alignment, its instructions, and its `BlockInfo`, with
numbers for what is `unsigned` there. -/
structure RelaxBlock (α : Type) where
  number : ℕ
  alignment : ℕ
  instrs : List (BlockInstr α)
  offset : ℕ
  size : ℕ

/-- `OffsetToAlignment`. -/
def offsetToAlignment (value align : ℕ) : ℕ :=
  (value + align - 1) / align * align - value

/-- `postOffset`: where a block may begin that follows this one.  A block that is aligned more than
its function may be preceded by more padding. -/
def RelaxBlock.postOffset (functionAlign : ℕ) (b : RelaxBlock α) (alignment : ℕ) : ℕ :=
  let po := b.offset + b.size
  if alignment = 0 then po
  else if alignment ≤ functionAlign then po + offsetToAlignment po (2 ^ alignment)
  else po + 2 ^ alignment + offsetToAlignment po (2 ^ alignment)

/-- The loop of `adjustBlockOffsets` behind a block; block zero keeps its offset. -/
def adjustFrom (functionAlign : ℕ) : RelaxBlock α → List (RelaxBlock α) → List (RelaxBlock α)
  | _, [] => []
  | prev, b :: rest =>
      if b.number = 0 then b :: adjustFrom functionAlign prev rest
      else
        let b' := { b with offset := prev.postOffset functionAlign b.alignment }
        b' :: adjustFrom functionAlign b' rest

/-- `adjustBlockOffsets`: the loop begins with the start block itself. -/
def adjustBlockOffsets (functionAlign : ℕ) (start : RelaxBlock α) (rest : List (RelaxBlock α)) :
    List (RelaxBlock α) :=
  adjustFrom functionAlign start (start :: rest)

/-- `scanFunction`. -/
def scanFunction (size : α → ℕ) (functionAlign : ℕ) (blocks : List (RelaxBlock α)) :
    List (RelaxBlock α) :=
  match blocks.map fun b => { b with offset := 0, size := computeBlockSize size b.instrs } with
  | [] => []
  | start :: rest => adjustBlockOffsets functionAlign start rest

/-- The offset of the block with a number. -/
def blockOffset (blocks : List (RelaxBlock α)) (number : ℕ) : Option ℕ :=
  (blocks.find? fun b => b.number = number).map RelaxBlock.offset

/-- `isBranchOffsetInRange`, for offsets of any size; other terminators have no range. -/
def Terminator.isBranchOffsetInRange : Terminator → ℤ → Bool
  | branch _ _, d => decide (-64 ≤ d ∧ d ≤ 63)
  | RJMPk _, d => decide (-4096 ≤ d ∧ d ≤ 4095)
  | RET, _ => false

/-- `isBlockInRange`, for a branch of a block behind the instructions `before`. -/
def isBlockInRange (size : α → ℕ) (blocks : List (RelaxBlock α)) (b : RelaxBlock α)
    (before : List (BlockInstr α)) (branch : Terminator) (dest : ℕ) : Option Bool :=
  (blockOffset blocks dest).map fun destOffset : ℕ =>
    branch.isBranchOffsetInRange (destOffset - (b.offset + computeBlockSize size before : ℕ) : ℤ)

/-! ## Terminators of a block -/

/-- `isDebugValue`. -/
def BlockInstr.isDebugValue : BlockInstr α → Bool
  | debugValue => true
  | _ => false

/-- `isTerminator`. -/
def BlockInstr.isTerminator (mi : BlockInstr α) : Bool :=
  mi.terminator?.isSome

/-- What `getFirstTerminator` points to, and what is before it: up over terminators and debug
values, then down to the first terminator. -/
def getFirstTerminator (instrs : List (BlockInstr α)) :
    List (BlockInstr α) × List (BlockInstr α) :=
  let tail := instrs.rtakeWhile fun mi => mi.isTerminator || mi.isDebugValue
  (instrs.rdropWhile (fun mi => mi.isTerminator || mi.isDebugValue) ++
      tail.takeWhile fun mi => !mi.isTerminator,
    tail.dropWhile fun mi => !mi.isTerminator)

/-- `getLastNonDebugInstr`, behind what is before it. -/
def getLastNonDebugInstr (instrs : List (BlockInstr α)) :
    Option (List (BlockInstr α) × BlockInstr α) :=
  let rest := instrs.rdropWhile BlockInstr.isDebugValue
  rest.getLast?.map fun last => (rest.dropLast, last)

/-- A conditional branch stands first. -/
def isConditionalBranchNext : List (BlockInstr α) → Bool
  | .terminator (.branch _ _) :: _ => true
  | _ => false

/-- `analyzeBranch` without permission to modify: each round passes an instruction. -/
def analyzeBranch (ids : List ℕ) (id : ℕ) (block : List (BlockInstr α)) :
    Option (BranchAnalysis α) :=
  iterate (analyzeStep (isLayoutSuccessor ids id) false) (block.length + 1) (analyzeStart block)

/-- `removeBranch`: after each branch that is removed the loop restarts at the end. -/
def removeBranch (block : List (BlockInstr α)) : Option (List (BlockInstr α) × ℕ × ℕ) :=
  iterate removeStep ((block.length + 1) * (block.length + 1)) ⟨block.reverse, [], 0, 0⟩

/-! ## Fixing a branch -/

/-- The blocks from the one that is fixed on, and the number of block numbers that are in use. -/
structure FixedBlocks (α : Type) where
  block : RelaxBlock α
  after : List (RelaxBlock α)
  numBlockIDs : ℕ

/-- The end of `fixupConditionalBranch`: the reversed condition branches to the next block, over a
jump to the destination. -/
def branchOverJump (functionAlign : ℕ) (b : RelaxBlock α) (after : List (RelaxBlock α))
    (numBlockIDs tbb : ℕ) (cond : List SNESCC) : Option (FixedBlocks α) := do
  let nextBB ← after.head?
  let (rest, _, removedSize) ← removeBranch b.instrs
  let (instrs, _, addedSize) ← insertBranch rest nextBB.number (some tbb) cond
  let b' := { b with instrs := instrs, size := b.size - removedSize + addedSize }
  match adjustBlockOffsets functionAlign b' after with
  | block :: after => some ⟨block, after, numBlockIDs⟩
  | [] => none

/-- `fixupConditionalBranch` of a branch behind the instructions `passed`: the destinations are
exchanged when the other one is in range, and otherwise get a jump each, the other one in a block of
its own. -/
def fixupConditionalBranch (size : α → ℕ) (functionAlign : ℕ) (before : List (RelaxBlock α))
    (b : RelaxBlock α) (after : List (RelaxBlock α)) (numBlockIDs : ℕ)
    (passed : List (BlockInstr α)) (branch : Terminator) : Option (FixedBlocks α) := do
  let blocks := before ++ b :: after
  let analysis ← analyzeBranch (blocks.map RelaxBlock.number) b.number b.instrs
  guard (analysis.failed = false)
  let tbb ← analysis.tbb
  let cond ← reverseBranchCondition analysis.cond
  match analysis.fbb with
  | some fbb =>
      if ← isBlockInRange size blocks b passed branch fbb then
        let (rest, _, oldSize) ← removeBranch b.instrs
        let (instrs, _, newSize) ← insertBranch rest fbb (some tbb) cond
        some ⟨{ b with instrs := instrs, size := b.size + newSize - oldSize }, after, numBlockIDs⟩
      else
        let (instrs, _, newBrSize) ← insertBranch [] fbb none []
        let newBB := ⟨numBlockIDs, 0, instrs, 0, newBrSize⟩
        branchOverJump functionAlign b (newBB :: after) (numBlockIDs + 1) tbb cond
  | none => branchOverJump functionAlign b after numBlockIDs tbb cond

/-! ## The loop -/

/-- What the loop keeps beside the blocks: the size of `BlockInfo`, whether the round has changed
something, and whether any round has. -/
structure RelaxProgress where
  numBlockIDs : ℕ
  changed : Bool
  madeChange : Bool
deriving DecidableEq, Repr

/-- The states of the loop: before the block at the head of `after`, and in a block at the
conditional branches from `todo` on. -/
inductive RelaxState (α : Type) where
  | visit (before after : List (RelaxBlock α)) (progress : RelaxProgress)
  | branches (before : List (RelaxBlock α)) (b : RelaxBlock α) (after : List (RelaxBlock α))
      (passed todo : List (BlockInstr α)) (progress : RelaxProgress)

/-- How the loop ends: relaxed; at `insertIndirectBranch`, which the target does not implement; at
several conditional branches in a row, which `splitBlockBeforeInstr` would take apart; or where an
assertion fails. -/
inductive RelaxOutcome (α : Type) where
  | relaxed (blocks : List (RelaxBlock α)) (madeChange : Bool)
  | indirectBranch
  | splitBlock
  | failure

/-- A block at its first terminator. -/
def RelaxState.atTerminators (before : List (RelaxBlock α)) (b : RelaxBlock α)
    (after : List (RelaxBlock α)) (progress : RelaxProgress) : RelaxState α :=
  .branches before b after (getFirstTerminator b.instrs).1 (getFirstTerminator b.instrs).2 progress

/-- The unconditional branch at the end of a block: whether it reaches its destination. -/
def lastBranchInRange (size : α → ℕ) (blocks : List (RelaxBlock α)) (b : RelaxBlock α)
    (before : List (BlockInstr α)) : BlockInstr α → Option Bool
  | .terminator (.RJMPk dest) => isBlockInRange size blocks b before (.RJMPk dest) dest
  | _ => some true

/-- A conditional branch: whether it reaches its destination. -/
def branchInRange (size : α → ℕ) (blocks : List (RelaxBlock α)) (b : RelaxBlock α)
    (before : List (BlockInstr α)) : BlockInstr α → Option Bool
  | .terminator (.branch opc dest) => isBlockInRange size blocks b before (.branch opc dest) dest
  | _ => some true

/-- A conditional branch that does not reach its destination. -/
def relaxFar (size : α → ℕ) (functionAlign : ℕ) (before : List (RelaxBlock α)) (b : RelaxBlock α)
    (after : List (RelaxBlock α)) (passed : List (BlockInstr α)) (mi : BlockInstr α)
    (todo : List (BlockInstr α)) (progress : RelaxProgress) : RelaxState α ⊕ RelaxOutcome α :=
  match mi.terminator?, isConditionalBranchNext todo with
  | none, _ => .inr .failure
  | some _, true => .inr .splitBlock
  | some branch, false =>
      match fixupConditionalBranch size functionAlign before b after progress.numBlockIDs passed
          branch with
      | none => .inr .failure
      | some fixed => .inl (.atTerminators before fixed.block fixed.after
          ⟨fixed.numBlockIDs, true, true⟩)

/-- One step of `relaxBranchInstructions`, called again as long as a round changes something. -/
def relaxStep (size : α → ℕ) (functionAlign : ℕ) : RelaxState α → RelaxState α ⊕ RelaxOutcome α
  | .visit before [] progress =>
      if progress.changed then .inl (.visit [] before { progress with changed := false })
      else .inr (.relaxed before progress.madeChange)
  | .visit before (b :: after) progress =>
      match getLastNonDebugInstr b.instrs with
      | none => .inl (.visit (before ++ [b]) after progress)
      | some (passed, last) =>
          match lastBranchInRange size (before ++ b :: after) b passed last with
          | none => .inr .failure
          | some false => .inr .indirectBranch
          | some true => .inl (.atTerminators before b after progress)
  | .branches before b after _ [] progress => .inl (.visit (before ++ [b]) after progress)
  | .branches before b after passed (mi :: todo) progress =>
      match branchInRange size (before ++ b :: after) b passed mi with
      | none => .inr .failure
      | some true => .inl (.branches before b after (passed ++ [mi]) todo progress)
      | some false => relaxFar size functionAlign before b after passed mi todo progress

/-- `runOnMachineFunction` before its first round, for blocks that are numbered in layout order. -/
def relaxStart (size : α → ℕ) (functionAlign : ℕ) (blocks : List (RelaxBlock α)) : RelaxState α :=
  .visit [] (scanFunction size functionAlign blocks) ⟨blocks.length, false, false⟩

/-! ## Ends of blocks -/

/-- The terminators that a block may have at its end: none, a return, a jump, or a conditional
branch that falls through or is followed by a jump. -/
inductive BranchEnd where
  | fallThrough
  | ret
  | jump (dest : ℕ)
  | branch (opc : BranchOpcode) (dest : ℕ)
  | branchElse (opc : BranchOpcode) (dest other : ℕ)
deriving DecidableEq, Repr

/-- The terminators. -/
def BranchEnd.terminators : BranchEnd → List Terminator
  | fallThrough => []
  | ret => [.RET]
  | jump dest => [.RJMPk dest]
  | branch opc dest => [.branch opc dest]
  | branchElse opc dest other => [.branch opc dest, .RJMPk other]

/-- The end determines the terminators, and the other way. -/
theorem BranchEnd.terminators_inj {e e' : BranchEnd} (h : e.terminators = e'.terminators) :
    e = e' := by
  cases e <;> cases e' <;> simp [terminators] at h <;> simp [h]

/-- A list of instructions with these terminators. -/
def endingIn (body : List (BlockInstr α)) (e : BranchEnd) : List (BlockInstr α) :=
  body ++ e.terminators.map .terminator

/-- A block whose terminators stand at its end. -/
structure RelaxBlock.Ends (b : RelaxBlock α) (body : List (BlockInstr α)) (e : BranchEnd) :
    Prop where
  instrs : b.instrs = endingIn body e
  body : terminatorsOf body = []

/-- The branch on the opposite condition. -/
def BranchOpcode.reversed (opc : BranchOpcode) : BranchOpcode :=
  getBrCond (getOppositeCondition (getCondFromBranchOpc opc))

section

variable {body : List (BlockInstr α)} {e : BranchEnd}

/-- The terminators of such a list. -/
@[simp]
theorem terminatorsOf_endingIn (hbody : terminatorsOf body = []) :
    terminatorsOf (endingIn body e) = e.terminators := by
  rw [endingIn, terminatorsOf_append, hbody, terminatorsOf_map, List.nil_append]

/-- Its first terminator. -/
theorem getFirstTerminator_endingIn (hbody : terminatorsOf body = []) :
    getFirstTerminator (endingIn body e) = (body, e.terminators.map .terminator) := by
  have ends : ∀ ts : List Terminator,
      (body ++ ts.map BlockInstr.terminator).rtakeWhile
          (fun mi => mi.isTerminator || mi.isDebugValue) =
        body.rtakeWhile (fun mi => mi.isTerminator || mi.isDebugValue) ++
          ts.map BlockInstr.terminator ∧
      (body ++ ts.map BlockInstr.terminator).rdropWhile
          (fun mi => mi.isTerminator || mi.isDebugValue) =
        body.rdropWhile (fun mi => mi.isTerminator || mi.isDebugValue) := by
    intro ts
    induction ts using List.reverseRecOn with
    | nil => simp
    | append_singleton ts t ih =>
        rw [List.map_append, List.map_singleton, ← List.append_assoc,
          List.rtakeWhile_concat_pos _ _ _ rfl, List.rdropWhile_concat_pos _ _ _ rfl, ih.1, ih.2]
        simp
  have inBody : ∀ mi ∈ body.rtakeWhile (fun mi => mi.isTerminator || mi.isDebugValue),
      (!mi.isTerminator) = true := by
    intro mi hmi
    have hnone := terminatorsOf_eq_nil_iff.mp hbody mi
      ((List.rtakeWhile_suffix _ _).subset hmi)
    simp [BlockInstr.isTerminator, hnone]
  rw [getFirstTerminator, endingIn, (ends _).1, (ends _).2,
    List.takeWhile_append_of_pos inBody, List.dropWhile_append_of_pos inBody]
  cases e <;> simp [BranchEnd.terminators, BlockInstr.isTerminator, BlockInstr.terminator?]

/-- Its last instruction, where that is a terminator. -/
theorem getLastNonDebugInstr_concat (instrs : List (BlockInstr α)) (t : Terminator) :
    getLastNonDebugInstr (instrs ++ [.terminator t]) = some (instrs, .terminator t) := by
  rw [getLastNonDebugInstr, List.rdropWhile_concat_neg _ _ _ (by simp [BlockInstr.isDebugValue])]
  simp

/-! ## Analysis and removal of these ends -/

/-- Over a body without terminators the scan passes debug values and ends. -/
theorem iterate_analyzeStep (hbody : terminatorsOf body = []) (ids : List ℕ) (id : ℕ)
    (below : List (BlockInstr α)) (unCondBr tbb fbb : Option ℕ) (cond : List SNESCC) :
    iterate (analyzeStep (isLayoutSuccessor ids id) false) (body.length + 1)
        ⟨body.reverse, below, unCondBr, tbb, fbb, cond⟩ =
      some ⟨body ++ below, false, tbb, fbb, cond⟩ := by
  induction body using List.reverseRecOn generalizing below with
  | nil => rfl
  | append_singleton body mi ih =>
      rw [terminatorsOf_append, List.append_eq_nil_iff] at hbody
      rw [List.reverse_concat, List.length_append, List.length_singleton, List.append_assoc]
      cases mi with
      | debugValue => exact ih hbody.1 (.debugValue :: below)
      | inst mi =>
          rw [iterate, analyzeStep]
          simp [BranchScan.result, BranchScan.block]
      | terminator t => cases hbody.2

/-- The analysis of a conditional branch. -/
theorem analyzeBranch_branch (hbody : terminatorsOf body = []) (ids : List ℕ) (id : ℕ)
    (opc : BranchOpcode) (dest : ℕ) :
    analyzeBranch ids id (endingIn body (.branch opc dest)) =
      some ⟨endingIn body (.branch opc dest), false, some dest, none,
        [getCondFromBranchOpc opc]⟩ := by
  have start : analyzeStart (endingIn body (.branch opc dest)) =
      ⟨.terminator (.branch opc dest) :: body.reverse, [], none, none, none, []⟩ := by
    simp [analyzeStart, endingIn, BranchEnd.terminators]
  have length : (endingIn body (.branch opc dest)).length = body.length + 1 := by
    simp [endingIn, BranchEnd.terminators]
  rw [analyzeBranch, start, length]
  exact iterate_analyzeStep hbody ids id [.terminator (.branch opc dest)] none (some dest) none
    [getCondFromBranchOpc opc]

/-- The analysis of a conditional branch with a jump behind it. -/
theorem analyzeBranch_branchElse (hbody : terminatorsOf body = []) (ids : List ℕ) (id : ℕ)
    (opc : BranchOpcode) (dest other : ℕ) :
    analyzeBranch ids id (endingIn body (.branchElse opc dest other)) =
      some ⟨endingIn body (.branchElse opc dest other), false, some dest, some other,
        [getCondFromBranchOpc opc]⟩ := by
  have start : analyzeStart (endingIn body (.branchElse opc dest other)) =
      ⟨.terminator (.RJMPk other) :: .terminator (.branch opc dest) :: body.reverse, [], none, none,
        none, []⟩ := by
    simp [analyzeStart, endingIn, BranchEnd.terminators]
  have length : (endingIn body (.branchElse opc dest other)).length = body.length + 2 := by
    simp [endingIn, BranchEnd.terminators]
  rw [analyzeBranch, start, length]
  exact iterate_analyzeStep hbody ids id
    [.terminator (.branch opc dest), .terminator (.RJMPk other)] (some 1) (some dest) (some other)
    [getCondFromBranchOpc opc]

/-- `removeBranch` returns within its rounds. -/
theorem removeBranch_of_removesTo {block : List (BlockInstr α)}
    {result : List (BlockInstr α) × ℕ × ℕ} (h : RemovesTo block result) :
    removeBranch block = some result := by
  let rounds : BranchRemoval α → ℕ := fun s =>
    (s.above.length + s.below.length) * (s.above.length + s.below.length) + s.above.length
  have next : ∀ s t : BranchRemoval α, True → removeStep s = .inl t →
      True ∧ rounds t < rounds s := by
    rintro ⟨above, below, count, bytes⟩ t - hstep
    refine ⟨trivial, ?_⟩
    rcases above with _ | ⟨_ | mi | (⟨opc, dest⟩ | dest | _), above⟩
    case cons.debugValue =>
      obtain rfl := Sum.inl.inj hstep
      simp only [rounds, List.length_cons, show above.length + (below.length + 1) =
        above.length + 1 + below.length by omega]
      omega
    case cons.terminator.branch | cons.terminator.RJMPk =>
      obtain rfl := Sum.inl.inj hstep
      simp only [rounds, List.length_append, List.length_reverse, List.length_cons,
        List.length_nil]
      nlinarith
    all_goals cases hstep
  obtain ⟨result', hresult'⟩ := exists_iterate_of_measure
    (n := (block.length + 1) * (block.length + 1)) next trivial
    (s := ⟨block.reverse, [], 0, 0⟩) (by simp [rounds]; nlinarith)
  obtain rfl := (returns_iff_exists_iterate.mpr ⟨_, hresult'⟩).unique h
  exact hresult'

/-- The terminators are removed. -/
theorem removeBranch_endingIn (hbody : terminatorsOf body = []) (he : .RET ∉ e.terminators) :
    removeBranch (endingIn body e) = some (body, e.terminators.length,
      (e.terminators.map Terminator.getInstSizeInBytes).sum) := by
  apply removeBranch_of_removesTo
  have returns := returns_removeStep hbody he 0 0
  rwa [Nat.zero_add, Nat.zero_add] at returns

/-- Every terminator has two bytes. -/
@[simp]
theorem getInstSizeInBytes_terminator (t : Terminator) : t.getInstSizeInBytes = 2 := by
  rcases t with ⟨opc, dest⟩ | dest | _
  · cases opc <;> rfl
  · rfl
  · rfl

/-- The size of a list of instructions in two parts. -/
theorem computeBlockSize_append (size : α → ℕ) (xs ys : List (BlockInstr α)) :
    computeBlockSize size (xs ++ ys) = computeBlockSize size xs + computeBlockSize size ys := by
  rw [computeBlockSize, List.map_append, List.sum_append, computeBlockSize, computeBlockSize]

/-- The size of a block, from its end. -/
theorem computeBlockSize_endingIn (size : α → ℕ) (body : List (BlockInstr α)) (e : BranchEnd) :
    computeBlockSize size (endingIn body e) =
      computeBlockSize size body + 2 * e.terminators.length := by
  rw [endingIn, computeBlockSize_append]
  cases e <;> simp [computeBlockSize, BranchEnd.terminators, BlockInstr.getInstSizeInBytes]

end

/-! ## What a fix does -/

/-- The start block of `adjustBlockOffsets` afterwards: unless it is block zero, it is placed behind
its own end. -/
def RelaxBlock.restarted (functionAlign : ℕ) (b : RelaxBlock α) : RelaxBlock α :=
  if b.number = 0 then b else { b with offset := b.postOffset functionAlign b.alignment }

/-- What `adjustBlockOffsets` does. -/
theorem adjustBlockOffsets_eq (functionAlign : ℕ) (b : RelaxBlock α) (rest : List (RelaxBlock α)) :
    adjustBlockOffsets functionAlign b rest =
      b.restarted functionAlign :: adjustFrom functionAlign (b.restarted functionAlign) rest := by
  rw [adjustBlockOffsets, adjustFrom, RelaxBlock.restarted]
  split <;> rfl

/-- A block with another end, and the size that it then has. -/
def RelaxBlock.withEnd (size : α → ℕ) (b : RelaxBlock α) (body : List (BlockInstr α))
    (e : BranchEnd) : RelaxBlock α :=
  { b with instrs := endingIn body e, size := computeBlockSize size (endingIn body e) }

/-- A new block with a jump, before it is placed. -/
def jumpBlock (number dest : ℕ) : RelaxBlock α :=
  ⟨number, 0, [.terminator (.RJMPk dest)], 0, 2⟩

/-- The blocks from one on, placed again. -/
def FixedBlocks.placed (functionAlign : ℕ) (b : RelaxBlock α) (after : List (RelaxBlock α))
    (numBlockIDs : ℕ) : FixedBlocks α :=
  ⟨b.restarted functionAlign, adjustFrom functionAlign (b.restarted functionAlign) after,
    numBlockIDs⟩

/-- The three ways in which a conditional branch of a block is fixed. -/
inductive FixedAs (size : α → ℕ) (functionAlign : ℕ) (blocks : List (RelaxBlock α))
    (b : RelaxBlock α) (after : List (RelaxBlock α)) (numBlockIDs : ℕ) (body : List (BlockInstr α))
    (opc : BranchOpcode) (dest : ℕ) : FixedBlocks α → Prop where
  | exchanged {other : ℕ} (ends : b.Ends body (.branchElse opc dest other))
      (near : isBlockInRange size blocks b body (.branch opc dest) other = some true) :
      FixedAs size functionAlign blocks b after numBlockIDs body opc dest
        ⟨b.withEnd size body (.branchElse opc.reversed other dest), after, numBlockIDs⟩
  | newBlock {other : ℕ} (ends : b.Ends body (.branchElse opc dest other))
      (far : isBlockInRange size blocks b body (.branch opc dest) other = some false) :
      FixedAs size functionAlign blocks b after numBlockIDs body opc dest
        (.placed functionAlign (b.withEnd size body (.branchElse opc.reversed numBlockIDs dest))
          (jumpBlock numBlockIDs other :: after) (numBlockIDs + 1))
  | overJump {next : RelaxBlock α} {rest : List (RelaxBlock α)}
      (ends : b.Ends body (.branch opc dest)) (hafter : after = next :: rest) :
      FixedAs size functionAlign blocks b after numBlockIDs body opc dest
        (.placed functionAlign (b.withEnd size body (.branchElse opc.reversed next.number dest))
          after numBlockIDs)

section

variable {size : α → ℕ} {functionAlign : ℕ} {b : RelaxBlock α} {body : List (BlockInstr α)}

/-- The branch over a jump. -/
theorem branchOverJump_eq {e : BranchEnd} (hends : b.Ends body e) (he : .RET ∉ e.terminators)
    (hsize : b.size = computeBlockSize size b.instrs) (next : RelaxBlock α)
    (rest : List (RelaxBlock α)) (numBlockIDs tbb : ℕ) (opc : BranchOpcode) :
    branchOverJump functionAlign b (next :: rest) numBlockIDs tbb
        [getOppositeCondition (getCondFromBranchOpc opc)] =
      some (.placed functionAlign
        (b.withEnd size body (.branchElse opc.reversed next.number tbb)) (next :: rest)
        numBlockIDs) := by
  have removed : removeBranch b.instrs = some (body, e.terminators.length,
      (e.terminators.map Terminator.getInstSizeInBytes).sum) := by
    rw [hends.instrs]
    exact removeBranch_endingIn hends.body he
  have newSize : b.size - (e.terminators.map Terminator.getInstSizeInBytes).sum + 4 =
      computeBlockSize size (endingIn body (.branchElse opc.reversed next.number tbb)) := by
    rw [hsize, hends.instrs, computeBlockSize_endingIn, computeBlockSize_endingIn]
    cases e <;> simp [BranchEnd.terminators]
  simp only [branchOverJump, List.head?_cons, removed, insertBranch, Option.bind_eq_bind,
    Option.bind_some, adjustBlockOffsets_eq, getInstSizeInBytes_terminator, newSize]
  rfl

/-- **A conditional branch at the end of a block is fixed** in one of the three ways. -/
theorem exists_fixedAs {before after : List (RelaxBlock α)} {numBlockIDs : ℕ} {opc : BranchOpcode}
    {dest : ℕ} (hends : (b.Ends body (.branch opc dest) ∧ after ≠ []) ∨
      ∃ other, b.Ends body (.branchElse opc dest other) ∧
        (blockOffset (before ++ b :: after) other).isSome = true)
    (hsize : b.size = computeBlockSize size b.instrs) :
    ∃ fixed, fixupConditionalBranch size functionAlign before b after numBlockIDs body
        (.branch opc dest) = some fixed ∧
      FixedAs size functionAlign (before ++ b :: after) b after numBlockIDs body opc dest
        fixed := by
  rcases hends with ⟨hends, hafter⟩ | ⟨other, hends, hother⟩
  · obtain ⟨next, rest, rfl⟩ := List.exists_cons_of_ne_nil hafter
    refine ⟨_, ?_, .overJump hends rfl⟩
    rw [← branchOverJump_eq hends (by simp [BranchEnd.terminators]) hsize next rest numBlockIDs
      dest]
    simp only [fixupConditionalBranch, hends.instrs, analyzeBranch_branch hends.body,
      Option.bind_eq_bind, Option.bind_some, reverseBranchCondition]
    rfl
  · have analysis := analyzeBranch_branchElse hends.body
      ((before ++ b :: after).map RelaxBlock.number) b.number opc dest other
    obtain ⟨offset, hoffset⟩ := Option.isSome_iff_exists.mp hother
    cases hrange : isBlockInRange size (before ++ b :: after) b body (.branch opc dest) other with
    | none =>
        rw [isBlockInRange, hoffset] at hrange
        cases hrange
    | some near =>
        cases near with
        | true =>
            have removed : removeBranch (endingIn body (.branchElse opc dest other)) =
                some (body, 2, 4) := by
              rw [removeBranch_endingIn hends.body (by simp [BranchEnd.terminators])]
              simp [BranchEnd.terminators]
            refine ⟨_, ?_, .exchanged hends hrange⟩
            simp only [fixupConditionalBranch, hends.instrs, analysis, Option.bind_eq_bind,
              Option.bind_some, reverseBranchCondition, hrange, removed, insertBranch]
            simp only [RelaxBlock.withEnd, getInstSizeInBytes_terminator, hsize, hends.instrs,
              computeBlockSize_endingIn, BranchEnd.terminators, Nat.add_sub_cancel]
            rfl
        | false =>
            refine ⟨_, ?_, .newBlock hends hrange⟩
            have fixed : branchOverJump functionAlign b (jumpBlock numBlockIDs other :: after)
                (numBlockIDs + 1) dest [getOppositeCondition (getCondFromBranchOpc opc)] = _ :=
              branchOverJump_eq hends (by simp [BranchEnd.terminators]) hsize
                (jumpBlock numBlockIDs other) after (numBlockIDs + 1) dest opc
            rw [jumpBlock] at fixed
            simp only [fixupConditionalBranch, hends.instrs, analysis, Option.bind_eq_bind,
              Option.bind_some, reverseBranchCondition, hrange, insertBranch,
              getInstSizeInBytes_terminator]
            exact fixed

end

end Snes
