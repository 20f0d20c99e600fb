/-
# Analyzing and Rewriting the Branches of a Block

`analyzeBranch`, `removeBranch`, `insertBranch` and `reverseBranchCondition`.  The
first scans a block from its end upwards and may rewrite it while it does so;
what is kept is the place to which control goes for each state of the flags.
-/
import SnesBackend.SteppedLoop
import SnesBackend.MachineFunction

namespace Snes

open WordArith BlockLayout SteppedLoop

/-! ## Blocks of instructions -/

/-- What `analyzeBranch` tells apart: debug values, instructions that are no terminators, and
terminators. -/
inductive BlockInstr (α : Type) where
  | debugValue
  | inst (mi : α)
  | terminator (t : Terminator)
deriving DecidableEq, Repr

variable {α : Type}

/-- The terminator that an instruction is. -/
def BlockInstr.terminator? : BlockInstr α → Option Terminator
  | terminator t => some t
  | _ => none

/-- The terminators of a list of instructions. -/
def terminatorsOf (block : List (BlockInstr α)) : List Terminator :=
  block.filterMap BlockInstr.terminator?

/-- The opcode of a conditional branch. -/
def BranchOpcode.opcode : BranchOpcode → Opcode
  | BREQk => .BREQk
  | BRNEk => .BRNEk
  | BRGEk => .BRGEk
  | BRLTk => .BRLTk
  | BRSHk => .BRSHk
  | BRLOk => .BRLOk
  | BRMIk => .BRMIk
  | BRPLk => .BRPLk

/-- The opcode of a terminator. -/
def Terminator.opcode : Terminator → Opcode
  | branch opc _ => opc.opcode
  | RJMPk _ => .RJMPk
  | RET => .RET

/-- `getInstSizeInBytes`, for terminators. -/
def Terminator.getInstSizeInBytes (t : Terminator) : ℕ :=
  t.opcode.getSize

/-- `getCondFromBranchOpc`, for the opcodes that have a condition. -/
def getCondFromBranchOpc : BranchOpcode → SNESCC
  | .BREQk => .COND_EQ
  | .BRNEk => .COND_NE
  | .BRSHk => .COND_SH
  | .BRLOk => .COND_LO
  | .BRMIk => .COND_MI
  | .BRPLk => .COND_PL
  | .BRGEk => .COND_GE
  | .BRLTk => .COND_LT

/-- `getOppositeCondition`. -/
def getOppositeCondition : SNESCC → SNESCC
  | .COND_EQ => .COND_NE
  | .COND_NE => .COND_EQ
  | .COND_SH => .COND_LO
  | .COND_LO => .COND_SH
  | .COND_GE => .COND_LT
  | .COND_LT => .COND_GE
  | .COND_MI => .COND_PL
  | .COND_PL => .COND_MI

/-- A branch is taken when its condition holds. -/
theorem holds_getCondFromBranchOpc (opc : BranchOpcode) (f : Flags) :
    (getCondFromBranchOpc opc).holds f = opc.taken f := by
  cases opc <;> rfl

/-- The opposite condition holds when the condition does not. -/
@[simp]
theorem holds_getOppositeCondition (cc : SNESCC) (f : Flags) :
    (getOppositeCondition cc).holds f = !cc.holds f := by
  cases cc <;> simp [getOppositeCondition, SNESCC.holds]

/-! ## The analysis -/

/-- What `analyzeBranch` leaves: the block, the returned value, which is true when the branches are
not understood, and the three results. -/
structure BranchAnalysis (α : Type) where
  block : List (BlockInstr α)
  failed : Bool
  tbb : Option ℕ
  fbb : Option ℕ
  cond : List SNESCC

/-- The state of the scan: the instructions before `I`, the last one first; `I` and what follows it;
how many instructions there are from `UnCondBrIter` on, unless that is the end; and the results so
far. -/
structure BranchScan (α : Type) where
  above : List (BlockInstr α)
  below : List (BlockInstr α)
  unCondBr : Option ℕ
  tbb : Option ℕ
  fbb : Option ℕ
  cond : List SNESCC

namespace BranchScan

/-- The block that is scanned. -/
def block (s : BranchScan α) : List (BlockInstr α) :=
  s.above.reverse ++ s.below

/-- The scan ends with a returned value. -/
def result (s : BranchScan α) (failed : Bool) : BranchAnalysis α :=
  ⟨s.block, failed, s.tbb, s.fbb, s.cond⟩

/-- Where `UnCondBrIter` points to, seen from `I`: what is before it, its target, and what is after
it. -/
def unCond (s : BranchScan α) : Option (List (BlockInstr α) × ℕ × List (BlockInstr α)) :=
  s.unCondBr.bind fun k =>
    match s.below.drop (s.below.length - k) with
    | .terminator (.RJMPk target) :: after =>
        some (s.below.take (s.below.length - k), target, after)
    | _ => none

end BranchScan

/-- One round of the loop of `analyzeBranch`. -/
def analyzeStep (isLayoutSuccessor : ℕ → Bool) (allowModify : Bool) (s : BranchScan α) :
    BranchScan α ⊕ BranchAnalysis α :=
  match s.above with
  | [] => .inr (s.result false)
  | .debugValue :: above => .inl { s with above := above, below := .debugValue :: s.below }
  | .inst _ :: _ => .inr (s.result false)
  | .terminator .RET :: _ => .inr (s.result true)
  | .terminator (.RJMPk target) :: above =>
      if !allowModify then
        .inl { s with
          above := above
          below := .terminator (.RJMPk target) :: s.below
          unCondBr := some (s.below.length + 1)
          tbb := some target }
      -- what follows the jump is deleted, and the jump too if it is a fall-through
      else if isLayoutSuccessor target then
        .inl ⟨above, [], none, none, none, []⟩
      else
        .inl ⟨above, [.terminator (.RJMPk target)], some 1, some target, none, []⟩
  | .terminator (.branch opc target) :: above =>
      let passed := { s with above := above, below := .terminator (.branch opc target) :: s.below }
      match s.cond with
      | [] =>
          match allowModify && isLayoutSuccessor target, s.unCond with
          | true, some (between, dest, after) =>
              -- restart behind the reversed branch and the exchanged jump
              let jncc := getBrCond (getOppositeCondition (getCondFromBranchOpc opc))
              let block := above.reverse ++ between ++
                .terminator (.branch jncc dest) :: .terminator (.RJMPk target) :: after
              .inl { s with above := block.reverse, below := [], unCondBr := none }
          | _, _ =>
              .inl { passed with
                fbb := s.tbb
                tbb := some target
                cond := [getCondFromBranchOpc opc] }
      | oldBranchCode :: _ =>
          if s.tbb = some target ∧ oldBranchCode = getCondFromBranchOpc opc then
            .inl passed
          else
            .inr (s.result true)

/-- `analyzeBranch` before its first round. -/
def analyzeStart (block : List (BlockInstr α)) : BranchScan α :=
  ⟨block.reverse, [], none, none, none, []⟩

/-- `analyzeBranch`, called with `TBB` and `FBB` null and `Cond` empty, returns an analysis. -/
def AnalyzesTo (isLayoutSuccessor : ℕ → Bool) (allowModify : Bool) (block : List (BlockInstr α))
    (result : BranchAnalysis α) : Prop :=
  Returns (analyzeStep isLayoutSuccessor allowModify) (analyzeStart block) result

/-! ## Rewriting branches -/

/-- The state of `removeBranch`: as for `analyzeBranch`, with the two counts. -/
structure BranchRemoval (α : Type) where
  above : List (BlockInstr α)
  below : List (BlockInstr α)
  count : ℕ
  bytesRemoved : ℕ

/-- One round of the loop of `removeBranch`. -/
def removeStep (s : BranchRemoval α) :
    BranchRemoval α ⊕ (List (BlockInstr α) × ℕ × ℕ) :=
  let result := (s.above.reverse ++ s.below, s.count, s.bytesRemoved)
  match s.above with
  | [] => .inr result
  | .debugValue :: above => .inl { s with above := above, below := .debugValue :: s.below }
  | .inst _ :: _ => .inr result
  | .terminator .RET :: _ => .inr result
  | .terminator t :: above =>
      .inl ⟨s.below.reverse ++ above, [], s.count + 1, s.bytesRemoved + t.getInstSizeInBytes⟩

/-- `removeBranch` returns the block that is left and the counts of branches and bytes. -/
def RemovesTo (block : List (BlockInstr α)) (result : List (BlockInstr α) × ℕ × ℕ) : Prop :=
  Returns removeStep ⟨block.reverse, [], 0, 0⟩ result

/-- `insertBranch`: the new block and the counts of branches and bytes, unless an assertion
fails. -/
def insertBranch (block : List (BlockInstr α)) (tbb : ℕ) (fbb : Option ℕ) (cond : List SNESCC) :
    Option (List (BlockInstr α) × ℕ × ℕ) :=
  match cond, fbb with
  | [], none =>
      some (block ++ [.terminator (.RJMPk tbb)], 1, (Terminator.RJMPk tbb).getInstSizeInBytes)
  | [], some _ => none
  | [cc], none =>
      let condMI := Terminator.branch (getBrCond cc) tbb
      some (block ++ [.terminator condMI], 1, condMI.getInstSizeInBytes)
  | [cc], some fbb =>
      let condMI := Terminator.branch (getBrCond cc) tbb
      let mi := Terminator.RJMPk fbb
      some (block ++ [.terminator condMI, .terminator mi], 2,
        condMI.getInstSizeInBytes + mi.getInstSizeInBytes)
  | _ :: _ :: _, _ => none

/-- `reverseBranchCondition`, unless the assertion fails. -/
def reverseBranchCondition : List SNESCC → Option (List SNESCC)
  | [cc] => some [getOppositeCondition cc]
  | _ => none

/-! ## Where control goes -/

/-- The transfer function of a block: where control goes for each state of the flags. -/
def transfer (ids : List ℕ) (id : ℕ) (block : List (BlockInstr α)) (f : Flags) : Place ℕ :=
  (exitOf (terminatorsOf block) f).place ids id

/-- A destination that is null is a fall-through. -/
def exitTo : Option ℕ → Exit ℕ
  | some target => .jump target
  | none => .fallThrough

/-- Where control goes according to `TBB`, `FBB` and `Cond`. -/
def described (ids : List ℕ) (id : ℕ) (tbb fbb : Option ℕ) (cond : List SNESCC) (f : Flags) :
    Place ℕ :=
  (if cond.all (·.holds f) then exitTo tbb else exitTo fbb).place ids id

/-- The terminators are branches that stand behind everything else, and without permission to modify
the block nothing stands behind a jump. -/
structure BranchesLast (allowModify : Bool) (block : List (BlockInstr α)) : Prop where
  branches : .RET ∉ terminatorsOf block
  last : block.Pairwise fun a b => a.terminator?.isSome → b.terminator?.isSome
  jumpLast : allowModify = false →
    block.Pairwise fun a _ => ∀ target, a ≠ .terminator (.RJMPk target)

/-- The counts reported for branches. -/
def CountsRight (branches : List Terminator) (count bytes : ℕ) : Prop :=
  count = branches.length ∧ bytes = (branches.map Terminator.getInstSizeInBytes).sum

/-- Inserting branches into a block without any gives a transfer function, with the right counts. -/
def InsertsRight (ids : List ℕ) (id : ℕ) (rest : List (BlockInstr α)) (tbb : ℕ) (fbb : Option ℕ)
    (cond : List SNESCC) (place : Flags → Place ℕ) : Prop :=
  ∃ inserted count bytes,
    insertBranch rest tbb fbb cond = some (rest ++ inserted.map .terminator, count, bytes) ∧
      CountsRight inserted count bytes ∧
      transfer ids id (rest ++ inserted.map .terminator) = place

/-- What an analysis that does not fail promises to whoever rewrites the branches. -/
structure Rewritable (ids : List ℕ) (id : ℕ) (place : Flags → Place ℕ)
    (result : BranchAnalysis α) (tbb : ℕ) : Prop where
  removed : ∃ rest removed count bytes, RemovesTo result.block (rest, count, bytes) ∧
    result.block = rest ++ removed.map .terminator ∧ CountsRight removed count bytes ∧
    InsertsRight ids id rest tbb result.fbb result.cond place ∧
    ∀ dest, result.cond ≠ [] → (result.fbb <|> layoutNext ids id) = some dest →
      ∃ reversed, reverseBranchCondition result.cond = some reversed ∧
        InsertsRight ids id rest dest (some tbb) reversed place

/-- What is promised of an analysis. -/
structure AnalysisRight (ids : List ℕ) (id : ℕ) (block : List (BlockInstr α))
    (result : BranchAnalysis α) : Prop where
  transfer_eq : transfer ids id result.block = transfer ids id block
  described_eq : result.failed = false →
    described ids id result.tbb result.fbb result.cond = transfer ids id block
  rewritable : result.failed = false → ∀ tbb, result.tbb = some tbb →
    Rewritable ids id (transfer ids id block) result tbb

/-! ## Terminators of lists -/

/-- The terminators of two lists. -/
@[simp]
theorem terminatorsOf_append (xs ys : List (BlockInstr α)) :
    terminatorsOf (xs ++ ys) = terminatorsOf xs ++ terminatorsOf ys :=
  List.filterMap_append

/-- A terminator in front. -/
@[simp]
theorem terminatorsOf_cons_terminator (t : Terminator) (xs : List (BlockInstr α)) :
    terminatorsOf (.terminator t :: xs) = t :: terminatorsOf xs :=
  rfl

/-- A debug value in front. -/
@[simp]
theorem terminatorsOf_cons_debugValue (xs : List (BlockInstr α)) :
    terminatorsOf (.debugValue :: xs) = terminatorsOf xs :=
  rfl

/-- An instruction in front. -/
@[simp]
theorem terminatorsOf_cons_inst (mi : α) (xs : List (BlockInstr α)) :
    terminatorsOf (.inst mi :: xs) = terminatorsOf xs :=
  rfl

/-- No instructions, no terminators. -/
@[simp]
theorem terminatorsOf_nil : terminatorsOf ([] : List (BlockInstr α)) = [] :=
  rfl

/-- The terminators of a list of terminators. -/
@[simp]
theorem terminatorsOf_map (ts : List Terminator) :
    terminatorsOf (ts.map (.terminator : Terminator → BlockInstr α)) = ts := by
  induction ts with
  | nil => rfl
  | cons t ts ih => rw [List.map_cons, terminatorsOf_cons_terminator, ih]

/-- There are no terminators where no instruction is one. -/
theorem terminatorsOf_eq_nil_iff {xs : List (BlockInstr α)} :
    terminatorsOf xs = [] ↔ ∀ mi ∈ xs, mi.terminator?.isSome = false := by
  simp [terminatorsOf]

/-- The exit of two lists of terminators: the second one counts when the first falls through. -/
theorem exitOf_append (xs ys : List Terminator) (f : Flags) :
    exitOf (xs ++ ys) f = if exitOf xs f = .fallThrough then exitOf ys f else exitOf xs f := by
  induction xs with
  | nil => rfl
  | cons x xs ih =>
      cases x with
      | branch opc target =>
          rw [List.cons_append, exitOf, exitOf]
          split
          · rfl
          · exact ih
      | RJMPk target => rfl
      | RET => rfl

/-- What comes after two lists is the same when the two lists do the same. -/
theorem transfer_append_right {ids : List ℕ} {id : ℕ} {ys zs : List (BlockInstr α)}
    (h : transfer ids id ys = transfer ids id zs) (xs : List (BlockInstr α)) :
    transfer ids id (xs ++ ys) = transfer ids id (xs ++ zs) := by
  funext f
  unfold transfer
  rw [terminatorsOf_append, terminatorsOf_append, exitOf_append, exitOf_append]
  split
  · exact congrFun h f
  · rfl

/-- Instructions that are no terminators do not matter. -/
theorem transfer_of_no_terminators {ids : List ℕ} {id : ℕ} {xs : List (BlockInstr α)}
    (h : terminatorsOf xs = []) (ys : List (BlockInstr α)) :
    transfer ids id (xs ++ ys) = transfer ids id ys := by
  unfold transfer
  rw [terminatorsOf_append, h, List.nil_append]

/-- What stands behind a jump does not matter. -/
theorem transfer_cons_jump (ids : List ℕ) (id target : ℕ) (xs : List (BlockInstr α)) :
    transfer ids id (.terminator (.RJMPk target) :: xs) = fun _ => .block target :=
  rfl

/-- A conditional branch in front. -/
theorem transfer_cons_branch (ids : List ℕ) (id : ℕ) (opc : BranchOpcode) (target : ℕ)
    (xs : List (BlockInstr α)) :
    transfer ids id (.terminator (.branch opc target) :: xs) = fun f =>
      if opc.taken f then .block target else transfer ids id xs f := by
  funext f
  unfold transfer
  rw [terminatorsOf_cons_terminator, exitOf]
  split <;> rfl

/-- Falling through to the layout successor. -/
theorem transfer_nil {ids : List ℕ} {id target : ℕ} (h : layoutNext ids id = some target) :
    transfer ids id ([] : List (BlockInstr α)) = fun _ => .block target := by
  funext f
  simp only [transfer, terminatorsOf_nil, exitOf, Exit.place, h]

/-- A fall-through destination of a layout. -/
theorem place_exitTo (ids : List ℕ) (id target : ℕ) :
    (exitTo (some target)).place ids id = .block target :=
  rfl

/-- What is described without a condition. -/
theorem described_nil (ids : List ℕ) (id : ℕ) (tbb fbb : Option ℕ) :
    described ids id tbb fbb [] = fun _ => (exitTo tbb).place ids id :=
  rfl

/-- What is described with one condition. -/
theorem described_singleton (ids : List ℕ) (id : ℕ) (tbb fbb : Option ℕ) (cc : SNESCC) :
    described ids id tbb fbb [cc] = fun f =>
      if cc.holds f then (exitTo tbb).place ids id else (exitTo fbb).place ids id := by
  funext f
  unfold described
  cases h : cc.holds f <;> simp [h]

/-! ## The shape of a block -/

namespace BranchesLast

variable {allowModify : Bool} {xs ys : List (BlockInstr α)}

/-- A part of a block has its shape. -/
theorem sublist (h : BranchesLast allowModify ys) (hsub : xs.Sublist ys) :
    BranchesLast allowModify xs where
  branches hmem := h.branches ((hsub.filterMap _).subset hmem)
  last := h.last.sublist hsub
  jumpLast hmodify := (h.jumpLast hmodify).sublist hsub

/-- Branches may be added at the end of a block that may be modified. -/
theorem append_branches (h : BranchesLast true xs) {ts : List Terminator} (hts : .RET ∉ ts) :
    BranchesLast true (xs ++ ts.map .terminator) where
  branches := by
    rw [terminatorsOf_append, terminatorsOf_map, List.mem_append]
    exact not_or.mpr ⟨h.branches, hts⟩
  last := by
    refine List.pairwise_append.mpr ⟨h.last, ?_, ?_⟩
    · refine List.Pairwise.imp_of_mem ?_ (List.pairwise_of_forall fun _ _ => trivial)
      intro a b _ hb _ _
      obtain ⟨t, -, rfl⟩ := List.mem_map.mp hb
      rfl
    · intro a _ b hb _
      obtain ⟨t, -, rfl⟩ := List.mem_map.mp hb
      rfl
  jumpLast hmodify := absurd hmodify (by decide)

/-- In front of an instruction that is no terminator there are none. -/
theorem no_terminators {mi : BlockInstr α} (h : BranchesLast allowModify (xs ++ mi :: ys))
    (hmi : mi.terminator?.isSome = false) : terminatorsOf xs = [] := by
  rw [terminatorsOf_eq_nil_iff]
  intro a ha
  by_contra hterminator
  have hlast := (List.pairwise_append.mp h.last).2.2 a ha mi List.mem_cons_self
    ((Bool.not_eq_false _).mp hterminator)
  rw [hmi] at hlast
  exact absurd hlast (by decide)

/-- A block is made of instructions that are no terminators and of branches behind them. -/
theorem exists_split (h : BranchesLast allowModify xs) :
    ∃ (body : List (BlockInstr α)) (ts : List Terminator),
      xs = body ++ ts.map .terminator ∧ terminatorsOf body = [] ∧ .RET ∉ ts := by
  induction xs with
  | nil => exact ⟨[], [], rfl, rfl, List.not_mem_nil⟩
  | cons a xs ih =>
      obtain ⟨body, ts, rfl, hbody, hts⟩ := ih (h.sublist (List.sublist_cons_self a _))
      cases hterminator : a.terminator? with
      | none =>
          refine ⟨a :: body, ts, rfl, ?_, hts⟩
          simpa [terminatorsOf, hterminator] using hbody
      | some t =>
          -- behind a terminator there are terminators only, so there is no body
          have hnil : body = [] := by
            rw [List.eq_nil_iff_forall_not_mem]
            intro b hb
            have hlast := (List.pairwise_cons.mp h.last).1 b (List.mem_append_left _ hb)
              (by rw [hterminator]; rfl)
            rw [terminatorsOf_eq_nil_iff.mp hbody b hb] at hlast
            exact absurd hlast (by decide)
          subst hnil
          obtain rfl : a = .terminator t := by
            cases a <;> simp_all [BlockInstr.terminator?]
          refine ⟨[], t :: ts, rfl, rfl, ?_⟩
          have hbranches := h.branches
          simp only [List.nil_append, terminatorsOf_cons_terminator, terminatorsOf_map] at hbranches
          exact hbranches

end BranchesLast

/-! ## The invariant of the scan -/

/-- `isLayoutSuccessor` of a layout. -/
def isLayoutSuccessor (ids : List ℕ) (id : ℕ) (target : ℕ) : Bool :=
  layoutNext ids id = some target

/-- The results describe what has been scanned. -/
def BranchScan.Described (ids : List ℕ) (id : ℕ) (s : BranchScan α) : Prop :=
  described ids id s.tbb s.fbb s.cond = transfer ids id s.below

/-- A branch and the jump behind it have just been exchanged: the scan restarts at a jump to the
layout successor. -/
def BranchScan.Exchanged (ids : List ℕ) (id : ℕ) (s : BranchScan α) : Prop :=
  s.below = [] ∧ s.cond = [] ∧
    ∃ target above, s.above = .terminator (.RJMPk target) :: above ∧
      layoutNext ids id = some target

/-- `UnCondBrIter`, when it is not the end, points to the last instruction, a jump that is no
fall-through; before the first conditional branch no terminator has been seen above it. -/
def BranchScan.JumpLast (ids : List ℕ) (id : ℕ) (s : BranchScan α) : Prop :=
  s.unCondBr = none ∨ s.unCondBr = some 1 ∧ ∃ between target,
    s.below = between ++ [.terminator (.RJMPk target)] ∧ layoutNext ids id ≠ some target ∧
      (s.cond = [] → terminatorsOf between = [])

/-- **The invariant** of the loop of `analyzeBranch`. -/
structure ScanInv (ids : List ℕ) (id : ℕ) (allowModify : Bool) (block : List (BlockInstr α))
    (s : BranchScan α) : Prop where
  shape : BranchesLast allowModify s.block
  transfer_eq : transfer ids id s.block = transfer ids id block
  scanned : s.Described ids id ∨ allowModify = true ∧ s.Exchanged ids id
  cond : s.cond = [] ∧ s.fbb = none ∨
    (∃ cc target, s.cond = [cc] ∧ s.tbb = some target) ∧ terminatorsOf s.below ≠ []
  jump : allowModify = true → s.JumpLast ids id

/-- The invariant holds before the first round. -/
theorem scanInv_start {ids : List ℕ} {id : ℕ} {allowModify : Bool} {block : List (BlockInstr α)}
    (h : BranchesLast allowModify block) :
    ScanInv ids id allowModify block (analyzeStart block) where
  shape := by simpa [BranchScan.block, analyzeStart] using h
  transfer_eq := by simp [BranchScan.block, analyzeStart]
  scanned := .inl rfl
  cond := .inl ⟨rfl, rfl⟩
  jump _ := .inl rfl

/-- What `unCond` finds behind a jump that is last. -/
theorem BranchScan.unCond_eq {s : BranchScan α} {between : List (BlockInstr α)} {target : ℕ}
    (hiter : s.unCondBr = some 1)
    (hbelow : s.below = between ++ [.terminator (.RJMPk target)]) :
    s.unCond = some (between, target, []) := by
  unfold unCond
  rw [hiter, hbelow]
  simp

/-- A jump to the layout successor is the last instruction. -/
def endsInFallThrough (ids : List ℕ) (id : ℕ) (block : List (BlockInstr α)) : Bool :=
  match block.getLast? with
  | some (.terminator (.RJMPk target)) => isLayoutSuccessor ids id target
  | _ => false

/-- What decreases in each round: the length of the block, then whether it ends in a jump to be
deleted, then what is above. -/
def BranchScan.rank (ids : List ℕ) (id : ℕ) (s : BranchScan α) : ℕ ×ₗ ℕ ×ₗ ℕ :=
  toLex (s.block.length,
    toLex (if endsInFallThrough ids id s.block then 0 else 1, s.above.length))

/-- A round that keeps the block and moves up. -/
theorem BranchScan.rank_lt_of_block_eq {ids : List ℕ} {id : ℕ} {s t : BranchScan α}
    (hblock : t.block = s.block) (habove : t.above.length < s.above.length) :
    t.rank ids id < s.rank ids id := by
  unfold rank
  rw [hblock, Prod.Lex.toLex_lt_toLex, Prod.Lex.toLex_lt_toLex]
  exact .inr ⟨rfl, .inr ⟨rfl, habove⟩⟩

/-- A round that deletes something. -/
theorem BranchScan.rank_lt_of_length_lt {ids : List ℕ} {id : ℕ} {s t : BranchScan α}
    (h : t.block.length < s.block.length) : t.rank ids id < s.rank ids id := by
  unfold rank
  rw [Prod.Lex.toLex_lt_toLex]
  exact .inl h

/-- A round that makes the block end in a jump to be deleted. -/
theorem BranchScan.rank_lt_of_endsInFallThrough {ids : List ℕ} {id : ℕ} {s t : BranchScan α}
    (hlength : t.block.length = s.block.length) (hs : endsInFallThrough ids id s.block = false)
    (ht : endsInFallThrough ids id t.block = true) : t.rank ids id < s.rank ids id := by
  unfold rank
  rw [hlength, hs, ht, Prod.Lex.toLex_lt_toLex, Prod.Lex.toLex_lt_toLex]
  exact .inr ⟨rfl, .inl Nat.zero_lt_one⟩

/-- The end of a block that ends in a jump. -/
theorem endsInFallThrough_jump (ids : List ℕ) (id : ℕ) (xs : List (BlockInstr α))
    (mi : BlockInstr α) (target : ℕ) :
    endsInFallThrough ids id (xs ++ [mi, .terminator (.RJMPk target)]) =
      isLayoutSuccessor ids id target := by
  simp [endsInFallThrough]

section Rounds

variable {ids : List ℕ} {id : ℕ} {allowModify : Bool} {block : List (BlockInstr α)}
  {s t : BranchScan α} {above : List (BlockInstr α)}

/-- The block around the instruction that is looked at next. -/
theorem BranchScan.block_eq {mi : BlockInstr α} (habove : s.above = mi :: above) :
    s.block = above.reverse ++ mi :: s.below := by
  simp [block, habove]

/-- Passing an instruction keeps the block. -/
theorem ScanInv.passed (h : ScanInv ids id allowModify block s) {mi : BlockInstr α}
    (habove : s.above = mi :: above) :
    BranchesLast allowModify (above.reverse ++ mi :: s.below) ∧
      transfer ids id (above.reverse ++ mi :: s.below) = transfer ids id block := by
  rw [← BranchScan.block_eq habove]
  exact ⟨h.shape, h.transfer_eq⟩

/-- A debug value is passed. -/
theorem ScanInv.debugValue (h : ScanInv ids id allowModify block s)
    (habove : s.above = .debugValue :: above) :
    ScanInv ids id allowModify block { s with above := above, below := .debugValue :: s.below } := by
  obtain ⟨hshape, htransfer⟩ := h.passed habove
  refine ⟨hshape, htransfer, ?_, h.cond, fun hmodify => ?_⟩
  · rcases h.scanned with hdescribed | ⟨-, -, -, target, above', habove', -⟩
    · exact .inl hdescribed
    · rw [habove] at habove'
      cases habove'
  · rcases h.jump hmodify with hnone | ⟨hiter, between, target, hbelow, hnext, hcond⟩
    · exact .inl hnone
    · refine .inr ⟨hiter, .debugValue :: between, target, ?_, hnext, hcond⟩
      rw [hbelow]
      rfl

/-- Without permission a jump is remembered. -/
theorem ScanInv.jump_kept (h : ScanInv ids id false block s) {target : ℕ}
    (habove : s.above = .terminator (.RJMPk target) :: above) :
    ScanInv ids id false block
      { s with
        above := above
        below := .terminator (.RJMPk target) :: s.below
        unCondBr := some (s.below.length + 1)
        tbb := some target } := by
  obtain ⟨hshape, htransfer⟩ := h.passed habove
  -- nothing stands behind the jump, so no condition has been found
  have hbelow : s.below = [] := by
    rw [List.eq_nil_iff_forall_not_mem]
    intro mi hmi
    have hjump := (List.pairwise_append.mp (hshape.jumpLast rfl)).2.1
    exact (List.pairwise_cons.mp hjump).1 mi hmi target rfl
  have hcond : s.cond = [] ∧ s.fbb = none := by
    rcases h.cond with hcond | ⟨-, hterminators⟩
    · exact hcond
    · exact absurd (by rw [hbelow]; rfl) hterminators
  refine ⟨hshape, htransfer, .inl ?_, .inl hcond, nofun⟩
  unfold BranchScan.Described
  rw [hcond.1, described_nil, transfer_cons_jump]
  rfl

/-- With permission what follows a jump is deleted. -/
theorem ScanInv.transfer_jump (h : ScanInv ids id true block s) {target : ℕ}
    (habove : s.above = .terminator (.RJMPk target) :: above) :
    transfer ids id (above.reverse ++ [.terminator (.RJMPk target)]) = transfer ids id block := by
  rw [← h.transfer_eq, BranchScan.block_eq habove]
  apply transfer_append_right
  rw [transfer_cons_jump, transfer_cons_jump]

/-- What is above an instruction is a part of the block. -/
theorem BranchScan.sublist_above {mi : BlockInstr α} (habove : s.above = mi :: above) :
    (above.reverse ++ [mi]).Sublist s.block := by
  rw [BranchScan.block_eq habove, List.append_cons _ mi s.below]
  exact List.sublist_append_left _ _

/-- A jump to the layout successor is deleted too. -/
theorem ScanInv.jump_deleted (h : ScanInv ids id true block s) {target : ℕ}
    (habove : s.above = .terminator (.RJMPk target) :: above)
    (hnext : layoutNext ids id = some target) :
    ScanInv ids id true block ⟨above, [], none, none, none, []⟩ where
  shape := by
    have hsub : above.reverse.Sublist s.block :=
      (List.sublist_append_left _ _).trans (BranchScan.sublist_above habove)
    simpa [BranchScan.block] using h.shape.sublist hsub
  transfer_eq := by
    rw [← h.transfer_jump habove]
    exact transfer_append_right (transfer_nil hnext) _
  scanned := .inl rfl
  cond := .inl ⟨rfl, rfl⟩
  jump _ := .inl rfl

/-- Another jump is the last instruction. -/
theorem ScanInv.jump_last (h : ScanInv ids id true block s) {target : ℕ}
    (habove : s.above = .terminator (.RJMPk target) :: above)
    (hnext : layoutNext ids id ≠ some target) :
    ScanInv ids id true block
      ⟨above, [.terminator (.RJMPk target)], some 1, some target, none, []⟩ where
  shape := h.shape.sublist (BranchScan.sublist_above habove)
  transfer_eq := h.transfer_jump habove
  scanned := .inl rfl
  cond := .inl ⟨rfl, rfl⟩
  jump _ := .inr ⟨rfl, [], target, rfl, hnext, fun _ => rfl⟩

/-- Behind a terminator there are terminators only. -/
theorem BranchesLast.eq_nil_of_no_terminators {t : Terminator} {xs ys zs : List (BlockInstr α)}
    (h : BranchesLast allowModify (xs ++ .terminator t :: (ys ++ zs)))
    (hys : terminatorsOf ys = []) : ys = [] := by
  rw [List.eq_nil_iff_forall_not_mem]
  intro mi hmi
  have hlast := (List.pairwise_cons.mp (List.pairwise_append.mp h.last).2.1).1 mi
    (List.mem_append_left _ hmi) rfl
  rw [terminatorsOf_eq_nil_iff.mp hys mi hmi] at hlast
  exact absurd hlast (by decide)

/-- A conditional branch over a jump does the same as the reversed branch with the destinations
exchanged. -/
theorem transfer_exchange (opc : BranchOpcode) (target dest : ℕ) :
    transfer ids id ([.terminator (.branch
        (getBrCond (getOppositeCondition (getCondFromBranchOpc opc))) dest),
        .terminator (.RJMPk target)] : List (BlockInstr α)) =
      transfer ids id ([.terminator (.branch opc target), .terminator (.RJMPk dest)] :
        List (BlockInstr α)) := by
  rw [transfer_cons_branch, transfer_cons_branch, transfer_cons_jump, transfer_cons_jump]
  funext f
  rw [taken_getBrCond, holds_getOppositeCondition, holds_getCondFromBranchOpc]
  cases opc.taken f <;> rfl

/-- The block that the exchange finds: a branch and the jump that is last. -/
theorem ScanInv.block_of_exchange (h : ScanInv ids id true block s) {opc : BranchOpcode}
    {target : ℕ} (habove : s.above = .terminator (.branch opc target) :: above)
    (hcond : s.cond = []) {between after : List (BlockInstr α)} {dest : ℕ}
    (hunCond : s.unCond = some (between, dest, after)) :
    between = [] ∧ after = [] ∧ layoutNext ids id ≠ some dest ∧
      s.block = above.reverse ++
        [.terminator (.branch opc target), .terminator (.RJMPk dest)] := by
  rcases h.jump rfl with hnone | ⟨hiter, between', dest', hbelow, hdest, hterminators⟩
  · rw [BranchScan.unCond, hnone] at hunCond
    cases hunCond
  · rw [BranchScan.unCond_eq hiter hbelow] at hunCond
    obtain ⟨rfl, rfl, rfl⟩ : between' = between ∧ dest' = dest ∧ [] = after := by
      simpa using hunCond
    obtain ⟨hshape, -⟩ := h.passed habove
    rw [hbelow] at hshape
    obtain rfl := hshape.eq_nil_of_no_terminators (hterminators hcond)
    exact ⟨rfl, rfl, hdest, by rw [BranchScan.block_eq habove, hbelow, List.nil_append]⟩

/-- **A branch to the layout successor is reversed** and exchanged with the jump behind it. -/
theorem ScanInv.exchange (h : ScanInv ids id true block s) {opc : BranchOpcode} {target : ℕ}
    (habove : s.above = .terminator (.branch opc target) :: above) (hcond : s.cond = [])
    (hnext : layoutNext ids id = some target) {between after : List (BlockInstr α)} {dest : ℕ}
    (hunCond : s.unCond = some (between, dest, after)) :
    ScanInv ids id true block
      { s with
        above := (above.reverse ++ between ++
          .terminator (.branch (getBrCond (getOppositeCondition (getCondFromBranchOpc opc))) dest) ::
            .terminator (.RJMPk target) :: after).reverse
        below := []
        unCondBr := none } := by
  obtain ⟨rfl, rfl, hdest, hblock⟩ := h.block_of_exchange habove hcond hunCond
  have hfbb : s.fbb = none := by
    rcases h.cond with hcond' | ⟨⟨cc, target', hcc, -⟩, -⟩
    · exact hcond'.2
    · rw [hcond] at hcc
      cases hcc
  refine ⟨?_, ?_, .inr ⟨rfl, rfl, hcond, target, _, by simp; rfl, hnext⟩, .inl ⟨hcond, hfbb⟩,
    fun _ => .inl rfl⟩
  · have habove' : BranchesLast true above.reverse :=
      h.shape.sublist ((List.sublist_append_left _ _).trans (BranchScan.sublist_above habove))
    have hbranches : Terminator.RET ∉ [Terminator.branch (getBrCond (getOppositeCondition
        (getCondFromBranchOpc opc))) dest, .RJMPk target] := by
      simp
    simpa [BranchScan.block] using habove'.append_branches hbranches
  · rw [← h.transfer_eq, hblock]
    simp only [BranchScan.block, List.append_nil, List.reverse_reverse]
    exact transfer_append_right (transfer_exchange opc target dest) _

/-- At a conditional branch nothing has just been exchanged. -/
theorem ScanInv.described_of_branch (h : ScanInv ids id allowModify block s) {opc : BranchOpcode}
    {target : ℕ} (habove : s.above = .terminator (.branch opc target) :: above) :
    s.Described ids id := by
  rcases h.scanned with hdescribed | ⟨-, -, -, target', above', habove', -⟩
  · exact hdescribed
  · rw [habove] at habove'
    cases habove'

/-- The first conditional branch gives the condition. -/
theorem ScanInv.branch_first (h : ScanInv ids id allowModify block s) {opc : BranchOpcode}
    {target : ℕ} (habove : s.above = .terminator (.branch opc target) :: above)
    (hcond : s.cond = []) :
    ScanInv ids id allowModify block
      { s with
        above := above
        below := .terminator (.branch opc target) :: s.below
        fbb := s.tbb
        tbb := some target
        cond := [getCondFromBranchOpc opc] } := by
  obtain ⟨hshape, htransfer⟩ := h.passed habove
  refine ⟨hshape, htransfer, .inl ?_,
    .inr ⟨⟨_, target, rfl, rfl⟩, by simp⟩, fun hmodify => ?_⟩
  · have hdescribed := h.described_of_branch habove
    unfold BranchScan.Described at hdescribed ⊢
    rw [hcond, described_nil] at hdescribed
    rw [described_singleton, transfer_cons_branch, ← hdescribed]
    funext f
    rw [holds_getCondFromBranchOpc, place_exitTo]
  · rcases h.jump hmodify with hnone | ⟨hiter, between, dest, hbelow, hdest, -⟩
    · exact .inl hnone
    · refine .inr ⟨hiter, .terminator (.branch opc target) :: between, dest, ?_, hdest, nofun⟩
      rw [hbelow]
      rfl

/-- A second branch with the same condition and target changes nothing. -/
theorem ScanInv.branch_again (h : ScanInv ids id allowModify block s) {opc : BranchOpcode}
    {target : ℕ} (habove : s.above = .terminator (.branch opc target) :: above)
    {rest : List SNESCC} (hcond : s.cond = getCondFromBranchOpc opc :: rest)
    (htbb : s.tbb = some target) :
    ScanInv ids id allowModify block
      { s with above := above, below := .terminator (.branch opc target) :: s.below } := by
  obtain ⟨hshape, htransfer⟩ := h.passed habove
  have hsingle : s.cond = [getCondFromBranchOpc opc] := by
    rcases h.cond with hnil | ⟨⟨cc, target', hcc, -⟩, -⟩
    · rw [hcond] at hnil
      cases hnil.1
    · rw [hcond] at hcc
      rw [hcond, (List.cons.inj hcc).2]
  refine ⟨hshape, htransfer, .inl ?_,
    .inr ⟨⟨_, target, hsingle, htbb⟩, by simp⟩, fun hmodify => ?_⟩
  · have hdescribed := h.described_of_branch habove
    unfold BranchScan.Described at hdescribed ⊢
    rw [transfer_cons_branch, ← hdescribed]
    simp only [hsingle, htbb, described_singleton, place_exitTo, holds_getCondFromBranchOpc]
    funext f
    split <;> rfl
  · rcases h.jump hmodify with hnone | ⟨hiter, between, dest, hbelow, hdest, -⟩
    · exact .inl hnone
    · refine .inr ⟨hiter, .terminator (.branch opc target) :: between, dest, ?_, hdest, ?_⟩
      · rw [hbelow]
        rfl
      · intro hnil
        rw [hsingle] at hnil
        cases hnil

/-- **Every round keeps the invariant** and decreases the rank. -/
theorem ScanInv.next (h : ScanInv ids id allowModify block s)
    (hstep : analyzeStep (isLayoutSuccessor ids id) allowModify s = .inl t) :
    ScanInv ids id allowModify block t ∧ t.rank ids id < s.rank ids id := by
  unfold analyzeStep at hstep
  split at hstep
  case h_1 => cases hstep
  case h_2 above habove =>
      obtain rfl := Sum.inl.inj hstep
      exact ⟨h.debugValue habove,
        BranchScan.rank_lt_of_block_eq (BranchScan.block_eq habove).symm (by simp [habove])⟩
  case h_3 => cases hstep
  case h_4 => cases hstep
  case h_5 target above habove =>
      have hblock := BranchScan.block_eq habove
      cases allowModify with
      | false =>
          obtain rfl := Sum.inl.inj hstep
          exact ⟨h.jump_kept habove, BranchScan.rank_lt_of_block_eq hblock.symm (by simp [habove])⟩
      | true =>
          simp only [Bool.not_true, Bool.false_eq_true, if_false, isLayoutSuccessor,
            decide_eq_true_eq] at hstep
          split_ifs at hstep with hnext
          · obtain rfl := Sum.inl.inj hstep
            refine ⟨h.jump_deleted habove hnext, BranchScan.rank_lt_of_length_lt ?_⟩
            rw [hblock]
            simp [BranchScan.block]
          · obtain rfl := Sum.inl.inj hstep
            refine ⟨h.jump_last habove hnext, ?_⟩
            by_cases hbelow : s.below = []
            · refine BranchScan.rank_lt_of_block_eq ?_ (by simp [habove])
              rw [hblock, hbelow]
              rfl
            · have hpos := List.length_pos_of_ne_nil hbelow
              refine BranchScan.rank_lt_of_length_lt ?_
              rw [hblock]
              simp [BranchScan.block]
              omega
  case h_6 opc target above habove =>
      have hblock := BranchScan.block_eq habove
      simp only at hstep
      split at hstep
      case h_1 hcond =>
          split at hstep
          case h_1 between dest after hsuccessor hunCond =>
              obtain rfl := Sum.inl.inj hstep
              rw [Bool.and_eq_true, isLayoutSuccessor, decide_eq_true_eq] at hsuccessor
              obtain ⟨rfl, hnext⟩ := hsuccessor
              refine ⟨h.exchange habove hcond hnext hunCond, ?_⟩
              obtain ⟨rfl, rfl, hdest, hends⟩ := h.block_of_exchange habove hcond hunCond
              refine BranchScan.rank_lt_of_endsInFallThrough ?_ ?_ ?_
              · simp [BranchScan.block, habove] at hends ⊢
                simp [hends]
              · rw [hends, endsInFallThrough_jump, isLayoutSuccessor, decide_eq_false hdest]
              · simp only [BranchScan.block, List.append_nil, List.reverse_reverse]
                rw [endsInFallThrough_jump, isLayoutSuccessor, decide_eq_true hnext]
          case h_2 =>
              obtain rfl := Sum.inl.inj hstep
              exact ⟨h.branch_first habove hcond,
                BranchScan.rank_lt_of_block_eq hblock.symm (by simp [habove])⟩
      case h_2 old rest hcond =>
          split_ifs at hstep with hsame
          obtain rfl := Sum.inl.inj hstep
          obtain ⟨htbb, rfl⟩ := hsame
          exact ⟨h.branch_again habove hcond htbb,
            BranchScan.rank_lt_of_block_eq hblock.symm (by simp [habove])⟩

/-- What holds of a result: the block does the same, and the results of an analysis that does not
fail describe it. -/
structure ResultInv (ids : List ℕ) (id : ℕ) (block : List (BlockInstr α))
    (result : BranchAnalysis α) : Prop where
  shape : BranchesLast false result.block ∨ BranchesLast true result.block
  transfer_eq : transfer ids id result.block = transfer ids id block
  described_eq : result.failed = false →
    described ids id result.tbb result.fbb result.cond = transfer ids id block
  cond : result.cond = [] ∧ result.fbb = none ∨
    ∃ cc target, result.cond = [cc] ∧ result.tbb = some target

/-- A result without failure is what has been scanned. -/
theorem ScanInv.resultInv (h : ScanInv ids id allowModify block s) {failed : Bool}
    (hdescribed : failed = false → s.Described ids id ∧ terminatorsOf s.above.reverse = []) :
    ResultInv ids id block (s.result failed) where
  shape := by
    cases allowModify
    · exact .inl h.shape
    · exact .inr h.shape
  transfer_eq := h.transfer_eq
  described_eq hfailed := by
    obtain ⟨hscanned, habove⟩ := hdescribed hfailed
    rw [← h.transfer_eq, BranchScan.block, transfer_of_no_terminators habove]
    exact hscanned
  cond := by
    rcases h.cond with hcond | ⟨hcond, -⟩
    · exact .inl hcond
    · exact .inr hcond

/-- **When the loop ends** the results describe the block. -/
theorem ScanInv.done (h : ScanInv ids id allowModify block s) {result : BranchAnalysis α}
    (hstep : analyzeStep (isLayoutSuccessor ids id) allowModify s = .inr result) :
    ResultInv ids id block result := by
  -- no jump has been exchanged when the scan ends
  have hscanned (hjump : ∀ target above, s.above ≠ .terminator (.RJMPk target) :: above) :
      s.Described ids id := by
    rcases h.scanned with hdescribed | ⟨-, -, -, target, above, habove, -⟩
    · exact hdescribed
    · exact absurd habove (hjump target above)
  unfold analyzeStep at hstep
  split at hstep
  case h_1 habove =>
      obtain rfl := Sum.inr.inj hstep
      refine h.resultInv fun _ => ⟨hscanned ?_, by rw [habove]; rfl⟩
      rw [habove]
      exact nofun
  case h_2 => cases hstep
  case h_3 mi above habove =>
      obtain rfl := Sum.inr.inj hstep
      refine h.resultInv fun _ => ⟨hscanned ?_, ?_⟩
      · rw [habove]
        exact nofun
      · have hrest := (h.passed habove).1.no_terminators rfl
        rw [habove, List.reverse_cons, terminatorsOf_append, hrest]
        rfl
  case h_4 =>
      obtain rfl := Sum.inr.inj hstep
      exact h.resultInv nofun
  case h_5 => split_ifs at hstep
  case h_6 =>
      simp only at hstep
      split at hstep
      · split at hstep <;> cases hstep
      · split_ifs at hstep
        obtain rfl := Sum.inr.inj hstep
        exact h.resultInv nofun

end Rounds

/-- **`analyzeBranch` terminates** with a result that describes the block. -/
theorem exists_analyzesTo (ids : List ℕ) (id : ℕ) {allowModify : Bool}
    {block : List (BlockInstr α)} (h : BranchesLast allowModify block) :
    ∃ result, AnalyzesTo (isLayoutSuccessor ids id) allowModify block result ∧
      ResultInv ids id block result :=
  exists_returns (InvImage.wf (BranchScan.rank ids id) wellFounded_lt)
    (fun _ _ hs hstep => hs.next hstep) (fun _ _ hs hstep => hs.done hstep) (scanInv_start h)

/-! ## Removing and inserting -/

/-- Without terminators `removeBranch` is done. -/
theorem returns_removeStep_of_no_terminators {above : List (BlockInstr α)}
    (h : terminatorsOf above.reverse = []) (below : List (BlockInstr α)) (count bytes : ℕ) :
    Returns removeStep ⟨above, below, count, bytes⟩ (above.reverse ++ below, count, bytes) := by
  induction above generalizing below with
  | nil => exact .done rfl
  | cons mi above ih =>
      rw [List.reverse_cons, terminatorsOf_append, List.append_eq_nil_iff] at h
      cases mi with
      | debugValue =>
          have hstep : removeStep ⟨.debugValue :: above, below, count, bytes⟩ =
              .inl ⟨above, .debugValue :: below, count, bytes⟩ := rfl
          rw [List.reverse_cons, List.append_assoc]
          exact .next hstep (ih h.1 (.debugValue :: below))
      | inst mi => exact .done rfl
      | terminator t => cases h.2

/-- **`removeBranch` removes the branches at the end** and counts them. -/
theorem returns_removeStep {body : List (BlockInstr α)} (hbody : terminatorsOf body = [])
    {ts : List Terminator} (hts : .RET ∉ ts) (count bytes : ℕ) :
    Returns removeStep ⟨(body ++ ts.map BlockInstr.terminator).reverse, [], count, bytes⟩
      (body, count + ts.length, bytes + (ts.map Terminator.getInstSizeInBytes).sum) := by
  induction ts using List.reverseRecOn generalizing count bytes with
  | nil =>
      have hbody' : terminatorsOf body.reverse.reverse = [] := by rwa [List.reverse_reverse]
      simpa using returns_removeStep_of_no_terminators hbody' [] count bytes
  | append_singleton ts t ih =>
      rw [List.mem_append, not_or] at hts
      have hstep : removeStep
            ⟨(body ++ (ts ++ [t]).map BlockInstr.terminator).reverse, [], count, bytes⟩ =
          .inl ⟨(body ++ ts.map BlockInstr.terminator).reverse, [], count + 1,
            bytes + t.getInstSizeInBytes⟩ := by
        cases t <;> simp_all [removeStep]
      have hnext := Returns.next hstep (ih hts.1 (count + 1) (bytes + t.getInstSizeInBytes))
      convert hnext using 2
      simp only [List.length_append, List.map_append, List.sum_append, List.length_singleton,
        List.map_singleton, List.sum_singleton]
      congr 1 <;> omega

/-- The branches that are inserted do what is described. -/
theorem insertsRight_described {ids : List ℕ} {id : ℕ} {rest : List (BlockInstr α)}
    (hrest : terminatorsOf rest = []) (tbb : ℕ) {fbb : Option ℕ} {cond : List SNESCC}
    (hcond : cond = [] ∧ fbb = none ∨ ∃ cc, cond = [cc]) :
    InsertsRight ids id rest tbb fbb cond (described ids id (some tbb) fbb cond) := by
  rcases hcond with ⟨rfl, rfl⟩ | ⟨cc, rfl⟩
  · refine ⟨[.RJMPk tbb], 1, _, rfl, ⟨rfl, rfl⟩, ?_⟩
    exact transfer_of_no_terminators hrest _
  · cases fbb with
    | none =>
        refine ⟨[.branch (getBrCond cc) tbb], 1, _, rfl, ⟨rfl, rfl⟩, ?_⟩
        rw [transfer_of_no_terminators hrest, described_singleton]
        refine (transfer_cons_branch ids id (getBrCond cc) tbb []).trans ?_
        simp only [taken_getBrCond]
        rfl
    | some fbb =>
        refine ⟨[.branch (getBrCond cc) tbb, .RJMPk fbb], 2, _, rfl, ⟨rfl, rfl⟩, ?_⟩
        rw [transfer_of_no_terminators hrest, described_singleton]
        refine (transfer_cons_branch ids id (getBrCond cc) tbb _).trans ?_
        simp only [taken_getBrCond]
        rfl

/-- The reversed condition with the destinations exchanged describes the same. -/
theorem described_reversed {ids : List ℕ} {id dest : ℕ} {fbb : Option ℕ}
    (hdest : (fbb <|> layoutNext ids id) = some dest) (tbb : ℕ) (cc : SNESCC) :
    described ids id (some dest) (some tbb) [getOppositeCondition cc] =
      described ids id (some tbb) fbb [cc] := by
  have hfalse : (exitTo fbb).place ids id = .block dest := by
    cases fbb with
    | none => simp only [exitTo, Exit.place, show layoutNext ids id = some dest from hdest]
    | some fbb => exact congrArg Place.block (Option.some.inj hdest)
  rw [described_singleton, described_singleton]
  funext f
  rw [holds_getOppositeCondition, place_exitTo, place_exitTo, hfalse]
  cases cc.holds f <;> rfl

/-- **What an analysis promises to whoever rewrites the branches.** -/
theorem ResultInv.rewritable {ids : List ℕ} {id : ℕ} {block : List (BlockInstr α)}
    {result : BranchAnalysis α} (h : ResultInv ids id block result)
    (hfailed : result.failed = false) {tbb : ℕ} (htbb : result.tbb = some tbb) :
    Rewritable ids id (transfer ids id block) result tbb := by
  obtain ⟨body, ts, hblock, hbody, hts⟩ : ∃ (body : List (BlockInstr α)) (ts : List Terminator),
      result.block = body ++ ts.map .terminator ∧ terminatorsOf body = [] ∧ .RET ∉ ts := by
    rcases h.shape with hshape | hshape <;> exact hshape.exists_split
  have hdescribed := h.described_eq hfailed
  rw [htbb] at hdescribed
  have hremoves : RemovesTo result.block
      (body, ts.length, (ts.map Terminator.getInstSizeInBytes).sum) := by
    have hreturns := returns_removeStep hbody hts 0 0
    rwa [Nat.zero_add, Nat.zero_add, ← hblock] at hreturns
  have hcond : result.cond = [] ∧ result.fbb = none ∨ ∃ cc, result.cond = [cc] := by
    rcases h.cond with hnil | ⟨cc, -, hcc, -⟩
    · exact .inl hnil
    · exact .inr ⟨cc, hcc⟩
  refine ⟨⟨body, ts, _, _, hremoves, hblock, ⟨rfl, rfl⟩, ?_, ?_⟩⟩
  · rw [← hdescribed]
    exact insertsRight_described hbody tbb hcond
  · intro dest hsome hdest
    rcases hcond with ⟨hnil, -⟩ | ⟨cc, hcc⟩
    · exact absurd hnil hsome
    · refine ⟨[getOppositeCondition cc], by rw [hcc]; rfl, ?_⟩
      rw [← hdescribed, hcc, ← described_reversed hdest tbb cc]
      exact insertsRight_described hbody dest (.inr ⟨_, rfl⟩)

/-- **Branch analysis is right**: for branches behind everything else and any layout `analyzeBranch`
returns, the block does the same as before, and unless the analysis fails its results describe the
block and the branches may be removed and inserted again, also with the condition reversed. -/
theorem analyzeBranch_right (ids : List ℕ) (id : ℕ) (allowModify : Bool)
    {block : List (BlockInstr α)} (h : BranchesLast allowModify block) :
    ∃ result, AnalyzesTo (isLayoutSuccessor ids id) allowModify block result ∧
      AnalysisRight ids id block result := by
  obtain ⟨result, hreturns, hresult⟩ := exists_analyzesTo ids id h
  exact ⟨result, hreturns, hresult.transfer_eq, hresult.described_eq,
    fun hfailed _ htbb => hresult.rewritable hfailed htbb⟩

/-- A branch to the layout successor over a jump. -/
theorem analyzeBranch_right_BREQk :
    ∃ result, AnalyzesTo (isLayoutSuccessor [0, 1, 2] 0) true
        [.inst (), .terminator (.branch .BREQk 1), .terminator (.RJMPk 2)] result ∧
      AnalysisRight [0, 1, 2] 0
        [.inst (), .terminator (.branch .BREQk 1), .terminator (.RJMPk 2)] result :=
  analyzeBranch_right [0, 1, 2] 0 true ⟨by decide, by decide, nofun⟩

/-- The branch is reversed, and the jump is a fall-through. -/
example : AnalyzesTo (isLayoutSuccessor [0, 1, 2] 0) true
    [.inst (), .terminator (.branch .BREQk 1), .terminator (.RJMPk 2)]
    ⟨[.inst (), .terminator (.branch .BRNEk 2)], false, some 2, none, [.COND_NE]⟩ :=
  .next rfl (.next rfl (.next rfl (.next rfl (.done rfl))))

end Snes
