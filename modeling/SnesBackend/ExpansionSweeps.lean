/-
# The Sweeps of the Expansion

The do-while loop of `runOnMachineFunction` in `SNESExpandPseudoInsts.cpp`, with its
counter and the assertion on it.  A sweep does not visit the instructions that it
inserts, so that what an atomic operation on a word expands to is left for the next
one.

Every expansion inserts instructions of a smaller rank, whatever its operands are.
Three sweeps are therefore enough.
-/
import SnesBackend.ExpandPass
import SnesBackend.SteppedLoop

namespace Snes

open RoundRewriting SteppedLoop ExpandPseudo

/-! ## The loop -/

/-- How the loop on a block ends: the assertion on the counter fails, an expansion fails, or a
sweep changes nothing; then so many sweeps have been made. -/
inductive SweepsOutcome where
  | limitReached
  | expansionFailed
  | ended (block : List MachineInstr) (expandCount : ℕ)
deriving DecidableEq, Repr

/-- One turn of the loop on a block, from the counter and the block. -/
def expandSweep (scavenge : Scavenger) :
    ℕ × List MachineInstr → (ℕ × List MachineInstr) ⊕ SweepsOutcome
  | (expandCount, block) =>
      if expandCount < 10 then
        match expandMBB scavenge block with
        | none => .inr .expansionFailed
        | some (block, true) => .inl (expandCount + 1, block)
        | some (block, false) => .inr (.ended block (expandCount + 1))
      else
        .inr .limitReached

section

variable {scavenge : Scavenger} {s t : ℕ × List MachineInstr} {outcome : SweepsOutcome}

/-- A turn that is followed by another one. -/
theorem expandSweep_eq_inl (h : expandSweep scavenge s = .inl t) :
    s.1 < 10 ∧ ∃ new, expandMBB scavenge s.2 = some (new, true) ∧ t = (s.1 + 1, new) := by
  obtain ⟨expandCount, block⟩ := s
  rw [expandSweep] at h
  split_ifs at h with hcount
  rcases hround : expandMBB scavenge block with _ | ⟨new, _ | _⟩
  all_goals rw [hround] at h; cases h
  exact ⟨hcount, new, rfl, rfl⟩

/-- A turn that is the last one. -/
theorem expandSweep_eq_inr (h : expandSweep scavenge s = .inr outcome) :
    (10 ≤ s.1 ∧ outcome = .limitReached) ∨
    (expandMBB scavenge s.2 = none ∧ outcome = .expansionFailed) ∨
    ∃ new, expandMBB scavenge s.2 = some (new, false) ∧ outcome = .ended new (s.1 + 1) := by
  obtain ⟨expandCount, block⟩ := s
  rw [expandSweep] at h
  split_ifs at h with hcount
  · rcases hround : expandMBB scavenge block with _ | ⟨new, _ | _⟩
    all_goals rw [hround] at h; cases h
    · exact .inr (.inl ⟨rfl, rfl⟩)
    · exact .inr (.inr ⟨new, rfl, rfl⟩)
  · cases h
    exact .inl ⟨by omega, rfl⟩

end

/-! ## Every expansion inserts smaller ranks -/

/-- All instructions that an expansion inserts are of a rank below a bound. -/
def InsertsBelow (n : ℕ) (result : Option (List MachineInstr)) : Prop :=
  ∀ mis, result = some mis → ∀ mi ∈ mis, mi.opcode.expansionRank < n

section

variable {n : ℕ} {α : Type}

/-- A step of an expansion that inserts nothing itself. -/
theorem insertsBelow_bind {x : Option α} {f : α → Option (List MachineInstr)}
    (h : ∀ a, InsertsBelow n (f a)) : InsertsBelow n (x.bind f) := by
  intro mis hmis
  obtain ⟨a, -, ha⟩ := Option.bind_eq_some_iff.mp hmis
  exact h a mis ha

/-- The instructions that are inserted at the end. -/
theorem insertsBelow_some {mis : List MachineInstr}
    (h : (mis.all fun mi => decide (mi.opcode.expansionRank < n)) = true) :
    InsertsBelow n (some mis) := by
  rintro _ ⟨rfl⟩ mi hmi
  simpa using List.all_eq_true.mp h mi hmi

/-- Either of two ways to go on. -/
theorem insertsBelow_ite {p : Prop} [Decidable p] {x y : Option (List MachineInstr)}
    (hx : InsertsBelow n x) (hy : InsertsBelow n y) : InsertsBelow n (if p then x else y) := by
  split
  · exact hx
  · exact hy

end

section

variable {n : ℕ} {op opLo opHi : Opcode}

/-- Arithmetic inserts one instruction for each half. -/
theorem insertsBelow_expandArith (hLo : opLo.expansionRank < n) (hHi : opHi.expansionRank < n)
    (mi : MachineInstr) : InsertsBelow n (expandArith opLo opHi mi) :=
  insertsBelow_bind fun _ => insertsBelow_bind fun _ => insertsBelow_bind fun ⟨_, _⟩ =>
    insertsBelow_bind fun ⟨_, _⟩ => insertsBelow_some (by simp [hLo, hHi])

/-- So does logic. -/
theorem insertsBelow_expandLogic (hop : op.expansionRank < n) (mi : MachineInstr) :
    InsertsBelow n (expandLogic op mi) :=
  insertsBelow_bind fun _ => insertsBelow_bind fun _ => insertsBelow_bind fun ⟨_, _⟩ =>
    insertsBelow_bind fun ⟨_, _⟩ => insertsBelow_some (by simp [hop])

/-- Logic with an immediate leaves out what is redundant. -/
theorem insertsBelow_expandLogicImm (hop : op.expansionRank < n) (mi : MachineInstr) :
    InsertsBelow n (expandLogicImm op mi) := by
  refine insertsBelow_bind fun _ => insertsBelow_bind fun _ => insertsBelow_bind fun ⟨_, _⟩ => ?_
  apply insertsBelow_some
  rw [List.all_append, Bool.and_eq_true]
  constructor <;> split <;> simp [hop]

/-- A unary operation, low half first. -/
theorem insertsBelow_expandUnaryLoHi (hLo : opLo.expansionRank < n) (hHi : opHi.expansionRank < n)
    (mi : MachineInstr) : InsertsBelow n (expandUnaryLoHi opLo opHi mi) :=
  insertsBelow_bind fun _ => insertsBelow_bind fun ⟨_, _⟩ => insertsBelow_some (by simp [hLo, hHi])

/-- A unary operation, high half first. -/
theorem insertsBelow_expandUnaryHiLo (hLo : opLo.expansionRank < n) (hHi : opHi.expansionRank < n)
    (mi : MachineInstr) : InsertsBelow n (expandUnaryHiLo opLo opHi mi) :=
  insertsBelow_bind fun _ => insertsBelow_bind fun ⟨_, _⟩ => insertsBelow_some (by simp [hLo, hHi])

/-- A comparison. -/
theorem insertsBelow_expandCompare (hLo : opLo.expansionRank < n) (hHi : opHi.expansionRank < n)
    (mi : MachineInstr) : InsertsBelow n (expandCompare opLo opHi mi) :=
  insertsBelow_bind fun _ => insertsBelow_bind fun _ => insertsBelow_bind fun ⟨_, _⟩ =>
    insertsBelow_bind fun ⟨_, _⟩ => insertsBelow_some (by simp [hLo, hHi])

/-- An atomic operation surrounds its body with instructions that are no pseudos. -/
theorem insertsBelow_expandAtomic (hn : 0 < n) {body : List MachineInstr}
    (hbody : (body.all fun mi => decide (mi.opcode.expansionRank < n)) = true) :
    InsertsBelow n (some (expandAtomic body)) := by
  have rank : Opcode.expansionRank .INRdA = 0 ∧ Opcode.expansionRank .BCLRs = 0 ∧
      Opcode.expansionRank .OUTARr = 0 := by decide
  apply insertsBelow_some
  simp [expandAtomic, hbody, rank, hn]

/-- An atomic operation of one instruction. -/
theorem insertsBelow_expandAtomicBinaryOp (hn : 0 < n) (hop : op.expansionRank < n)
    (mi : MachineInstr) : InsertsBelow n (expandAtomicBinaryOp op mi) :=
  insertsBelow_bind fun _ => insertsBelow_bind fun _ =>
    insertsBelow_expandAtomic hn (by simp [hop])

/-- An atomic operation on a byte. -/
theorem insertsBelow_expandAtomicArithmeticOp_byte (hop : op.expansionRank = 0)
    (mi : MachineInstr) : InsertsBelow 1 (expandAtomicArithmeticOp 8 op mi) :=
  insertsBelow_bind fun _ => insertsBelow_bind fun _ =>
    insertsBelow_expandAtomic Nat.one_pos (by simp [hop]; decide)

/-- An atomic operation on a word. -/
theorem insertsBelow_expandAtomicArithmeticOp_word (hop : op.expansionRank = 1)
    (mi : MachineInstr) : InsertsBelow 2 (expandAtomicArithmeticOp 16 op mi) :=
  insertsBelow_bind fun _ => insertsBelow_bind fun _ =>
    insertsBelow_expandAtomic Nat.two_pos (by simp [hop]; decide)

end

section

variable {scavengeMainRegs : MachineInstr → Option Reg} {mi : MachineInstr}

/-- A load through a pointer asks for a register where the pointer is the destination. -/
theorem insertsBelow_expandLDWRdPtr : InsertsBelow 1 (expandLDWRdPtr scavengeMainRegs mi) :=
  insertsBelow_bind fun _ => insertsBelow_bind fun _ => insertsBelow_bind fun ⟨_, _⟩ =>
    insertsBelow_ite (insertsBelow_bind fun _ => insertsBelow_some rfl) (insertsBelow_some rfl)

/-- So does a load with a displacement. -/
theorem insertsBelow_expandLDDWRdPtrQ : InsertsBelow 1 (expandLDDWRdPtrQ scavengeMainRegs mi) :=
  insertsBelow_bind fun _ => insertsBelow_bind fun _ => insertsBelow_bind fun _ =>
    insertsBelow_bind fun ⟨_, _⟩ => insertsBelow_bind fun _ =>
      insertsBelow_ite (insertsBelow_bind fun _ => insertsBelow_some rfl) (insertsBelow_some rfl)

/-- The other accesses, the expansions with an immediate or an address, and those of the stack
insert no pseudos. -/
theorem insertsBelow_access {expand : MachineInstr → Option (List MachineInstr)}
    (h : expand ∈ [expandSUBIWRdK, expandSBCIWRdK, expandLDIWRdK, expandLDSWRdK, expandLDWRdPtrPi,
      expandLDWRdPtrPd, expandSTSWKRr, expandSTWPtrRr, expandSTWPtrPiRr, expandSTWPtrPdRr,
      expandSTDWPtrQRr, expandINWRdA, expandOUTWARr, expandPUSHWRr, expandPOPWRd,
      expandSPWRITE]) : InsertsBelow 1 (expand mi) := by
  simp only [List.mem_cons, List.not_mem_nil, or_false] at h
  rcases h with rfl | rfl | rfl | rfl | rfl | rfl | rfl | rfl | rfl | rfl | rfl | rfl | rfl | rfl |
    rfl | rfl
  -- by what is read before the instructions are built: registers, immediates, halves, assertions
  all_goals first
    | exact insertsBelow_bind fun _ => insertsBelow_some rfl
    | exact insertsBelow_bind fun _ => insertsBelow_bind fun ⟨_, _⟩ => insertsBelow_some rfl
    | exact insertsBelow_bind fun _ => insertsBelow_bind fun ⟨_, _⟩ =>
        insertsBelow_bind fun ⟨_, _⟩ => insertsBelow_some rfl
    | exact insertsBelow_bind fun _ => insertsBelow_bind fun _ =>
        insertsBelow_bind fun ⟨_, _⟩ => insertsBelow_some rfl
    | exact insertsBelow_bind fun _ => insertsBelow_bind fun _ =>
        insertsBelow_bind fun ⟨_, _⟩ => insertsBelow_bind fun _ => insertsBelow_some rfl
    | exact insertsBelow_bind fun _ => insertsBelow_bind fun _ => insertsBelow_bind fun _ =>
        insertsBelow_bind fun ⟨_, _⟩ => insertsBelow_bind fun _ => insertsBelow_some rfl

/-- What the pass makes of an instruction. -/
theorem InsertsBelow.of_expanded {n : ℕ} {result : Option (List MachineInstr)}
    (h : InsertsBelow n result) {mis : List MachineInstr}
    (hmis : ExpandResult.ofOption result = .expanded mis) :
    ∀ mi ∈ mis, mi.opcode.expansionRank < n := by
  cases result with
  | none => cases hmis
  | some _ =>
    cases hmis
    exact h _ rfl

/-- **Every expansion goes down in rank**, whatever the operands are. -/
theorem expansionRank_lt_of_expanded {mis : List MachineInstr}
    (h : expandMI scavengeMainRegs mi = .expanded mis) :
    ∀ mi' ∈ mis, mi'.opcode.expansionRank < mi.opcode.expansionRank := by
  obtain ⟨op, operands⟩ := mi
  change ∀ mi' ∈ mis, mi'.opcode.expansionRank < op.expansionRank
  cases op
  case ADDWRdRr | ADCWRdRr | SUBWRdRr | SBCWRdRr =>
    exact (insertsBelow_expandArith (by decide) (by decide) _).of_expanded h
  case ANDWRdRr | ORWRdRr | EORWRdRr =>
    exact (insertsBelow_expandLogic (by decide) _).of_expanded h
  case ANDIWRdK | ORIWRdK => exact (insertsBelow_expandLogicImm (by decide) _).of_expanded h
  case COMWRd | LSLWRd =>
    exact (insertsBelow_expandUnaryLoHi (by decide) (by decide) _).of_expanded h
  case LSRWRd | ASRWRd =>
    exact (insertsBelow_expandUnaryHiLo (by decide) (by decide) _).of_expanded h
  case CPWRdRr | CPCWRdRr =>
    exact (insertsBelow_expandCompare (by decide) (by decide) _).of_expanded h
  case LDWRdPtr => exact insertsBelow_expandLDWRdPtr.of_expanded h
  case LDDWRdYQ | LDDWRdPtrQ => exact insertsBelow_expandLDDWRdPtrQ.of_expanded h
  case SUBIWRdK | SBCIWRdK | LDIWRdK | LDSWRdK | LDWRdPtrPi | LDWRdPtrPd | STSWKRr | STWPtrRr
      | STWPtrPiRr | STWPtrPdRr | STDWPtrQRr | INWRdA | OUTWARr | PUSHWRr | POPWRd | SPWRITE =>
    refine InsertsBelow.of_expanded (insertsBelow_access ?_) h
    simp
  case AtomicLoad8 | AtomicStore8 | AtomicLoad16 | AtomicStore16 =>
    exact (insertsBelow_expandAtomicBinaryOp (by decide) (by decide) _).of_expanded h
  case AtomicLoadAdd8 | AtomicLoadSub8 | AtomicLoadAnd8 | AtomicLoadOr8 | AtomicLoadXor8 =>
    exact (insertsBelow_expandAtomicArithmeticOp_byte (by decide) _).of_expanded h
  case AtomicLoadAdd16 | AtomicLoadSub16 | AtomicLoadAnd16 | AtomicLoadOr16 | AtomicLoadXor16 =>
    exact (insertsBelow_expandAtomicArithmeticOp_word (by decide) _).of_expanded h
  case AtomicFence =>
    cases h
    simp
  -- the switch does not name the others, or their expansion is not reachable
  all_goals cases h

end

/-! ## Ranks of sweeps -/

/-- The pseudos that the switch of `expandMI` does not name. -/
def Opcode.notInSwitch : Opcode → Bool
  | ADJCALLSTACKDOWN | ADJCALLSTACKUP | SEXT | ZEXT | FRMIDX | STDSPQRr | STDWSPQRr | Select8
  | Select16 | Lsl8 | Lsl16 | Lsr8 | Lsr16 | Rol8 | Rol16 | Ror8 | Ror16 | Asr8 | Asr16 => true
  | _ => false

/-- The number of sweeps that change what an instruction becomes. -/
def Opcode.sweepRank (op : Opcode) : ℕ :=
  if op.notInSwitch then 0 else op.expansionRank

/-- The pass leaves exactly the instructions alone that need no sweep. -/
theorem expandMI_eq_unchanged_iff (scavengeMainRegs : MachineInstr → Option Reg)
    (mi : MachineInstr) :
    expandMI scavengeMainRegs mi = .unchanged ↔ mi.opcode.sweepRank = 0 := by
  obtain ⟨op, operands⟩ := mi
  have named : ∀ result, ExpandResult.ofOption result ≠ .unchanged := by
    rintro (_ | _) <;> simp [ExpandResult.ofOption]
  change expandMI scavengeMainRegs ⟨op, operands⟩ = .unchanged ↔ op.sweepRank = 0
  cases op
  all_goals first
    | exact iff_of_true rfl rfl
    | exact iff_of_false (named _) (by decide)
    | exact iff_of_false (by simp [expandMI]) (by decide)

/-- A rank of sweeps is at most a rank of expansions. -/
theorem sweepRank_le_expansionRank (op : Opcode) : op.sweepRank ≤ op.expansionRank := by
  rw [Opcode.sweepRank]
  split <;> omega

/-- The two ranks of an opcode that the switch names are the same. -/
theorem sweepRank_of_pos {op : Opcode} (h : 0 < op.sweepRank) :
    op.notInSwitch = false ∧ op.sweepRank = op.expansionRank := by
  rw [Opcode.sweepRank] at h ⊢
  cases hop : op.notInSwitch with
  | false => exact ⟨rfl, rfl⟩
  | true =>
    rw [hop] at h
    exact absurd h (by simp)

/-- **The pass is lowering**: it changes the pseudos that its switch names, into instructions that
need fewer sweeps. -/
theorem lowering_expandStep (scavenge : Scavenger) :
    Lowering (expandStep scavenge) fun mi => mi.opcode.sweepRank where
  stop before mi hrank := by
    rw [expandStep, (expandMI_eq_unchanged_iff (scavenge before) mi).mpr hrank]
    rfl
  moves before mi hrank hstep := by
    have unchanged : expandMI (scavenge before) mi = .unchanged := by
      unfold expandStep ExpandResult.toStep at hstep
      split at hstep <;> first | assumption | cases hstep
    exact hrank.ne' ((expandMI_eq_unchanged_iff _ mi).mp unchanged)
  down before mi mis hstep mi' hmi' := by
    have expanded : expandMI (scavenge before) mi = .expanded mis := by
      unfold expandStep ExpandResult.toStep at hstep
      split at hstep <;> cases hstep
      assumption
    have hpos : 0 < mi.opcode.sweepRank := by
      by_contra hne
      rw [(expandMI_eq_unchanged_iff _ mi).mpr (by omega)] at expanded
      cases expanded
    have hlt := expansionRank_lt_of_expanded expanded mi' hmi'
    have hle := sweepRank_le_expansionRank mi'.opcode
    rw [(sweepRank_of_pos hpos).2]
    omega

/-- A pseudo that the switch does not name, or whose expansion does not fail. -/
def MachineInstr.Sweepable (mi : MachineInstr) : Prop :=
  mi.opcode.notInSwitch = true ∨ mi.Expandable

/-- Instructions whose expansions do not fail go down in rank. -/
theorem ranked_sweepable {scavenge : Scavenger}
    (hscavenge : ∀ before mi, (scavenge before mi).isSome = true) :
    Ranked (expandStep scavenge) MachineInstr.Sweepable fun mi => mi.opcode.sweepRank where
  stop before mi _ hrank := (lowering_expandStep scavenge).stop before mi hrank
  down before mi hmi hpos := by
    obtain ⟨named, hrank⟩ := sweepRank_of_pos hpos
    have expandable : mi.Expandable := by
      rcases hmi with unnamed | expandable
      · rw [named] at unnamed
        cases unnamed
      · exact expandable
    obtain ⟨mis, hstep, hmis⟩ := (ranked_expandStep hscavenge).down before mi expandable
      (hrank ▸ hpos)
    refine ⟨mis, hstep, fun mi' hmi' => ⟨.inr (hmis mi' hmi').1, ?_⟩⟩
    rw [hrank]
    exact Nat.lt_of_le_of_lt (sweepRank_le_expansionRank _) (hmis mi' hmi').2

/-! ## Three sweeps -/

section

variable (scavenge : Scavenger)

/-- Before the sweep number `n`, counted from zero, `n` of the ranks are used up. -/
def RanksLeft (s : ℕ × List MachineInstr) : Prop :=
  s.1 ≤ 2 ∧ ∀ mi ∈ s.2, mi.opcode.sweepRank ≤ 2 - s.1

/-- A block before its first sweep. -/
theorem ranksLeft_start (block : List MachineInstr) : RanksLeft (0, block) :=
  ⟨Nat.zero_le 2, fun mi _ =>
    (sweepRank_le_expansionRank mi.opcode).trans (expansionRank_le mi.opcode)⟩

/-- A sweep that is followed by another one uses up a rank. -/
theorem RanksLeft.next {s t : ℕ × List MachineInstr} (h : RanksLeft s)
    (hstep : expandSweep scavenge s = .inl t) : RanksLeft t ∧ 2 - t.1 < 2 - s.1 := by
  obtain ⟨hcount, hranks⟩ := h
  have lowering := lowering_expandStep scavenge
  obtain ⟨-, new, hround, rfl⟩ := expandSweep_eq_inl hstep
  rcases Nat.eq_zero_or_pos (2 - s.1) with hzero | hpos
  · -- no rank is left, and the sweep would have changed nothing
    have unchanged := lowering.round_zero [] fun mi hmi => Nat.le_zero.mp (hzero ▸ hranks mi hmi)
    rw [expandMBB, unchanged] at hround
    cases hround
  · have down := lowering.round_down (n := 2 - (s.1 + 1)) hround fun mi hmi => by
      have hle := hranks mi hmi
      omega
    exact ⟨⟨by omega, down⟩, by omega⟩

/-- What every state that the loop comes to has. -/
theorem ranksLeft_of_reaches {block : List MachineInstr} {s : ℕ × List MachineInstr}
    (hreaches : Reaches (expandSweep scavenge) (0, block) s) : RanksLeft s :=
  hreaches.invariant (fun _ _ h hstep => (h.next scavenge hstep).1) (ranksLeft_start block)

/-- The last turn is one before the limit; the loop ends without a failure exactly if no expansion
in it fails. -/
theorem RanksLeft.last {s : ℕ × List MachineInstr} {outcome : SweepsOutcome} (h : RanksLeft s)
    (hstep : expandSweep scavenge s = .inr outcome) :
    outcome ≠ .limitReached ∧
      ((∃ block' expandCount, outcome = .ended block' expandCount) ↔
        (expandMBB scavenge s.2).isSome = true) := by
  obtain ⟨hcount, -⟩ := h
  rcases expandSweep_eq_inr hstep with ⟨hlimit, -⟩ | ⟨hround, rfl⟩ | ⟨new, hround, rfl⟩
  · omega
  · simp [hround]
  · simp [hround]

/-- **How the loop ends**: below the limit, and without a failure exactly if no expansion that it
comes to fails. -/
theorem sweepsOutcome_of_returns {block : List MachineInstr} {outcome : SweepsOutcome}
    (h : Returns (expandSweep scavenge) (0, block) outcome) :
    outcome ≠ .limitReached ∧
      ((∃ block' expandCount, outcome = .ended block' expandCount) ↔
        ∀ s, Reaches (expandSweep scavenge) (0, block) s →
          (expandMBB scavenge s.2).isSome = true) := by
  obtain ⟨last, hlast, hdone⟩ := h.exists_last
  obtain ⟨notLimit, endsIff⟩ := (ranksLeft_of_reaches scavenge hlast).last scavenge hdone
  refine ⟨notLimit, fun hended s hs => ?_, fun hsome => endsIff.mpr (hsome last hlast)⟩
  cases hstep : expandSweep scavenge s with
  | inl t =>
    obtain ⟨-, new, hround, -⟩ := expandSweep_eq_inl hstep
    rw [hround]
    rfl
  | inr outcome' =>
    -- no other state has a last turn
    obtain rfl := h.eq_of_last hs hstep
    exact ((ranksLeft_of_reaches scavenge hs).last scavenge hstep).2.mp hended

/-- A sweep over instructions whose expansions do not fail. -/
theorem sweepable_round (hscavenge : ∀ before mi, (scavenge before mi).isSome = true)
    {block : List MachineInstr} (h : ∀ mi ∈ block, mi.Sweepable) :
    ∃ new changed, expandMBB scavenge block = some (new, changed) ∧
      ∀ mi ∈ new, mi.Sweepable := by
  obtain ⟨new, changed, hround, hnew⟩ := (ranked_sweepable hscavenge).round_down [] block
    fun mi hmi => ⟨h mi hmi, ((sweepRank_le_expansionRank _).trans (expansionRank_le _)).trans
      (Nat.le_succ 2)⟩
  exact ⟨new, changed, hround, fun mi hmi => (hnew mi hmi).1⟩

/-- A state that the loop comes to, of a block whose instructions have expansions that do not fail,
where a register is always found. -/
theorem sweepable_of_reaches (hscavenge : ∀ before mi, (scavenge before mi).isSome = true)
    {s t : ℕ × List MachineInstr} (h : ∀ mi ∈ s.2, mi.Sweepable)
    (hreaches : Reaches (expandSweep scavenge) s t) : ∀ mi ∈ t.2, mi.Sweepable := by
  have next : ∀ s t : ℕ × List MachineInstr, (∀ mi ∈ s.2, mi.Sweepable) →
      expandSweep scavenge s = .inl t → ∀ mi ∈ t.2, mi.Sweepable := by
    intro s t hs hstep
    obtain ⟨new, changed, hround, hnew⟩ := sweepable_round scavenge hscavenge hs
    obtain ⟨-, new', hround', rfl⟩ := expandSweep_eq_inl hstep
    obtain ⟨rfl, -⟩ := Prod.mk.inj (Option.some.inj (hround.symm.trans hround'))
    exact hnew
  exact hreaches.invariant next h

/-- **Three sweeps over a block are enough**, whatever stands in it: the limit of the counter is not
reached, and the loop ends without a failure exactly if no expansion that it comes to fails.  None
does where the pseudos are well formed and satisfy the assertions of their expansions, and registers
can be scavenged. -/
theorem expandSweeps_end (block : List MachineInstr) :
    (∃ outcome, iterate (expandSweep scavenge) 3 (0, block) = some outcome ∧
      outcome ≠ .limitReached ∧
      ((∃ block' expandCount, outcome = .ended block' expandCount) ↔
        ∀ s, Reaches (expandSweep scavenge) (0, block) s →
          (expandMBB scavenge s.2).isSome = true)) ∧
    ((∀ before mi, (scavenge before mi).isSome = true) → (∀ mi ∈ block, mi.Sweepable) →
      ∃ block' expandCount,
        iterate (expandSweep scavenge) 3 (0, block) = some (.ended block' expandCount)) := by
  obtain ⟨outcome, hiterate⟩ := exists_iterate_of_measure (n := 3)
    (fun s t h hstep => RanksLeft.next scavenge h hstep) (ranksLeft_start block) (Nat.lt_succ_self 2)
  obtain ⟨notLimit, ended⟩ := sweepsOutcome_of_returns scavenge
    (returns_iff_exists_iterate.mpr ⟨3, hiterate⟩)
  refine ⟨⟨outcome, hiterate, notLimit, ended⟩, fun hscavenge hblock => ?_⟩
  obtain ⟨block', expandCount, rfl⟩ := ended.mpr fun s hs => by
    obtain ⟨new, changed, hround, -⟩ := sweepable_round scavenge hscavenge
      (sweepable_of_reaches scavenge hscavenge hblock hs)
    rw [hround]
    rfl
  exact ⟨block', expandCount, hiterate⟩

/-- An atomic addition on a word, which is loaded, added and stored in the second sweep. -/
theorem expandSweeps_end_atomic : ∃ block' expandCount,
    iterate (expandSweep fun _ _ => some .Y) 3
        (0, [⟨.AtomicLoadAdd16, [.reg .A, .reg .X, .reg .A]⟩]) =
      some (.ended block' expandCount) := by
  refine (expandSweeps_end _ _).2 (fun _ _ => rfl) fun mi hmi => ?_
  rw [List.mem_singleton.mp hmi]
  exact .inr fun _ => ⟨⟨by decide, by decide, by decide, rfl⟩, trivial, rfl⟩

/-- Two sweeps are not enough for it. -/
example : iterate (expandSweep fun _ _ => some .Y) 2
    (0, [⟨.AtomicLoadAdd16, [.reg .A, .reg .X, .reg .A]⟩]) = none := rfl

/-- The rounds of the pass are the turns of the loop. -/
theorem rewriteRounds_eq_some_iff {limit expandCount : ℕ} (h : expandCount + limit = 10)
    (block block' : List MachineInstr) :
    rewriteRounds (expandStep scavenge) limit block = some block' ↔
      ∃ count, Returns (expandSweep scavenge) (expandCount, block) (.ended block' count) := by
  induction limit generalizing expandCount block with
  | zero =>
    have limitReached : expandSweep scavenge (expandCount, block) = .inr .limitReached := by
      rw [expandSweep, if_neg (by omega)]
    refine iff_of_false (by simp [rewriteRounds]) ?_
    rintro ⟨count, hreturns⟩
    cases hreturns.unique (.done limitReached)
  | succ limit ih =>
    have turn : expandSweep scavenge (expandCount, block) = _ :=
      if_pos (show expandCount < 10 by omega)
    rcases hround : expandMBB scavenge block with _ | ⟨new, _ | _⟩ <;> rw [hround] at turn
    case none =>
      refine iff_of_false (by simp [rewriteRounds, show rewriteRound _ [] block = none from hround]) ?_
      rintro ⟨count, hreturns⟩
      cases hreturns.unique (.done turn)
    case some.true =>
      rw [rewriteRounds_of_changed hround, ih (show expandCount + 1 + limit = 10 by omega)]
      simp only [returns_iff_of_next turn]
    case some.false =>
      rw [rewriteRounds_of_unchanged hround]
      constructor
      · rintro ⟨rfl⟩
        exact ⟨_, .done turn⟩
      · rintro ⟨count, hreturns⟩
        cases hreturns.unique (.done turn)
        rfl

/-- **The pass expands a block** exactly if the loop with its counter ends without a failure. -/
theorem expandBlock_eq_some_iff (block block' : List MachineInstr) :
    expandBlock scavenge block = some block' ↔
      ∃ count, Returns (expandSweep scavenge) (0, block) (.ended block' count) :=
  rewriteRounds_eq_some_iff scavenge rfl block block'

end

end Snes
