/-
# Atomic Pseudos Under Interrupts

Interrupts come between any two instructions while they are enabled, and their
handlers change the memory.  The instructions that the pass leaves of an atomic
pseudo can be interrupted before interrupts are disabled, but what is stored and
loaded in between is not seen by any handler: the function that the pass leaves
has the runs of a function in which each atomic pseudo is one step.
-/
import SnesBackend.AtomicRuns
import SnesBackend.ExpansionMeaning

namespace Snes

open WordArith RoundRewriting RunGuarantees ExpandPseudo Relation

/-! ## Interrupts -/

/-- What a handler may do to the memory, the stack pointer being where it is.  A handler returns
with the registers, the stack pointer and the status register that it is entered with. -/
abbrev Handler := BitVec 16 → (BitVec 16 → BitVec 8) → (BitVec 16 → BitVec 8) → Prop

/-- The state with another memory. -/
def MachineState.withMem (s : MachineState) (mem : BitVec 16 → BitVec 8) : MachineState :=
  { s with mem := mem }

/-- Any number of interrupts, none unless they are enabled. -/
def Interrupts (handler : Handler) (s u : MachineState) : Prop :=
  ∃ mem, ReflTransGen (fun m m' => s.p.interrupt = true ∧ handler s.sp m m') s.mem mem ∧
    u = s.withMem mem

/-- What an instruction does that interrupts may come before. -/
def InstrMeaning.interruptible (handler : Handler) (real : InstrMeaning) : InstrMeaning :=
  fun mi s t => ∃ u, Interrupts handler s u ∧ real mi u t

/-- The instructions of the expanded atomic pseudos do what their execution says. -/
def InstrMeaning.ExecutesInstrs (real : InstrMeaning) : Prop :=
  ∀ mi s t, execInstr mi s = some t → ∀ t', real mi s t' ↔ t' = t

section

variable {handler : Handler} {real : InstrMeaning} {s t u : MachineState}

/-- No interrupt need come. -/
theorem interrupts_refl (handler : Handler) (s : MachineState) : Interrupts handler s s :=
  ⟨s.mem, .refl, rfl⟩

/-- Interrupts after interrupts. -/
theorem Interrupts.trans (h : Interrupts handler s t) (h' : Interrupts handler t u) :
    Interrupts handler s u := by
  obtain ⟨mem, hmem, rfl⟩ := h
  obtain ⟨mem', hmem', rfl⟩ := h'
  exact ⟨mem', hmem.trans hmem', rfl⟩

/-- While they are disabled, no interrupts come. -/
theorem interrupts_iff_of_disabled (hoff : s.p.interrupt = false) :
    Interrupts handler s u ↔ u = s := by
  constructor
  · rintro ⟨mem, hmem, rfl⟩
    induction hmem with
    | refl => rfl
    | tail _ hstep _ =>
        rw [hoff] at hstep
        cases hstep.1
  · rintro rfl
    exact interrupts_refl handler u

/-! ## The interrupt flag -/

/-- An instruction that does not write the whole status register. -/
def MachineInstr.KeepsInterrupt (mi : MachineInstr) : Prop :=
  mi.opcode ≠ .OUTARr ∧ mi.opcode ≠ .BCLRs

/-- A byte-wide operation changes flags only. -/
theorem execAlu_upper {mi : MachineInstr} (h : execAlu mi s = some t) : t.p.upper = s.p.upper := by
  unfold execAlu at h
  split at h
  case h_4 => cases h
  all_goals
    obtain ⟨op, -, rfl⟩ := Option.map_eq_some_iff.mp h
    rfl

/-- **One instruction** keeps the interrupt flag. -/
theorem execInstr_interrupt {mi : MachineInstr} (hmi : mi.KeepsInterrupt)
    (h : execInstr mi s = some t) : t.p.interrupt = s.p.interrupt := by
  have upper : t.p.upper = s.p.upper := by
    unfold execInstr at h
    split at h
    case h_2 _ _ hop _ => exact absurd hop hmi.1
    case h_3 _ hop _ => exact absurd hop hmi.2
    case h_11 => exact execAlu_upper h
    case h_1 =>
      obtain ⟨-, hmap⟩ := (Option.ite_none_right_eq_some).mp h
      obtain ⟨r, -, rfl⟩ := Option.map_eq_some_iff.mp hmap
      rfl
    case h_8 =>
      obtain ⟨d, -, hmap⟩ := Option.bind_eq_some_iff.mp h
      obtain ⟨r, -, rfl⟩ := Option.map_eq_some_iff.mp hmap
      rfl
    case h_9 r _ _ =>
      obtain rfl := Option.some.inj h
      rfl
    case h_10 r _ _ =>
      obtain rfl := Option.some.inj h
      cases r <;> rfl
    all_goals
      obtain ⟨r, -, rfl⟩ := Option.map_eq_some_iff.mp h
      rfl
  exact congrArg BitVec.msb upper

/-- Bit 7 disables interrupts. -/
theorem Status.interrupt_clearBit (p : Status) : (p.clearBit 7).interrupt = false := by
  have cleared : ∀ b : BitVec 8, (Status.ofByte (b &&& ~~~((1 : BitVec 8) <<< 7))).interrupt =
      false := by decide +kernel
  exact cleared p.toByte

/-- A body starts with interrupts disabled. -/
theorem MachineState.interrupt_enterAtomic (s : MachineState) :
    s.enterAtomic.p.interrupt = false :=
  s.p.interrupt_clearBit

/-- **A run while interrupts are disabled** is the execution. -/
theorem run_iff_of_disabled (hreal : real.ExecutesInstrs) {mis : List MachineInstr}
    (hmis : ∀ mi ∈ mis, mi.KeepsInterrupt) (hoff : s.p.interrupt = false)
    (hexec : execBlock mis s = some t) :
    t.p.interrupt = false ∧
      ∀ t', Run (real.interruptible handler) mis s t' ↔ t' = t := by
  induction mis generalizing s with
  | nil =>
      obtain rfl := Option.some.inj hexec
      refine ⟨hoff, fun t' => ?_⟩
      constructor
      · rintro ⟨_⟩
        rfl
      · rintro rfl
        exact .nil t'
  | cons mi rest ih =>
      rw [List.forall_mem_cons] at hmis
      obtain ⟨u, hu, hrest⟩ := Option.bind_eq_some_iff.mp hexec
      have first : ∀ t', real.interruptible handler mi s t' ↔ t' = u := by
        intro t'
        simp only [InstrMeaning.interruptible, interrupts_iff_of_disabled hoff, exists_eq_left]
        exact hreal mi s u hu t'
      obtain ⟨hoff', runs⟩ := ih hmis.2 ((execInstr_interrupt hmis.1 hu).trans hoff) hrest
      refine ⟨hoff', fun t' => ?_⟩
      rw [← List.singleton_append, run_append_iff, ← runs t']
      simp only [run_singleton_iff, first, exists_eq_left]

/-! ## The expanded pseudo -/

/-- Saving the status register and disabling interrupts: interrupts that come in between could have
come before. -/
theorem run_atomicPrefix_iff (hreal : real.ExecutesInstrs) :
    Run (real.interruptible handler) atomicPrefix s t ↔
      ∃ u, Interrupts handler s u ∧ t = u.enterAtomic := by
  have saved : ∀ u t', real ⟨.INRdA, [.reg scratchRegister, ofUnsigned pAddr]⟩ u t' ↔
      t' = u.setByte .AL u.p.toByte := fun u => hreal _ u _ rfl
  have cleared : ∀ u t', real ⟨.BCLRs, [.imm 7]⟩ u t' ↔ t' = u.setStatus (u.p.clearBit 7) :=
    fun u => hreal _ u _ rfl
  rw [atomicPrefix, ← List.singleton_append, run_append_iff]
  simp only [run_singleton_iff, InstrMeaning.interruptible, saved, cleared]
  constructor
  · rintro ⟨_, ⟨u, hu, rfl⟩, _, ⟨mem, hmem, rfl⟩, rfl⟩
    exact ⟨u.withMem mem, hu.trans ⟨mem, hmem, rfl⟩, rfl⟩
  · rintro ⟨u, hu, rfl⟩
    exact ⟨_, ⟨u, hu, rfl⟩, _, interrupts_refl handler _, rfl⟩

/-- **The instructions around a body make it one step**: its runs are its executions after the
interrupts that came before. -/
theorem run_expandAtomic_iff (hreal : real.ExecutesInstrs) {body : List MachineInstr}
    (hbody : ∀ mi ∈ body, mi.KeepsInterrupt)
    (htotal : ∀ s : MachineState, ∃ t, execBlock body s.enterAtomic = some t) :
    Run (real.interruptible handler) (expandAtomic body) s t ↔
      ∃ u, Interrupts handler s u ∧ execBlock (expandAtomic body) u = some t := by
  have restored : ∀ u t', real ⟨.OUTARr, [ofUnsigned pAddr, .reg scratchRegister]⟩ u t' ↔
      t' = u.leaveAtomic := fun u => hreal _ u _ rfl
  have parts : expandAtomic body = atomicPrefix ++
      (body ++ [⟨.OUTARr, [ofUnsigned pAddr, .reg scratchRegister]⟩]) := by
    simp [expandAtomic, atomicPrefix]
  simp only [parts, run_append_iff, run_atomicPrefix_iff hreal, run_singleton_iff]
  rw [← parts]
  constructor
  · rintro ⟨_, ⟨u, hu, rfl⟩, v', hbody', w, hw, hout⟩
    obtain ⟨v, hv⟩ := htotal u
    obtain ⟨hoff, runs⟩ := run_iff_of_disabled hreal hbody u.interrupt_enterAtomic hv
    obtain rfl := (runs v').mp hbody'
    obtain rfl := (interrupts_iff_of_disabled hoff).mp hw
    refine ⟨u, hu, ?_⟩
    rw [execBlock_expandAtomic, hv, Option.map_some, (restored w t).mp hout]
  · rintro ⟨u, hu, hexec⟩
    rw [execBlock_expandAtomic] at hexec
    obtain ⟨v, hv, rfl⟩ := Option.map_eq_some_iff.mp hexec
    obtain ⟨-, runs⟩ := run_iff_of_disabled hreal hbody u.interrupt_enterAtomic hv
    refine ⟨_, ⟨u, hu, rfl⟩, v, (runs v).mpr rfl, ?_⟩
    exact ⟨v, interrupts_refl handler v, (restored v _).mpr rfl⟩

end

/-! ## One step for each atomic pseudo -/

namespace AtomicPseudo

/-- What an atomic pseudo does at once: the status register is saved in `A`, the memory is accessed,
and the status register is read back from `A`.  An operation takes the pointer for its operand. -/
def effect (i : AtomicPseudo) (u : MachineState) : MachineState :=
  let s := u.enterAtomic
  match i with
  | load type rd rr => (s.put type rd (s.load type (s.word rr))).leaveAtomic
  | store type rd rr => (s.store type (s.word rd) (s.get type rr)).leaveAtomic
  | loadOp type op rd rr _ =>
      let loaded := s.put type rd (s.load type (s.word rr))
      let operated := loaded.put type rd (op.eval (loaded.get type rd) (loaded.get type rr))
      (operated.store type (operated.word rr) (operated.get type rd)).leaveAtomic

end AtomicPseudo

section

variable {s t u : MachineState}

/-- The high half of a word in a register. -/
theorem MachineState.get_high (s : MachineState) (r : WordReg) :
    (s.get .i16 r >>> 8).setWidth 8 = s.regs r.subHi :=
  MachineState.high_of_append _ _

/-- An operation leaves what a write of its result leaves, but for flags. -/
theorem ArithEffect.eq_put {type : ValueType} {op : AtomicOp} {rd rr : WordReg}
    (h : ArithEffect type op rd rr s t) :
    t = (s.put type rd (op.eval (s.get type rd) (s.get type rr))).setStatus t.p := by
  have regs : t.regs = (s.put type rd (op.eval (s.get type rd) (s.get type rr))).regs := by
    funext r
    by_cases hlo : r = rd.subLo
    · rw [hlo, ← t.get_setWidth type rd, h.result, ← MachineState.get_setWidth _ type rd,
        MachineState.get_put_self]
    · cases type with
      | i8 => rw [h.regs r hlo nofun, MachineState.put_regs_of_ne s .i8 _ hlo nofun]
      | i16 =>
          by_cases hhi : r = rd.subHi
          · rw [hhi, ← t.get_high rd, h.result, ← MachineState.get_high _ rd,
              MachineState.get_put_self]
          · rw [h.regs r hlo fun _ => hhi, MachineState.put_regs_of_ne s .i16 _ hlo fun _ => hhi]
  obtain ⟨_, p, _, _⟩ := t
  obtain rfl := regs
  obtain rfl := h.mem
  obtain rfl := h.sp
  cases type <;> rfl

/-- **The body of an atomic pseudo**, between saving and restoring the status register. -/
theorem AtomicPseudo.execBlock_finalBody {i : AtomicPseudo} (h : i.Apart) (u : MachineState) :
    execBlock (expandAtomic i.finalBody) u = some (i.effect u) := by
  rw [execBlock_expandAtomic]
  cases i with
  | load type rd rr =>
      have hne : type = .i16 → rd ≠ rr := fun htype heq => h htype (congrArg some heq)
      rw [finalBody, execBlock_loadBody hne]
      rfl
  | store type rd rr =>
      rw [finalBody, execBlock_storeBody]
      rfl
  | loadOp type op rd rr operand =>
      have hne : type = .i16 → rd ≠ rr := fun htype heq => h htype (congrArg some heq)
      obtain ⟨t, ht, harith⟩ := exists_execBlock_arithBody type op rd rr
        (u.enterAtomic.put type rd (u.enterAtomic.load type (u.enterAtomic.word rr)))
      rw [finalBody, execBlock_append, execBlock_append, execBlock_loadBody hne, Option.bind_some,
        ht, Option.bind_some, execBlock_storeBody, harith.eq_put, Option.map_some]
      cases type <;> rfl

end

/-! ## The meaning of functions with atomic pseudos -/

/-- The pseudos that access the memory atomically. -/
def Opcode.isAtomicAccess : Opcode → Bool
  | AtomicLoad8 | AtomicLoad16 | AtomicStore8 | AtomicStore16 | AtomicLoadAdd8 | AtomicLoadAdd16
  | AtomicLoadSub8 | AtomicLoadSub16 | AtomicLoadAnd8 | AtomicLoadAnd16 | AtomicLoadOr8
  | AtomicLoadOr16 | AtomicLoadXor8 | AtomicLoadXor16 => true
  | _ => false

/-- Another pseudo whose expansion is straight-line code, whichever register is free. -/
structure MachineInstr.ExpandsTo (mi : MachineInstr) (mis : List MachineInstr) : Prop where
  not_atomic : mi.opcode.isAtomicAccess = false
  straight : StraightLine mis
  expandMI_eq : ∀ scavengeMainRegs, expandMI scavengeMainRegs mi = .expanded mis

/-- What an instruction does when interrupts come: an atomic pseudo is one step, and the other
pseudos are the instructions of their expansions. -/
def Indivisible (handler : Handler) (real : InstrMeaning) : InstrMeaning := fun mi s t =>
  (∃ i : AtomicPseudo, i.Apart ∧ mi = i.instr ∧ ∃ u, Interrupts handler s u ∧ t = i.effect u) ∨
    (∃ mis, mi.ExpandsTo mis ∧ Run (real.interruptible handler) mis s t) ∨
      mi.opcode.isPseudo = false ∧ real.interruptible handler mi s t

/-- An instruction that has this meaning. -/
def MachineInstr.Interruptible (mi : MachineInstr) : Prop :=
  (∃ i : AtomicPseudo, i.Apart ∧ mi = i.instr) ∨ (∃ mis, mi.ExpandsTo mis) ∨
    mi.opcode.isPseudo = false

/-- What is left of an instruction that is no atomic access. -/
def MachineInstr.LeavesOf (mi : MachineInstr) (mis : List MachineInstr) : Prop :=
  mi.ExpandsTo mis ∨ mi.opcode.isPseudo = false ∧ mis = [mi]

/-- The instruction of an atomic pseudo. -/
theorem AtomicPseudo.isAtomicAccess_instr (i : AtomicPseudo) :
    i.instr.opcode.isAtomicAccess = true := by
  rcases i with ⟨type, _, _⟩ | ⟨type, _, _⟩ | ⟨type, op, _, _, _⟩
  · cases type <;> rfl
  · cases type <;> rfl
  · cases type <;> cases op <;> rfl

/-- The atomic accesses are pseudos. -/
theorem isPseudo_of_isAtomicAccess {op : Opcode} (h : op.isAtomicAccess = true) :
    op.isPseudo = true := by
  cases op <;> first | rfl | exact absurd h (by decide)

section

variable {handler : Handler} {real : InstrMeaning} {s t : MachineState}

/-- An instruction with an expansion is a pseudo. -/
theorem MachineInstr.ExpandsTo.isPseudo {mi : MachineInstr} {mis : List MachineInstr}
    (h : mi.ExpandsTo mis) : mi.opcode.isPseudo = true := by
  by_contra hne
  have unchanged := expandMI_of_isPseudo_eq_false (fun _ => none) (by simpa using hne)
  rw [h.expandMI_eq] at unchanged
  cases unchanged

/-- There is one expansion. -/
theorem MachineInstr.ExpandsTo.unique {mi : MachineInstr} {mis mis' : List MachineInstr}
    (h : mi.ExpandsTo mis) (h' : mi.ExpandsTo mis') : mis = mis' :=
  ExpandResult.expanded.inj ((h.expandMI_eq fun _ => none).symm.trans (h'.expandMI_eq _))

/-- An atomic pseudo is one step. -/
theorem indivisible_atomic_iff {i : AtomicPseudo} (hi : i.Apart) :
    Indivisible handler real i.instr s t ↔ ∃ u, Interrupts handler s u ∧ t = i.effect u := by
  have atomic := i.isAtomicAccess_instr
  constructor
  · rintro (⟨j, hj, hinstr, u, hu, rfl⟩ | ⟨mis, hmis, -⟩ | ⟨hreal, -⟩)
    · have left : expandBlock (fun _ _ => none) [i.instr] = some (expandAtomic j.finalBody) := by
        rw [hinstr, expandBlock_of_apart _ hj]
      have same := Option.some.inj ((expandBlock_of_apart _ hi).symm.trans left)
      have effects := j.execBlock_finalBody hj u
      rw [← same, i.execBlock_finalBody hi] at effects
      exact ⟨u, hu, (Option.some.inj effects).symm⟩
    · rw [hmis.not_atomic] at atomic
      cases atomic
    · rw [isPseudo_of_isAtomicAccess atomic] at hreal
      cases hreal
  · exact fun h => .inl ⟨i, hi, rfl, h⟩

/-- An instruction that is no atomic access is what is left of it. -/
theorem indivisible_iff_of_leavesOf {mi : MachineInstr} {mis : List MachineInstr}
    (h : mi.LeavesOf mis) :
    Indivisible handler real mi s t ↔ Run (real.interruptible handler) mis s t := by
  rcases h with h | ⟨hmi, rfl⟩
  · constructor
    · rintro (⟨i, -, rfl, -⟩ | ⟨mis', h', hrun⟩ | ⟨hreal, -⟩)
      · exact absurd (h.not_atomic.symm.trans i.isAtomicAccess_instr) Bool.false_ne_true
      · exact h.unique h' ▸ hrun
      · exact absurd (hreal.symm.trans h.isPseudo) Bool.false_ne_true
    · exact fun hrun => .inr (.inl ⟨mis, h, hrun⟩)
  · rw [run_singleton_iff]
    constructor
    · rintro (⟨i, -, rfl, -⟩ | ⟨mis', h', -⟩ | ⟨-, hreal⟩)
      · have pseudo := isPseudo_of_isAtomicAccess i.isAtomicAccess_instr
        exact absurd (hmi.symm.trans pseudo) Bool.false_ne_true
      · exact absurd (hmi.symm.trans h'.isPseudo) Bool.false_ne_true
      · exact hreal
    · exact fun hreal => .inr (.inr ⟨hmi, hreal⟩)

/-- Lists of such instructions. -/
theorem run_indivisible_iff_of_leavesOf {list : List MachineInstr}
    {lists : List (List MachineInstr)} (h : List.Forall₂ MachineInstr.LeavesOf list lists) :
    Run (Indivisible handler real) list s t ↔
      Run (real.interruptible handler) lists.flatten s t := by
  induction h generalizing s with
  | nil =>
      constructor <;>
        · rintro ⟨_⟩
          exact .nil _
  | cons hmi _ ih =>
      rw [List.flatten_cons, run_append_iff, ← List.singleton_append, run_append_iff]
      refine exists_congr fun u => and_congr ?_ ih
      rw [run_singleton_iff, indivisible_iff_of_leavesOf hmi]

/-- What is left of the parts of a body. -/
theorem leavesOf_loadInstr {type : ValueType} {rd rr : WordReg} (h : type = .i16 → rd ≠ rr) :
    (loadInstr type rd rr).LeavesOf (loadBody type rd rr) := by
  cases type with
  | i8 => exact .inr ⟨rfl, rfl⟩
  | i16 =>
      exact .inl ⟨rfl, straightLine_pair ⟨rfl, rfl⟩ ⟨rfl, rfl⟩, fun _ =>
        congrArg ExpandResult.ofOption (expandLDWRdPtr_of_ne (h rfl) _)⟩

theorem leavesOf_arithInstr (type : ValueType) (op : AtomicOp) (rd rr : WordReg) :
    (arithInstr type op rd rr).LeavesOf (arithBody type op rd rr) := by
  cases type <;> cases op
  case i8.add | i8.sub | i8.and | i8.or | i8.xor => exact .inr ⟨rfl, rfl⟩
  all_goals exact .inl ⟨rfl, straightLine_pair ⟨rfl, rfl⟩ ⟨rfl, rfl⟩, fun _ => rfl⟩

theorem leavesOf_storeInstr (type : ValueType) (rd rr : WordReg) :
    (storeInstr type rd rr).LeavesOf (storeBody type rd rr) := by
  cases type with
  | i8 => exact .inr ⟨rfl, rfl⟩
  | i16 => exact .inl ⟨rfl, straightLine_pair ⟨rfl, rfl⟩ ⟨rfl, rfl⟩, fun _ => rfl⟩

/-- What is left of a body, part by part. -/
theorem AtomicPseudo.exists_leavesOf_body {i : AtomicPseudo} (h : i.Apart) :
    ∃ lists, List.Forall₂ MachineInstr.LeavesOf i.body lists ∧ lists.flatten = i.finalBody := by
  cases i with
  | load type rd rr =>
      have hne : type = .i16 → rd ≠ rr := fun htype heq => h htype (congrArg some heq)
      exact ⟨[_], .cons (leavesOf_loadInstr hne) .nil, by simp [finalBody]⟩
  | store type rd rr =>
      exact ⟨[_], .cons (leavesOf_storeInstr type rd rr) .nil, by simp [finalBody]⟩
  | loadOp type op rd rr operand =>
      have hne : type = .i16 → rd ≠ rr := fun htype heq => h htype (congrArg some heq)
      exact ⟨[_, _, _], .cons (leavesOf_loadInstr hne) (.cons (leavesOf_arithInstr type op rd rr)
        (.cons (leavesOf_storeInstr type rr rd) .nil)), by simp [finalBody]⟩

/-- The instructions of a body keep the interrupt flag. -/
theorem AtomicPseudo.keepsInterrupt_finalBody (i : AtomicPseudo) :
    ∀ mi ∈ i.finalBody, mi.KeepsInterrupt := by
  have load : ∀ type rd rr, ∀ mi ∈ loadBody type rd rr, mi.KeepsInterrupt := by
    intro type rd rr
    cases type <;> simp [loadBody, MachineInstr.KeepsInterrupt]
  have store : ∀ type rd rr, ∀ mi ∈ storeBody type rd rr, mi.KeepsInterrupt := by
    intro type rd rr
    cases type <;> simp [storeBody, MachineInstr.KeepsInterrupt]
  have arith : ∀ type op rd rr, ∀ mi ∈ arithBody type op rd rr, mi.KeepsInterrupt := by
    intro type op rd rr
    cases type <;> cases op <;> simp [arithBody, MachineInstr.KeepsInterrupt, AtomicOp.arith,
      RegRegPseudo.byteOps]
  cases i with
  | load type rd rr => exact load type rd rr
  | store type rd rr => exact store type rd rr
  | loadOp type op rd rr operand =>
      rw [finalBody, List.forall_mem_append, List.forall_mem_append]
      exact ⟨⟨load type rd rr, arith type op rd rr⟩, store type rr rd⟩

/-- **An expanded atomic pseudo** is the one step. -/
theorem run_expandAtomic_body_iff (hreal : real.ExecutesInstrs) {i : AtomicPseudo} (hi : i.Apart) :
    Run (Indivisible handler real) (expandAtomic i.body) s t ↔
      Indivisible handler real i.instr s t := by
  obtain ⟨lists, hlists, hflat⟩ := i.exists_leavesOf_body hi
  have total : ∀ s : MachineState, ∃ t, execBlock i.finalBody s.enterAtomic = some t := by
    intro s
    have hexec := i.execBlock_finalBody hi s
    rw [execBlock_expandAtomic] at hexec
    obtain ⟨t, ht, -⟩ := Option.map_eq_some_iff.mp hexec
    exact ⟨t, ht⟩
  let leave : MachineInstr := ⟨.OUTARr, [ofUnsigned pAddr, .reg scratchRegister]⟩
  have leaves : List.Forall₂ MachineInstr.LeavesOf (expandAtomic i.body)
      (atomicPrefix.map (fun mi => [mi]) ++ lists ++ [[leave]]) :=
    List.rel_append (List.rel_append (.cons (.inr ⟨rfl, rfl⟩) (.cons (.inr ⟨rfl, rfl⟩) .nil))
      hlists) (.cons (.inr ⟨rfl, rfl⟩) .nil)
  have flat : (atomicPrefix.map (fun mi => [mi]) ++ lists ++ [[leave]]).flatten =
      expandAtomic i.finalBody := by
    simp [leave, expandAtomic, atomicPrefix, hflat]
  rw [run_indivisible_iff_of_leavesOf leaves, indivisible_atomic_iff hi]
  rw [flat, run_expandAtomic_iff hreal i.keepsInterrupt_finalBody total]
  refine exists_congr fun u => and_congr_right fun _ => ?_
  rw [i.execBlock_finalBody hi, Option.some.injEq, eq_comm]

/-- What is left of an instruction is of instructions that have a meaning. -/
theorem MachineInstr.LeavesOf.interruptible {mi : MachineInstr} {mis : List MachineInstr}
    (h : mi.LeavesOf mis) : mi.Interruptible ∧ mi.opcode.isAtomicAccess = false := by
  rcases h with h | ⟨hmi, -⟩
  · exact ⟨.inr (.inl ⟨mis, h⟩), h.not_atomic⟩
  · refine ⟨.inr (.inr hmi), ?_⟩
    by_contra hne
    have pseudo := isPseudo_of_isAtomicAccess (by simpa using hne)
    rw [hmi] at pseudo
    cases pseudo

/-- The parts of a body are no terminators. -/
theorem AtomicPseudo.leavesOf_of_mem_body {i : AtomicPseudo} (hi : i.Apart) :
    ∀ mi ∈ i.body, (∃ mis, mi.LeavesOf mis) ∧ mi.opcode.isTerminator = false := by
  have load : ∀ type rd rr, (loadInstr type rd rr).opcode.isTerminator = false := by
    intro type rd rr
    cases type <;> rfl
  have store : ∀ type rd rr, (storeInstr type rd rr).opcode.isTerminator = false := by
    intro type rd rr
    cases type <;> rfl
  have arith : ∀ type op rd rr, (arithInstr type op rd rr).opcode.isTerminator = false := by
    intro type op rd rr
    cases type <;> cases op <;> rfl
  cases i with
  | load type rd rr =>
      have hne : type = .i16 → rd ≠ rr := fun htype heq => hi htype (congrArg some heq)
      exact List.forall_mem_singleton.mpr ⟨⟨_, leavesOf_loadInstr hne⟩, load type rd rr⟩
  | store type rd rr =>
      exact List.forall_mem_singleton.mpr ⟨⟨_, leavesOf_storeInstr type rd rr⟩, store type rd rr⟩
  | loadOp type op rd rr operand =>
      have hne : type = .i16 → rd ≠ rr := fun htype heq => hi htype (congrArg some heq)
      exact List.forall_mem_cons.mpr ⟨⟨⟨_, leavesOf_loadInstr hne⟩, load type rd rr⟩,
        List.forall_mem_cons.mpr ⟨⟨⟨_, leavesOf_arithInstr type op rd rr⟩, arith type op rd rr⟩,
          List.forall_mem_singleton.mpr
            ⟨⟨_, leavesOf_storeInstr type rr rd⟩, store type rr rd⟩⟩⟩

/-- The instructions that an atomic pseudo expands to are no terminators. -/
theorem leavesOf_of_mem_expandAtomic {i : AtomicPseudo} (hi : i.Apart) :
    ∀ mi ∈ expandAtomic i.body, (∃ mis, mi.LeavesOf mis) ∧ mi.opcode.isTerminator = false := by
  rw [expandAtomic, List.forall_mem_append, List.forall_mem_append]
  refine ⟨⟨?_, AtomicPseudo.leavesOf_of_mem_body hi⟩, ?_⟩
  · exact List.forall_mem_cons.mpr ⟨⟨⟨_, .inr ⟨rfl, rfl⟩⟩, rfl⟩,
      List.forall_mem_singleton.mpr ⟨⟨_, .inr ⟨rfl, rfl⟩⟩, rfl⟩⟩
  · exact List.forall_mem_singleton.mpr ⟨⟨_, .inr ⟨rfl, rfl⟩⟩, rfl⟩

/-- What the pass does with an instruction that it replaces. -/
theorem replaced_of_interruptible (handler : Handler) (hreal : real.ExecutesInstrs)
    (scavenge : Scavenger) {before new : List MachineInstr} {mi : MachineInstr}
    (hmi : mi.Interruptible) (hstep : expandStep scavenge before mi = .replaced new) :
    (∀ s t, Run (Indivisible handler real) new s t ↔ Indivisible handler real mi s t) ∧
      mi.opcode.isPseudo = true ∧
      ∀ mi' ∈ new, mi'.Interruptible ∧ mi'.opcode.isTerminator = false := by
  rcases hmi with ⟨i, hi, rfl⟩ | ⟨mis, hmis⟩ | hmi
  · rw [expandStep, expandMI_atomicPseudo] at hstep
    cases hstep
    refine ⟨fun s t => run_expandAtomic_body_iff hreal hi,
      isPseudo_of_isAtomicAccess i.isAtomicAccess_instr, fun mi' hmi' => ?_⟩
    obtain ⟨⟨mis, leaves⟩, terminator⟩ := leavesOf_of_mem_expandAtomic hi mi' hmi'
    exact ⟨leaves.interruptible.1, terminator⟩
  · rw [expandStep, hmis.expandMI_eq] at hstep
    cases hstep
    refine ⟨fun s t => ?_, hmis.isPseudo, fun mi' hmi' =>
      ⟨.inr (.inr (hmis.straight mi' hmi').1), (hmis.straight mi' hmi').2⟩⟩
    rw [indivisible_iff_of_leavesOf (.inl hmis)]
    exact run_congr fun mi' hmi' s t => (indivisible_iff_of_leavesOf
      (.inr ⟨(hmis.straight mi' hmi').1, rfl⟩)).trans run_singleton_iff
  · rw [expandStep, expandMI_of_isPseudo_eq_false _ hmi] at hstep
    cases hstep

/-- **The expansions have the runs of the pseudos.** -/
theorem exact_expandStep (handler : Handler) (hreal : real.ExecutesInstrs) (scavenge : Scavenger) :
    Exact (Indivisible handler real) MachineInstr.Interruptible (expandStep scavenge) where
  runs _ _ _ hmi hstep := (replaced_of_interruptible handler hreal scavenge hmi hstep).1
  good _ _ _ hmi hstep mi' hmi' :=
    ((replaced_of_interruptible handler hreal scavenge hmi hstep).2.2 mi' hmi').1

/-- The number of rounds in which an instruction is expanded. -/
def atomicRank (mi : MachineInstr) : ℕ :=
  mi.opcode.isPseudo.toNat + mi.opcode.isAtomicAccess.toNat

/-- The atomic pseudos are taken off in two rounds, the others in one. -/
theorem ranked_interruptible (scavenge : Scavenger) :
    Ranked (expandStep scavenge) MachineInstr.Interruptible atomicRank where
  stop before mi _ hrank := by
    have hmi : mi.opcode.isPseudo = false := by
      simpa using (Nat.add_eq_zero_iff.mp hrank).1
    rw [expandStep, expandMI_of_isPseudo_eq_false _ hmi]
    rfl
  down before mi hmi hrank := by
    rcases hmi with ⟨i, hi, rfl⟩ | ⟨mis, hmis⟩ | hmi
    · refine ⟨_, by rw [expandStep, expandMI_atomicPseudo]; rfl, fun mi' hmi' => ?_⟩
      obtain ⟨⟨mis, leaves⟩, -⟩ := leavesOf_of_mem_expandAtomic hi mi' hmi'
      obtain ⟨good, not_atomic⟩ := leaves.interruptible
      refine ⟨good, ?_⟩
      have atomic := i.isAtomicAccess_instr
      rw [atomicRank, atomicRank, atomic, isPseudo_of_isAtomicAccess atomic, not_atomic]
      exact Nat.add_lt_add_of_le_of_lt (Bool.toNat_le _) Nat.one_pos
    · refine ⟨mis, by rw [expandStep, hmis.expandMI_eq]; rfl, fun mi' hmi' => ?_⟩
      have leaves : mi'.LeavesOf [mi'] := .inr ⟨(hmis.straight mi' hmi').1, rfl⟩
      refine ⟨leaves.interruptible.1, ?_⟩
      rw [atomicRank, (hmis.straight mi' hmi').1, leaves.interruptible.2]
      exact hrank
    · have leaves : mi.LeavesOf [mi] := .inr ⟨hmi, rfl⟩
      rw [atomicRank, hmi, leaves.interruptible.2] at hrank
      cases hrank

/-- **A block under interrupts**: the pass succeeds, leaves no pseudo and the same terminators, and
the runs of the block in which the atomic pseudos are single steps. -/
theorem expandBlock_sameRuns (handler : Handler) (hreal : real.ExecutesInstrs)
    (scavenge : Scavenger) {block : List MachineInstr}
    (hblock : ∀ mi ∈ block, mi.Interruptible) :
    ∃ block', expandBlock scavenge block = some block' ∧ NoPseudos block' ∧
      terminators block' = terminators block ∧
      ∀ s t, Run (Indivisible handler real) block' s t ↔
        Run (Indivisible handler real) block s t := by
  have ranks : ∀ mi, atomicRank mi ≤ 9 := fun mi =>
    (Nat.add_le_add (Bool.toNat_le _) (Bool.toNat_le _)).trans (by decide)
  obtain ⟨block', hexpand, hblock'⟩ := (ranked_interruptible scavenge).rounds_end 9 block
    fun mi hmi => ⟨hblock mi hmi, ranks mi⟩
  refine ⟨block', hexpand, fun mi hmi => ?_, ?_, (exact_expandStep handler hreal scavenge).rounds
    hblock hexpand⟩
  · simpa using (Nat.add_eq_zero_iff.mp (hblock' mi hmi).2).1
  · refine filter_of_rounds (fun before mi new hmi hstep => ?_) hblock hexpand
    obtain ⟨-, pseudo, hnew⟩ := replaced_of_interruptible handler hreal scavenge hmi hstep
    exact ⟨isTerminator_of_isPseudo pseudo, hnew⟩

/-- A function is expanded block by block. -/
theorem runOnMachineFunction_sameBlocks (handler : Handler) (hreal : real.ExecutesInstrs)
    (scavenge : Scavenger) (successor : Successor) {mf : MachineBlocks}
    (hmf : ∀ block ∈ mf, ∀ mi ∈ block, mi.Interruptible) :
    ∃ mf', runOnMachineFunction scavenge mf = some mf' ∧ (∀ block ∈ mf', NoPseudos block) ∧
      List.Forall₂ (SameBlock (Indivisible handler real) successor.next) mf mf' := by
  induction mf with
  | nil => exact ⟨[], rfl, by simp, .nil⟩
  | cons block mf ih =>
      rw [List.forall_mem_cons] at hmf
      obtain ⟨block', hexpand, hblock', hterminators, runs⟩ :=
        expandBlock_sameRuns handler hreal scavenge hmf.1
      obtain ⟨rest, hrest, noPseudos, same⟩ := ih hmf.2
      refine ⟨block' :: rest, ?_, List.forall_mem_cons.mpr ⟨hblock', noPseudos⟩, .cons ?_ same⟩
      · unfold runOnMachineFunction at hrest ⊢
        simp [List.mapM_cons, hexpand, hrest]
      · exact ⟨runs, fun n t => by rw [Successor.next, hterminators, Successor.next]⟩

/-- **Atomic pseudos are atomic.**  Whatever the interrupt handlers do to the memory, and whenever
interrupts come, the function that the pass leaves runs from place to place as the function before
it does when each of its atomic pseudos is a single step. -/
theorem runOnMachineFunction_atomic (handler : Handler) (hreal : real.ExecutesInstrs)
    (scavenge : Scavenger) (successor : Successor) {mf : MachineBlocks}
    (hmf : ∀ block ∈ mf, ∀ mi ∈ block, mi.Interruptible) :
    ∃ mf', runOnMachineFunction scavenge mf = some mf' ∧ (∀ block ∈ mf', NoPseudos block) ∧
      ∀ c c', ReflTransGen (BlockStep (real.interruptible handler) successor.next mf') c c' ↔
        ReflTransGen (BlockStep (Indivisible handler real) successor.next mf) c c' := by
  obtain ⟨mf', hrun, noPseudos, same⟩ :=
    runOnMachineFunction_sameBlocks handler hreal scavenge successor hmf
  have steps : BlockStep (real.interruptible handler) successor.next mf' =
      BlockStep (Indivisible handler real) successor.next mf := by
    rw [← blockStep_of_sameBlock same]
    funext c c'
    refine propext (blockStep_congr fun block hblock mi hmi s t => ?_)
    have leaves : mi.LeavesOf [mi] := .inr ⟨noPseudos block hblock mi hmi, rfl⟩
    rw [indivisible_iff_of_leavesOf leaves, run_singleton_iff]
  exact ⟨mf', hrun, noPseudos, fun c c' => by rw [steps]⟩

/-- **The pseudos that are defined** are expanded to straight-line code whichever register is
free. -/
theorem DefinedPseudo.interruptible {i : DefinedPseudo} (h : i.Admitted) :
    i.instr.Interruptible := by
  have expands : i.ExpandsRight ⟨fun _ => 0, fun _ => 0⟩ := i.expandsRight h
  obtain ⟨mis, hexpand, straight, -⟩ := expands fun _ => none
  have not_atomic : i.instr.opcode.isAtomicAccess = false := by
    cases i with
    | word i => rcases i with ⟨op, _, _⟩ | ⟨op, _, _⟩ | ⟨op, _⟩ <;> cases op <;> rfl
    | access i => rcases i with ⟨_, form⟩ | ⟨_, form, _⟩ <;> cases form <;> rfl
    | compare later _ _ => cases later <;> rfl
    | _ => rfl
  refine .inr (.inl ⟨mis, not_atomic, straight, fun scavengeMainRegs => ?_⟩)
  rw [← hexpand]
  cases i with
  | word i => rcases i with ⟨op, _, _⟩ | ⟨op, _, _⟩ | ⟨op, _⟩ <;> cases op <;> rfl
  | access i => exact (i.expandMI_instr _ h).trans (i.expandMI_instr _ h).symm
  | frameLoad dst base q =>
      have apart : dst ≠ base := h.load_apart dst _ base rfl rfl
      have fits := h.fits base q rfl
      exact (congrArg ExpandResult.ofOption (expandLDDWRdPtrQ_of_ne apart fits _)).trans
        (congrArg ExpandResult.ofOption (expandLDDWRdPtrQ_of_ne apart fits _)).symm
  | compare later _ _ => cases later <;> rfl
  | _ => rfl

end

/-- A function that publishes a word and, in a second block, adds to it. -/
def publishAndAdd : MachineBlocks :=
  [[(DefinedPseudo.constant .X (.globalAddress 0 2)).instr,
      (AtomicPseudo.store .i16 .X .A).instr, ⟨.BREQk, [.imm 0]⟩],
    [(AtomicPseudo.loadOp .i16 .add .A ⟨.X, by decide⟩ .Y).instr, ⟨.RET, []⟩]]

/-- The function under a handler that counts its calls at an address. -/
theorem runOnMachineFunction_atomic_publishAndAdd :
    ∃ mf', runOnMachineFunction (fun _ _ => none) publishAndAdd = some mf' ∧
      (∀ block ∈ mf', NoPseudos block) ∧
      ∀ c c', ReflTransGen (BlockStep (InstrMeaning.interruptible
            (fun _ m m' => m' = Function.update m 16 (m 16 + 1))
            (fun mi s t => t = (execInstr mi s).getD s))
          (Successor.next fun _ _ s => if s.p.zero then some 1 else none) mf') c c' ↔
        ReflTransGen (BlockStep (Indivisible
            (fun _ m m' => m' = Function.update m 16 (m 16 + 1))
            (fun mi s t => t = (execInstr mi s).getD s))
          (Successor.next fun _ _ s => if s.p.zero then some 1 else none) publishAndAdd) c c' := by
  refine runOnMachineFunction_atomic _ (fun mi s t h t' => ?_) _ _ ?_
  · rw [h]
    rfl
  · have store : (AtomicPseudo.store .i16 .X .A).Apart := fun _ => nofun
    have add : (AtomicPseudo.loadOp .i16 .add .A ⟨.X, by decide⟩ .Y).Apart := fun _ => by decide
    have constant : (DefinedPseudo.constant .X (.globalAddress 0 2)).instr.Interruptible :=
      DefinedPseudo.interruptible trivial
    rw [publishAndAdd, List.forall_mem_cons, List.forall_mem_singleton, List.forall_mem_cons,
      List.forall_mem_cons, List.forall_mem_singleton, List.forall_mem_cons,
      List.forall_mem_singleton]
    exact ⟨⟨constant, .inl ⟨_, store, rfl⟩, .inr (.inr rfl)⟩, .inl ⟨_, add, rfl⟩, .inr (.inr rfl)⟩

end Snes
