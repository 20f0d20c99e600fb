/-
# Atomic Pseudo Instructions

What the pass leaves of an atomic load, store or read-modify-write: the status
register is saved in `A`, interrupts are disabled, the memory is accessed, and
the status register is restored from `A`.  The operation of a read-modify-write
takes the pointer for its operand and leaves its result in the destination.
-/
import SnesBackend.AtomicExec
import SnesBackend.ExpandPass

namespace Snes

open WordArith RoundRewriting ExpandPseudo

/-! ## The pseudos -/

/-- The operations of the read-modify-write pseudos. -/
inductive AtomicOp where
  | add | sub | and | or | xor
deriving DecidableEq, Repr

/-- The new value in memory. -/
def AtomicOp.eval {w : ℕ} (op : AtomicOp) (old operand : BitVec w) : BitVec w :=
  match op with
  | add => old + operand
  | sub => old - operand
  | and => old &&& operand
  | or => old ||| operand
  | xor => old ^^^ operand

/-- A member of `IndexRegs`. -/
abbrev IndexReg := {r : WordReg // Reg.word r ∈ RegClass.indexRegs.members}

/-- An atomic pseudo with the operands that its definition admits. -/
inductive AtomicPseudo where
  | load (type : ValueType) (rd : WordReg) (rr : IndexReg)
  | store (type : ValueType) (rd rr : WordReg)
  | loadOp (type : ValueType) (op : AtomicOp) (rd : WordReg) (rr : IndexReg) (operand : WordReg)

namespace AtomicPseudo

/-- The opcode of a pseudo. -/
def opcode : AtomicPseudo → Opcode
  | load .i8 _ _ => .AtomicLoad8
  | load .i16 _ _ => .AtomicLoad16
  | store .i8 _ _ => .AtomicStore8
  | store .i16 _ _ => .AtomicStore16
  | loadOp .i8 .add _ _ _ => .AtomicLoadAdd8
  | loadOp .i16 .add _ _ _ => .AtomicLoadAdd16
  | loadOp .i8 .sub _ _ _ => .AtomicLoadSub8
  | loadOp .i16 .sub _ _ _ => .AtomicLoadSub16
  | loadOp .i8 .and _ _ _ => .AtomicLoadAnd8
  | loadOp .i16 .and _ _ _ => .AtomicLoadAnd16
  | loadOp .i8 .or _ _ _ => .AtomicLoadOr8
  | loadOp .i16 .or _ _ _ => .AtomicLoadOr16
  | loadOp .i8 .xor _ _ _ => .AtomicLoadXor8
  | loadOp .i16 .xor _ _ _ => .AtomicLoadXor16

/-- The machine instruction. -/
def instr (i : AtomicPseudo) : MachineInstr :=
  match i with
  | load _ rd rr => ⟨i.opcode, [.reg (.word rd), .reg (.word rr)]⟩
  | store _ rd rr => ⟨i.opcode, [.reg (.word rd), .reg (.word rr)]⟩
  | loadOp _ _ rd rr operand =>
      ⟨i.opcode, [.reg (.word rd), .reg (.word rr), .reg (.word operand)]⟩

/-- The type of the value in memory. -/
def type : AtomicPseudo → ValueType
  | load type _ _ => type
  | store type _ _ => type
  | loadOp type _ _ _ _ => type

/-- The register that a pseudo defines. -/
def dst : AtomicPseudo → Option WordReg
  | load _ rd _ => some rd
  | store _ _ _ => none
  | loadOp _ _ rd _ _ => some rd

/-- The register with the address. -/
def ptr : AtomicPseudo → WordReg
  | load _ _ rr => rr
  | store _ rd _ => rd
  | loadOp _ _ _ rr _ => rr

end AtomicPseudo

/-! ## Values in registers and in memory -/

namespace MachineState

/-- A value of a type in a main register. -/
def get (s : MachineState) (type : ValueType) (r : WordReg) : BitVec type.width :=
  match type with
  | .i8 => s.regs r.subLo
  | .i16 => s.word r

/-- A value of a type in memory, low byte first. -/
def load (s : MachineState) (type : ValueType) (address : BitVec 16) : BitVec type.width :=
  match type with
  | .i8 => s.mem address
  | .i16 => s.mem (address + 1) ++ s.mem address

/-- Store a value of a type. -/
def store (s : MachineState) (type : ValueType) (address : BitVec 16) (v : BitVec type.width) :
    MachineState :=
  match type, v with
  | .i8, v => s.storeByte address v
  | .i16, v => s.storeWord address v

end MachineState

/-! ## The meaning of the DAG nodes -/

namespace AtomicPseudo

/-- The value in memory before. -/
def old (i : AtomicPseudo) (s : MachineState) : BitVec i.type.width :=
  s.load i.type (s.word i.ptr)

/-- The memory after the node. -/
def memAfter (i : AtomicPseudo) (s : MachineState) : BitVec 16 → BitVec 8 :=
  match i with
  | load _ _ _ => s.mem
  | store type rd rr => (s.store type (s.word rd) (s.get type rr)).mem
  | loadOp type op _ rr operand =>
      (s.store type (s.word rr)
        (op.eval (s.load type (s.word rr)) (s.get type operand))).mem

/-- The state after a pseudo is the one after its node: the old value in the destination, the new
one in memory, and nothing else changed. -/
structure Behaves (i : AtomicPseudo) (s s' : MachineState) : Prop where
  returned : ∀ rd, i.dst = some rd → s'.get i.type rd = i.old s
  mem : s'.mem = i.memAfter s
  regs : ∀ r, (∀ rd, i.dst = some rd → r ≠ rd.subLo ∧ r ≠ rd.subHi) → s'.regs r = s.regs r
  sp : s'.sp = s.sp
  p : s'.p = s.p
  interrupt : s'.p.interrupt = s.p.interrupt

/-- The instructions that the pass leaves of a pseudo behave as its node. -/
def ExpandedRight (i : AtomicPseudo) (scavenge : Scavenger) (s : MachineState) : Prop :=
  ∃ mis s', runOnMachineFunction scavenge [[i.instr]] = some [mis] ∧
    execBlock mis s = some s' ∧ i.Behaves s s'

/-- The byte that the status register is restored from: the low half of `A` at the end. -/
def restored (i : AtomicPseudo) (s : MachineState) : BitVec 8 :=
  if i.dst = some .A then (i.old s).setWidth 8 else s.regs .AL

/-- When the expansion of a pseudo is right.  `A` must hold the status register already, or be given
it by the load.  An operation must leave the old value unchanged both with its operand and with the
pointer in its place; where the destination is the pointer, it is the byte itself instead, and is
stored at the address it makes. -/
def RightWhen (i : AtomicPseudo) (s : MachineState) : Prop :=
  i.restored s = s.p.toByte ∧
    match i with
    | load type rd rr => type = .i16 → rd ≠ rr
    | store _ _ _ => True
    | loadOp type op rd rr operand =>
        let old := s.load type (s.word rr)
        op.eval old (s.get type operand) = old ∧
          (rd ≠ rr ∧ op.eval old (s.get type rr) = old ∨
            rd = rr ∧ type = .i8 ∧ op.eval old old = old ∧
              s.mem (s.regs rd.subHi ++ old.setWidth 8) = old.setWidth 8)

end AtomicPseudo

/-! ## The instructions that the pass leaves -/

/-- The opcode on bytes, with the one on the high halves of words, is that of a word pseudo. -/
def AtomicOp.arith : AtomicOp → RegRegPseudo
  | add => .ADDW
  | sub => .SUBW
  | and => .ANDW
  | or => .ORW
  | xor => .EORW

/-- The load of a value. -/
def loadBody (type : ValueType) (rd rr : WordReg) : List MachineInstr :=
  match type with
  | .i8 => [⟨.LDRdPtr, [.reg (.word rd), .reg (.word rr)]⟩]
  | .i16 => [⟨.LDRdPtr, [.reg (.byte rd.subLo), .reg (.word rr)]⟩,
      ⟨.LDDRdPtrQ, [.reg (.byte rd.subHi), .reg (.word rr), .imm 1]⟩]

/-- The operation. -/
def arithBody (type : ValueType) (op : AtomicOp) (rd rr : WordReg) : List MachineInstr :=
  match type with
  | .i8 => [⟨op.arith.byteOps.1, [.reg (.word rd), .reg (.word rd), .reg (.word rr)]⟩]
  | .i16 => [⟨op.arith.byteOps.1,
        [.reg (.byte rd.subLo), .reg (.byte rd.subLo), .reg (.byte rr.subLo)]⟩,
      ⟨op.arith.byteOps.2,
        [.reg (.byte rd.subHi), .reg (.byte rd.subHi), .reg (.byte rr.subHi)]⟩]

/-- The store of a value. -/
def storeBody (type : ValueType) (rd rr : WordReg) : List MachineInstr :=
  match type with
  | .i8 => [⟨.STPtrRr, [.reg (.word rd), .reg (.word rr)]⟩]
  | .i16 => [⟨.STPtrRr, [.reg (.word rd), .reg (.byte rr.subLo)]⟩,
      ⟨.STDPtrQRr, [.reg (.word rd), .imm 1, .reg (.byte rr.subHi)]⟩]

theorem noPseudos_loadBody (type : ValueType) (rd rr : WordReg) :
    NoPseudos (loadBody type rd rr) := by
  cases type
  · exact .cons rfl noPseudos_nil
  · exact noPseudos_pair rfl rfl

theorem noPseudos_arithBody (type : ValueType) (op : AtomicOp) (rd rr : WordReg) :
    NoPseudos (arithBody type op rd rr) := by
  cases type <;> cases op
  case i8.add | i8.sub | i8.and | i8.or | i8.xor => exact .cons rfl noPseudos_nil
  all_goals exact noPseudos_pair rfl rfl

theorem noPseudos_storeBody (type : ValueType) (rd rr : WordReg) :
    NoPseudos (storeBody type rd rr) := by
  cases type
  · exact .cons rfl noPseudos_nil
  · exact noPseudos_pair rfl rfl

theorem NoPseudos.append {mis mis' : List MachineInstr} (h : NoPseudos mis)
    (h' : NoPseudos mis') : NoPseudos (mis ++ mis') :=
  List.forall_mem_append.mpr ⟨h, h'⟩

/-- A round leaves instructions that are no pseudos alone. -/
theorem rewriteRound_of_noPseudos (scavenge : Scavenger) (before : List MachineInstr)
    {mis : List MachineInstr} (h : NoPseudos mis) :
    rewriteRound (expandStep scavenge) before mis = some (mis, false) :=
  rewriteRound_of_forall_unchanged before fun mi hmi before => by
    rw [expandStep, expandMI_of_isPseudo_eq_false _ (h mi hmi)]
    rfl

/-- The pass on a block of pseudos that are each expanded in one round. -/
theorem expandBlock_of_forall_expanded {scavenge : Scavenger} {β : Type*}
    (instr : β → MachineInstr) (f : β → List MachineInstr) (items : List β)
    (h : ∀ b ∈ items, ∀ before, expandMI (scavenge before) (instr b) = .expanded (f b))
    (hmis : NoPseudos (items.flatMap f)) :
    expandBlock scavenge (items.map instr) = some (items.flatMap f) := by
  apply rewriteRounds_of_forall_replaced
  · intro b hb before
    rw [expandStep, h b hb before]
    rfl
  · intro mi hmi before
    rw [expandStep, expandMI_of_isPseudo_eq_false _ (hmis mi hmi)]
    rfl

/-- What stands before the body of an expanded pseudo. -/
def atomicPrefix : List MachineInstr :=
  [⟨.INRdA, [.reg scratchRegister, ofUnsigned pAddr]⟩, ⟨.BCLRs, [.imm 7]⟩]

/-- **The pass on an atomic pseudo**: the body is expanded in its place. -/
theorem expandBlock_of_expandAtomic {scavenge : Scavenger} {mi : MachineInstr}
    {body : List MachineInstr} (hmi : expandMI (scavenge []) mi = .expanded (expandAtomic body))
    (hbody : ∀ result, rewriteRound (expandStep scavenge) atomicPrefix body = some result →
      NoPseudos result.1) :
    expandBlock scavenge [mi] =
      (rewriteRound (expandStep scavenge) atomicPrefix body).map fun result =>
        expandAtomic result.1 := by
  have hfirst : rewriteRound (expandStep scavenge) [] [mi] = some (expandAtomic body, true) := by
    simp [rewriteRound, expandStep, hmi, ExpandResult.toStep]
  have hprefix : NoPseudos atomicPrefix := noPseudos_pair rfl rfl
  have hsuffix : NoPseudos [⟨.OUTARr, [ofUnsigned pAddr, .reg scratchRegister]⟩] :=
    .cons rfl noPseudos_nil
  have hsecond : rewriteRound (expandStep scavenge) [] (expandAtomic body) =
      (rewriteRound (expandStep scavenge) atomicPrefix body).map fun result =>
        (expandAtomic result.1, result.2) := by
    change rewriteRound (expandStep scavenge) [] (atomicPrefix ++ body ++ _) = _
    rw [rewriteRound_append, rewriteRound_append,
      rewriteRound_of_noPseudos scavenge [] hprefix]
    cases hround : rewriteRound (expandStep scavenge) atomicPrefix body with
    | none => simp [hround]
    | some result =>
        simp only [List.nil_append, hround, Option.bind_some, Option.map_some,
          rewriteRound_of_noPseudos scavenge _ hsuffix]
        simp [expandAtomic, atomicPrefix]
  rw [expandBlock, rewriteRounds_of_changed hfirst]
  cases hround : rewriteRound (expandStep scavenge) atomicPrefix body with
  | none =>
      rw [hround] at hsecond
      simp [rewriteRounds, hsecond]
  | some result =>
      rw [hround] at hsecond
      have hthird := rewriteRound_of_noPseudos scavenge []
        (noPseudos_expandAtomic (hbody result hround))
      obtain ⟨new, changed⟩ := result
      cases changed with
      | true => rw [rewriteRounds_of_changed hsecond, rewriteRounds_of_unchanged hthird]; rfl
      | false => rw [rewriteRounds_of_unchanged hsecond]; rfl

/-- The load, the operation and the store that `expandAtomic` surrounds. -/
def loadInstr (type : ValueType) (rd rr : WordReg) : MachineInstr :=
  ⟨match type with
    | .i8 => .LDRdPtr
    | .i16 => .LDWRdPtr, [.reg (.word rd), .reg (.word rr)]⟩

/-- The operation before its expansion. -/
def arithInstr (type : ValueType) (op : AtomicOp) (rd rr : WordReg) : MachineInstr :=
  ⟨match type with
    | .i8 => op.arith.byteOps.1
    | .i16 => op.arith.opcode, [.reg (.word rd), .reg (.word rd), .reg (.word rr)]⟩

/-- The store before its expansion. -/
def storeInstr (type : ValueType) (rd rr : WordReg) : MachineInstr :=
  ⟨match type with
    | .i8 => .STPtrRr
    | .i16 => .STWPtrRr, [.reg (.word rd), .reg (.word rr)]⟩

/-- The body that `expandAtomic` surrounds. -/
def AtomicPseudo.body : AtomicPseudo → List MachineInstr
  | load type rd rr => [loadInstr type rd rr]
  | store type rd rr => [storeInstr type rd rr]
  | loadOp type op rd rr _ => [loadInstr type rd rr] ++ [arithInstr type op rd rr] ++
      [storeInstr type rr rd]

/-- The first round on an atomic pseudo. -/
theorem expandMI_atomicPseudo (scavengeMainRegs : MachineInstr → Option Reg) (i : AtomicPseudo) :
    expandMI scavengeMainRegs i.instr = .expanded (expandAtomic i.body) := by
  cases i with
  | load type rd rr => cases type <;> rfl
  | store type rd rr => cases type <;> rfl
  | loadOp type op rd rr operand => cases type <;> cases op <;> rfl

section

variable (scavenge : Scavenger) (before : List MachineInstr)

/-- A round on one instruction that is expanded. -/
theorem rewriteRound_of_expanded {mi : MachineInstr} {mis : List MachineInstr}
    (h : expandMI (scavenge before) mi = .expanded mis) :
    rewriteRound (expandStep scavenge) before [mi] = some (mis, true) := by
  simp [rewriteRound, expandStep, h, ExpandResult.toStep]

/-- A round on the load. -/
theorem exists_round_loadInstr (type : ValueType) {rd rr : WordReg} (h : type = .i16 → rd ≠ rr) :
    ∃ changed, rewriteRound (expandStep scavenge) before [loadInstr type rd rr] =
      some (loadBody type rd rr, changed) := by
  cases type with
  | i8 => exact ⟨false, rewriteRound_of_noPseudos scavenge before (noPseudos_loadBody .i8 rd rr)⟩
  | i16 =>
      exact ⟨true, rewriteRound_of_expanded scavenge before
        (congrArg ExpandResult.ofOption (expandLDWRdPtr_of_ne (h rfl) _))⟩

/-- A round on the operation. -/
theorem exists_round_arithInstr (type : ValueType) (op : AtomicOp) (rd rr : WordReg) :
    ∃ changed, rewriteRound (expandStep scavenge) before [arithInstr type op rd rr] =
      some (arithBody type op rd rr, changed) := by
  cases type with
  | i8 =>
      exact ⟨false, rewriteRound_of_noPseudos scavenge before (noPseudos_arithBody .i8 op rd rr)⟩
  | i16 => exact ⟨true, rewriteRound_of_expanded scavenge before (by cases op <;> rfl)⟩

/-- A round on the store. -/
theorem exists_round_storeInstr (type : ValueType) (rd rr : WordReg) :
    ∃ changed, rewriteRound (expandStep scavenge) before [storeInstr type rd rr] =
      some (storeBody type rd rr, changed) := by
  cases type with
  | i8 => exact ⟨false, rewriteRound_of_noPseudos scavenge before (noPseudos_storeBody .i8 rd rr)⟩
  | i16 => exact ⟨true, rewriteRound_of_expanded scavenge before rfl⟩

/-- The load of a word through its own destination, with the scavenged register. -/
def selfLoadBody (tmpReg : Reg) (rd : WordReg) : List MachineInstr :=
  [⟨.LDRdPtr, [.reg tmpReg, .reg (.word rd)]⟩, ⟨.PHAstk, [.reg tmpReg]⟩,
    ⟨.LDDRdPtrQ, [.reg tmpReg, .reg (.word rd), .imm 1]⟩,
    ⟨.MOVRdRr, [.reg (.byte rd.subHi), .reg tmpReg]⟩, ⟨.POPRd, [.reg (.byte rd.subLo)]⟩]

/-- A round on a word load through its own destination asks the scavenger. -/
theorem round_loadInstr_self (rd : WordReg) :
    rewriteRound (expandStep scavenge) before [loadInstr .i16 rd rd] =
      (scavenge before (loadInstr .i16 rd rd)).map fun tmpReg => (selfLoadBody tmpReg rd, true) := by
  have hexpand : expandMI (scavenge before) (loadInstr .i16 rd rd) = _ :=
    congrArg ExpandResult.ofOption (expandLDWRdPtr_self rd .LDWRdPtr)
  have hinstr : loadInstr .i16 rd rd = ⟨.LDWRdPtr, [.reg (.word rd), .reg (.word rd)]⟩ := rfl
  rw [← hinstr] at hexpand
  cases htmp : scavenge before (loadInstr .i16 rd rd) with
  | none =>
      rw [htmp] at hexpand
      simp only [rewriteRound, expandStep, hexpand]
      rfl
  | some tmpReg =>
      rw [htmp] at hexpand
      exact rewriteRound_of_expanded scavenge before hexpand

end

/-- The final instructions of a pseudo, other than a word load through its own destination. -/
def AtomicPseudo.finalBody : AtomicPseudo → List MachineInstr
  | load type rd rr => loadBody type rd rr
  | store type rd rr => storeBody type rd rr
  | loadOp type op rd rr _ => loadBody type rd rr ++ arithBody type op rd rr ++
      storeBody type rr rd

/-- A pseudo whose destination is not the pointer, or is a byte. -/
def AtomicPseudo.Apart (i : AtomicPseudo) : Prop :=
  i.type = .i16 → i.dst ≠ some i.ptr

/-- **The instructions that the pass leaves** when destination and pointer are apart. -/
theorem expandBlock_of_apart (scavenge : Scavenger) {i : AtomicPseudo} (h : i.Apart) :
    expandBlock scavenge [i.instr] = some (expandAtomic i.finalBody) := by
  have hround : ∃ changed, rewriteRound (expandStep scavenge) atomicPrefix i.body =
      some (i.finalBody, changed) := by
    cases i with
    | load type rd rr =>
        exact exists_round_loadInstr scavenge _ type fun htype heq => h htype (congrArg some heq)
    | store type rd rr => exact exists_round_storeInstr scavenge _ type rd rr
    | loadOp type op rd rr operand =>
        have hne : type = .i16 → rd ≠ rr := fun htype heq => h htype (congrArg some heq)
        obtain ⟨changed, hload⟩ := exists_round_loadInstr scavenge atomicPrefix type hne
        obtain ⟨changed', harith⟩ := exists_round_arithInstr scavenge
          (atomicPrefix ++ loadBody type rd rr) type op rd rr
        obtain ⟨changed'', hstore⟩ := exists_round_storeInstr scavenge
          (atomicPrefix ++ (loadBody type rd rr ++ arithBody type op rd rr)) type rr rd
        refine ⟨(changed || changed') || changed'', ?_⟩
        rw [AtomicPseudo.body, rewriteRound_append, rewriteRound_append, hload]
        simp only [Option.bind_some, harith, Option.map_some, hstore]
        rfl
  obtain ⟨changed, hround⟩ := hround
  rw [expandBlock_of_expandAtomic (expandMI_atomicPseudo _ i), hround]
  · rfl
  · intro result hresult
    obtain rfl := Option.some.inj (hround.symm.trans hresult)
    cases i with
    | load type rd rr => exact noPseudos_loadBody type rd rr
    | store type rd rr => exact noPseudos_storeBody type rd rr
    | loadOp type op rd rr operand =>
        exact ((noPseudos_loadBody type rd rr).append (noPseudos_arithBody type op rd rr)).append
          (noPseudos_storeBody type rr rd)

theorem noPseudos_selfLoadBody (tmpReg : Reg) (rd : WordReg) :
    NoPseudos (selfLoadBody tmpReg rd) :=
  .cons rfl (.cons rfl (.cons rfl (noPseudos_pair rfl rfl)))

/-- The pushes and pops of a word load through its own destination do not cancel. -/
theorem spOffset_selfLoadBody (tmpReg : Reg) (rd : WordReg) :
    ((selfLoadBody tmpReg rd).map MachineInstr.spOffset).sum = -1 := by
  simp [selfLoadBody, MachineInstr.spOffset]

/-- The other parts of an expansion leave the stack pointer alone. -/
theorem spOffset_arithBody (op : AtomicOp) (rd rr : WordReg) :
    ((arithBody .i16 op rd rr).map MachineInstr.spOffset).sum = 0 := by
  cases op <;> rfl

/-- What surrounds a body does not move the stack pointer. -/
theorem spOffset_expandAtomic (body : List MachineInstr) :
    ((expandAtomic body).map MachineInstr.spOffset).sum =
      (body.map MachineInstr.spOffset).sum := by
  simp [expandAtomic, MachineInstr.spOffset]

/-- **The instructions that the pass leaves** when a word goes through its own destination: the
stack pointer does not come back. -/
theorem spOffset_of_not_apart (scavenge : Scavenger) {i : AtomicPseudo} (h : ¬ i.Apart)
    {mis : List MachineInstr} (hmis : expandBlock scavenge [i.instr] = some mis) :
    (mis.map MachineInstr.spOffset).sum = -1 := by
  have hround : ∀ result, rewriteRound (expandStep scavenge) atomicPrefix i.body = some result →
      NoPseudos result.1 ∧ (result.1.map MachineInstr.spOffset).sum = -1 := by
    intro result hresult
    simp only [AtomicPseudo.Apart, Classical.not_imp, not_not] at h
    obtain ⟨htype, hdst⟩ := h
    cases i with
    | load type rd rr =>
        obtain rfl : type = .i16 := htype
        obtain rfl : rd = rr := Option.some.inj hdst
        rw [AtomicPseudo.body, round_loadInstr_self] at hresult
        obtain ⟨tmpReg, -, rfl⟩ := Option.map_eq_some_iff.mp hresult
        exact ⟨noPseudos_selfLoadBody tmpReg rr, spOffset_selfLoadBody tmpReg rr⟩
    | store type rd rr => simp [AtomicPseudo.dst] at hdst
    | loadOp type op rd rr operand =>
        obtain rfl : type = .i16 := htype
        obtain rfl : rd = rr := Option.some.inj hdst
        rw [AtomicPseudo.body, rewriteRound_append, rewriteRound_append,
          round_loadInstr_self] at hresult
        cases htmp : scavenge atomicPrefix (loadInstr .i16 rr rr) with
        | none => simp [htmp] at hresult
        | some tmpReg =>
            obtain ⟨changed, harith⟩ := exists_round_arithInstr scavenge
              (atomicPrefix ++ selfLoadBody tmpReg rr) .i16 op rr rr
            obtain ⟨changed', hstore⟩ := exists_round_storeInstr scavenge
              (atomicPrefix ++ (selfLoadBody tmpReg rr ++ arithBody .i16 op rr rr)) .i16 rr rr
            simp only [htmp, Option.map_some, Option.bind_some, harith, hstore,
              Option.some.injEq] at hresult
            subst hresult
            refine ⟨((noPseudos_selfLoadBody tmpReg rr).append
              (noPseudos_arithBody .i16 op rr rr)).append (noPseudos_storeBody .i16 rr rr), ?_⟩
            rw [List.map_append, List.map_append, List.sum_append, List.sum_append,
              spOffset_selfLoadBody, spOffset_arithBody]
            rfl
  rw [expandBlock_of_expandAtomic (expandMI_atomicPseudo _ i) fun result hresult =>
    (hround result hresult).1] at hmis
  obtain ⟨result, hresult, rfl⟩ := Option.map_eq_some_iff.mp hmis
  rw [spOffset_expandAtomic]
  exact (hround result hresult).2

end Snes
