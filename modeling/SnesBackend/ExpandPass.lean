/-
# The Expansion Pass on Functions

`expandMBB` and `runOnMachineFunction` of `SNESExpandPseudoInsts.cpp`: each block
is expanded in rounds until a round changes nothing.  The pseudo instructions
that can stand in a function are collected from their producers, with the
operands that these give them, and the functions are found whose pseudos the
pass expands completely.
-/
import SnesBackend.ExpandPseudo
import SnesBackend.RoundRewriting

namespace Snes

open RoundRewriting

/-! ## The pass -/

/-- The blocks of a function, each a list of instructions. -/
abbrev MachineBlocks := List (List MachineInstr)

/-- A register for an instruction after the given ones of its block, `scavengeMainRegs`. -/
abbrev Scavenger := List MachineInstr → MachineInstr → Option Reg

/-- What happens to an instruction, as a step of a round. -/
def ExpandResult.toStep : ExpandResult → Step MachineInstr
  | unchanged => .unchanged
  | expanded mis => .replaced mis
  | failure => .failed

/-- `expandMI` on an instruction of a block. -/
def expandStep (scavenge : Scavenger) (before : List MachineInstr) (mi : MachineInstr) :
    Step MachineInstr :=
  (expandMI (scavenge before) mi).toStep

/-- `expandMBB`: the new instructions are not visited again in the same round. -/
def expandMBB (scavenge : Scavenger) (block : List MachineInstr) :
    Option (List MachineInstr × Bool) :=
  rewriteRound (expandStep scavenge) [] block

/-- The rounds on one block: the assertion on `ExpandCount` admits ten. -/
def expandBlock (scavenge : Scavenger) (block : List MachineInstr) : Option (List MachineInstr) :=
  rewriteRounds (expandStep scavenge) 10 block

/-- `runOnMachineFunction`. -/
def runOnMachineFunction (scavenge : Scavenger) (mf : MachineBlocks) : Option MachineBlocks :=
  mf.mapM (expandBlock scavenge)

/-- The pass expands a function completely: it ends, and no instruction of the `Pseudo` class is
left. -/
def ExpandsCompletely (scavenge : Scavenger) (mf : MachineBlocks) : Prop :=
  ∃ mf', runOnMachineFunction scavenge mf = some mf' ∧
    ∀ block ∈ mf', ∀ mi ∈ block, mi.opcode.isPseudo = false

/-! ## The producers of pseudo instructions -/

/-- Who creates machine instructions before the pass. -/
inductive Creator where
  | selection | customInserter | copyPhysReg | spillReload | frameLowering
deriving DecidableEq, Repr

/-- The producers of each pseudo: patterns and `SNESISelDAGToDAG.cpp`, `insertShift`,
`copyPhysReg`, `storeRegToStackSlot` and `loadRegFromStackSlot`, and `SNESFrameLowering.cpp`, whose
prologue and epilogue are commented out. -/
def Opcode.creators : Opcode → List Creator
  | ADJCALLSTACKDOWN | ADJCALLSTACKUP => [.selection]
  | ADDWRdRr | ADCWRdRr | SUBWRdRr | SBCWRdRr | SBCIWRdK => [.selection]
  | SUBIWRdK => [.selection, .frameLowering]
  | ANDWRdRr | ANDIWRdK | ORWRdRr | ORIWRdK | EORWRdRr | COMWRd => [.selection]
  | CPWRdRr | CPCWRdRr => [.selection]
  | LDIWRdK | LDSWRdK | LDWRdPtr | LDWRdPtrPi | LDWRdPtrPd | LDDWRdPtrQ => [.selection]
  | LDDWRdYQ => [.spillReload]
  | LPMWRdZ | LPMWRdZPi => [.selection]
  | AtomicLoad8 | AtomicLoad16 | AtomicStore8 | AtomicStore16 | AtomicLoadAdd8 | AtomicLoadAdd16
  | AtomicLoadSub8 | AtomicLoadSub16 | AtomicLoadAnd8 | AtomicLoadAnd16 | AtomicLoadOr8
  | AtomicLoadOr16 | AtomicLoadXor8 | AtomicLoadXor16 | AtomicFence => [.selection]
  | STSWKRr | STWPtrRr | STWPtrPiRr | STWPtrPdRr => [.selection]
  | STDWPtrQRr => [.selection, .spillReload, .frameLowering]
  | INWRdA | OUTWARr => [.selection]
  | LSLWRd | LSRWRd | ASRWRd | ROLWRd | RORWRd => [.selection, .customInserter]
  | SEXT | ZEXT | FRMIDX | STDSPQRr | STDWSPQRr => [.selection]
  | SPREAD | SPWRITE => [.copyPhysReg, .frameLowering]
  | Select8 | Select16 | Lsl8 | Lsl16 | Lsr8 | Lsr16 | Rol8 | Rol16 | Ror8 | Ror16 | Asr8
  | Asr16 => [.selection]
  | _ => []

/-- The immediate operands of a pseudo: a number, or a symbol where a pattern has one. -/
def immFits (op : Opcode) : MachineOperand → Bool
  | .imm _ => true
  | .globalAddress _ _ _ =>
      op == .LDIWRdK || op == .SUBIWRdK || op == .LDSWRdK || op == .STSWKRr
  | .blockAddress _ _ => op == .LDIWRdK
  | _ => false

/-- The operands of a pseudo after register allocation and the elimination of frame indices: the
registers are of the operands' classes, and ports are those of `ioaddr16`. -/
def OperandsFit (op : Opcode) : List OperandType → List MachineOperand → Prop
  | [], operands => operands = []
  | .reg rc :: types, .reg r :: operands => r ∈ rc.members ∧ OperandsFit op types operands
  | .i16imm :: types, operand :: operands =>
      immFits op operand = true ∧ OperandsFit op types operands
  | .immPort6 :: types, .imm k :: operands => toUnsigned k ≤ 62 ∧ OperandsFit op types operands
  | .memri :: types, .reg r :: .imm _ :: operands =>
      r ∈ RegClass.mainRegs.members ∧ OperandsFit op types operands
  | .memspi :: types, .reg r :: .imm _ :: operands => r = .SP ∧ OperandsFit op types operands
  | _, _ => False

/-- A machine instruction that one of the producers can create.  The pass does not look at
instructions that are no pseudos. -/
structure MachineInstr.Created (mi : MachineInstr) : Prop where
  creators : mi.opcode.isPseudo = true → mi.opcode.creators ≠ []
  operands : mi.opcode.isPseudo = true →
    OperandsFit mi.opcode ((desc mi.opcode).operands.map Prod.snd) mi.operands

/-- The assertions of the expansions on the operands: displacements that fit, and a register that
differs from the pointer that is written back. -/
def MachineInstr.AssertionsHold (mi : MachineInstr) : Prop :=
  match mi.opcode with
  | .LDWRdPtrPi | .LDWRdPtrPd => mi.getReg 0 ≠ mi.getReg 1
  | .STWPtrPiRr | .STWPtrPdRr => mi.getReg 0 ≠ mi.getReg 2
  | .LDDWRdPtrQ | .LDDWRdYQ => ∀ k, mi.getImm 2 = some k → toUnsigned k ≤ 63
  | .STDWPtrQRr => ∀ k, mi.getImm 1 = some k → toUnsigned k ≤ 63
  | _ => True

/-- The pseudos that the pass does not get rid of: those missing from its switch, those whose
expansion is an `llvm_unreachable`, and `SPREAD`, whose expansion is not defined. -/
def Opcode.unexpanded : Opcode → Bool
  | ADJCALLSTACKDOWN | ADJCALLSTACKUP | SEXT | ZEXT | FRMIDX | STDSPQRr | STDWSPQRr => true
  | Select8 | Select16 | Lsl8 | Lsl16 | Lsr8 | Lsr16 | Rol8 | Rol16 | Ror8 | Ror16 | Asr8
  | Asr16 => true
  | LPMWRdZ | LPMWRdZPi | RORWRd | ROLWRd | SPREAD => true
  | _ => false

/-! ## Operands that fit -/

/-- The main registers are the words. -/
theorem mem_mainRegs_iff (r : Reg) : r ∈ RegClass.mainRegs.members ↔ ∃ w, r = .word w := by
  constructor
  · intro h
    simp only [RegClass.members, List.mem_cons, List.not_mem_nil, or_false] at h
    rcases h with rfl | rfl | rfl <;> exact ⟨_, rfl⟩
  · rintro ⟨w, rfl⟩
    cases w <;> simp [RegClass.members]

/-- The index registers are words. -/
theorem mem_indexRegs (r : Reg) (h : r ∈ RegClass.indexRegs.members) : ∃ w, r = .word w := by
  simp only [RegClass.members, List.mem_cons, List.not_mem_nil, or_false] at h
  rcases h with rfl | rfl <;> exact ⟨_, rfl⟩

section

variable {op : Opcode} {types : List OperandType} {operands : List MachineOperand}

attribute [local simp] OperandsFit

theorem fits_nil_iff : OperandsFit op [] operands ↔ operands = [] := by
  rw [OperandsFit]

theorem fits_mainReg_iff : OperandsFit op (.reg .mainRegs :: types) operands ↔
    ∃ w rest, operands = .reg (.word w) :: rest ∧ OperandsFit op types rest := by
  constructor
  · intro h
    rcases operands with _ | ⟨_ | _ | _ | _ | _, rest⟩ <;> simp only [OperandsFit] at h
    case cons.reg r =>
      obtain ⟨w, rfl⟩ := (mem_mainRegs_iff r).mp h.1
      exact ⟨w, rest, rfl, h.2⟩
  · rintro ⟨w, rest, rfl, h⟩
    exact ⟨(mem_mainRegs_iff _).mpr ⟨w, rfl⟩, h⟩

theorem exists_of_fits_indexReg (h : OperandsFit op (.reg .indexRegs :: types) operands) :
    ∃ w rest, operands = .reg (.word w) :: rest ∧ OperandsFit op types rest := by
  rcases operands with _ | ⟨_ | _ | _ | _ | _, rest⟩ <;> simp only [OperandsFit] at h
  case cons.reg r =>
    obtain ⟨w, rfl⟩ := mem_indexRegs r h.1
    exact ⟨w, rest, rfl, h.2⟩

theorem exists_of_fits_imm (h : OperandsFit op (.i16imm :: types) operands) :
    ∃ operand rest, operands = operand :: rest ∧ immFits op operand = true ∧
      OperandsFit op types rest := by
  rcases operands with _ | ⟨operand, rest⟩
  · simp [OperandsFit] at h
  · exact ⟨operand, rest, rfl, by simpa [OperandsFit] using h⟩

theorem exists_of_fits_port (h : OperandsFit op (.immPort6 :: types) operands) :
    ∃ k rest, operands = .imm k :: rest ∧ toUnsigned k ≤ 62 ∧ OperandsFit op types rest := by
  rcases operands with _ | ⟨_ | _ | _ | _ | _, rest⟩ <;> simp only [OperandsFit] at h
  case cons.imm k => exact ⟨k, rest, rfl, h⟩

theorem exists_of_fits_memri (h : OperandsFit op (.memri :: types) operands) :
    ∃ w k rest, operands = .reg (.word w) :: .imm k :: rest ∧ OperandsFit op types rest := by
  rcases operands with _ | ⟨_ | _ | _ | _ | _, _ | ⟨_ | _ | _ | _ | _, rest⟩⟩ <;>
    simp only [OperandsFit] at h
  case cons.reg.cons.imm r k =>
    obtain ⟨w, rfl⟩ := (mem_mainRegs_iff r).mp h.1
    exact ⟨w, k, rest, rfl, h.2⟩

end

/-- An immediate that fits where no symbol does is a number. -/
theorem exists_imm_of_immFits {op : Opcode} {operand : MachineOperand}
    (h : immFits op operand = true)
    (hop : op ≠ .LDIWRdK ∧ op ≠ .SUBIWRdK ∧ op ≠ .LDSWRdK ∧ op ≠ .STSWKRr) :
    ∃ k, operand = .imm k := by
  obtain ⟨hldi, hsubi, hlds, hsts⟩ := hop
  cases operand <;> simp_all [immFits]

/-! ## Expansions that succeed -/

/-- A list without pseudo instructions. -/
def NoPseudos (mis : List MachineInstr) : Prop :=
  ∀ mi ∈ mis, mi.opcode.isPseudo = false

theorem noPseudos_nil : NoPseudos [] := by
  simp [NoPseudos]

theorem NoPseudos.cons {mi : MachineInstr} {mis : List MachineInstr}
    (hmi : mi.opcode.isPseudo = false) (hmis : NoPseudos mis) : NoPseudos (mi :: mis) :=
  List.forall_mem_cons.mpr ⟨hmi, hmis⟩

theorem noPseudos_pair {mi mi' : MachineInstr} (hmi : mi.opcode.isPseudo = false)
    (hmi' : mi'.opcode.isPseudo = false) : NoPseudos [mi, mi'] :=
  .cons hmi (.cons hmi' noPseudos_nil)

/-- A successful expansion without pseudos. -/
def ExpandsAway (result : ExpandResult) : Prop :=
  ∃ mis, result = .expanded mis ∧ NoPseudos mis

section

variable {op : Opcode} {operands : List MachineOperand}

/-- Operands of three main registers. -/
theorem exists_three_of_fits
    (h : OperandsFit op [.reg .mainRegs, .reg .mainRegs, .reg .mainRegs] operands) :
    ∃ a b c, operands = [.reg (.word a), .reg (.word b), .reg (.word c)] := by
  obtain ⟨a, _, rfl, h1⟩ := fits_mainReg_iff.mp h
  obtain ⟨b, _, rfl, h2⟩ := fits_mainReg_iff.mp h1
  obtain ⟨c, _, rfl, h3⟩ := fits_mainReg_iff.mp h2
  rw [fits_nil_iff.mp h3]
  exact ⟨a, b, c, rfl⟩

/-- Operands of two main registers. -/
theorem exists_two_of_fits (h : OperandsFit op [.reg .mainRegs, .reg .mainRegs] operands) :
    ∃ a b, operands = [.reg (.word a), .reg (.word b)] := by
  obtain ⟨a, _, rfl, h1⟩ := fits_mainReg_iff.mp h
  obtain ⟨b, _, rfl, h2⟩ := fits_mainReg_iff.mp h1
  rw [fits_nil_iff.mp h2]
  exact ⟨a, b, rfl⟩

/-- Operands of two main registers and an immediate. -/
theorem exists_two_imm_of_fits
    (h : OperandsFit op [.reg .mainRegs, .reg .mainRegs, .i16imm] operands) :
    ∃ a b operand, operands = [.reg (.word a), .reg (.word b), operand] ∧
      immFits op operand = true := by
  obtain ⟨a, _, rfl, h1⟩ := fits_mainReg_iff.mp h
  obtain ⟨b, _, rfl, h2⟩ := fits_mainReg_iff.mp h1
  obtain ⟨operand, _, rfl, himm, h3⟩ := exists_of_fits_imm h2
  rw [fits_nil_iff.mp h3]
  exact ⟨a, b, operand, rfl, himm⟩

/-- Operands of a store with write back. -/
theorem exists_of_fits_writeBack
    (h : OperandsFit op [.reg .indexRegs, .reg .indexRegs, .reg .mainRegs, .i16imm] operands) :
    ∃ a b c operand, operands = [.reg (.word a), .reg (.word b), .reg (.word c), operand] ∧
      immFits op operand = true := by
  obtain ⟨a, _, rfl, h1⟩ := exists_of_fits_indexReg h
  obtain ⟨b, _, rfl, h2⟩ := exists_of_fits_indexReg h1
  obtain ⟨c, _, rfl, h3⟩ := fits_mainReg_iff.mp h2
  obtain ⟨operand, _, rfl, himm, h4⟩ := exists_of_fits_imm h3
  rw [fits_nil_iff.mp h4]
  exact ⟨a, b, c, operand, rfl, himm⟩

end

section

variable {scavengeMainRegs : MachineInstr → Option Reg} {op : Opcode}
  {operands : List MachineOperand}

/-- A symbol is never the immediate of a pseudo that has no pattern for one. -/
theorem exists_two_imm_of_fits_number
    (h : OperandsFit op [.reg .mainRegs, .reg .mainRegs, .i16imm] operands)
    (hop : op ≠ .LDIWRdK ∧ op ≠ .SUBIWRdK ∧ op ≠ .LDSWRdK ∧ op ≠ .STSWKRr) :
    ∃ a b k, operands = [.reg (.word a), .reg (.word b), .imm k] := by
  obtain ⟨a, b, operand, rfl, himm⟩ := exists_two_imm_of_fits h
  obtain ⟨k, rfl⟩ := exists_imm_of_immFits himm hop
  exact ⟨a, b, k, rfl⟩

/-- The logic operations with an immediate: neither, one or both halves are left. -/
theorem expandsAway_expandLogicImm (hop : op.isPseudo = false) (a b : WordReg) (k : BitVec 64)
    (pseudo : Opcode) :
    ExpandsAway (.ofOption (ExpandPseudo.expandLogicImm op
      ⟨pseudo, [.reg (.word a), .reg (.word b), .imm k]⟩)) := by
  refine ⟨_, rfl, ?_⟩
  intro mi hmi
  rcases List.mem_append.mp hmi with hmi | hmi <;> split at hmi <;> simp at hmi <;>
    simp [hmi, hop]

/-- A pseudo of registers only, other than a load, a store and the atomic ones. -/
theorem expandsAway_registers
    (hop : op ∈ [.ADDWRdRr, .ADCWRdRr, .SUBWRdRr, .SBCWRdRr, .ANDWRdRr, .ORWRdRr, .EORWRdRr,
      .COMWRd, .CPWRdRr, .CPCWRdRr, .LSLWRd, .LSRWRd, .ASRWRd, .STWPtrRr])
    (hfits : OperandsFit op ((desc op).operands.map Prod.snd) operands) :
    ExpandsAway (expandMI scavengeMainRegs ⟨op, operands⟩) := by
  simp only [List.mem_cons, List.not_mem_nil, or_false] at hop
  rcases hop with rfl | rfl | rfl | rfl | rfl | rfl | rfl | rfl | rfl | rfl | rfl | rfl | rfl | rfl
  all_goals first
    | (obtain ⟨a, b, c, rfl⟩ := exists_three_of_fits hfits
       exact ⟨_, rfl, noPseudos_pair rfl rfl⟩)
    | (obtain ⟨a, b, rfl⟩ := exists_two_of_fits hfits
       exact ⟨_, rfl, noPseudos_pair rfl rfl⟩)

/-- A pseudo with an immediate or the address of a symbol. -/
theorem expandsAway_immediate
    (hop : op ∈ [.SUBIWRdK, .SBCIWRdK, .ANDIWRdK, .ORIWRdK, .LDIWRdK, .LDSWRdK, .STSWKRr])
    (hfits : OperandsFit op ((desc op).operands.map Prod.snd) operands) :
    ExpandsAway (expandMI scavengeMainRegs ⟨op, operands⟩) := by
  simp only [List.mem_cons, List.not_mem_nil, or_false] at hop
  rcases hop with rfl | rfl | rfl | rfl | rfl | rfl | rfl
  case inl =>
    obtain ⟨a, b, operand, rfl, himm⟩ := exists_two_imm_of_fits hfits
    cases operand <;> simp [immFits] at himm <;> exact ⟨_, rfl, noPseudos_pair rfl rfl⟩
  case inr.inl =>
    obtain ⟨a, b, k, rfl⟩ := exists_two_imm_of_fits_number hfits (by decide)
    exact ⟨_, rfl, noPseudos_pair rfl rfl⟩
  case inr.inr.inl =>
    obtain ⟨a, b, k, rfl⟩ := exists_two_imm_of_fits_number hfits (by decide)
    exact expandsAway_expandLogicImm rfl a b k .ANDIWRdK
  case inr.inr.inr.inl =>
    obtain ⟨a, b, k, rfl⟩ := exists_two_imm_of_fits_number hfits (by decide)
    exact expandsAway_expandLogicImm rfl a b k .ORIWRdK
  case inr.inr.inr.inr.inr.inr =>
    obtain ⟨operand, _, rfl, himm, h⟩ := exists_of_fits_imm hfits
    obtain ⟨a, _, rfl, hnil⟩ := fits_mainReg_iff.mp h
    rw [fits_nil_iff.mp hnil]
    cases operand <;> simp [immFits] at himm <;> exact ⟨_, rfl, noPseudos_pair rfl rfl⟩
  all_goals
    obtain ⟨a, _, rfl, h⟩ := fits_mainReg_iff.mp hfits
    obtain ⟨operand, _, rfl, himm, hnil⟩ := exists_of_fits_imm h
    rw [fits_nil_iff.mp hnil]
    cases operand <;> simp [immFits] at himm <;> exact ⟨_, rfl, noPseudos_pair rfl rfl⟩

/-- A word load through another register takes the bytes one after the other. -/
theorem expandLDWRdPtr_of_ne {dst src : WordReg} (h : dst ≠ src) (pseudo : Opcode) :
    ExpandPseudo.expandLDWRdPtr scavengeMainRegs ⟨pseudo, [.reg (.word dst), .reg (.word src)]⟩ =
      some [⟨.LDRdPtr, [.reg (.byte dst.subLo), .reg (.word src)]⟩,
        ⟨.LDDRdPtrQ, [.reg (.byte dst.subHi), .reg (.word src), .imm 1]⟩] := by
  have hne : Reg.word dst ≠ Reg.word src := fun heq => h (Reg.word.inj heq)
  exact if_neg hne

/-- A word load through its own destination takes the bytes by way of the stack. -/
theorem expandLDWRdPtr_self (reg : WordReg) (pseudo : Opcode) :
    ExpandPseudo.expandLDWRdPtr scavengeMainRegs ⟨pseudo, [.reg (.word reg), .reg (.word reg)]⟩ =
      (scavengeMainRegs ⟨pseudo, [.reg (.word reg), .reg (.word reg)]⟩).bind fun tmpReg =>
        some [⟨.LDRdPtr, [.reg tmpReg, .reg (.word reg)]⟩, ⟨.PHAstk, [.reg tmpReg]⟩,
          ⟨.LDDRdPtrQ, [.reg tmpReg, .reg (.word reg), .imm 1]⟩,
          ⟨.MOVRdRr, [.reg (.byte reg.subHi), .reg tmpReg]⟩,
          ⟨.POPRd, [.reg (.byte reg.subLo)]⟩] :=
  if_pos rfl

/-- A guard that holds. -/
theorem guard_of_pos {p : Prop} [Decidable p] (h : p) : (guard p : Option Unit) = some () :=
  if_pos h

/-- The loads with a displacement in range: through another register. -/
theorem expandLDDWRdPtrQ_of_ne {dst src : WordReg} (h : dst ≠ src) {k : BitVec 64}
    (hk : toUnsigned k ≤ 63) (pseudo : Opcode) :
    ExpandPseudo.expandLDDWRdPtrQ scavengeMainRegs
        ⟨pseudo, [.reg (.word dst), .reg (.word src), .imm k]⟩ =
      some [⟨.LDDRdPtrQ, [.reg (.byte dst.subLo), .reg (.word src), ofUnsigned (toUnsigned k)]⟩,
        ⟨.LDDRdPtrQ,
          [.reg (.byte dst.subHi), .reg (.word src), ofUnsigned (toUnsigned k + 1)]⟩] := by
  have hne : Reg.word dst ≠ Reg.word src := fun heq => h (Reg.word.inj heq)
  simp only [ExpandPseudo.expandLDDWRdPtrQ, MachineInstr.getReg, MachineInstr.getImm,
    List.getElem?_cons_zero, List.getElem?_cons_succ, Reg.splitReg, Option.bind_eq_bind,
    Option.bind_some, guard_of_pos hk, if_neg hne]
  rfl

/-- And through their own destination. -/
theorem expandLDDWRdPtrQ_self (reg : WordReg) {k : BitVec 64} (hk : toUnsigned k ≤ 63)
    (pseudo : Opcode) :
    ExpandPseudo.expandLDDWRdPtrQ scavengeMainRegs
        ⟨pseudo, [.reg (.word reg), .reg (.word reg), .imm k]⟩ =
      (scavengeMainRegs ⟨pseudo, [.reg (.word reg), .reg (.word reg), .imm k]⟩).bind fun tmpReg =>
        some [⟨.LDDRdPtrQ, [.reg tmpReg, .reg (.word reg), ofUnsigned (toUnsigned k)]⟩,
          ⟨.PHAstk, [.reg tmpReg]⟩,
          ⟨.LDDRdPtrQ, [.reg tmpReg, .reg (.word reg), ofUnsigned (toUnsigned k + 1)]⟩,
          ⟨.MOVRdRr, [.reg (.byte reg.subHi), .reg tmpReg]⟩,
          ⟨.POPRd, [.reg (.byte reg.subLo)]⟩] := by
  simp only [ExpandPseudo.expandLDDWRdPtrQ, MachineInstr.getReg, MachineInstr.getImm,
    List.getElem?_cons_zero, List.getElem?_cons_succ, Reg.splitReg, Option.bind_eq_bind,
    Option.bind_some, guard_of_pos hk, if_true]
  rfl

/-- A word load through a pointer: the scavenger is asked when the pointer is the destination. -/
theorem expandsAway_load (hscavenge : ∀ mi, (scavengeMainRegs mi).isSome = true)
    (hop : op ∈ [.LDWRdPtr, .LDDWRdPtrQ, .LDDWRdYQ])
    (hfits : OperandsFit op ((desc op).operands.map Prod.snd) operands)
    (hasserts : MachineInstr.AssertionsHold ⟨op, operands⟩) :
    ExpandsAway (expandMI scavengeMainRegs ⟨op, operands⟩) := by
  obtain ⟨tmpReg, htmp⟩ := Option.isSome_iff_exists.mp (hscavenge ⟨op, operands⟩)
  simp only [List.mem_cons, List.not_mem_nil, or_false] at hop
  rcases hop with rfl | rfl | rfl
  case inl =>
    obtain ⟨a, b, rfl⟩ := exists_two_of_fits hfits
    rcases eq_or_ne a b with rfl | hab
    · have hexpand := (expandLDWRdPtr_self a _).trans (congrArg (Option.bind · _) htmp)
      refine ⟨_, congrArg ExpandResult.ofOption hexpand, ?_⟩
      exact .cons rfl (.cons rfl (.cons rfl (noPseudos_pair rfl rfl)))
    · refine ⟨_, congrArg ExpandResult.ofOption (expandLDWRdPtr_of_ne hab _), ?_⟩
      exact noPseudos_pair rfl rfl
  all_goals
    obtain ⟨a, _, rfl, h⟩ := fits_mainReg_iff.mp hfits
    obtain ⟨b, k, _, rfl, hnil⟩ := exists_of_fits_memri h
    obtain rfl := fits_nil_iff.mp hnil
    have hk : toUnsigned k ≤ 63 := hasserts k rfl
    rcases eq_or_ne a b with rfl | hab
    · have hexpand := (expandLDDWRdPtrQ_self a hk _).trans (congrArg (Option.bind · _) htmp)
      refine ⟨_, congrArg ExpandResult.ofOption hexpand, ?_⟩
      exact .cons rfl (.cons rfl (.cons rfl (noPseudos_pair rfl rfl)))
    · refine ⟨_, congrArg ExpandResult.ofOption (expandLDDWRdPtrQ_of_ne hab hk _), ?_⟩
      exact noPseudos_pair rfl rfl

/-- An expansion with an assertion that holds. -/
theorem expandsAway_guard {p : Prop} [Decidable p] (hp : p) {mis : List MachineInstr}
    (hmis : NoPseudos mis) :
    ExpandsAway (.ofOption ((guard p : Option Unit).bind fun _ => some mis)) :=
  ⟨mis, by rw [guard_of_pos hp]; rfl, hmis⟩

/-- A word access with write back: its registers differ. -/
theorem expandsAway_writeBack
    (hop : op ∈ [.LDWRdPtrPi, .LDWRdPtrPd, .STWPtrPiRr, .STWPtrPdRr])
    (hfits : OperandsFit op ((desc op).operands.map Prod.snd) operands)
    (hasserts : MachineInstr.AssertionsHold ⟨op, operands⟩) :
    ExpandsAway (expandMI scavengeMainRegs ⟨op, operands⟩) := by
  simp only [List.mem_cons, List.not_mem_nil, or_false] at hop
  rcases hop with rfl | rfl | rfl | rfl
  case inl | inr.inl =>
    obtain ⟨a, _, rfl, h⟩ := fits_mainReg_iff.mp hfits
    obtain ⟨b, _, rfl, h1⟩ := exists_of_fits_indexReg h
    obtain ⟨c, _, rfl, h2⟩ := exists_of_fits_indexReg h1
    obtain rfl := fits_nil_iff.mp h2
    have hne : Reg.word a ≠ Reg.word b := fun heq => hasserts (congrArg some heq)
    exact expandsAway_guard hne (noPseudos_pair rfl rfl)
  all_goals
    obtain ⟨a, b, c, operand, rfl, himm⟩ := exists_of_fits_writeBack hfits
    obtain ⟨k, rfl⟩ := exists_imm_of_immFits himm (by decide)
    have hne : Reg.word a ≠ Reg.word c := fun heq => hasserts (congrArg some heq)
    exact expandsAway_guard hne (noPseudos_pair rfl rfl)

/-- A port of `ioaddr16` is in range for both bytes. -/
theorem port_le {k : BitVec 64} (h : toUnsigned k ≤ 62) : toUnsigned k ≤ 63 :=
  BitVec.le_trans h (by decide)

/-- An access to a stack slot or a port. -/
theorem expandsAway_displaced
    (hop : op ∈ [.STDWPtrQRr, .INWRdA, .OUTWARr])
    (hfits : OperandsFit op ((desc op).operands.map Prod.snd) operands)
    (hasserts : MachineInstr.AssertionsHold ⟨op, operands⟩) :
    ExpandsAway (expandMI scavengeMainRegs ⟨op, operands⟩) := by
  simp only [List.mem_cons, List.not_mem_nil, or_false] at hop
  rcases hop with rfl | rfl | rfl
  case inl =>
    obtain ⟨a, k, _, rfl, h⟩ := exists_of_fits_memri hfits
    obtain ⟨b, _, rfl, h1⟩ := fits_mainReg_iff.mp h
    obtain rfl := fits_nil_iff.mp h1
    exact expandsAway_guard (hasserts k rfl) (noPseudos_pair rfl rfl)
  case inr.inl =>
    obtain ⟨a, _, rfl, h⟩ := fits_mainReg_iff.mp hfits
    obtain ⟨k, _, rfl, hk, h1⟩ := exists_of_fits_port h
    obtain rfl := fits_nil_iff.mp h1
    exact expandsAway_guard (port_le hk) (noPseudos_pair rfl rfl)
  case inr.inr =>
    obtain ⟨k, _, rfl, hk, h⟩ := exists_of_fits_port hfits
    obtain ⟨a, _, rfl, h1⟩ := fits_mainReg_iff.mp h
    obtain rfl := fits_nil_iff.mp h1
    exact expandsAway_guard (port_le hk) (noPseudos_pair rfl rfl)

/-- The pushes and pops of words, and the write of the stack pointer. -/
theorem expandsAway_stack
    (hop : op ∈ [.PUSHWRr, .POPWRd, .SPWRITE])
    (hfits : OperandsFit op ((desc op).operands.map Prod.snd) operands) :
    ExpandsAway (expandMI scavengeMainRegs ⟨op, operands⟩) := by
  simp only [List.mem_cons, List.not_mem_nil, or_false] at hop
  rcases hop with rfl | rfl | rfl
  case inl =>
    obtain ⟨a, _, rfl, h⟩ := fits_mainReg_iff.mp hfits
    obtain rfl := fits_nil_iff.mp h
    exact ⟨_, rfl, .cons rfl noPseudos_nil⟩
  case inr.inl =>
    obtain ⟨a, _, rfl, h⟩ := fits_mainReg_iff.mp hfits
    obtain rfl := fits_nil_iff.mp h
    exact ⟨_, rfl, noPseudos_pair rfl rfl⟩
  case inr.inr =>
    rcases operands with _ | ⟨_ | _ | _ | _ | _, rest⟩ <;>
      simp only [desc, InstrDesc.operands, List.cons_append, List.nil_append, List.map_cons,
        OperandsFit] at hfits
    obtain ⟨a, _, rfl, h⟩ := fits_mainReg_iff.mp hfits.2
    obtain rfl := fits_nil_iff.mp h
    exact ⟨_, rfl, .cons rfl (.cons rfl (.cons rfl (noPseudos_pair rfl rfl)))⟩

/-- Operands of an atomic operation: the value, the pointer, the operand. -/
theorem exists_of_fits_atomic
    (h : OperandsFit op [.reg .mainRegs, .reg .indexRegs, .reg .mainRegs] operands) :
    ∃ a b c, operands = [.reg (.word a), .reg (.word b), .reg (.word c)] := by
  obtain ⟨a, _, rfl, h1⟩ := fits_mainReg_iff.mp h
  obtain ⟨b, _, rfl, h2⟩ := exists_of_fits_indexReg h1
  obtain ⟨c, _, rfl, h3⟩ := fits_mainReg_iff.mp h2
  rw [fits_nil_iff.mp h3]
  exact ⟨a, b, c, rfl⟩

/-- Operands of an atomic load. -/
theorem exists_of_fits_atomicLoad (h : OperandsFit op [.reg .mainRegs, .reg .indexRegs] operands) :
    ∃ a b, operands = [.reg (.word a), .reg (.word b)] := by
  obtain ⟨a, _, rfl, h1⟩ := fits_mainReg_iff.mp h
  obtain ⟨b, _, rfl, h2⟩ := exists_of_fits_indexReg h1
  rw [fits_nil_iff.mp h2]
  exact ⟨a, b, rfl⟩

/-- What surrounds the body of an atomic operation is no pseudo. -/
theorem noPseudos_expandAtomic {body : List MachineInstr} (h : NoPseudos body) :
    NoPseudos (ExpandPseudo.expandAtomic body) := by
  intro mi hmi
  simp only [ExpandPseudo.expandAtomic, List.mem_append, List.mem_cons, List.not_mem_nil,
    or_false] at hmi
  rcases hmi with ((rfl | rfl) | hmi) | rfl
  · rfl
  · rfl
  · exact h mi hmi
  · rfl

/-- An atomic operation on a byte. -/
theorem expandsAway_atomicByte
    (hop : op ∈ [.AtomicLoad8, .AtomicStore8, .AtomicLoadAdd8, .AtomicLoadSub8, .AtomicLoadAnd8,
      .AtomicLoadOr8, .AtomicLoadXor8, .AtomicFence])
    (hfits : OperandsFit op ((desc op).operands.map Prod.snd) operands) :
    ExpandsAway (expandMI scavengeMainRegs ⟨op, operands⟩) := by
  simp only [List.mem_cons, List.not_mem_nil, or_false] at hop
  rcases hop with rfl | rfl | rfl | rfl | rfl | rfl | rfl | rfl
  case inl =>
    obtain ⟨a, b, rfl⟩ := exists_of_fits_atomicLoad hfits
    exact ⟨_, rfl, noPseudos_expandAtomic (.cons rfl noPseudos_nil)⟩
  case inr.inl =>
    obtain ⟨a, b, rfl⟩ := exists_two_of_fits hfits
    exact ⟨_, rfl, noPseudos_expandAtomic (.cons rfl noPseudos_nil)⟩
  case inr.inr.inr.inr.inr.inr.inr => exact ⟨_, rfl, noPseudos_nil⟩
  all_goals
    obtain ⟨a, b, c, rfl⟩ := exists_of_fits_atomic hfits
    exact ⟨_, rfl, noPseudos_expandAtomic (.cons rfl (noPseudos_pair rfl rfl))⟩

end

/-! ## Every expansion goes down -/

/-- The number of rounds that an opcode needs: the atomic operations on words expand to other
pseudos. -/
def Opcode.expansionRank (op : Opcode) : ℕ :=
  match op with
  | AtomicLoad16 | AtomicStore16 | AtomicLoadAdd16 | AtomicLoadSub16 | AtomicLoadAnd16
  | AtomicLoadOr16 | AtomicLoadXor16 => 2
  | _ => if op.isPseudo then 1 else 0

/-- A pseudo whose operands fit, whose assertions hold and that has an expansion. -/
def MachineInstr.Expandable (mi : MachineInstr) : Prop :=
  mi.opcode.isPseudo = true →
    OperandsFit mi.opcode ((desc mi.opcode).operands.map Prod.snd) mi.operands ∧
      mi.AssertionsHold ∧ mi.opcode.unexpanded = false

/-- The pass leaves an instruction that is no pseudo alone. -/
theorem expandMI_of_isPseudo_eq_false (scavengeMainRegs : MachineInstr → Option Reg)
    {mi : MachineInstr} (h : mi.opcode.isPseudo = false) :
    expandMI scavengeMainRegs mi = .unchanged := by
  obtain ⟨op, operands⟩ := mi
  have hop : op.isPseudo = false := h
  cases op <;> first | rfl | exact absurd hop (by decide)

/-- Rank zero is no pseudo. -/
theorem expansionRank_eq_zero_iff (op : Opcode) :
    op.expansionRank = 0 ↔ op.isPseudo = false := by
  cases op <;> decide

/-- An instruction that is no pseudo is expandable, with rank zero. -/
theorem expandable_of_isPseudo_eq_false {mi : MachineInstr} (h : mi.opcode.isPseudo = false) :
    mi.Expandable ∧ mi.opcode.expansionRank = 0 := by
  refine ⟨fun hpseudo => ?_, (expansionRank_eq_zero_iff _).mpr h⟩
  rw [h] at hpseudo
  simp at hpseudo

/-- A pseudo of rank one expands to instructions that are no pseudos. -/
theorem MachineInstr.Expandable.expandsAway {scavengeMainRegs : MachineInstr → Option Reg}
    (hscavenge : ∀ mi, (scavengeMainRegs mi).isSome = true) {mi : MachineInstr}
    (h : mi.Expandable) (hrank : mi.opcode.expansionRank = 1) :
    ExpandsAway (expandMI scavengeMainRegs mi) := by
  obtain ⟨op, operands⟩ := mi
  have hrank : op.expansionRank = 1 := hrank
  have hpseudo : op.isPseudo = true := by
    by_contra hne
    rw [(expansionRank_eq_zero_iff op).mpr (by simpa using hne)] at hrank
    simp at hrank
  obtain ⟨hfits, hasserts, hexpanded⟩ := h hpseudo
  have hexpanded : op.unexpanded = false := hexpanded
  cases op
  all_goals first
    | exact absurd hpseudo (by decide)
    | exact absurd hexpanded (by decide)
    | exact absurd hrank (by decide)
    | exact expandsAway_registers (by decide) hfits
    | exact expandsAway_immediate (by decide) hfits
    | exact expandsAway_load hscavenge (by decide) hfits hasserts
    | exact expandsAway_writeBack (by decide) hfits hasserts
    | exact expandsAway_displaced (by decide) hfits hasserts
    | exact expandsAway_stack (by decide) hfits
    | exact expandsAway_atomicByte (by decide) hfits

/-- An instruction that may come out of an atomic operation on a word. -/
def MachineInstr.BelowAtomic (mi : MachineInstr) : Prop :=
  mi.Expandable ∧ mi.opcode.expansionRank < 2

/-- The word operations of an atomic operation. -/
theorem belowAtomic_arith {op : Opcode}
    (hop : op ∈ [.ADDWRdRr, .SUBWRdRr, .ANDWRdRr, .ORWRdRr, .EORWRdRr]) (a b c : WordReg) :
    MachineInstr.BelowAtomic ⟨op, [.reg (.word a), .reg (.word b), .reg (.word c)]⟩ := by
  have hmem (w : WordReg) : Reg.word w ∈ RegClass.mainRegs.members :=
    (mem_mainRegs_iff _).mpr ⟨w, rfl⟩
  simp only [List.mem_cons, List.not_mem_nil, or_false] at hop
  rcases hop with rfl | rfl | rfl | rfl | rfl <;>
    exact ⟨fun _ => ⟨⟨hmem a, hmem b, hmem c, rfl⟩, trivial, rfl⟩, Nat.lt_succ_self 1⟩

/-- The word accesses of an atomic operation. -/
theorem belowAtomic_access {op : Opcode} (hop : op ∈ [.LDWRdPtr, .STWPtrRr]) (a b : WordReg) :
    MachineInstr.BelowAtomic ⟨op, [.reg (.word a), .reg (.word b)]⟩ := by
  have hmem (w : WordReg) : Reg.word w ∈ RegClass.mainRegs.members :=
    (mem_mainRegs_iff _).mpr ⟨w, rfl⟩
  simp only [List.mem_cons, List.not_mem_nil, or_false] at hop
  rcases hop with rfl | rfl <;>
    exact ⟨fun _ => ⟨⟨hmem a, hmem b, rfl⟩, trivial, rfl⟩, Nat.lt_succ_self 1⟩

/-- What surrounds the body of an atomic operation does not need more rounds than the body. -/
theorem belowAtomic_expandAtomic {body : List MachineInstr} (h : ∀ mi ∈ body, mi.BelowAtomic) :
    ∀ mi ∈ ExpandPseudo.expandAtomic body, mi.BelowAtomic := by
  intro mi hmi
  simp only [ExpandPseudo.expandAtomic, List.mem_append, List.mem_cons, List.not_mem_nil,
    or_false] at hmi
  have outside (mi : MachineInstr) (hmi : mi.opcode.isPseudo = false) : mi.BelowAtomic := by
    obtain ⟨hexpandable, hrank⟩ := expandable_of_isPseudo_eq_false hmi
    exact ⟨hexpandable, by omega⟩
  rcases hmi with ((rfl | rfl) | hmi) | rfl
  · exact outside _ rfl
  · exact outside _ rfl
  · exact h mi hmi
  · exact outside _ rfl

/-- An atomic operation on a word expands to instructions of a smaller rank. -/
theorem MachineInstr.Expandable.expandsDown {mi : MachineInstr} (h : mi.Expandable)
    (scavengeMainRegs : MachineInstr → Option Reg) (hrank : mi.opcode.expansionRank = 2) :
    ∃ mis, expandMI scavengeMainRegs mi = .expanded mis ∧
      ∀ mi' ∈ mis, mi'.BelowAtomic := by
  obtain ⟨op, operands⟩ := mi
  have hrank : op.expansionRank = 2 := hrank
  have hpseudo : op.isPseudo = true := by
    by_contra hne
    rw [(expansionRank_eq_zero_iff op).mpr (by simpa using hne)] at hrank
    simp at hrank
  obtain ⟨hfits, -, -⟩ := h hpseudo
  cases op
  case AtomicLoad16 =>
    obtain ⟨a, b, rfl⟩ := exists_of_fits_atomicLoad hfits
    refine ⟨_, rfl, belowAtomic_expandAtomic ?_⟩
    simpa using belowAtomic_access (by decide) a b
  case AtomicStore16 =>
    obtain ⟨a, b, rfl⟩ := exists_two_of_fits hfits
    refine ⟨_, rfl, belowAtomic_expandAtomic ?_⟩
    simpa using belowAtomic_access (by decide) a b
  case AtomicLoadAdd16 | AtomicLoadSub16 | AtomicLoadAnd16 | AtomicLoadOr16 | AtomicLoadXor16 =>
    obtain ⟨a, b, c, rfl⟩ := exists_of_fits_atomic hfits
    refine ⟨_, rfl, belowAtomic_expandAtomic ?_⟩
    intro mi hmi
    simp only [List.mem_cons, List.not_mem_nil, or_false] at hmi
    rcases hmi with rfl | rfl | rfl
    · exact belowAtomic_access (by decide) a b
    · exact belowAtomic_arith (by decide) a a b
    · exact belowAtomic_access (by decide) b a
  all_goals exact absurd hrank (by decide)

/-- No opcode needs more than two rounds. -/
theorem expansionRank_le (op : Opcode) : op.expansionRank ≤ 2 := by
  cases op <;> decide

/-- **Expandable instructions go down in rank** until no pseudo is left. -/
theorem ranked_expandStep {scavenge : Scavenger}
    (hscavenge : ∀ before mi, (scavenge before mi).isSome = true) :
    Ranked (expandStep scavenge) MachineInstr.Expandable fun mi => mi.opcode.expansionRank where
  stop before mi _ hrank := by
    rw [expandStep, expandMI_of_isPseudo_eq_false _ ((expansionRank_eq_zero_iff _).mp hrank)]
    rfl
  down before mi hmi hrank := by
    have hle := expansionRank_le mi.opcode
    obtain hone | htwo : mi.opcode.expansionRank = 1 ∨ mi.opcode.expansionRank = 2 := by omega
    · obtain ⟨mis, hexpand, hmis⟩ := hmi.expandsAway (hscavenge before) hone
      refine ⟨mis, by rw [expandStep, hexpand]; rfl, fun mi' hmi' => ?_⟩
      obtain ⟨hexpandable, hzero⟩ := expandable_of_isPseudo_eq_false (hmis mi' hmi')
      exact ⟨hexpandable, by omega⟩
    · obtain ⟨mis, hexpand, hmis⟩ := hmi.expandsDown (scavenge before) htwo
      exact ⟨mis, by rw [expandStep, hexpand]; rfl, fun mi' hmi' => htwo ▸ hmis mi' hmi'⟩

/-! ## Functions -/

/-- An instruction that can be created, whose assertions hold, and that has an expansion. -/
theorem MachineInstr.Created.expandable {mi : MachineInstr} (h : mi.Created)
    (hasserts : mi.AssertionsHold) (hexpanded : mi.opcode.unexpanded = false) : mi.Expandable :=
  fun hpseudo => ⟨h.operands hpseudo, hasserts, hexpanded⟩

/-- A pseudo without an expansion stays a pseudo or makes the pass fail, wherever it stands. -/
theorem expandStep_of_unexpanded (scavenge : Scavenger) {mi : MachineInstr}
    (h : mi.opcode.unexpanded = true) :
    mi.opcode.isPseudo = true ∧
      ((∀ before, expandStep scavenge before mi = .unchanged) ∨
        ∀ before, expandStep scavenge before mi = .failed) := by
  obtain ⟨op, operands⟩ := mi
  have hop : op.unexpanded = true := h
  cases op <;> first
    | exact absurd hop (by decide)
    | exact ⟨rfl, .inl fun _ => rfl⟩
    | exact ⟨rfl, .inr fun _ => rfl⟩

/-- A function is expanded block by block. -/
theorem expandsCompletely_cons_iff (scavenge : Scavenger) (block : List MachineInstr)
    (mf : MachineBlocks) :
    ExpandsCompletely scavenge (block :: mf) ↔
      (∃ block', expandBlock scavenge block = some block' ∧ NoPseudos block') ∧
        ExpandsCompletely scavenge mf := by
  unfold ExpandsCompletely runOnMachineFunction
  constructor
  · rintro ⟨mf', hrun, hmf'⟩
    simp only [List.mapM_cons, Option.bind_eq_bind, Option.pure_def, Option.bind_eq_some_iff,
      Option.some.injEq] at hrun
    obtain ⟨block', hblock, rest, hrest, rfl⟩ := hrun
    rw [List.forall_mem_cons] at hmf'
    exact ⟨⟨block', hblock, hmf'.1⟩, rest, hrest, hmf'.2⟩
  · rintro ⟨⟨block', hblock, hblock'⟩, rest, hrest, hrest'⟩
    refine ⟨block' :: rest, ?_, List.forall_mem_cons.mpr ⟨hblock', hrest'⟩⟩
    simp [List.mapM_cons, hblock, hrest]

/-- A block of expandable instructions loses all its pseudos. -/
theorem expandBlock_of_expandable {scavenge : Scavenger}
    (hscavenge : ∀ before mi, (scavenge before mi).isSome = true) {block : List MachineInstr}
    (h : ∀ mi ∈ block, mi.Expandable) :
    ∃ block', expandBlock scavenge block = some block' ∧ NoPseudos block' := by
  obtain ⟨block', hrounds, hblock'⟩ := (ranked_expandStep hscavenge).rounds_end 9 block
    fun mi hmi => ⟨h mi hmi, (expansionRank_le mi.opcode).trans (by decide)⟩
  exact ⟨block', hrounds, fun mi hmi =>
    (expansionRank_eq_zero_iff mi.opcode).mp (hblock' mi hmi).2⟩

/-- A block with a pseudo without an expansion keeps it, or makes the pass fail. -/
theorem unexpanded_of_expandBlock {scavenge : Scavenger} {block block' : List MachineInstr}
    (h : expandBlock scavenge block = some block') (hblock' : NoPseudos block') :
    ∀ mi ∈ block, mi.opcode.unexpanded = false := by
  intro mi hmi
  by_contra hne
  obtain ⟨hpseudo, hstep | hstep⟩ := expandStep_of_unexpanded scavenge (by simpa using hne)
  · have hstays := hblock' mi (mem_of_rounds hstep hmi h)
    rw [hpseudo] at hstays
    simp at hstays
  · rw [expandBlock, rounds_eq_none hstep 10 hmi] at h
    simp at h

/-- **The pass expands a function completely** exactly when no instruction is one of the pseudos
without an expansion. -/
theorem expandsCompletely_iff {scavenge : Scavenger}
    (hscavenge : ∀ before mi, (scavenge before mi).isSome = true) {mf : MachineBlocks}
    (hcreated : ∀ block ∈ mf, ∀ mi ∈ block, mi.Created)
    (hasserts : ∀ block ∈ mf, ∀ mi ∈ block, mi.AssertionsHold) :
    ExpandsCompletely scavenge mf ↔
      ∀ block ∈ mf, ∀ mi ∈ block, mi.opcode.unexpanded = false := by
  induction mf with
  | nil => simp [ExpandsCompletely, runOnMachineFunction]
  | cons block mf ih =>
      rw [List.forall_mem_cons] at hcreated hasserts
      rw [expandsCompletely_cons_iff, ih hcreated.2 hasserts.2, List.forall_mem_cons]
      apply and_congr_left'
      constructor
      · rintro ⟨block', hexpand, hblock'⟩
        exact unexpanded_of_expandBlock hexpand hblock'
      · intro hexpanded
        exact expandBlock_of_expandable hscavenge fun mi hmi =>
          (hcreated.1 mi hmi).expandable (hasserts.1 mi hmi) (hexpanded mi hmi)

/-- A function that copies the stack pointer can be created and meets the assertions, but is not
expanded: the expansion of `SPREAD` is missing. -/
theorem not_expandsCompletely_SPREAD :
    MachineInstr.Created ⟨.SPREAD, [.reg .X, .reg .SP]⟩ ∧
      MachineInstr.AssertionsHold ⟨.SPREAD, [.reg .X, .reg .SP]⟩ ∧
      ¬ ExpandsCompletely (fun _ _ => some .Y) [[⟨.SPREAD, [.reg .X, .reg .SP]⟩]] := by
  refine ⟨⟨fun _ => by decide, fun _ => ?_⟩, trivial, ?_⟩
  · exact ⟨by decide, by decide, rfl⟩
  · rw [expandsCompletely_cons_iff]
    rintro ⟨⟨block', hblock, -⟩, -⟩
    rw [expandBlock, rounds_eq_none (fun _ => rfl) 10 List.mem_cons_self] at hblock
    simp at hblock

/-- An atomic addition on a word is expanded in two rounds. -/
theorem expandsCompletely_AtomicLoadAdd16 :
    ExpandsCompletely (fun _ _ => some .Y)
      [[⟨.AtomicLoadAdd16, [.reg .A, .reg .X, .reg .Y]⟩, ⟨.RET, []⟩]] :=
  (expandsCompletely_iff (fun _ _ => rfl)
    (by
      intro block hblock mi hmi
      obtain rfl := List.mem_singleton.mp hblock
      simp only [List.mem_cons, List.not_mem_nil, or_false] at hmi
      rcases hmi with rfl | rfl
      · exact ⟨fun _ => by decide, fun _ => ⟨by decide, by decide, by decide, rfl⟩⟩
      · exact ⟨fun h => absurd h (by decide), fun h => absurd h (by decide)⟩)
    (by
      intro block hblock mi hmi
      obtain rfl := List.mem_singleton.mp hblock
      simp only [List.mem_cons, List.not_mem_nil, or_false] at hmi
      rcases hmi with rfl | rfl <;> exact trivial)).mpr (by decide)

end Snes
