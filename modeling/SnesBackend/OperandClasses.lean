/-
# Register Classes of the Built Instructions

The register operands of the instructions that the late passes build, against the
register classes that `SNESInstrInfo.td` declares for their positions: the
expansion of pseudo instructions, `SNESRelaxMem`, `copyPhysReg`, the spills and
restores of callee-saved registers, and `fixStackStores`.
-/
import SnesBackend.SaveRestore

namespace Snes

open RoundRewriting ExpandPseudo

/-! ## Declared classes -/

/-- What is recorded of a machine operand: its register class, that it is a register without a
class, or that it is an immediate. -/
inductive MCOperandInfo where
  | reg (rc : RegClass)
  | anyReg
  | imm
deriving DecidableEq

/-- `MIOperandInfo`: the machine operands that an operand is made of. -/
def OperandType.miOperandInfo : OperandType → List MCOperandInfo
  | reg rc => [.reg rc]
  | memri => [.reg .mainRegs, .imm]
  -- the base is the register `SP`, which is no class: the class that is recorded is -1
  | memspi => [.anyReg, .imm]
  | ldstPtrReg => [.reg .indexRegs]
  | _ => [.imm]

/-- A register belongs to the class that is declared for its position; where an immediate is
declared stands no register. -/
def MachineOperand.hasType (info : MCOperandInfo) : MachineOperand → Bool
  | reg r =>
      match info with
      | .reg rc => r ∈ rc.members
      | .anyReg => true
      | .imm => false
  | _ =>
      match info with
      | .reg _ | .anyReg => false
      | .imm => true

namespace MachineInstr

/-- `OperandInfo` of an instruction. -/
def operandTypes (op : Opcode) : List MCOperandInfo :=
  (desc op).operands.flatMap fun operand => operand.2.miOperandInfo

/-- All operands of an instruction are as its definition declares them. -/
def ClassesHold (mi : MachineInstr) : Prop :=
  List.Forall₂ (fun info operand => MachineOperand.hasType info operand = true)
    (operandTypes mi.opcode) mi.operands

instance (mi : MachineInstr) : Decidable mi.ClassesHold :=
  inferInstanceAs (Decidable (List.Forall₂ _ _ _))

/-- Every register operand belongs to the class that is declared for its position. -/
def RegistersInClass (mi : MachineInstr) : Prop :=
  ∀ (n : ℕ) (r : Reg), mi.operands[n]? = some (.reg r) →
    ∃ rc : RegClass, (operandTypes mi.opcode)[n]? = some (.reg rc) ∧ r ∈ rc.members

/-- The law for real instructions. -/
def RealInClass (mi : MachineInstr) : Prop :=
  mi.opcode.isPseudo = false → mi.RegistersInClass

/-- A pseudo with registers that its own definition admits, and with any immediates. -/
structure Admitted (mi : MachineInstr) : Prop where
  pseudo : mi.opcode.isPseudo = true
  classes : mi.ClassesHold
  imms : ∀ operand ∈ mi.operands, (∀ r, operand ≠ .reg r) → immFits mi.opcode operand = true

end MachineInstr

/-! ## The passes -/

/-- `relax<STDWPtrQRr>`, which leaves a displacement of at most 63 alone. -/
def relaxSTDWPtrQRr (mi : MachineInstr) : Option (List MachineInstr) := do
  let ptr ← mi.getReg 0
  let imm ← mi.getImm 1
  let src ← mi.getReg 2
  if 63 < imm.toInt then
    return [⟨.PUSHWRr, [.reg ptr]⟩, ⟨.SBCIWRdK, [.reg ptr, .reg ptr, .imm (-imm)]⟩,
      ⟨.STWPtrRr, [.reg ptr, .reg src]⟩, ⟨.POPWRd, [.reg ptr]⟩]
  else
    none

/-- `SNESRelaxMem` on one instruction. -/
def relaxMem (mi : MachineInstr) : List MachineInstr :=
  match mi.opcode with
  | .STDWPtrQRr => (relaxSTDWPtrQRr mi).getD [mi]
  | _ => [mi]

/-- `SNESRelaxMem` and then `SNESExpandPseudo` on a block. -/
def lowerPseudos (scavenge : Scavenger) (block : List MachineInstr) : Option (List MachineInstr) :=
  expandBlock scavenge (block.flatMap relaxMem)

/-- `copyPhysReg`, unless it reaches `Impossible reg-to-reg copy`. -/
def copyPhysReg (destReg srcReg : Reg) : Option (List MachineInstr) :=
  match destReg, srcReg with
  | .word dest, .word src =>
      some [⟨.MOVRdRr, [.reg (.byte dest.subLo), .reg (.byte src.subLo)]⟩,
        ⟨.MOVRdRr, [.reg (.byte dest.subHi), .reg (.byte src.subHi)]⟩]
  | .word dest, .SP => some [⟨.SPREAD, [.reg (.word dest), .reg .SP]⟩]
  | .SP, .word src => some [⟨.SPWRITE, [.reg .SP, .reg (.word src)]⟩]
  | _, _ => none

/-- What `fixStackStores` makes of a store through the stack pointer. -/
def fixStackStoreInstr (insertPushes : Bool) (mi : MachineInstr) : MachineInstr :=
  if insertPushes then
    ⟨.PHAstk, (mi.operands[2]?).toList⟩
  else
    ⟨if mi.opcode = .STDWSPQRr then .STDWPtrQRr else .STDPtrQRr, .reg .A :: mi.operands.tail⟩

/-- `getRegSizeInBits` of the minimal class of a register. -/
def Reg.sizeInBits : Reg → ℕ
  | byte _ | DB | P | PB => 8
  | word _ | SP | DP | PC => 16

/-! ## The law -/

/-- What the passes build instructions from: a pseudo, a store through the stack pointer, a copy of
registers, and the registers to spill or to restore. -/
inductive BuildSite where
  | pseudo (mi : MachineInstr)
  | stackStore (insertPushes : Bool) (mi : MachineInstr)
  | copy (destReg srcReg : Reg)
  | spill (csi : List Reg)
  | restore (csi : List Reg)

namespace BuildSite

/-- The registers are admitted: by the definition of the pseudo, and by the assertions on the base
of a store that `fixStackStores` finds and on the sizes of callee-saved registers. -/
def Admitted : BuildSite → Prop
  | pseudo mi => mi.Admitted
  | stackStore _ mi =>
      (mi.opcode = .STDSPQRr ∨ mi.opcode = .STDWSPQRr) ∧ mi.Admitted ∧ mi.getReg 0 = some .SP
  | copy _ _ => True
  | spill csi | restore csi => ∀ reg ∈ csi, reg.sizeInBits = 16

/-- The instructions that are built at once. -/
def instrs : BuildSite → List MachineInstr
  | pseudo mi => [mi]
  | stackStore insertPushes mi => [fixStackStoreInstr insertPushes mi]
  | copy destReg srcReg => (copyPhysReg destReg srcReg).getD []
  | spill csi => spillInstrs csi
  | restore csi => restoreInstrs csi

/-- Every real instruction that is built, at once or when pseudos among what was built are relaxed
and expanded, has registers of the declared classes only. -/
def ClassesKept (scavenge : Scavenger) (site : BuildSite) : Prop :=
  ∀ mi ∈ site.instrs, ∀ mi' ∈ relaxMem mi,
    Kept (expandStep scavenge) MachineInstr.RealInClass mi'

end BuildSite

/-- When a pseudo keeps the law. -/
def MachineInstr.KeepsClasses (scavenge : Scavenger) (mi : MachineInstr) : Prop :=
  match mi.opcode with
  | .ANDIWRdK =>
      ∀ k, mi.getImm 2 = some k → lo8 (toUnsigned k) = 0xff ∧ hi8 (toUnsigned k) = 0xff
  | .ORIWRdK => ∀ k, mi.getImm 2 = some k → lo8 (toUnsigned k) = 0 ∧ hi8 (toUnsigned k) = 0
  -- a load through its own destination for which no register is free fails
  | .LDWRdPtr | .AtomicLoad16 =>
      mi.getReg 0 = mi.getReg 1 ∧ ∀ before, scavenge before ⟨.LDWRdPtr, mi.operands⟩ = none
  | .LDDWRdPtrQ | .LDDWRdYQ =>
      ∀ k, mi.getImm 2 = some k → ¬ toUnsigned k ≤ 63 ∨
        (mi.getReg 0 = mi.getReg 1 ∧ ∀ before, scavenge before mi = none)
  -- and so do the assertions on registers and displacements
  | .LDWRdPtrPi | .LDWRdPtrPd => mi.getReg 0 = mi.getReg 1
  | .STWPtrPiRr | .STWPtrPdRr => mi.getReg 0 = mi.getReg 2
  | .STDWPtrQRr => ∀ k, mi.getImm 1 = some k → k.toInt ≤ 63 ∧ ¬ toUnsigned k ≤ 63
  | .INWRdA => ∀ k, mi.getImm 1 = some k → ¬ toUnsigned k ≤ 63
  | .OUTWARr => ∀ k, mi.getImm 0 = some k → ¬ toUnsigned k ≤ 63
  | .PUSHWRr => mi.getReg 0 = some .A
  | .AtomicStore8 => mi.getReg 0 ≠ some .A
  | .AtomicLoad8 | .AtomicLoadAdd8 | .AtomicLoadSub8 | .AtomicLoadAnd8 | .AtomicLoadOr8
  | .AtomicLoadXor8 | .AtomicFence => True
  | op => op.unexpanded = true

/-- When a site keeps the law. -/
def BuildSite.KeepsClasses (scavenge : Scavenger) : BuildSite → Prop
  | pseudo mi => mi.KeepsClasses scavenge
  | stackStore true mi => mi.getReg 2 = some .A
  | stackStore false mi =>
      mi.opcode = .STDWSPQRr →
        ∀ k, mi.getImm 1 = some k → k.toInt ≤ 63 ∧ ¬ toUnsigned k ≤ 63
  | copy destReg srcReg => srcReg ∉ RegClass.mainRegs.members ∨
      (destReg ∉ RegClass.mainRegs.members ∧ destReg ≠ .SP)
  | spill csi => ∀ reg ∈ csi, reg = .A
  | restore csi => ∀ reg ∈ csi, reg ∈ RegClass.mainRegs.members

/-! ## Operands -/

section

variable {types : List MCOperandInfo} {operands : List MachineOperand}

/-- Operands whose types are declared. -/
abbrev Typed (types : List MCOperandInfo) (operands : List MachineOperand) : Prop :=
  List.Forall₂ (fun info operand => MachineOperand.hasType info operand = true) types operands

theorem hasType_reg_iff (rc : RegClass) (r : Reg) :
    MachineOperand.hasType (.reg rc) (.reg r) = true ↔ r ∈ rc.members := by
  simp [MachineOperand.hasType]

theorem typed_reg_iff (rc : RegClass) : Typed (.reg rc :: types) operands ↔
    ∃ r rest, operands = .reg r :: rest ∧ r ∈ rc.members ∧ Typed types rest := by
  rw [Typed, List.forall₂_cons_left_iff]
  constructor
  · rintro ⟨operand, rest, htype, hrest, rfl⟩
    cases operand with
    | reg r => exact ⟨r, rest, rfl, (hasType_reg_iff rc r).mp htype, hrest⟩
    | imm | frameIndex | globalAddress | blockAddress => simp [MachineOperand.hasType] at htype
  · rintro ⟨r, rest, rfl, hr, hrest⟩
    exact ⟨.reg r, rest, (hasType_reg_iff rc r).mpr hr, hrest, rfl⟩

theorem typed_mainReg_iff : Typed (.reg .mainRegs :: types) operands ↔
    ∃ w rest, operands = .reg (.word w) :: rest ∧ Typed types rest := by
  rw [typed_reg_iff]
  constructor
  · rintro ⟨r, rest, rfl, hr, hrest⟩
    obtain ⟨w, rfl⟩ := (mem_mainRegs_iff r).mp hr
    exact ⟨w, rest, rfl, hrest⟩
  · rintro ⟨w, rest, rfl, hrest⟩
    exact ⟨.word w, rest, rfl, (mem_mainRegs_iff _).mpr ⟨w, rfl⟩, hrest⟩

/-- The index registers are the main registers other than `A`. -/
theorem mem_indexRegs_iff (r : Reg) :
    r ∈ RegClass.indexRegs.members ↔ ∃ w, r = .word w ∧ w ≠ .A := by
  constructor
  · intro h
    simp only [RegClass.members, List.mem_cons, List.not_mem_nil, or_false] at h
    rcases h with rfl | rfl <;> exact ⟨_, rfl, by decide⟩
  · rintro ⟨w, rfl, hw⟩
    cases w <;> simp_all [RegClass.members]

theorem typed_indexReg_iff : Typed (.reg .indexRegs :: types) operands ↔
    ∃ w rest, operands = .reg (.word w) :: rest ∧ w ≠ .A ∧ Typed types rest := by
  rw [typed_reg_iff]
  constructor
  · rintro ⟨r, rest, rfl, hr, hrest⟩
    obtain ⟨w, rfl, hw⟩ := (mem_indexRegs_iff r).mp hr
    exact ⟨w, rest, rfl, hw, hrest⟩
  · rintro ⟨w, rest, rfl, hw, hrest⟩
    exact ⟨.word w, rest, rfl, (mem_indexRegs_iff _).mpr ⟨w, rfl, hw⟩, hrest⟩

/-- Where no class is declared stands any register. -/
theorem typed_anyReg_iff : Typed (.anyReg :: types) operands ↔
    ∃ r rest, operands = .reg r :: rest ∧ Typed types rest := by
  rw [Typed, List.forall₂_cons_left_iff]
  constructor
  · rintro ⟨operand, rest, hoperand, hrest, rfl⟩
    cases operand with
    | reg r => exact ⟨r, rest, rfl, hrest⟩
    | imm | frameIndex | globalAddress | blockAddress => simp [MachineOperand.hasType] at hoperand
  · rintro ⟨r, rest, rfl, hrest⟩
    exact ⟨.reg r, rest, rfl, hrest, rfl⟩

/-- Where an immediate is declared stands no register. -/
theorem typed_imm_iff : Typed (.imm :: types) operands ↔
    ∃ operand rest, operands = operand :: rest ∧ (∀ r, operand ≠ .reg r) ∧ Typed types rest := by
  have hiff (operand : MachineOperand) :
      MachineOperand.hasType .imm operand = true ↔ ∀ r, operand ≠ .reg r := by
    cases operand <;> simp [MachineOperand.hasType]
  rw [Typed, List.forall₂_cons_left_iff]
  constructor
  · rintro ⟨operand, rest, hoperand, hrest, rfl⟩
    exact ⟨operand, rest, rfl, (hiff operand).mp hoperand, hrest⟩
  · rintro ⟨operand, rest, rfl, hoperand, hrest⟩
    exact ⟨operand, rest, (hiff operand).mpr hoperand, hrest, rfl⟩

theorem typed_nil_iff : Typed [] operands ↔ operands = [] :=
  List.forall₂_nil_left_iff

/-- A real instruction has a class for each of its registers. -/
theorem anyReg_notMem_operandTypes {op : Opcode} (h : op.isPseudo = false) :
    .anyReg ∉ MachineInstr.operandTypes op := by
  revert h
  cases op <;> decide

/-- Declared operands of a real instruction have their registers in the declared classes. -/
theorem MachineInstr.ClassesHold.registersInClass {mi : MachineInstr} (h : mi.ClassesHold)
    (hreal : mi.opcode.isPseudo = false) : mi.RegistersInClass := by
  intro n r hn
  obtain ⟨hlt, hget⟩ := List.getElem?_eq_some_iff.mp hn
  have hlen : n < (MachineInstr.operandTypes mi.opcode).length := h.length_eq ▸ hlt
  have htype := h.get hlen hlt
  simp only [List.get_eq_getElem, hget] at htype
  cases hrc : (MachineInstr.operandTypes mi.opcode)[n] with
  | reg rc =>
      rw [hrc, hasType_reg_iff] at htype
      exact ⟨rc, List.getElem?_eq_some_iff.mpr ⟨hlen, hrc⟩, htype⟩
  | anyReg => exact absurd (hrc ▸ List.getElem_mem hlen) (anyReg_notMem_operandTypes hreal)
  | imm => simp [hrc, MachineOperand.hasType] at htype

end

/-! ## Keeping the law -/

section

variable {scavenge : Scavenger} {mi : MachineInstr}

/-- The law, kept by an instruction and by all that the expansion makes of it. -/
abbrev KeepsLaw (scavenge : Scavenger) : MachineInstr → Prop :=
  Kept (expandStep scavenge) MachineInstr.RealInClass

/-- A pseudo is not bound by the law itself. -/
theorem realInClass_of_isPseudo (h : mi.opcode.isPseudo = true) : mi.RealInClass := by
  intro hreal
  rw [h] at hreal
  simp at hreal

/-- A real instruction keeps the law when its registers are of the declared classes. -/
theorem keepsLaw_iff_of_real (h : mi.opcode.isPseudo = false) :
    KeepsLaw scavenge mi ↔ mi.RegistersInClass := by
  rw [KeepsLaw, kept_iff_of_not_replaced]
  · exact ⟨fun hlaw => hlaw h, fun hclasses _ => hclasses⟩
  · intro before new hstep
    rw [expandStep, expandMI_of_isPseudo_eq_false _ h] at hstep
    simp [ExpandResult.toStep] at hstep

/-- A real instruction with declared operands keeps the law. -/
theorem keepsLaw_of_classesHold (h : mi.opcode.isPseudo = false) (hclasses : mi.ClassesHold) :
    KeepsLaw scavenge mi :=
  (keepsLaw_iff_of_real h).mpr (hclasses.registersInClass h)

/-- A pseudo keeps the law when all keep it that it expands to. -/
theorem keepsLaw_iff_of_expanded (h : mi.opcode.isPseudo = true) {mis : List MachineInstr}
    (hexpand : ∀ before, expandMI (scavenge before) mi = .expanded mis) :
    KeepsLaw scavenge mi ↔ ∀ mi' ∈ mis, KeepsLaw scavenge mi' := by
  rw [KeepsLaw, kept_iff_of_replaced fun before => by rw [expandStep, hexpand before]; rfl]
  exact and_iff_right (realInClass_of_isPseudo h)

/-- A pseudo that is left alone or makes the pass fail keeps the law. -/
theorem keepsLaw_of_not_expanded (h : mi.opcode.isPseudo = true)
    (hexpand : ∀ before mis, expandMI (scavenge before) mi ≠ .expanded mis) :
    KeepsLaw scavenge mi := by
  refine (kept_iff_of_not_replaced fun before new hstep => ?_).mpr (realInClass_of_isPseudo h)
  cases hresult : expandMI (scavenge before) mi with
  | expanded mis => exact hexpand before mis hresult
  | unchanged | failure => simp [expandStep, hresult, ExpandResult.toStep] at hstep

/-- A pseudo does not keep the law when it expands to a real instruction outside the classes. -/
theorem not_keepsLaw (before : List MachineInstr) {mis : List MachineInstr}
    (hexpand : expandMI (scavenge before) mi = .expanded mis) {bad : MachineInstr} (hbad : bad ∈ mis)
    (hreal : bad.opcode.isPseudo = false) (hclasses : ¬ bad.RegistersInClass) :
    ¬ KeepsLaw scavenge mi := by
  intro h
  have hnew := (kept_iff.mp h).2 before mis (by rw [expandStep, hexpand]; rfl) bad hbad
  exact hclasses ((keepsLaw_iff_of_real hreal).mp hnew)

/-- The classes that have halves of main registers among their members. -/
def MCOperandInfo.admitsByte : MCOperandInfo → Bool
  | reg rc => rc.members.any fun r => match r with
      | .byte _ => true
      | _ => false
  | anyReg | imm => false

/-- An opcode whose operands all are words. -/
def Opcode.wordsOnly (op : Opcode) : Bool :=
  (MachineInstr.operandTypes op).all fun info => !info.admitsByte

/-- A half of a main register. -/
def MachineOperand.isByte : MachineOperand → Bool
  | reg (.byte _) => true
  | _ => false

/-- A half of a main register where no class has one. -/
theorem not_registersInClass_of_byte (hbyte : mi.operands.any MachineOperand.isByte = true)
    (hwords : mi.opcode.wordsOnly = true) : ¬ mi.RegistersInClass := by
  intro h
  obtain ⟨operand, hmem, hoperand⟩ := List.any_eq_true.mp hbyte
  obtain ⟨n, hn⟩ := List.mem_iff_getElem?.mp hmem
  cases operand with
  | reg r =>
      obtain ⟨rc, htype, hr⟩ := h n r hn
      have hadmits := List.all_eq_true.mp hwords _ (List.mem_of_getElem? htype)
      cases r with
      | byte r =>
          simp only [MCOperandInfo.admitsByte, Bool.not_eq_true', List.any_eq_false] at hadmits
          exact hadmits _ hr rfl
      | _ => simp [MachineOperand.isByte] at hoperand
  | _ => simp [MachineOperand.isByte] at hoperand

/-- A pseudo with an expansion that has a half of a main register where no class has one. -/
theorem not_keepsLaw_of_byte (before : List MachineInstr) {mis : List MachineInstr}
    (hexpand : expandMI (scavenge before) mi = .expanded mis) {bad : MachineInstr} (hbad : bad ∈ mis)
    (hreal : bad.opcode.isPseudo = false) (hbyte : bad.operands.any MachineOperand.isByte = true)
    (hwords : bad.opcode.wordsOnly = true) : ¬ KeepsLaw scavenge mi :=
  not_keepsLaw before hexpand hbad hreal (not_registersInClass_of_byte hbyte hwords)

end

/-! ## The pseudos -/

section

variable {scavenge : Scavenger} {op : Opcode} {operands : List MachineOperand}

/-- Operands of three main registers. -/
theorem exists_three_of_typed
    (h : Typed [.reg .mainRegs, .reg .mainRegs, .reg .mainRegs] operands) :
    ∃ a b c, operands = [.reg (.word a), .reg (.word b), .reg (.word c)] := by
  obtain ⟨a, _, rfl, h1⟩ := typed_mainReg_iff.mp h
  obtain ⟨b, _, rfl, h2⟩ := typed_mainReg_iff.mp h1
  obtain ⟨c, _, rfl, h3⟩ := typed_mainReg_iff.mp h2
  rw [typed_nil_iff.mp h3]
  exact ⟨a, b, c, rfl⟩

/-- Operands of two main registers. -/
theorem exists_two_of_typed (h : Typed [.reg .mainRegs, .reg .mainRegs] operands) :
    ∃ a b, operands = [.reg (.word a), .reg (.word b)] := by
  obtain ⟨a, _, rfl, h1⟩ := typed_mainReg_iff.mp h
  obtain ⟨b, _, rfl, h2⟩ := typed_mainReg_iff.mp h1
  rw [typed_nil_iff.mp h2]
  exact ⟨a, b, rfl⟩

/-- Operands of two main registers and an immediate. -/
theorem exists_two_imm_of_typed
    (h : Typed [.reg .mainRegs, .reg .mainRegs, .imm] operands) :
    ∃ a b k, operands = [.reg (.word a), .reg (.word b), k] ∧ ∀ r, k ≠ .reg r := by
  obtain ⟨a, _, rfl, h1⟩ := typed_mainReg_iff.mp h
  obtain ⟨b, _, rfl, h2⟩ := typed_mainReg_iff.mp h1
  obtain ⟨k, _, rfl, hk, h3⟩ := typed_imm_iff.mp h2
  rw [typed_nil_iff.mp h3]
  exact ⟨a, b, k, rfl, hk⟩

/-- Arithmetic, logic, comparisons and shifts of words never keep the law. -/
theorem not_keepsLaw_registers
    (hop : op ∈ [.ADDWRdRr, .ADCWRdRr, .SUBWRdRr, .SBCWRdRr, .ANDWRdRr, .ORWRdRr, .EORWRdRr,
      .COMWRd, .CPWRdRr, .CPCWRdRr, .LSLWRd, .LSRWRd, .ASRWRd])
    (h : Typed (MachineInstr.operandTypes op) operands) : ¬ KeepsLaw scavenge ⟨op, operands⟩ := by
  simp only [List.mem_cons, List.not_mem_nil, or_false] at hop
  rcases hop with rfl | rfl | rfl | rfl | rfl | rfl | rfl | rfl | rfl | rfl | rfl | rfl | rfl
  all_goals first
    | (obtain ⟨a, b, c, rfl⟩ := exists_three_of_typed h
       exact not_keepsLaw_of_byte [] rfl List.mem_cons_self rfl rfl rfl)
    | (obtain ⟨a, b, rfl⟩ := exists_two_of_typed h
       exact not_keepsLaw_of_byte [] rfl List.mem_cons_self rfl rfl rfl)

/-- Where only numbers are admitted, an immediate is a number. -/
theorem exists_number
    (himms : ∀ operand ∈ operands, (∀ r, operand ≠ .reg r) → immFits op operand = true)
    (hop : op ≠ .LDIWRdK ∧ op ≠ .SUBIWRdK ∧ op ≠ .LDSWRdK ∧ op ≠ .STSWKRr) {k : MachineOperand}
    (hmem : k ∈ operands) (hk : ∀ r, k ≠ .reg r) : ∃ value, k = .imm value :=
  exists_imm_of_immFits (himms k hmem hk) hop

/-- Arithmetic with an immediate, loads of immediates, and accesses to a fixed address never keep
the law. -/
theorem not_keepsLaw_immediate
    (hop : op ∈ [.SUBIWRdK, .SBCIWRdK, .LDIWRdK, .LDSWRdK, .STSWKRr])
    (h : Typed (MachineInstr.operandTypes op) operands)
    (himms : ∀ operand ∈ operands, (∀ r, operand ≠ .reg r) → immFits op operand = true) :
    ¬ KeepsLaw scavenge ⟨op, operands⟩ := by
  simp only [List.mem_cons, List.not_mem_nil, or_false] at hop
  rcases hop with rfl | rfl | rfl | rfl | rfl
  case inr.inl =>
    obtain ⟨a, b, k, rfl, hk⟩ := exists_two_imm_of_typed h
    obtain ⟨value, rfl⟩ := exists_number himms (by decide) (by simp) hk
    exact not_keepsLaw_of_byte [] rfl List.mem_cons_self rfl rfl rfl
  case inl =>
    obtain ⟨a, b, k, rfl, hk⟩ := exists_two_imm_of_typed h
    have hfits := himms k (by simp) hk
    cases k <;> simp [immFits] at hfits <;>
      exact not_keepsLaw_of_byte [] rfl List.mem_cons_self rfl rfl rfl
  case inr.inr.inl | inr.inr.inr.inl =>
    obtain ⟨a, _, rfl, h1⟩ := typed_mainReg_iff.mp h
    obtain ⟨k, _, rfl, hk, h2⟩ := typed_imm_iff.mp h1
    obtain rfl := typed_nil_iff.mp h2
    have hfits := himms k (by simp) hk
    cases k <;> simp [immFits] at hfits <;>
      exact not_keepsLaw_of_byte [] rfl List.mem_cons_self rfl rfl rfl
  case inr.inr.inr.inr =>
    obtain ⟨k, _, rfl, hk, h1⟩ := typed_imm_iff.mp h
    obtain ⟨a, _, rfl, h2⟩ := typed_mainReg_iff.mp h1
    obtain rfl := typed_nil_iff.mp h2
    have hfits := himms k (by simp) hk
    cases k <;> simp [immFits] at hfits <;>
      exact not_keepsLaw_of_byte [] rfl List.mem_cons_self rfl rfl rfl

/-- The logic operations with an immediate keep the law when both of their halves are redundant. -/
theorem keepsLaw_logicImm_iff {real : Opcode} (hreal : real.isPseudo = false)
    (hwords : real.wordsOnly = true) (hop : op.isPseudo = true) {a b : WordReg} {k : BitVec 64}
    (hexpand : ∀ before, expandMI (scavenge before) ⟨op, [.reg (.word a), .reg (.word b), .imm k]⟩ =
      .ofOption (expandLogicImm real ⟨op, [.reg (.word a), .reg (.word b), .imm k]⟩)) :
    KeepsLaw scavenge ⟨op, [.reg (.word a), .reg (.word b), .imm k]⟩ ↔
      isLogicImmOpRedundant real (lo8 (toUnsigned k)) = true ∧
        isLogicImmOpRedundant real (hi8 (toUnsigned k)) = true := by
  have hbyte (r : ByteReg) (rest : List MachineOperand) :
      ¬ KeepsLaw scavenge ⟨real, .reg (.byte r) :: rest⟩ := by
    rw [keepsLaw_iff_of_real hreal]
    exact not_registersInClass_of_byte rfl hwords
  rw [keepsLaw_iff_of_expanded hop hexpand]
  cases hlow : isLogicImmOpRedundant real (lo8 (toUnsigned k)) <;>
    cases hhigh : isLogicImmOpRedundant real (hi8 (toUnsigned k)) <;>
      simp [hbyte]

/-- An expansion through a scavenged register keeps the law when no register is found. -/
theorem keepsLaw_scavenged_iff {mi : MachineInstr} (hpseudo : mi.opcode.isPseudo = true)
    {mis : Reg → List MachineInstr}
    (hexpand : ∀ before, expandMI (scavenge before) mi =
      .ofOption ((scavenge before mi).bind fun tmpReg => some (mis tmpReg)))
    (hbad : ∀ tmpReg, ∃ bad ∈ mis tmpReg, bad.opcode.isPseudo = false ∧ ¬ bad.RegistersInClass) :
    KeepsLaw scavenge mi ↔ ∀ before, scavenge before mi = none := by
  constructor
  · intro hlaw before
    by_contra hne
    obtain ⟨tmpReg, htmp⟩ := Option.ne_none_iff_exists'.mp hne
    obtain ⟨bad, hmem, hreal, hclasses⟩ := hbad tmpReg
    have hsome : expandMI (scavenge before) mi = .expanded (mis tmpReg) := by
      rw [hexpand before, htmp]
      rfl
    exact not_keepsLaw before hsome hmem hreal hclasses hlaw
  · intro hnone
    refine keepsLaw_of_not_expanded hpseudo fun before mis' hresult => ?_
    rw [hexpand before, hnone before] at hresult
    simp [ExpandResult.ofOption] at hresult

/-- A guard that fails. -/
theorem guard_of_neg {p : Prop} [Decidable p] (h : ¬ p) : (guard p : Option Unit) = none :=
  if_neg h

/-- An expansion with an assertion keeps the law when the assertion is violated. -/
theorem keepsLaw_guarded_iff {mi : MachineInstr} (hpseudo : mi.opcode.isPseudo = true) {p : Prop}
    [Decidable p] {mis : List MachineInstr}
    (hexpand : ∀ before, expandMI (scavenge before) mi =
      .ofOption ((guard p : Option Unit).bind fun _ => some mis))
    (hbad : ∃ bad ∈ mis, bad.opcode.isPseudo = false ∧ ¬ bad.RegistersInClass) :
    KeepsLaw scavenge mi ↔ ¬ p := by
  by_cases hp : p
  · refine iff_of_false ?_ (not_not_intro hp)
    obtain ⟨bad, hmem, hreal, hclasses⟩ := hbad
    have hsome : expandMI (scavenge []) mi = .expanded mis := by
      rw [hexpand, guard_of_pos hp]
      rfl
    exact not_keepsLaw [] hsome hmem hreal hclasses
  · refine iff_of_true (keepsLaw_of_not_expanded hpseudo fun before mis' hresult => ?_) hp
    rw [hexpand before, guard_of_neg hp] at hresult
    simp [ExpandResult.ofOption] at hresult

/-- The high half moved from the scavenged register. -/
theorem not_registersInClass_move (reg : WordReg) (tmpReg : Reg) :
    ¬ MachineInstr.RegistersInClass ⟨.MOVRdRr, [.reg (.byte reg.subHi), .reg tmpReg]⟩ :=
  not_registersInClass_of_byte rfl rfl

/-- A word load through a pointer keeps the law when it fails. -/
theorem keepsLaw_LDWRdPtr_iff (a b : WordReg) :
    KeepsLaw scavenge ⟨.LDWRdPtr, [.reg (.word a), .reg (.word b)]⟩ ↔
      a = b ∧ ∀ before, scavenge before ⟨.LDWRdPtr, [.reg (.word a), .reg (.word b)]⟩ = none := by
  rcases eq_or_ne a b with rfl | hab
  · rw [and_iff_right rfl]
    exact keepsLaw_scavenged_iff rfl
      (fun before => congrArg ExpandResult.ofOption (expandLDWRdPtr_self a .LDWRdPtr))
      fun tmpReg => ⟨_, by simp, rfl, not_registersInClass_move a tmpReg⟩
  · refine iff_of_false ?_ fun h => hab h.1
    exact not_keepsLaw_of_byte [] (congrArg ExpandResult.ofOption (expandLDWRdPtr_of_ne hab _))
      List.mem_cons_self rfl rfl rfl

/-- A word load with a displacement keeps the law when it fails, for its displacement or for want of
a register. -/
theorem keepsLaw_LDDW_iff (hop : op = .LDDWRdPtrQ ∨ op = .LDDWRdYQ) (a b : WordReg)
    (k : BitVec 64) :
    KeepsLaw scavenge ⟨op, [.reg (.word a), .reg (.word b), .imm k]⟩ ↔
      ¬ toUnsigned k ≤ 63 ∨ (a = b ∧ ∀ before,
        scavenge before ⟨op, [.reg (.word a), .reg (.word b), .imm k]⟩ = none) := by
  have hpseudo : op.isPseudo = true := by rcases hop with rfl | rfl <;> rfl
  have hexpand (before : List MachineInstr) :
      expandMI (scavenge before) ⟨op, [.reg (.word a), .reg (.word b), .imm k]⟩ =
        .ofOption (expandLDDWRdPtrQ (scavenge before)
          ⟨op, [.reg (.word a), .reg (.word b), .imm k]⟩) := by
    rcases hop with rfl | rfl <;> rfl
  by_cases hk : toUnsigned k ≤ 63
  · rw [or_iff_right (not_not_intro hk)]
    rcases eq_or_ne a b with rfl | hab
    · rw [and_iff_right rfl]
      exact keepsLaw_scavenged_iff hpseudo
        (fun before => (hexpand before).trans
          (congrArg ExpandResult.ofOption (expandLDDWRdPtrQ_self a hk op)))
        fun tmpReg => ⟨_, by simp, rfl, not_registersInClass_move a tmpReg⟩
    · refine iff_of_false ?_ fun h => hab h.1
      exact not_keepsLaw_of_byte [] ((hexpand []).trans
        (congrArg ExpandResult.ofOption (expandLDDWRdPtrQ_of_ne hab hk _)))
        List.mem_cons_self rfl rfl rfl
  · refine iff_of_true (keepsLaw_of_not_expanded hpseudo fun before mis hresult => ?_) (.inl hk)
    have hfail : expandLDDWRdPtrQ (scavenge before)
        ⟨op, [.reg (.word a), .reg (.word b), .imm k]⟩ = none := by
      simp only [expandLDDWRdPtrQ, MachineInstr.getReg, MachineInstr.getImm,
        List.getElem?_cons_zero, List.getElem?_cons_succ, Reg.splitReg, Option.bind_eq_bind,
        Option.bind_some, guard_of_neg hk, Option.bind_none]
    simp [hexpand, hfail, ExpandResult.ofOption] at hresult

/-- A word access with write back keeps the law when its registers coincide, which its assertion
forbids. -/
theorem keepsLaw_LDWRdPtrPi_iff (hop : op = .LDWRdPtrPi ∨ op = .LDWRdPtrPd) (a b c : WordReg) :
    KeepsLaw scavenge ⟨op, [.reg (.word a), .reg (.word b), .reg (.word c)]⟩ ↔ a = b := by
  rw [← Reg.word.injEq, ← not_ne_iff]
  rcases hop with rfl | rfl <;>
    exact keepsLaw_guarded_iff rfl (fun _ => rfl)
      ⟨_, List.mem_cons_self, rfl, not_registersInClass_of_byte rfl rfl⟩

theorem keepsLaw_STWPtrPiRr_iff (hop : op = .STWPtrPiRr ∨ op = .STWPtrPdRr) (a b c : WordReg)
    (k : BitVec 64) :
    KeepsLaw scavenge ⟨op, [.reg (.word a), .reg (.word b), .reg (.word c), .imm k]⟩ ↔ a = c := by
  rw [← Reg.word.injEq, ← not_ne_iff]
  rcases hop with rfl | rfl <;>
    exact keepsLaw_guarded_iff rfl (fun _ => rfl)
      ⟨_, List.mem_cons_self, rfl, not_registersInClass_of_byte rfl rfl⟩

/-- A store with a displacement keeps the law when the displacement is out of range. -/
theorem keepsLaw_STDWPtrQRr_iff (a b : WordReg) (k : BitVec 64) :
    KeepsLaw scavenge ⟨.STDWPtrQRr, [.reg (.word a), .imm k, .reg (.word b)]⟩ ↔
      ¬ toUnsigned k ≤ 63 :=
  keepsLaw_guarded_iff rfl (fun _ => rfl)
    ⟨_, List.mem_cons_self, rfl, not_registersInClass_of_byte rfl rfl⟩

/-- So does an access to a port. -/
theorem keepsLaw_INWRdA_iff (a : WordReg) (k : BitVec 64) :
    KeepsLaw scavenge ⟨.INWRdA, [.reg (.word a), .imm k]⟩ ↔ ¬ toUnsigned k ≤ 63 :=
  keepsLaw_guarded_iff rfl (fun _ => rfl)
    ⟨_, List.mem_cons_self, rfl, not_registersInClass_of_byte rfl rfl⟩

theorem keepsLaw_OUTWARr_iff (a : WordReg) (k : BitVec 64) :
    KeepsLaw scavenge ⟨.OUTWARr, [.imm k, .reg (.word a)]⟩ ↔ ¬ toUnsigned k ≤ 63 :=
  keepsLaw_guarded_iff rfl (fun _ => rfl)
    ⟨_, List.mem_cons_self, rfl, not_registersInClass_of_byte rfl rfl⟩

/-- An instruction with one register. -/
theorem keepsLaw_reg_iff {real : Opcode} (hreal : real.isPseudo = false) (rc : RegClass)
    (htypes : MachineInstr.operandTypes real = [.reg rc]) (r : Reg) :
    KeepsLaw scavenge ⟨real, [.reg r]⟩ ↔ r ∈ rc.members := by
  constructor
  · intro h
    obtain ⟨rc', hrc, hmem⟩ := (keepsLaw_iff_of_real hreal).mp h 0 r rfl
    rw [htypes] at hrc
    obtain rfl : rc = rc' := MCOperandInfo.reg.inj (Option.some.inj hrc)
    exact hmem
  · intro hr
    refine keepsLaw_of_classesHold hreal ?_
    rw [MachineInstr.ClassesHold, htypes]
    exact (typed_reg_iff rc).mpr ⟨r, [], rfl, hr, .nil⟩

/-- A push keeps the law when it pushes `A`. -/
theorem keepsLaw_PHAstk_iff (r : Reg) : KeepsLaw scavenge ⟨.PHAstk, [.reg r]⟩ ↔ r = .A := by
  rw [keepsLaw_reg_iff rfl .accRegs rfl]
  simp [RegClass.members]

theorem keepsLaw_PUSHWRr_iff (a : WordReg) :
    KeepsLaw scavenge ⟨.PUSHWRr, [.reg (.word a)]⟩ ↔ a = .A := by
  rw [keepsLaw_iff_of_expanded rfl fun _ => rfl]
  simp [keepsLaw_PHAstk_iff]

/-- A pop, a store through a pointer and a write of the stack pointer never keep the law. -/
theorem not_keepsLaw_POPWRd (a : WordReg) : ¬ KeepsLaw scavenge ⟨.POPWRd, [.reg (.word a)]⟩ :=
  not_keepsLaw_of_byte [] rfl List.mem_cons_self rfl rfl rfl

theorem not_keepsLaw_STWPtrRr (a b : WordReg) :
    ¬ KeepsLaw scavenge ⟨.STWPtrRr, [.reg (.word a), .reg (.word b)]⟩ :=
  not_keepsLaw_of_byte [] rfl List.mem_cons_self rfl rfl rfl

theorem not_keepsLaw_SPWRITE (a : WordReg) :
    ¬ KeepsLaw scavenge ⟨.SPWRITE, [.reg .SP, .reg (.word a)]⟩ :=
  not_keepsLaw_of_byte []
    rfl (show (⟨.OUTARr, [.imm 0x3e, .reg (.byte a.subHi)]⟩ : MachineInstr) ∈ _ by simp) rfl rfl rfl

/-! ### Atomic operations -/

/-- What surrounds the body of an atomic operation keeps the law. -/
theorem keepsLaw_expandAtomic_iff {mi : MachineInstr} (hpseudo : mi.opcode.isPseudo = true)
    {body : List MachineInstr}
    (hexpand : ∀ before, expandMI (scavenge before) mi = .expanded (expandAtomic body)) :
    KeepsLaw scavenge mi ↔ ∀ mi' ∈ body, KeepsLaw scavenge mi' := by
  have hin : KeepsLaw scavenge ⟨.INRdA, [.reg scratchRegister, ofUnsigned pAddr]⟩ :=
    keepsLaw_of_classesHold rfl (by decide)
  have hclear : KeepsLaw scavenge ⟨.BCLRs, [.imm 7]⟩ := keepsLaw_of_classesHold rfl (by decide)
  have hout : KeepsLaw scavenge ⟨.OUTARr, [ofUnsigned pAddr, .reg scratchRegister]⟩ :=
    keepsLaw_of_classesHold rfl (by decide)
  rw [keepsLaw_iff_of_expanded hpseudo hexpand]
  constructor
  · exact fun h mi' hmem => h mi' (by simp [expandAtomic, hmem])
  · intro h mi' hmem
    simp only [expandAtomic, List.mem_append, List.mem_cons, List.not_mem_nil, or_false] at hmem
    rcases hmem with ((rfl | rfl) | hbody) | rfl
    exacts [hin, hclear, h mi' hbody, hout]

theorem keepsLaw_LDRdPtr {a b : WordReg} (hb : b ≠ .A) :
    KeepsLaw scavenge ⟨.LDRdPtr, [.reg (.word a), .reg (.word b)]⟩ :=
  keepsLaw_of_classesHold rfl
    (typed_mainReg_iff.mpr ⟨a, _, rfl, typed_indexReg_iff.mpr ⟨b, _, rfl, hb, .nil⟩⟩)

theorem keepsLaw_STPtrRr_iff (a b : WordReg) :
    KeepsLaw scavenge ⟨.STPtrRr, [.reg (.word a), .reg (.word b)]⟩ ↔ a ≠ .A := by
  constructor
  · intro h
    obtain ⟨rc, hrc, hmem⟩ := (keepsLaw_iff_of_real rfl).mp h 0 _ rfl
    obtain rfl : RegClass.indexRegs = rc := MCOperandInfo.reg.inj (Option.some.inj hrc)
    obtain ⟨w, heq, hw⟩ := (mem_indexRegs_iff _).mp hmem
    exact Reg.word.inj heq ▸ hw
  · intro ha
    exact keepsLaw_of_classesHold rfl
      (typed_indexReg_iff.mpr ⟨a, _, rfl, ha, typed_mainReg_iff.mpr ⟨b, _, rfl, .nil⟩⟩)

/-- The operations of the atomic read-modify-write pseudos take main registers. -/
theorem keepsLaw_mainRegs {real : Opcode} (hreal : real.isPseudo = false)
    (htypes : MachineInstr.operandTypes real = [.reg .mainRegs, .reg .mainRegs, .reg .mainRegs])
    (a b c : WordReg) :
    KeepsLaw scavenge ⟨real, [.reg (.word a), .reg (.word b), .reg (.word c)]⟩ := by
  refine keepsLaw_of_classesHold hreal ?_
  rw [MachineInstr.ClassesHold, htypes]
  exact typed_mainReg_iff.mpr ⟨a, _, rfl,
    typed_mainReg_iff.mpr ⟨b, _, rfl, typed_mainReg_iff.mpr ⟨c, _, rfl, .nil⟩⟩⟩

/-- Operands of an atomic operation. -/
theorem exists_atomic_of_typed
    (h : Typed [.reg .mainRegs, .reg .indexRegs, .reg .mainRegs] operands) :
    ∃ a b c, operands = [.reg (.word a), .reg (.word b), .reg (.word c)] ∧ b ≠ .A := by
  obtain ⟨a, _, rfl, h1⟩ := typed_mainReg_iff.mp h
  obtain ⟨b, _, rfl, hb, h2⟩ := typed_indexReg_iff.mp h1
  obtain ⟨c, _, rfl, h3⟩ := typed_mainReg_iff.mp h2
  rw [typed_nil_iff.mp h3]
  exact ⟨a, b, c, rfl, hb⟩

/-- Operands of an atomic load. -/
theorem exists_atomicLoad_of_typed (h : Typed [.reg .mainRegs, .reg .indexRegs] operands) :
    ∃ a b, operands = [.reg (.word a), .reg (.word b)] ∧ b ≠ .A := by
  obtain ⟨a, _, rfl, h1⟩ := typed_mainReg_iff.mp h
  obtain ⟨b, _, rfl, hb, h2⟩ := typed_indexReg_iff.mp h1
  rw [typed_nil_iff.mp h2]
  exact ⟨a, b, rfl, hb⟩

/-- An atomic operation on a byte keeps the law. -/
theorem keepsLaw_atomicByte
    (hop : op ∈ [.AtomicLoadAdd8, .AtomicLoadSub8, .AtomicLoadAnd8, .AtomicLoadOr8,
      .AtomicLoadXor8])
    (h : Typed (MachineInstr.operandTypes op) operands) : KeepsLaw scavenge ⟨op, operands⟩ := by
  have body (real : Opcode) (hreal : real.isPseudo = false)
      (htypes : MachineInstr.operandTypes real =
        [.reg .mainRegs, .reg .mainRegs, .reg .mainRegs]) {a b : WordReg} (hb : b ≠ .A) :
      ∀ mi ∈ [(⟨.LDRdPtr, [.reg (.word a), .reg (.word b)]⟩ : MachineInstr),
        ⟨real, [.reg (.word a), .reg (.word a), .reg (.word b)]⟩,
        ⟨.STPtrRr, [.reg (.word b), .reg (.word a)]⟩], KeepsLaw scavenge mi := by
    simp [keepsLaw_LDRdPtr hb, keepsLaw_mainRegs hreal htypes, (keepsLaw_STPtrRr_iff b a).mpr hb]
  simp only [List.mem_cons, List.not_mem_nil, or_false] at hop
  rcases hop with rfl | rfl | rfl | rfl | rfl
  all_goals
    obtain ⟨a, b, c, rfl, hb⟩ := exists_atomic_of_typed h
    exact (keepsLaw_expandAtomic_iff rfl fun _ => rfl).mpr (body _ rfl rfl hb)

/-- An atomic operation on a word never does. -/
theorem not_keepsLaw_atomicWord
    (hop : op ∈ [.AtomicLoadAdd16, .AtomicLoadSub16, .AtomicLoadAnd16, .AtomicLoadOr16,
      .AtomicLoadXor16])
    (h : Typed (MachineInstr.operandTypes op) operands) : ¬ KeepsLaw scavenge ⟨op, operands⟩ := by
  simp only [List.mem_cons, List.not_mem_nil, or_false] at hop
  rcases hop with rfl | rfl | rfl | rfl | rfl
  all_goals
    obtain ⟨a, b, c, rfl, -⟩ := exists_atomic_of_typed h
    intro hlaw
    have hbody := (keepsLaw_expandAtomic_iff rfl fun _ => rfl).mp hlaw
    exact not_keepsLaw_STWPtrRr b a (hbody _ (by simp))

/-- An atomic load of a byte keeps the law, and one of a word does as the load does. -/
theorem keepsLaw_AtomicLoad8 (h : Typed [.reg .mainRegs, .reg .indexRegs] operands) :
    KeepsLaw scavenge ⟨.AtomicLoad8, operands⟩ := by
  obtain ⟨a, b, rfl, hb⟩ := exists_atomicLoad_of_typed h
  rw [keepsLaw_expandAtomic_iff rfl fun _ => rfl]
  exact List.forall_mem_singleton.mpr (keepsLaw_LDRdPtr hb)

theorem keepsLaw_AtomicLoad16_iff (a b : WordReg) :
    KeepsLaw scavenge ⟨.AtomicLoad16, [.reg (.word a), .reg (.word b)]⟩ ↔
      a = b ∧ ∀ before, scavenge before ⟨.LDWRdPtr, [.reg (.word a), .reg (.word b)]⟩ = none := by
  rw [keepsLaw_expandAtomic_iff rfl fun _ => rfl]
  exact List.forall_mem_singleton.trans (keepsLaw_LDWRdPtr_iff a b)

/-- An atomic store of a byte keeps the law unless its address is in `A`; one of a word never
does. -/
theorem keepsLaw_AtomicStore8_iff (a b : WordReg) :
    KeepsLaw scavenge ⟨.AtomicStore8, [.reg (.word a), .reg (.word b)]⟩ ↔ a ≠ .A := by
  rw [keepsLaw_expandAtomic_iff rfl fun _ => rfl]
  exact List.forall_mem_singleton.trans (keepsLaw_STPtrRr_iff a b)

theorem not_keepsLaw_AtomicStore16 (a b : WordReg) :
    ¬ KeepsLaw scavenge ⟨.AtomicStore16, [.reg (.word a), .reg (.word b)]⟩ := by
  rw [keepsLaw_expandAtomic_iff rfl fun _ => rfl]
  exact fun h => not_keepsLaw_STWPtrRr a b (List.forall_mem_singleton.mp h)

/-! ### Every pseudo -/

/-- A pseudo that is not relaxed keeps the law exactly under its condition. -/
theorem MachineInstr.Admitted.keepsLaw_iff {mi : MachineInstr} (h : mi.Admitted)
    (hop : mi.opcode ≠ .STDWPtrQRr) : KeepsLaw scavenge mi ↔ mi.KeepsClasses scavenge := by
  obtain ⟨op, operands⟩ := mi
  obtain ⟨hpseudo, hclasses, himms⟩ := h
  change Typed (MachineInstr.operandTypes op) operands at hclasses
  dsimp only at himms
  cases op
  case STDWPtrQRr => exact absurd rfl hop
  case ADJCALLSTACKDOWN | ADJCALLSTACKUP | SEXT | ZEXT | FRMIDX | STDSPQRr | STDWSPQRr | Select8
      | Select16 | Lsl8 | Lsl16 | Lsr8 | Lsr16 | Rol8 | Rol16 | Ror8 | Ror16 | Asr8 | Asr16 | LPMWRdZ
      | LPMWRdZPi | RORWRd | ROLWRd | SPREAD =>
    exact iff_of_true (keepsLaw_of_not_expanded rfl fun _ _ => nofun) rfl
  case ADDWRdRr | ADCWRdRr | SUBWRdRr | SBCWRdRr | ANDWRdRr | ORWRdRr | EORWRdRr | COMWRd | CPWRdRr
      | CPCWRdRr | LSLWRd | LSRWRd | ASRWRd =>
    exact iff_of_false (not_keepsLaw_registers (by decide) hclasses) Bool.false_ne_true
  case SUBIWRdK | SBCIWRdK | LDIWRdK | LDSWRdK | STSWKRr =>
    exact iff_of_false (not_keepsLaw_immediate (by decide) hclasses himms) Bool.false_ne_true
  case AtomicLoadAdd16 | AtomicLoadSub16 | AtomicLoadAnd16 | AtomicLoadOr16 | AtomicLoadXor16 =>
    exact iff_of_false (not_keepsLaw_atomicWord (by decide) hclasses) Bool.false_ne_true
  case AtomicLoadAdd8 | AtomicLoadSub8 | AtomicLoadAnd8 | AtomicLoadOr8 | AtomicLoadXor8 =>
    exact iff_of_true (keepsLaw_atomicByte (by decide) hclasses) trivial
  case AtomicLoad8 => exact iff_of_true (keepsLaw_AtomicLoad8 hclasses) trivial
  case AtomicFence =>
    exact iff_of_true ((keepsLaw_iff_of_expanded rfl fun _ => rfl).mpr nofun) trivial
  case ANDIWRdK | ORIWRdK =>
    obtain ⟨a, b, k, rfl, hk⟩ := exists_two_imm_of_typed hclasses
    obtain ⟨k, rfl⟩ := exists_number himms (by decide) (by simp) hk
    rw [keepsLaw_logicImm_iff (by rfl) rfl rfl fun _ => rfl]
    simp [isLogicImmOpRedundant, MachineInstr.KeepsClasses, MachineInstr.getImm]
  case LDWRdPtr =>
    obtain ⟨a, b, rfl⟩ := exists_two_of_typed hclasses
    rw [keepsLaw_LDWRdPtr_iff]
    simp [MachineInstr.KeepsClasses, MachineInstr.getReg]
  case AtomicLoad16 =>
    obtain ⟨a, b, rfl, -⟩ := exists_atomicLoad_of_typed hclasses
    rw [keepsLaw_AtomicLoad16_iff]
    simp [MachineInstr.KeepsClasses, MachineInstr.getReg]
  case AtomicStore8 =>
    obtain ⟨a, b, rfl⟩ := exists_two_of_typed hclasses
    rw [keepsLaw_AtomicStore8_iff]
    simp [MachineInstr.KeepsClasses, MachineInstr.getReg, Reg.A]
  case AtomicStore16 =>
    obtain ⟨a, b, rfl⟩ := exists_two_of_typed hclasses
    exact iff_of_false (not_keepsLaw_AtomicStore16 a b) Bool.false_ne_true
  case STWPtrRr =>
    obtain ⟨a, b, rfl⟩ := exists_two_of_typed hclasses
    exact iff_of_false (not_keepsLaw_STWPtrRr a b) Bool.false_ne_true
  case LDDWRdPtrQ | LDDWRdYQ =>
    obtain ⟨a, b, k, rfl, hk⟩ := exists_two_imm_of_typed hclasses
    obtain ⟨k, rfl⟩ := exists_number himms (by decide) (by simp) hk
    rw [keepsLaw_LDDW_iff (by simp)]
    simp [MachineInstr.KeepsClasses, MachineInstr.getImm, MachineInstr.getReg]
  case LDWRdPtrPi | LDWRdPtrPd =>
    obtain ⟨a, _, rfl, h1⟩ := typed_mainReg_iff.mp hclasses
    obtain ⟨b, _, rfl, -, h2⟩ := typed_indexReg_iff.mp h1
    obtain ⟨c, _, rfl, -, h3⟩ := typed_indexReg_iff.mp h2
    obtain rfl := typed_nil_iff.mp h3
    rw [keepsLaw_LDWRdPtrPi_iff (by simp)]
    simp [MachineInstr.KeepsClasses, MachineInstr.getReg]
  case STWPtrPiRr | STWPtrPdRr =>
    obtain ⟨a, _, rfl, -, h1⟩ := typed_indexReg_iff.mp hclasses
    obtain ⟨b, _, rfl, -, h2⟩ := typed_indexReg_iff.mp h1
    obtain ⟨c, _, rfl, h3⟩ := typed_mainReg_iff.mp h2
    obtain ⟨k, _, rfl, hk, h4⟩ := typed_imm_iff.mp h3
    obtain rfl := typed_nil_iff.mp h4
    obtain ⟨k, rfl⟩ := exists_number himms (by decide) (by simp) hk
    rw [keepsLaw_STWPtrPiRr_iff (by simp)]
    simp [MachineInstr.KeepsClasses, MachineInstr.getReg]
  case INWRdA =>
    obtain ⟨a, _, rfl, h1⟩ := typed_mainReg_iff.mp hclasses
    obtain ⟨k, _, rfl, hk, h2⟩ := typed_imm_iff.mp h1
    obtain rfl := typed_nil_iff.mp h2
    obtain ⟨k, rfl⟩ := exists_number himms (by decide) (by simp) hk
    rw [keepsLaw_INWRdA_iff]
    simp [MachineInstr.KeepsClasses, MachineInstr.getImm]
  case OUTWARr =>
    obtain ⟨k, _, rfl, hk, h1⟩ := typed_imm_iff.mp hclasses
    obtain ⟨a, _, rfl, h2⟩ := typed_mainReg_iff.mp h1
    obtain rfl := typed_nil_iff.mp h2
    obtain ⟨k, rfl⟩ := exists_number himms (by decide) (by simp) hk
    rw [keepsLaw_OUTWARr_iff]
    simp [MachineInstr.KeepsClasses, MachineInstr.getImm]
  case PUSHWRr =>
    obtain ⟨a, _, rfl, h1⟩ := typed_mainReg_iff.mp hclasses
    obtain rfl := typed_nil_iff.mp h1
    rw [keepsLaw_PUSHWRr_iff]
    simp [MachineInstr.KeepsClasses, MachineInstr.getReg, Reg.A]
  case POPWRd =>
    obtain ⟨a, _, rfl, h1⟩ := typed_mainReg_iff.mp hclasses
    obtain rfl := typed_nil_iff.mp h1
    exact iff_of_false (not_keepsLaw_POPWRd a) Bool.false_ne_true
  case SPWRITE =>
    obtain ⟨sp, _, rfl, hsp, h1⟩ := (typed_reg_iff _).mp hclasses
    obtain ⟨a, _, rfl, h2⟩ := typed_mainReg_iff.mp h1
    obtain rfl := typed_nil_iff.mp h2
    obtain rfl : sp = .SP := by simpa [RegClass.members] using hsp
    exact iff_of_false (not_keepsLaw_SPWRITE a) Bool.false_ne_true
  all_goals exact absurd hpseudo Bool.false_ne_true

/-! ### Relaxed stores -/

/-- `SNESRelaxMem` leaves the other instructions alone. -/
theorem relaxMem_of_ne {mi : MachineInstr} (h : mi.opcode ≠ .STDWPtrQRr) : relaxMem mi = [mi] := by
  unfold relaxMem
  split
  · next hop => exact absurd hop h
  · rfl

/-- A store that is relaxed ends with a pop, which never keeps the law. -/
theorem keepsLaw_relaxMem_STDWPtrQRr_iff (a b : WordReg) (k : BitVec 64) :
    (∀ mi' ∈ relaxMem ⟨.STDWPtrQRr, [.reg (.word a), .imm k, .reg (.word b)]⟩,
      KeepsLaw scavenge mi') ↔ k.toInt ≤ 63 ∧ ¬ toUnsigned k ≤ 63 := by
  by_cases hk : 63 < k.toInt
  · refine iff_of_false (fun h => ?_) fun h => absurd h.1 (not_le.mpr hk)
    have hpop := h ⟨.POPWRd, [.reg (.word a)]⟩
      (by simp [relaxMem, relaxSTDWPtrQRr, MachineInstr.getReg, MachineInstr.getImm, hk])
    exact not_keepsLaw_POPWRd a hpop
  · rw [and_iff_right (not_lt.mp hk)]
    have halone : relaxMem ⟨.STDWPtrQRr, [.reg (.word a), .imm k, .reg (.word b)]⟩ =
        [⟨.STDWPtrQRr, [.reg (.word a), .imm k, .reg (.word b)]⟩] := by
      simp [relaxMem, relaxSTDWPtrQRr, MachineInstr.getReg, MachineInstr.getImm, hk]
    rw [halone]
    exact List.forall_mem_singleton.trans (keepsLaw_STDWPtrQRr_iff a b k)

/-- The operands of a store after its base register. -/
theorem exists_displaced_of_typed (h : Typed [.imm, .reg .mainRegs] operands) :
    ∃ k w, operands = [k, .reg (.word w)] ∧ ∀ r, k ≠ .reg r := by
  obtain ⟨k, _, rfl, hk, h1⟩ := typed_imm_iff.mp h
  obtain ⟨w, _, rfl, h2⟩ := typed_mainReg_iff.mp h1
  rw [typed_nil_iff.mp h2]
  exact ⟨k, w, rfl, hk⟩

/-- A pseudo, relaxed if it has to be, keeps the law exactly under its condition. -/
theorem MachineInstr.Admitted.relaxed_iff {mi : MachineInstr} (h : mi.Admitted) :
    (∀ mi' ∈ relaxMem mi, KeepsLaw scavenge mi') ↔ mi.KeepsClasses scavenge := by
  by_cases hop : mi.opcode = .STDWPtrQRr
  · obtain ⟨op, operands⟩ := mi
    obtain ⟨-, hclasses, himms⟩ := h
    dsimp only at hop
    subst hop
    obtain ⟨a, _, rfl, hrest⟩ := typed_mainReg_iff.mp hclasses
    obtain ⟨k, b, rfl, hk⟩ := exists_displaced_of_typed hrest
    obtain ⟨k, rfl⟩ := exists_number himms (by simp) (by simp) hk
    rw [keepsLaw_relaxMem_STDWPtrQRr_iff]
    simp [MachineInstr.KeepsClasses, MachineInstr.getImm]
  · rw [relaxMem_of_ne hop]
    exact List.forall_mem_singleton.trans (h.keepsLaw_iff hop)

/-! ### Every site -/

/-- The operands of a store through the stack pointer. -/
theorem MachineInstr.Admitted.exists_stackStore (h : MachineInstr.Admitted ⟨op, operands⟩)
    (hop : op = .STDSPQRr ∨ op = .STDWSPQRr) :
    ∃ r k w, operands = [.reg r, k, .reg (.word w)] ∧ ∀ r, k ≠ .reg r := by
  have htypes : MachineInstr.operandTypes op = [.anyReg, .imm, .reg .mainRegs] := by
    rcases hop with rfl | rfl <;> rfl
  have hclasses := h.classes
  rw [MachineInstr.ClassesHold, htypes] at hclasses
  obtain ⟨r, _, rfl, hrest⟩ := typed_anyReg_iff.mp hclasses
  obtain ⟨k, w, rfl, hk⟩ := exists_displaced_of_typed hrest
  exact ⟨r, k, w, rfl, hk⟩

/-- A store through the stack pointer that becomes a push. -/
theorem keepsLaw_push_iff (hop : op = .STDSPQRr ∨ op = .STDWSPQRr)
    (h : MachineInstr.Admitted ⟨op, operands⟩) :
    (∀ mi' ∈ relaxMem (fixStackStoreInstr true ⟨op, operands⟩), KeepsLaw scavenge mi') ↔
      MachineInstr.getReg ⟨op, operands⟩ 2 = some .A := by
  obtain ⟨r, k, w, rfl, -⟩ := h.exists_stackStore hop
  rw [relaxMem_of_ne (by simp [fixStackStoreInstr])]
  refine List.forall_mem_singleton.trans ?_
  simp [fixStackStoreInstr, keepsLaw_PHAstk_iff, MachineInstr.getReg]

/-- A store through the stack pointer that becomes a store through `A`. -/
theorem keepsLaw_store_iff (hop : op = .STDSPQRr ∨ op = .STDWSPQRr)
    (h : MachineInstr.Admitted ⟨op, operands⟩) :
    (∀ mi' ∈ relaxMem (fixStackStoreInstr false ⟨op, operands⟩), KeepsLaw scavenge mi') ↔
      (op = .STDWSPQRr → ∀ k, MachineInstr.getImm ⟨op, operands⟩ 1 = some k →
        k.toInt ≤ 63 ∧ ¬ toUnsigned k ≤ 63) := by
  obtain ⟨r, k, w, rfl, hk⟩ := h.exists_stackStore hop
  rcases hop with rfl | rfl
  · refine iff_of_true ?_ nofun
    rw [relaxMem_of_ne (by simp [fixStackStoreInstr])]
    refine List.forall_mem_singleton.mpr (keepsLaw_of_classesHold rfl ?_)
    exact typed_mainReg_iff.mpr ⟨.A, _, rfl, typed_imm_iff.mpr
      ⟨k, _, rfl, hk, typed_mainReg_iff.mpr ⟨w, _, rfl, .nil⟩⟩⟩
  · obtain ⟨k, rfl⟩ := exists_number h.imms (by simp) (by simp) hk
    refine (keepsLaw_relaxMem_STDWPtrQRr_iff .A w k).trans ?_
    simp [MachineInstr.getImm]

/-- Where there is no copy, nothing has to keep the law. -/
theorem keepsLaw_copyPhysReg_of_none {destReg srcReg : Reg} (h : copyPhysReg destReg srcReg = none) :
    ∀ mi ∈ (copyPhysReg destReg srcReg).getD [], ∀ mi' ∈ relaxMem mi, KeepsLaw scavenge mi' := by
  rw [h]
  exact fun mi hmi => absurd hmi List.not_mem_nil

/-- Copies between main registers and to the stack pointer never keep the law; one of the stack
pointer makes the pass fail. -/
theorem keepsLaw_copyPhysReg_iff (destReg srcReg : Reg) :
    (∀ mi ∈ (copyPhysReg destReg srcReg).getD [], ∀ mi' ∈ relaxMem mi, KeepsLaw scavenge mi') ↔
      (srcReg ∉ RegClass.mainRegs.members ∨
        (destReg ∉ RegClass.mainRegs.members ∧ destReg ≠ .SP)) := by
  cases destReg with
  | word dest =>
      cases srcReg with
      | word src =>
          have hmove : ¬ KeepsLaw scavenge
              ⟨.MOVRdRr, [.reg (.byte dest.subLo), .reg (.byte src.subLo)]⟩ := by
            rw [keepsLaw_iff_of_real rfl]
            exact not_registersInClass_of_byte rfl rfl
          refine iff_of_false (fun h => ?_) (by simp [mem_mainRegs_iff])
          have hlow := h _ List.mem_cons_self
          rw [relaxMem_of_ne (by simp)] at hlow
          exact hmove (List.forall_mem_singleton.mp hlow)
      | SP =>
          refine iff_of_true ?_ (.inl (by simp [mem_mainRegs_iff]))
          refine List.forall_mem_singleton.mpr ?_
          rw [relaxMem_of_ne (by simp)]
          exact List.forall_mem_singleton.mpr (keepsLaw_of_not_expanded rfl fun _ _ => nofun)
      | _ => exact iff_of_true (keepsLaw_copyPhysReg_of_none rfl) (.inl (by simp [mem_mainRegs_iff]))
  | SP =>
      cases srcReg with
      | word src =>
          refine iff_of_false (fun h => ?_) (by simp [mem_mainRegs_iff])
          have hwrite := h _ List.mem_cons_self
          rw [relaxMem_of_ne (by simp)] at hwrite
          exact not_keepsLaw_SPWRITE src (List.forall_mem_singleton.mp hwrite)
      | _ => exact iff_of_true (keepsLaw_copyPhysReg_of_none rfl) (.inl (by simp [mem_mainRegs_iff]))
  | _ => exact iff_of_true (keepsLaw_copyPhysReg_of_none rfl) (.inr (by simp [mem_mainRegs_iff]))

/-- The register that a spill pushes is `A`; the one that a restore pops is a main register. -/
theorem keepsLaw_spillInstrs_iff (csi : List Reg) :
    (∀ mi ∈ spillInstrs csi, ∀ mi' ∈ relaxMem mi, KeepsLaw scavenge mi') ↔
      ∀ reg ∈ csi, reg = .A := by
  have heach (reg : Reg) : (∀ mi' ∈ relaxMem ⟨.PHAstk, [.reg reg]⟩, KeepsLaw scavenge mi') ↔
      reg = .A := by
    rw [relaxMem_of_ne (by simp)]
    exact List.forall_mem_singleton.trans (keepsLaw_PHAstk_iff reg)
  simp only [spillInstrs, List.forall_mem_map, heach, List.mem_reverse]

theorem keepsLaw_restoreInstrs_iff (csi : List Reg) :
    (∀ mi ∈ restoreInstrs csi, ∀ mi' ∈ relaxMem mi, KeepsLaw scavenge mi') ↔
      ∀ reg ∈ csi, reg ∈ RegClass.mainRegs.members := by
  have heach (reg : Reg) : (∀ mi' ∈ relaxMem ⟨.POPRd, [.reg reg]⟩, KeepsLaw scavenge mi') ↔
      reg ∈ RegClass.mainRegs.members := by
    rw [relaxMem_of_ne (by simp)]
    exact List.forall_mem_singleton.trans (keepsLaw_reg_iff rfl .mainRegs rfl reg)
  simp only [restoreInstrs, List.forall_mem_map, heach]

/-- The instructions that are built have registers of the declared classes exactly under the
conditions of the sites. -/
theorem classesKept_iff (scavenge : Scavenger) (site : BuildSite) (h : site.Admitted) :
    site.ClassesKept scavenge ↔ site.KeepsClasses scavenge := by
  cases site with
  | pseudo mi => exact List.forall_mem_singleton.trans h.relaxed_iff
  | stackStore insertPushes mi =>
      cases insertPushes with
      | true => exact List.forall_mem_singleton.trans (keepsLaw_push_iff h.1 h.2.1)
      | false => exact List.forall_mem_singleton.trans (keepsLaw_store_iff h.1 h.2.1)
  | copy destReg srcReg => exact keepsLaw_copyPhysReg_iff destReg srcReg
  | spill csi => exact keepsLaw_spillInstrs_iff csi
  | restore csi => exact keepsLaw_restoreInstrs_iff csi

/-- A spill of `A` and `X` is admitted, and pushes `X` where only `A` is declared. -/
theorem classesKept_iff_spill_A_X :
    (BuildSite.spill [.A, .X]).Admitted ∧
      ((BuildSite.spill [.A, .X]).ClassesKept (fun _ _ => none) ↔ Reg.X = Reg.A) := by
  have hadmitted : (BuildSite.spill [.A, .X]).Admitted := by
    simp [BuildSite.Admitted, Reg.sizeInBits, Reg.A, Reg.X]
  refine ⟨hadmitted, (classesKept_iff _ _ hadmitted).trans ?_⟩
  simp [BuildSite.KeepsClasses]

/-- `ADDWRdRr A, A, X` is admitted, and expands to `ADDRdRr AL, AL, XL`, where main registers are
declared. -/
theorem addition_outside_classes :
    (BuildSite.pseudo ⟨.ADDWRdRr, [.reg .A, .reg .A, .reg .X]⟩).Admitted ∧
      ¬ (BuildSite.pseudo ⟨.ADDWRdRr, [.reg .A, .reg .A, .reg .X]⟩).ClassesKept fun _ _ => none := by
  refine ⟨⟨rfl, by decide, by simp⟩, fun h => ?_⟩
  exact not_keepsLaw_registers (by decide) (by decide)
    (h _ (List.mem_singleton_self _) _ (List.mem_singleton_self _))

/-- A block that the passes lower has its real instructions within the classes, where all that they
find in it keeps the law. -/
theorem registersInClass_of_lowerPseudos {block block' : List MachineInstr}
    (hlower : lowerPseudos scavenge block = some block')
    (h : ∀ mi ∈ block, ∀ mi' ∈ relaxMem mi, KeepsLaw scavenge mi') :
    ∀ mi ∈ block', mi.opcode.isPseudo = false → mi.RegistersInClass := by
  have hrelaxed : ∀ mi ∈ block.flatMap relaxMem, KeepsLaw scavenge mi := by
    intro mi' hmi'
    obtain ⟨mi, hmi, hmem⟩ := List.mem_flatMap.mp hmi'
    exact h mi hmi mi' hmem
  exact fun mi hmi => (Kept.of_rounds hlower hrelaxed mi hmi).1

end

end Snes
