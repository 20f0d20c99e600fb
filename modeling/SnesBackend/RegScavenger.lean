/-
# The Register Scavenger

`scavengeMainRegs` with what it uses of the scavenger of the target-independent code
generator, and the loads of words through the register that they are loaded into.  Those
loads take their bytes by way of the scavenged register and the stack: `PHA` pushes the two
bytes of `A`, and `POPRd` pops one byte.
-/
import SnesBackend.AtomicExec
import SnesBackend.ExpandPass

namespace Snes

/-! ## Live registers in a block -/

/-- The units of a register that is not reserved: the halves. -/
def Reg.units : Reg → List ByteReg
  | byte r => [r]
  | word r => [r.subLo, r.subHi]
  | _ => []

/-- A register operand of an instruction, implicit ones included, with its flags. -/
structure RegOperand where
  reg : Reg
  isDefinition : Bool
  isKill : Bool
  isDead : Bool
  isUndefined : Bool
deriving DecidableEq, Repr

namespace RegOperand

/-- The operands whose units `determineKillsAndDefs` collects in `KillRegUnits`.  Those of a
register mask are lost, because the vector that they are collected in has been cleared to size
zero. -/
def kills (operand : RegOperand) : Bool :=
  if operand.isDefinition then operand.isDead else operand.isKill && !operand.isUndefined

/-- The operands whose units it collects in `DefRegUnits`. -/
def defines (operand : RegOperand) : Bool :=
  operand.isDefinition && !operand.isDead

end RegOperand

/-- The live units. -/
abbrev LiveUnits := ByteReg → Bool

namespace LiveUnits

/-- `RegScavenger::enterBasicBlock`: the pristine registers and the ones that are live into the
block. -/
def enterBasicBlock (liveIns : List Reg) : LiveUnits :=
  fun unit => liveIns.any fun r => r.units.contains unit

/-- `RegScavenger::forward` over one instruction. -/
def forward (live : LiveUnits) (operands : List RegOperand) : LiveUnits :=
  fun unit =>
    operands.any (fun operand => operand.defines && operand.reg.units.contains unit) ||
      (live unit && !operands.any fun operand =>
        operand.kills && operand.reg.units.contains unit)

/-- `RegScavenger::isRegUsed`. -/
def isRegUsed (live : LiveUnits) (r : Reg) : Bool :=
  Reg.getReservedRegs.contains r || r.units.any live

/-- `RegScavenger::getRegsAvailable`. -/
def getRegsAvailable (live : LiveUnits) (rc : RegClass) : List Reg :=
  rc.members.filter fun r => !live.isRegUsed r

end LiveUnits

/-- `scavengeMainRegs`, with the units that are live after the instruction.  The first operand is
the only definition, and the register numbers follow the order of the class. -/
def scavengeMainRegs (live : LiveUnits) (mi : MachineInstr) : Option Reg :=
  let candidates := (RegClass.mainRegs.members.filter fun r => r ∉ Reg.getReservedRegs).filter
    fun r => .reg r ∉ mi.operands.drop 1
  ((live.getRegsAvailable .mainRegs).filter fun r => r ∈ candidates).head?

/-! ## Loads through their own destination -/

/-- A load of a word through the register that it is loaded into: `LDWRdPtr`, or `LDDWRdPtrQ` with
its displacement; with the flags of its register operands. -/
structure SelfLoad where
  reg : WordReg
  q : Option (BitVec 64)
  dstIsDead : Bool
  srcIsKill : Bool
deriving DecidableEq, Repr

namespace SelfLoad

/-- The instruction. -/
def instr (l : SelfLoad) : MachineInstr :=
  match l.q with
  | none => ⟨.LDWRdPtr, [.reg (.word l.reg), .reg (.word l.reg)]⟩
  | some q => ⟨.LDDWRdPtrQ, [.reg (.word l.reg), .reg (.word l.reg), .imm q]⟩

/-- Its register operands. -/
def regOperands (l : SelfLoad) : List RegOperand :=
  [⟨.word l.reg, true, false, l.dstIsDead, false⟩, ⟨.word l.reg, false, l.srcIsKill, false, false⟩]

/-- The address of the word. -/
def address (l : SelfLoad) (s : MachineState) : BitVec 16 :=
  s.word l.reg + (l.q.getD 0).setWidth 16

/-- The live units after the load, in a block with the given live-in registers and with instructions
of the given operands before. -/
def liveAfter (l : SelfLoad) (liveIns : List Reg) (before : List (List RegOperand)) : LiveUnits :=
  (before.foldl LiveUnits.forward (LiveUnits.enterBasicBlock liveIns)).forward l.regOperands

/-- A register is scavenged that is neither live nor used by the load, and the expansion leaves the
word in the destination, `SP` where it was, and the other live registers as they were. -/
def LoadsWord (l : SelfLoad) (live : LiveUnits) (s : MachineState) : Prop :=
  ∃ tmpReg mis s', scavengeMainRegs live l.instr = some tmpReg ∧
    (∀ unit ∈ tmpReg.units, live unit = false) ∧ .reg tmpReg ∉ l.instr.operands ∧
    expandMI (scavengeMainRegs live) l.instr = .expanded mis ∧ execBlock mis s = some s' ∧
    s'.word l.reg = s.mem (l.address s + 1) ++ s.mem (l.address s) ∧ s'.sp = s.sp ∧
    ∀ unit, live unit = true → unit ∉ (Reg.word l.reg).units → s'.regs unit = s.regs unit

end SelfLoad

/-! ## What is scavenged -/

/-- A main register with no live half. -/
def LiveUnits.Dead (live : LiveUnits) (r : WordReg) : Prop :=
  live r.subLo = false ∧ live r.subHi = false

/-- **The scavenged register** of a load through its own destination: the first of the two other
main registers that has no live half. -/
theorem scavengeMainRegs_eq (live : LiveUnits) (l : SelfLoad) :
    scavengeMainRegs live l.instr =
      (([.A, .X, .Y] : List WordReg).find? fun r =>
        r ≠ l.reg && !live r.subLo && !live r.subHi).map Reg.word := by
  have hmembers : RegClass.mainRegs.members = ([.A, .X, .Y] : List WordReg).map Reg.word := rfl
  unfold scavengeMainRegs LiveUnits.getRegsAvailable
  dsimp only
  rw [List.filter_filter, List.head?_filter, hmembers, List.find?_map]
  congr 2
  funext r
  obtain ⟨reg, q, dstIsDead, srcIsKill⟩ := l
  cases q <;> cases reg <;> cases r <;>
    simp [LiveUnits.isRegUsed, Reg.units, SelfLoad.instr, Reg.getReservedRegs]

/-- It is neither live nor used by the load. -/
theorem spec_of_scavengeMainRegs {live : LiveUnits} {l : SelfLoad} {tmpReg : Reg}
    (h : scavengeMainRegs live l.instr = some tmpReg) :
    ∃ r, tmpReg = .word r ∧ r ≠ l.reg ∧ live.Dead r := by
  rw [scavengeMainRegs_eq] at h
  obtain ⟨r, hfind, rfl⟩ := Option.map_eq_some_iff.mp h
  have hr := List.find?_some hfind
  simp only [ne_eq, decide_not, Bool.and_eq_true, Bool.not_eq_eq_eq_not, Bool.not_true,
    decide_eq_false_iff_not] at hr
  exact ⟨r, rfl, hr.1.1, hr.1.2, hr.2⟩

/-- **A register is found** exactly when another main register has no live half. -/
theorem isSome_scavengeMainRegs_iff (live : LiveUnits) (l : SelfLoad) :
    (scavengeMainRegs live l.instr).isSome = true ↔ ∃ r, r ≠ l.reg ∧ live.Dead r := by
  constructor
  · intro h
    obtain ⟨tmpReg, htmp⟩ := Option.isSome_iff_exists.mp h
    obtain ⟨r, -, hr⟩ := spec_of_scavengeMainRegs htmp
    exact ⟨r, hr⟩
  · rintro ⟨r, hne, hlo, hhi⟩
    rw [scavengeMainRegs_eq, Option.isSome_map, List.find?_isSome]
    exact ⟨r, by cases r <;> simp, by simp [hne, hlo, hhi]⟩

/-! ## What the expansion does to the stack -/

/-- The five instructions of the expansion. -/
theorem sum_spOffset_throughStack {load : Opcode} (hload : load = .LDRdPtr ∨ load = .LDDRdPtrQ)
    (lo push hi mov pop : List MachineOperand) :
    (([⟨load, lo⟩, ⟨.PHAstk, push⟩, ⟨.LDDRdPtrQ, hi⟩, ⟨.MOVRdRr, mov⟩, ⟨.POPRd, pop⟩] :
      List MachineInstr).map MachineInstr.spOffset).sum = -1 := by
  rcases hload with rfl | rfl <;> simp [MachineInstr.spOffset]

/-- **The expansion** pushes the two bytes of `A` and pops one. -/
theorem sum_spOffset_of_expandMI {scavenge : MachineInstr → Option Reg} {l : SelfLoad}
    {mis : List MachineInstr} (h : expandMI scavenge l.instr = .expanded mis) :
    (mis.map MachineInstr.spOffset).sum = -1 := by
  obtain ⟨reg, q, dstIsDead, srcIsKill⟩ := l
  cases q with
  | none =>
      have hexpand : expandMI scavenge ⟨.LDWRdPtr, [.reg (.word reg), .reg (.word reg)]⟩ = _ :=
        congrArg ExpandResult.ofOption (expandLDWRdPtr_self reg .LDWRdPtr)
      have hmis := hexpand.symm.trans h
      cases htmp : scavenge ⟨.LDWRdPtr, [.reg (.word reg), .reg (.word reg)]⟩ with
      | none => simp [htmp, ExpandResult.ofOption] at hmis
      | some tmpReg =>
          simp only [htmp, Option.bind_some, ExpandResult.ofOption,
            ExpandResult.expanded.injEq] at hmis
          rw [← hmis]
          exact sum_spOffset_throughStack (Or.inl rfl) _ _ _ _ _
  | some k =>
      by_cases hk : toUnsigned k ≤ 63
      · have hexpand : expandMI scavenge
            ⟨.LDDWRdPtrQ, [.reg (.word reg), .reg (.word reg), .imm k]⟩ = _ :=
          congrArg ExpandResult.ofOption (expandLDDWRdPtrQ_self reg hk .LDDWRdPtrQ)
        have hmis := hexpand.symm.trans h
        cases htmp : scavenge ⟨.LDDWRdPtrQ, [.reg (.word reg), .reg (.word reg), .imm k]⟩ with
        | none => simp [htmp, ExpandResult.ofOption] at hmis
        | some tmpReg =>
            simp only [htmp, Option.bind_some, ExpandResult.ofOption,
              ExpandResult.expanded.injEq] at hmis
            rw [← hmis]
            exact sum_spOffset_throughStack (Or.inr rfl) _ _ _ _ _
      · -- the assertion on the displacement
        have hnone : ExpandPseudo.expandLDDWRdPtrQ scavenge
            ⟨.LDDWRdPtrQ, [.reg (.word reg), .reg (.word reg), .imm k]⟩ = none := by
          simp only [ExpandPseudo.expandLDDWRdPtrQ, MachineInstr.getReg, MachineInstr.getImm,
            List.getElem?_cons_zero, List.getElem?_cons_succ, Reg.splitReg, Option.bind_eq_bind,
            Option.bind_some, guard, if_neg hk]
          rfl
        have hfail : ExpandResult.failure = .expanded mis :=
          (congrArg ExpandResult.ofOption hnone).symm.trans h
        cases hfail

/-- A load through its own destination leaves `SP` one below where it was, whatever is live. -/
theorem not_loadsWord (l : SelfLoad) (live : LiveUnits) (s : MachineState) :
    ¬ l.LoadsWord live s := by
  rintro ⟨tmpReg, mis, s', -, -, -, hexpand, hexec, -, hsp, -⟩
  have hmoved := execBlock_sp hexec
  rw [sum_spOffset_of_expandMI hexpand, hsp] at hmoved
  have hone : (-1 : BitVec 16) = 0 := left_eq_add.mp hmoved
  exact absurd hone (by decide)

/-- **No load** of a word through the register that it is loaded into is right, in any block. -/
theorem selfLoad_never_loadsWord (l : SelfLoad) (liveIns : List Reg)
    (before : List (List RegOperand)) (s : MachineState) :
    ¬ l.LoadsWord (l.liveAfter liveIns before) s :=
  not_loadsWord l _ s

/-- A load of `Y` through `Y` where nothing else is live: the pushed byte of `A` stays on the
stack. -/
theorem selfLoad_of_Y :
    ¬ SelfLoad.LoadsWord ⟨.Y, none, false, false⟩
      (SelfLoad.liveAfter ⟨.Y, none, false, false⟩ [.Y] [])
      ⟨fun _ => 0, ⟨⟨false, false, false, false⟩, 0⟩, 0x1fff, fun _ => 0⟩ :=
  not_loadsWord _ _ _

end Snes
