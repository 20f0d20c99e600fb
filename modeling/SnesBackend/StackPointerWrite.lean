/-
# Writing the Stack Pointer

`expand<SPWRITE>`, executed: the stack pointer is written through its two ports, while
the status register is kept in the scratch register.
-/
import SnesBackend.AtomicExec

namespace Snes

/-! ## The ports of the stack pointer -/

/-- The port of the low byte of the stack pointer. -/
def spLoAddr : BitVec 32 := 0x3d

/-- The port of the high byte of the stack pointer. -/
def spHiAddr : BitVec 32 := 0x3e

namespace MachineState

/-- Write the low byte of the stack pointer. -/
def setSpLo (s : MachineState) (v : BitVec 8) : MachineState :=
  { s with sp := ((s.sp >>> 8).setWidth 8 : BitVec 8) ++ v }

/-- Write the high byte of the stack pointer. -/
def setSpHi (s : MachineState) (v : BitVec 8) : MachineState :=
  { s with sp := v ++ (s.sp.setWidth 8 : BitVec 8) }

end MachineState

/-- Execute an instruction, with the ports of the stack pointer beside that of the status
register. -/
def execPort (mi : MachineInstr) (s : MachineState) : Option MachineState :=
  match mi.opcode, mi.operands with
  | .INRdA, [.reg d, .imm port] =>
      if toUnsigned port = spLoAddr then d.lowByte.map fun d => s.setByte d (s.sp.setWidth 8)
      else if toUnsigned port = spHiAddr then
        d.lowByte.map fun d => s.setByte d ((s.sp >>> 8).setWidth 8)
      else execInstr mi s
  | .OUTARr, [.imm port, .reg r] =>
      if toUnsigned port = spLoAddr then r.lowByte.map fun r => s.setSpLo (s.regs r)
      else if toUnsigned port = spHiAddr then r.lowByte.map fun r => s.setSpHi (s.regs r)
      else execInstr mi s
  | _, _ => execInstr mi s

/-- Execute instructions one after the other. -/
def execPorts : List MachineInstr → MachineState → Option MachineState
  | [], s => some s
  | mi :: rest, s => (execPort mi s).bind (execPorts rest)

/-! ## The expansion -/

/-- A write of the stack pointer from a main register. -/
def spWrite (src : WordReg) : MachineInstr :=
  ⟨.SPWRITE, [.reg .SP, .reg (.word src)]⟩

/-- The expansion writes the value of the register to the stack pointer, and leaves the status
register and every other register as they are. -/
def WritesStackPointer (scavenge : MachineInstr → Option Reg) (src : WordReg) (s : MachineState) :
    Prop :=
  ∃ mis t, expandMI scavenge (spWrite src) = .expanded mis ∧ execPorts mis s = some t ∧
    t.sp = s.word src ∧ t.p = s.p ∧ t.regs = s.regs

/-- **What the expansion does**: the low half of `A` is the saved status register when the low byte
of the stack pointer is written. -/
theorem execPorts_spWrite (scavenge : MachineInstr → Option Reg) (src : WordReg)
    (s : MachineState) :
    ∃ mis, expandMI scavenge (spWrite src) = .expanded mis ∧
      execPorts mis s = some
        { s.setByte .AL s.p.toByte with
          sp := s.regs src.subHi ++ (s.setByte .AL s.p.toByte).regs src.subLo } := by
  refine ⟨_, rfl, ?_⟩
  let saved := s.setByte .AL s.p.toByte
  have hrestored : Status.ofByte (saved.regs .AL) = s.p := by
    rw [MachineState.setByte_regs_self, Status.ofByte_toByte]
  have hhigh : saved.regs src.subHi = s.regs src.subHi :=
    MachineState.setByte_regs_of_ne s _ (WordReg.subLo_ne_subHi .A src).symm
  -- the low byte is written last, over the old one
  have hsp : (((saved.regs src.subHi ++ (s.sp.setWidth 8 : BitVec 8)) >>> 8).setWidth 8 :
      BitVec 8) = s.regs src.subHi := by
    rw [MachineState.high_of_append, hhigh]
  show some (MachineState.mk saved.regs (Status.ofByte (saved.regs .AL))
    ((((saved.regs src.subHi ++ (s.sp.setWidth 8 : BitVec 8)) >>> 8).setWidth 8 : BitVec 8) ++
      saved.regs src.subLo) s.mem) = _
  rw [hrestored, hsp]
  rfl

/-- **When the expansion writes the stack pointer and nothing else**: when the low half of `A` holds
the status register already. -/
theorem writesStackPointer_iff (scavenge : MachineInstr → Option Reg) (src : WordReg)
    (s : MachineState) :
    WritesStackPointer scavenge src s ↔ s.regs .AL = s.p.toByte := by
  obtain ⟨mis, hmis, hexec⟩ := execPorts_spWrite scavenge src s
  constructor
  · rintro ⟨mis', t, hmis', hexec', -, -, hregs⟩
    cases hmis.symm.trans hmis'
    obtain rfl := Option.some.inj (hexec.symm.trans hexec')
    have hAL := congrFun hregs .AL
    rw [← hAL]
    exact MachineState.setByte_regs_self s .AL s.p.toByte
  · intro hAL
    have hsame : s.setByte .AL s.p.toByte = s := by
      rw [← hAL, MachineState.setByte, Function.update_eq_self]
    rw [hsame] at hexec
    exact ⟨mis, _, hmis, hexec, rfl, rfl, rfl⟩

/-- From `A`, the low byte of the stack pointer becomes the status register: 0x1200 for 0x1234. -/
theorem not_writesStackPointer_A :
    ¬ WritesStackPointer (fun _ => none) .A
      ⟨fun r => if r = .AH then 0x12 else 0x34, ⟨⟨false, false, false, false⟩, 0⟩, 0x01ff,
        fun _ => 0⟩ := by
  rintro ⟨mis, t, hmis, hexec, hsp, -, -⟩
  cases hmis
  cases hexec
  revert hsp
  decide

end Snes
