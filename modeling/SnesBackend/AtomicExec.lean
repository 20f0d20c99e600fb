/-
# Execution of Expanded Atomic Operations

The instructions that the expansion of an atomic pseudo consists of: the status
register through its port, loads and stores through a pointer, pushes and pops,
and the byte-wide operations.  A byte-wide instruction takes the low half of a
main register and leaves the high half alone.
-/
import SnesBackend.CalleeSaved
import SnesBackend.WordPseudos

namespace Snes

open WordArith

/-! ## The status register as a byte -/

namespace Status

/-- The byte that the port of the status register holds. -/
def toByte (p : Status) : BitVec 8 :=
  p.upper ++ (BitVec.ofBool p.overflow ++ BitVec.ofBool p.negative ++ BitVec.ofBool p.zero ++
    BitVec.ofBool p.carry)

/-- The status register from its byte. -/
def ofByte (b : BitVec 8) : Status where
  carry := b.getLsbD 0
  zero := b.getLsbD 1
  negative := b.getLsbD 2
  overflow := b.getLsbD 3
  upper := b.extractLsb' 4 4

/-- The interrupt flag, which bit 7 stands for in the expansions. -/
def interrupt (p : Status) : Bool :=
  p.upper.msb

/-- `bclr`: clear a bit. -/
def clearBit (p : Status) (bit : ℕ) : Status :=
  ofByte (p.toByte &&& ~~~((1 : BitVec 8) <<< bit))

theorem ofByte_toByte (p : Status) : ofByte p.toByte = p := by
  obtain ⟨⟨c, z, n, v⟩, upper⟩ := p
  revert upper
  cases c <;> cases z <;> cases n <;> cases v <;> decide

theorem toByte_ofByte (b : BitVec 8) : (ofByte b).toByte = b := by
  revert b
  decide +kernel

/-- A byte is that of a status register exactly when the register is the one of the byte. -/
theorem ofByte_eq_iff (b : BitVec 8) (p : Status) : ofByte b = p ↔ b = p.toByte := by
  constructor
  · rintro rfl
    exact (toByte_ofByte b).symm
  · rintro rfl
    exact ofByte_toByte p

end Status

/-! ## Instructions -/

/-- The half of a register that a byte-wide instruction takes. -/
def Reg.lowByte : Reg → Option ByteReg
  | .byte r => some r
  | .word r => some r.subLo
  | _ => none

/-- An operand of a byte-wide operation. -/
def lowOperand : MachineOperand → MachineOperand
  | .reg (.word r) => .reg (.byte r.subLo)
  | operand => operand

/-- Write the status register. -/
def MachineState.setStatus (s : MachineState) (p : Status) : MachineState :=
  { s with p := p }

/-- Execute an instruction.  Of the ports only the one of the status register is used. -/
def execInstr (mi : MachineInstr) (s : MachineState) : Option MachineState :=
  match mi.opcode, mi.operands with
  | .INRdA, [.reg d, .imm port] =>
      if toUnsigned port = pAddr then d.lowByte.map fun d => s.setByte d s.p.toByte else none
  | .OUTARr, [.imm port, .reg r] =>
      if toUnsigned port = pAddr then r.lowByte.map fun r => s.setStatus (.ofByte (s.regs r))
      else none
  | .BCLRs, [.imm bit] => some (s.setStatus (s.p.clearBit bit.toNat))
  | .LDRdPtr, [.reg d, .reg (.word ptr)] =>
      d.lowByte.map fun d => s.setByte d (s.mem (s.word ptr))
  | .LDDRdPtrQ, [.reg d, .reg (.word ptr), .imm q] =>
      d.lowByte.map fun d => s.setByte d (s.mem (s.word ptr + q.setWidth 16))
  | .STPtrRr, [.reg (.word ptr), .reg r] =>
      r.lowByte.map fun r => s.storeByte (s.word ptr) (s.regs r)
  | .STDPtrQRr, [.reg (.word ptr), .imm q, .reg r] =>
      r.lowByte.map fun r => s.storeByte (s.word ptr + q.setWidth 16) (s.regs r)
  | .MOVRdRr, [.reg d, .reg r] =>
      d.lowByte.bind fun d => r.lowByte.map fun r => s.setByte d (s.regs r)
  | .PHAstk, [.reg r] => some (s.phaStk r)
  | .POPRd, [.reg d] => some (s.popRd d)
  | _, _ => execAlu ⟨mi.opcode, mi.operands.map lowOperand⟩ s

/-- Execute instructions one after the other. -/
def execBlock : List MachineInstr → MachineState → Option MachineState
  | [], s => some s
  | mi :: rest, s => (execInstr mi s).bind (execBlock rest)

/-- Blocks in a row. -/
theorem execBlock_append (mis mis' : List MachineInstr) (s : MachineState) :
    execBlock (mis ++ mis') s = (execBlock mis s).bind (execBlock mis') := by
  induction mis generalizing s with
  | nil => rfl
  | cons mi mis ih =>
      simp only [List.cons_append, execBlock, Option.bind_assoc]
      congr 1
      funext s'
      exact ih s'

/-! ## The stack pointer -/

/-- What an instruction adds to the stack pointer. -/
def MachineInstr.spOffset (mi : MachineInstr) : BitVec 16 :=
  match mi.opcode with
  | .PHAstk => -2
  | .POPRd => 1
  | _ => 0

/-- A byte-wide operation leaves the stack pointer alone, and is neither a push nor a pop. -/
theorem execAlu_sp {mi : MachineInstr} {s s' : MachineState} (h : execAlu mi s = some s') :
    s'.sp = s.sp + mi.spOffset := by
  by_cases hstack : mi.opcode = .PHAstk ∨ mi.opcode = .POPRd
  · have hnone : regRegOp mi.opcode = none ∧ regImmOp mi.opcode = none ∧
        regOp mi.opcode = none := by
      rcases hstack with hop | hop <;> rw [hop] <;> exact ⟨rfl, rfl, rfl⟩
    unfold execAlu at h
    split at h <;> simp [hnone] at h
  · have hoffset : mi.spOffset = 0 := by
      unfold MachineInstr.spOffset
      split <;> simp_all
    unfold execAlu at h
    rw [hoffset, add_zero]
    split at h
    case h_4 => simp at h
    all_goals
      obtain ⟨op, -, rfl⟩ := Option.map_eq_some_iff.mp h
      rfl

/-- **One instruction** moves the stack pointer by its offset. -/
theorem execInstr_sp {mi : MachineInstr} {s s' : MachineState} (h : execInstr mi s = some s') :
    s'.sp = s.sp + mi.spOffset := by
  unfold execInstr at h
  split at h
  case h_9 r hop _ =>
    obtain rfl := Option.some.inj h
    rw [MachineInstr.spOffset, hop, MachineState.phaStk, MachineState.pushWord_sp]
    ring
  case h_10 r hop _ =>
    obtain rfl := Option.some.inj h
    rw [MachineInstr.spOffset, hop]
    cases r <;> rfl
  case h_11 =>
    change s'.sp = s.sp + MachineInstr.spOffset ⟨mi.opcode, mi.operands.map lowOperand⟩
    exact execAlu_sp h
  case h_3 _ hop _ =>
    obtain rfl := Option.some.inj h
    rw [MachineInstr.spOffset, hop]
    exact (add_zero _).symm
  case h_8 _ _ hop _ =>
    obtain ⟨d, -, hmap⟩ := Option.bind_eq_some_iff.mp h
    obtain ⟨r, -, rfl⟩ := Option.map_eq_some_iff.mp hmap
    rw [MachineInstr.spOffset, hop]
    exact (add_zero _).symm
  case h_1 _ _ hop _ | h_2 _ _ hop _ =>
    obtain ⟨-, hmap⟩ := (Option.ite_none_right_eq_some).mp h
    obtain ⟨r, -, rfl⟩ := Option.map_eq_some_iff.mp hmap
    rw [MachineInstr.spOffset, hop]
    exact (add_zero _).symm
  all_goals
    rename_i hop _
    obtain ⟨r, -, rfl⟩ := Option.map_eq_some_iff.mp h
    rw [MachineInstr.spOffset, hop]
    exact (add_zero _).symm

/-- **A block** moves the stack pointer by the offsets of its instructions. -/
theorem execBlock_sp {mis : List MachineInstr} {s s' : MachineState}
    (h : execBlock mis s = some s') : s'.sp = s.sp + (mis.map MachineInstr.spOffset).sum := by
  induction mis generalizing s with
  | nil =>
      obtain rfl := Option.some.inj h
      simp
  | cons mi mis ih =>
      obtain ⟨next, hmi, hmis⟩ := Option.bind_eq_some_iff.mp h
      rw [ih hmis, execInstr_sp hmi, List.map_cons, List.sum_cons, add_assoc]

end Snes
