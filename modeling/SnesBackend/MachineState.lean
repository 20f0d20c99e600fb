/-
# The State of the Machine

Register halves, the status register, the stack pointer and memory.  A main
register is the concatenation of its halves.  The stack grows down and `sp`
points to the empty slot below the last pushed byte.
-/
import SnesBackend.WordArith
import SnesBackend.Registers

namespace Snes

open WordArith

/-- The status register `P`: the arithmetic flags in bits 0 to 3, and bits 4 to 7. -/
structure Status extends Flags where
  upper : BitVec 4
deriving DecidableEq, Repr

/-- The machine state. -/
structure MachineState where
  regs : ByteReg → BitVec 8
  p : Status
  sp : BitVec 16
  mem : BitVec 16 → BitVec 8

namespace MachineState

/-! ## Registers -/

/-- The value of a main register. -/
def word (s : MachineState) (r : WordReg) : BitVec 16 :=
  s.regs r.subHi ++ s.regs r.subLo

/-- Write one half. -/
def setByte (s : MachineState) (r : ByteReg) (v : BitVec 8) : MachineState :=
  { s with regs := Function.update s.regs r v }

/-- Write a main register, both halves. -/
def setWord (s : MachineState) (r : WordReg) (v : BitVec 16) : MachineState :=
  (s.setByte r.subLo (v.setWidth 8)).setByte r.subHi ((v >>> 8).setWidth 8)

/-- Write the arithmetic flags. -/
def setFlags (s : MachineState) (f : Flags) : MachineState :=
  { s with p := { s.p with toFlags := f } }

/-- A written half has the value written. -/
@[simp]
theorem setByte_regs_self (s : MachineState) (r : ByteReg) (v : BitVec 8) :
    (s.setByte r v).regs r = v := by
  simp [setByte]

/-- The other halves keep their values. -/
@[simp]
theorem setByte_regs_of_ne (s : MachineState) {r q : ByteReg} (v : BitVec 8) (h : q ≠ r) :
    (s.setByte r v).regs q = s.regs q := by
  simp [setByte, h]

@[simp] theorem setByte_p (s : MachineState) (r : ByteReg) (v : BitVec 8) :
    (s.setByte r v).p = s.p := rfl

@[simp] theorem setByte_sp (s : MachineState) (r : ByteReg) (v : BitVec 8) :
    (s.setByte r v).sp = s.sp := rfl

@[simp] theorem setByte_mem (s : MachineState) (r : ByteReg) (v : BitVec 8) :
    (s.setByte r v).mem = s.mem := rfl

@[simp] theorem setFlags_regs (s : MachineState) (f : Flags) : (s.setFlags f).regs = s.regs := rfl

@[simp] theorem setFlags_p (s : MachineState) (f : Flags) : (s.setFlags f).p.toFlags = f := rfl

@[simp] theorem setFlags_sp (s : MachineState) (f : Flags) : (s.setFlags f).sp = s.sp := rfl

@[simp] theorem setFlags_mem (s : MachineState) (f : Flags) : (s.setFlags f).mem = s.mem := rfl

@[simp] theorem setWord_p (s : MachineState) (r : WordReg) (v : BitVec 16) :
    (s.setWord r v).p = s.p := rfl

@[simp] theorem setWord_sp (s : MachineState) (r : WordReg) (v : BitVec 16) :
    (s.setWord r v).sp = s.sp := rfl

@[simp] theorem setWord_mem (s : MachineState) (r : WordReg) (v : BitVec 16) :
    (s.setWord r v).mem = s.mem := rfl

/-- A word is its two bytes. -/
theorem high_append_low (v : BitVec 16) :
    ((v >>> 8).setWidth 8 : BitVec 8) ++ (v.setWidth 8 : BitVec 8) = v := by
  have hv := v.isLt
  apply BitVec.eq_of_toNat_eq
  rw [toNat_append_eq, BitVec.toNat_setWidth, BitVec.toNat_setWidth, BitVec.toNat_ushiftRight,
    Nat.shiftRight_eq_div_pow]
  omega

/-- The high byte of a word of two bytes. -/
theorem high_of_append (h l : BitVec 8) : ((h ++ l) >>> 8).setWidth 8 = h := by
  have hh := h.isLt
  have hl := l.isLt
  apply BitVec.eq_of_toNat_eq
  rw [BitVec.toNat_setWidth, BitVec.toNat_ushiftRight, toNat_append_eq, Nat.shiftRight_eq_div_pow]
  omega

/-- A written main register has the value written. -/
@[simp]
theorem setWord_word_self (s : MachineState) (r : WordReg) (v : BitVec 16) :
    (s.setWord r v).word r = v := by
  unfold word setWord
  rw [setByte_regs_self, setByte_regs_of_ne _ _ (WordReg.subLo_ne_subHi r r), setByte_regs_self,
    high_append_low]

/-- The other main registers keep their values. -/
@[simp]
theorem setWord_word_of_ne (s : MachineState) {r q : WordReg} (v : BitVec 16) (h : q ≠ r) :
    (s.setWord r v).word q = s.word q := by
  unfold word setWord
  simp [h]

/-! ## The stack -/

/-- Push one byte. -/
def push (s : MachineState) (v : BitVec 8) : MachineState :=
  { s with mem := Function.update s.mem s.sp v, sp := s.sp - 1 }

/-- Push a word, high byte first. -/
def pushWord (s : MachineState) (v : BitVec 16) : MachineState :=
  (s.push ((v >>> 8).setWidth 8)).push (v.setWidth 8)

/-- Pop one byte. -/
def pop (s : MachineState) : BitVec 8 × MachineState :=
  (s.mem (s.sp + 1), { s with sp := s.sp + 1 })

@[simp] theorem push_regs (s : MachineState) (v : BitVec 8) : (s.push v).regs = s.regs := rfl

@[simp] theorem push_p (s : MachineState) (v : BitVec 8) : (s.push v).p = s.p := rfl

@[simp] theorem push_sp (s : MachineState) (v : BitVec 8) : (s.push v).sp = s.sp - 1 := rfl

@[simp] theorem pushWord_regs (s : MachineState) (v : BitVec 16) :
    (s.pushWord v).regs = s.regs := rfl

@[simp] theorem pushWord_sp (s : MachineState) (v : BitVec 16) :
    (s.pushWord v).sp = s.sp - 2 := by
  unfold pushWord
  rw [push_sp, push_sp]
  ring

/-! ## Memory -/

/-- Store one byte. -/
def storeByte (s : MachineState) (address : BitVec 16) (v : BitVec 8) : MachineState :=
  { s with mem := Function.update s.mem address v }

/-- Store a word, low byte at the address. -/
def storeWord (s : MachineState) (address : BitVec 16) (v : BitVec 16) : MachineState :=
  (s.storeByte address (v.setWidth 8)).storeByte (address + 1) ((v >>> 8).setWidth 8)

end MachineState

end Snes
