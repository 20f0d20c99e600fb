/-
# Word Pseudo Instructions and Their Expansions

The thirteen arithmetic, logic and shift pseudos on 16-bit registers, the 16-bit
operation each one stands for, and the proof that the two byte-wide instructions
that `expandMI` puts in its place compute that operation.
-/
import SnesBackend.ByteExec
import SnesBackend.ExpandPseudo

namespace Snes

open WordArith

/-! ## The pseudos -/

/-- The pseudos on two registers. -/
inductive RegRegPseudo where
  | ADDW | ADCW | SUBW | SBCW | ANDW | ORW | EORW
deriving DecidableEq, Repr

/-- The pseudos on a register and an immediate. -/
inductive RegImmPseudo where
  | SUBIW | SBCIW
deriving DecidableEq, Repr

/-- The pseudos on one register. -/
inductive RegPseudo where
  | COMW | LSLW | LSRW | ASRW
deriving DecidableEq, Repr

/-- A word pseudo with its operands. -/
inductive WordPseudo where
  | regReg (op : RegRegPseudo) (dst src : WordReg)
  | regImm (op : RegImmPseudo) (dst : WordReg) (k : BitVec 64)
  | reg (op : RegPseudo) (dst : WordReg)
deriving DecidableEq, Repr

/-- The opcode of a pseudo on two registers. -/
def RegRegPseudo.opcode : RegRegPseudo → Opcode
  | ADDW => .ADDWRdRr
  | ADCW => .ADCWRdRr
  | SUBW => .SUBWRdRr
  | SBCW => .SBCWRdRr
  | ANDW => .ANDWRdRr
  | ORW => .ORWRdRr
  | EORW => .EORWRdRr

/-- The opcode of a pseudo on a register and an immediate. -/
def RegImmPseudo.opcode : RegImmPseudo → Opcode
  | SUBIW => .SUBIWRdK
  | SBCIW => .SBCIWRdK

/-- The opcode of a pseudo on one register. -/
def RegPseudo.opcode : RegPseudo → Opcode
  | COMW => .COMWRd
  | LSLW => .LSLWRd
  | LSRW => .LSRWRd
  | ASRW => .ASRWRd

namespace WordPseudo

/-- The machine instruction: the source operand is tied to the destination. -/
def instr : WordPseudo → MachineInstr
  | regReg op dst src => ⟨op.opcode, [.reg (.word dst), .reg (.word dst), .reg (.word src)]⟩
  | regImm op dst k => ⟨op.opcode, [.reg (.word dst), .reg (.word dst), .imm k]⟩
  | reg op dst => ⟨op.opcode, [.reg (.word dst), .reg (.word dst)]⟩

/-- The destination register. -/
def dst : WordPseudo → WordReg
  | regReg _ dst _ => dst
  | regImm _ dst _ => dst
  | reg _ dst => dst

end WordPseudo

/-! ## The 16-bit operations -/

/-- The result of a pseudo on two registers with values `a` and `b` and incoming carry `c`. -/
def RegRegPseudo.result (op : RegRegPseudo) (a b : BitVec 16) (c : Bool) : BitVec 16 :=
  match op with
  | ADDW => a + b
  | ADCW => a + b + BitVec.ofNat 16 c.toNat
  | SUBW => a - b
  | SBCW => a - b - BitVec.ofNat 16 c.toNat
  | ANDW => a &&& b
  | ORW => a ||| b
  | EORW => a ^^^ b

/-- The 16-bit carry of an addition and the 16-bit borrow of a subtraction. -/
def RegRegPseudo.carry (op : RegRegPseudo) (a b : BitVec 16) (c : Bool) : Option Bool :=
  match op with
  | ADDW => some (decide (2 ^ 16 ≤ a.toNat + b.toNat))
  | ADCW => some (decide (2 ^ 16 ≤ a.toNat + b.toNat + c.toNat))
  | SUBW => some (decide (a.toNat < b.toNat))
  | SBCW => some (decide (a.toNat < b.toNat + c.toNat))
  | ANDW | ORW | EORW => none

/-- The register-register operation that an immediate pseudo does with its immediate. -/
def RegImmPseudo.toRegReg : RegImmPseudo → RegRegPseudo
  | SUBIW => .SUBW
  | SBCIW => .SBCW

/-- The result of a pseudo on a register with value `a`. -/
def RegPseudo.result (op : RegPseudo) (a : BitVec 16) : BitVec 16 :=
  match op with
  | COMW => ~~~a
  | LSLW => a <<< 1
  | LSRW => a >>> 1
  | ASRW => a.sshiftRight 1

/-- The bit that a shift moves out. -/
def RegPseudo.carry (op : RegPseudo) (a : BitVec 16) : Option Bool :=
  match op with
  | COMW => none
  | LSLW => some a.msb
  | LSRW | ASRW => some (a.getLsbD 0)

namespace WordPseudo

/-- The 16-bit result of a pseudo in a state. -/
def result (i : WordPseudo) (s : MachineState) : BitVec 16 :=
  match i with
  | regReg op dst src => op.result (s.word dst) (s.word src) s.p.carry
  | regImm op dst k => op.toRegReg.result (s.word dst) (k.setWidth 16) s.p.carry
  | reg op dst => op.result (s.word dst)

/-- The carry, borrow or shifted-out bit of a pseudo in a state, for those that have one. -/
def carry (i : WordPseudo) (s : MachineState) : Option Bool :=
  match i with
  | regReg op dst src => op.carry (s.word dst) (s.word src) s.p.carry
  | regImm op dst k => op.toRegReg.carry (s.word dst) (k.setWidth 16) s.p.carry
  | reg op dst => op.carry (s.word dst)

end WordPseudo

/-- The effect of a word operation: the result in the destination, the bit in the carry flag, and
nothing else changed but flags. -/
structure WordEffect (s s' : MachineState) (dst : WordReg) (result : BitVec 16)
    (carry : Option Bool) : Prop where
  result : s'.word dst = result
  carry : ∀ c, carry = some c → s'.p.carry = c
  regs : ∀ r, r ≠ dst.subLo → r ≠ dst.subHi → s'.regs r = s.regs r
  upper : s'.p.upper = s.p.upper
  sp : s'.sp = s.sp
  mem : s'.mem = s.mem

/-! ## Two byte instructions in a row -/

/-- The effect of writing the low half, then the high half. -/
theorem wordEffect_lo_hi (s : MachineState) (dst : WordReg) {lo hi : BitVec 8 × Flags}
    {result : BitVec 16} {carry : Option Bool} (hresult : hi.1 ++ lo.1 = result)
    (hcarry : ∀ c, carry = some c → hi.2.carry = c) :
    WordEffect s ((s.setResult dst.subLo lo).setResult dst.subHi hi) dst result carry where
  result := by
    unfold MachineState.word
    rw [← hresult, MachineState.setResult_regs_self,
      MachineState.setResult_regs_of_ne _ _ (WordReg.subLo_ne_subHi dst dst),
      MachineState.setResult_regs_self]
  carry := hcarry
  regs r hlo hhi := by
    rw [MachineState.setResult_regs_of_ne _ _ hhi, MachineState.setResult_regs_of_ne _ _ hlo]
  upper := rfl
  sp := rfl
  mem := rfl

/-- The effect of writing the high half, then the low half. -/
theorem wordEffect_hi_lo (s : MachineState) (dst : WordReg) {lo hi : BitVec 8 × Flags}
    {result : BitVec 16} {carry : Option Bool} (hresult : hi.1 ++ lo.1 = result)
    (hcarry : ∀ c, carry = some c → lo.2.carry = c) :
    WordEffect s ((s.setResult dst.subHi hi).setResult dst.subLo lo) dst result carry where
  result := by
    unfold MachineState.word
    rw [← hresult, MachineState.setResult_regs_self,
      MachineState.setResult_regs_of_ne _ _ (WordReg.subHi_ne_subLo dst dst),
      MachineState.setResult_regs_self]
  carry := hcarry
  regs r hlo hhi := by
    rw [MachineState.setResult_regs_of_ne _ _ hlo, MachineState.setResult_regs_of_ne _ _ hhi]
  upper := rfl
  sp := rfl
  mem := rfl

/-- Two register-register instructions: the second one sees the flags of the first. -/
theorem execAluBlock_regReg (s : MachineState) {opLo opHi : Opcode} {f g : BinaryOp}
    (hf : regRegOp opLo = some f) (hg : regRegOp opHi = some g) (dst src : WordReg) :
    execAluBlock [⟨opLo, [.reg (.byte dst.subLo), .reg (.byte dst.subLo), .reg (.byte src.subLo)]⟩,
        ⟨opHi, [.reg (.byte dst.subHi), .reg (.byte dst.subHi), .reg (.byte src.subHi)]⟩] s =
      some ((s.setResult dst.subLo
          (f (s.regs dst.subLo) (s.regs src.subLo) s.p.toFlags)).setResult dst.subHi
        (g (s.regs dst.subHi) (s.regs src.subHi)
          (f (s.regs dst.subLo) (s.regs src.subLo) s.p.toFlags).2)) := by
  simp [execAluBlock, execAlu, hf, hg]

/-- Two register-immediate instructions. -/
theorem execAluBlock_regImm (s : MachineState) {opLo opHi : Opcode} {f g : BinaryOp}
    (hf : regImmOp opLo = some f) (hg : regImmOp opHi = some g) (dst : WordReg)
    (kLo kHi : BitVec 64) :
    execAluBlock [⟨opLo, [.reg (.byte dst.subLo), .reg (.byte dst.subLo), .imm kLo]⟩,
        ⟨opHi, [.reg (.byte dst.subHi), .reg (.byte dst.subHi), .imm kHi]⟩] s =
      some ((s.setResult dst.subLo
          (f (s.regs dst.subLo) (kLo.setWidth 8) s.p.toFlags)).setResult dst.subHi
        (g (s.regs dst.subHi) (kHi.setWidth 8)
          (f (s.regs dst.subLo) (kLo.setWidth 8) s.p.toFlags).2)) := by
  simp [execAluBlock, execAlu, hf, hg]

/-- Two one-register instructions, low half first. -/
theorem execAluBlock_reg_lo_hi (s : MachineState) {opLo opHi : Opcode} {f g : UnaryOp}
    (hf : regOp opLo = some f) (hg : regOp opHi = some g) (dst : WordReg) :
    execAluBlock [⟨opLo, [.reg (.byte dst.subLo), .reg (.byte dst.subLo)]⟩,
        ⟨opHi, [.reg (.byte dst.subHi), .reg (.byte dst.subHi)]⟩] s =
      some ((s.setResult dst.subLo (f (s.regs dst.subLo) s.p.toFlags)).setResult dst.subHi
        (g (s.regs dst.subHi) (f (s.regs dst.subLo) s.p.toFlags).2)) := by
  simp [execAluBlock, execAlu, hf, hg]

/-- Two one-register instructions, high half first. -/
theorem execAluBlock_reg_hi_lo (s : MachineState) {opLo opHi : Opcode} {f g : UnaryOp}
    (hf : regOp opLo = some f) (hg : regOp opHi = some g) (dst : WordReg) :
    execAluBlock [⟨opHi, [.reg (.byte dst.subHi), .reg (.byte dst.subHi)]⟩,
        ⟨opLo, [.reg (.byte dst.subLo), .reg (.byte dst.subLo)]⟩] s =
      some ((s.setResult dst.subHi (g (s.regs dst.subHi) s.p.toFlags)).setResult dst.subLo
        (f (s.regs dst.subLo) (g (s.regs dst.subHi) s.p.toFlags).2)) := by
  simp [execAluBlock, execAlu, hf, hg]

/-! ## The byte operations of a pseudo -/

/-- The byte operations on the low and the high halves. -/
def RegRegPseudo.byteOps : RegRegPseudo → Opcode × Opcode
  | ADDW => (.ADDRdRr, .ADCRdRr)
  | ADCW => (.ADCRdRr, .ADCRdRr)
  | SUBW => (.SUBRdRr, .SBCRdRr)
  | SBCW => (.SBCRdRr, .SBCRdRr)
  | ANDW => (.ANDRdRr, .ANDRdRr)
  | ORW => (.ORRdRr, .ORRdRr)
  | EORW => (.EORRdRr, .EORRdRr)

/-- A sum without incoming carry. -/
theorem addCarry_false (a b : BitVec 16) : addCarry a b false = a + b := by
  simp [addCarry]

/-- A difference without incoming borrow. -/
theorem subBorrow_false (a b : BitVec 16) : subBorrow a b false = a - b := by
  simp [subBorrow]

/-- The carry of a sum without incoming carry. -/
theorem carryOut_false (a b : BitVec 16) :
    carryOut a b false = decide (2 ^ 16 ≤ a.toNat + b.toNat) := by
  simp [carryOut]

/-- The borrow of a difference without incoming borrow. -/
theorem borrowOut_false (a b : BitVec 16) : borrowOut a b false = decide (a.toNat < b.toNat) := by
  simp [borrowOut]

/-- **The byte operations chain to the word operation**, results and carries. -/
theorem RegRegPseudo.chain (op : RegRegPseudo) {f g : BinaryOp}
    (hf : regRegOp op.byteOps.1 = some f) (hg : regRegOp op.byteOps.2 = some g)
    (ah al bh bl : BitVec 8) (flags : Flags) :
    (g ah bh (f al bl flags).2).1 ++ (f al bl flags).1 =
        op.result (ah ++ al) (bh ++ bl) flags.carry ∧
      ∀ c, op.carry (ah ++ al) (bh ++ bl) flags.carry = some c →
        (g ah bh (f al bl flags).2).2.carry = c := by
  cases op <;>
    simp only [byteOps, regRegOp, Option.some.injEq] at hf hg <;>
    subst hf <;> subst hg <;>
    simp only [result, carry, Option.some.injEq, reduceCtorEq, false_implies, implies_true,
      and_true, forall_eq']
  case ADDW =>
    rw [← addCarry_false, ← carryOut_false, addCarry_append, carryOut_append]
    exact ⟨rfl, rfl⟩
  case ADCW => exact ⟨(addCarry_append ..).symm, (carryOut_append ..).symm⟩
  case SUBW =>
    rw [← subBorrow_false, ← borrowOut_false, subBorrow_append, borrowOut_append]
    exact ⟨rfl, rfl⟩
  case SBCW => exact ⟨(subBorrow_append ..).symm, (borrowOut_append ..).symm⟩
  case ANDW => exact BitVec.and_append.symm
  case ORW => exact BitVec.or_append.symm
  case EORW => exact BitVec.xor_append.symm

/-- The one-register byte operations chain to the word operation: complement and left shift take
the low half first, the right shifts the high half. -/
theorem RegPseudo.chain (ah al : BitVec 8) :
    (~~~ah ++ ~~~al = RegPseudo.COMW.result (ah ++ al)) ∧
      (shiftLeftIn ah al.msb ++ shiftLeftIn al false = RegPseudo.LSLW.result (ah ++ al) ∧
        RegPseudo.LSLW.carry (ah ++ al) = some ah.msb) ∧
      (shiftRightIn false ah ++ shiftRightIn (ah.getLsbD 0) al =
          RegPseudo.LSRW.result (ah ++ al) ∧
        RegPseudo.LSRW.carry (ah ++ al) = some (al.getLsbD 0)) ∧
      (shiftRightIn ah.msb ah ++ shiftRightIn (ah.getLsbD 0) al =
          RegPseudo.ASRW.result (ah ++ al) ∧
        RegPseudo.ASRW.carry (ah ++ al) = some (al.getLsbD 0)) := by
  have msb : (ah ++ al).msb = ah.msb := by rw [BitVec.msb_append, if_neg (by decide)]
  have low : (ah ++ al).getLsbD 0 = al.getLsbD 0 := by
    rw [BitVec.getLsbD_append, if_pos (by decide)]
  simp only [result, carry, msb, low, and_true]
  refine ⟨BitVec.not_append.symm, ?_, ?_, ?_⟩
  · rw [← shiftLeftIn_false, shiftLeftIn_append, carryOut_self]
  · rw [← shiftRightIn_false, shiftRightIn_append]
  · rw [← shiftRightIn_msb, shiftRightIn_append, msb]

/-! ## Words as pairs of bytes -/

/-- `Imm & 0xff` is the low byte of the immediate. -/
theorem setWidth_lo8 (k : BitVec 64) :
    ((lo8 (toUnsigned k)).setWidth 64).setWidth 8 = (k.setWidth 8 : BitVec 8) := by
  unfold lo8 toUnsigned
  ext i hi
  simp [show i < 64 by omega]
  interval_cases i <;> simp

/-- `(Imm >> 8) & 0xff` is the second byte of the immediate. -/
theorem setWidth_hi8 (k : BitVec 64) :
    ((hi8 (toUnsigned k)).setWidth 64).setWidth 8 = ((k >>> 8).setWidth 8 : BitVec 8) := by
  unfold hi8 toUnsigned
  ext i hi
  simp [show i < 64 by omega, show 8 + i < 32 by omega]
  interval_cases i <;> simp

/-- The two bytes of an immediate are its low 16 bits. -/
theorem bytes_of_immediate (k : BitVec 64) :
    ((k >>> 8).setWidth 8 : BitVec 8) ++ (k.setWidth 8 : BitVec 8) = k.setWidth 16 := by
  rw [← MachineState.high_append_low (k.setWidth 16)]
  congr 1
  · ext i hi
    simp [show 8 + i < 16 by omega]
  · ext i hi
    simp

/-! ## The expansions -/

/-- The two byte operations of a pseudo on two registers. -/
theorem RegRegPseudo.exists_byteOps (op : RegRegPseudo) :
    ∃ f g, regRegOp op.byteOps.1 = some f ∧ regRegOp op.byteOps.2 = some g := by
  cases op <;> exact ⟨_, _, rfl, rfl⟩

/-- The immediate operations are the register operations. -/
theorem RegImmPseudo.exists_byteOps (op : RegImmPseudo) :
    ∃ opLo opHi f g, regImmOp opLo = some f ∧ regImmOp opHi = some g ∧
      regRegOp op.toRegReg.byteOps.1 = some f ∧ regRegOp op.toRegReg.byteOps.2 = some g ∧
      ∀ scavengeMainRegs dst k, expandMI scavengeMainRegs (WordPseudo.regImm op dst k).instr =
        .expanded [⟨opLo, [.reg (.byte dst.subLo), .reg (.byte dst.subLo),
            ofUnsigned (lo8 (toUnsigned k))]⟩,
          ⟨opHi, [.reg (.byte dst.subHi), .reg (.byte dst.subHi),
            ofUnsigned (hi8 (toUnsigned k))]⟩] := by
  cases op
  · exact ⟨.SUBIRdK, .SBCIRdK, _, _, rfl, rfl, rfl, rfl, fun _ _ _ => rfl⟩
  · exact ⟨.SBCIRdK, .SBCIRdK, _, _, rfl, rfl, rfl, rfl, fun _ _ _ => rfl⟩

/-- **The expansion of a word pseudo computes the word operation** and changes no other register,
whatever the operands, the register values and the incoming carry. -/
theorem expandMI_wordPseudo (scavengeMainRegs : MachineInstr → Option Reg) (i : WordPseudo)
    (s : MachineState) :
    ∃ mis s', expandMI scavengeMainRegs i.instr = .expanded mis ∧
      execAluBlock mis s = some s' ∧ WordEffect s s' i.dst (i.result s) (i.carry s) := by
  cases i with
  | regReg op dst src =>
      obtain ⟨f, g, hf, hg⟩ := op.exists_byteOps
      obtain ⟨hresult, hcarry⟩ := op.chain hf hg (s.regs dst.subHi) (s.regs dst.subLo)
        (s.regs src.subHi) (s.regs src.subLo) s.p.toFlags
      refine ⟨_, _, by cases op <;> rfl, execAluBlock_regReg s hf hg dst src, ?_⟩
      exact wordEffect_lo_hi s dst hresult hcarry
  | regImm op dst k =>
      obtain ⟨opLo, opHi, f, g, himmLo, himmHi, hf, hg, hexpand⟩ := op.exists_byteOps
      obtain ⟨hresult, hcarry⟩ := op.toRegReg.chain hf hg (s.regs dst.subHi) (s.regs dst.subLo)
        ((k >>> 8).setWidth 8) (k.setWidth 8) s.p.toFlags
      refine ⟨_, _, hexpand scavengeMainRegs dst k,
        execAluBlock_regImm s himmLo himmHi dst _ _, ?_⟩
      rw [setWidth_lo8, setWidth_hi8]
      rw [bytes_of_immediate] at hresult hcarry
      exact wordEffect_lo_hi s dst hresult hcarry
  | reg op dst =>
      obtain ⟨hcom, ⟨hlsl, hlslCarry⟩, ⟨hlsr, hlsrCarry⟩, ⟨hasr, hasrCarry⟩⟩ :=
        RegPseudo.chain (s.regs dst.subHi) (s.regs dst.subLo)
      cases op
      case COMW =>
        refine ⟨_, _, rfl, execAluBlock_reg_lo_hi s rfl rfl dst, ?_⟩
        refine wordEffect_lo_hi s dst hcom fun c hc => ?_
        simp [WordPseudo.carry, RegPseudo.carry] at hc
      case LSLW =>
        refine ⟨_, _, rfl, execAluBlock_reg_lo_hi s rfl rfl dst, ?_⟩
        exact wordEffect_lo_hi s dst hlsl fun c hc => Option.some.inj (hlslCarry.symm.trans hc)
      case LSRW =>
        refine ⟨_, _, rfl, execAluBlock_reg_hi_lo s rfl rfl dst, ?_⟩
        exact wordEffect_hi_lo s dst hlsr fun c hc => Option.some.inj (hlsrCarry.symm.trans hc)
      case ASRW =>
        refine ⟨_, _, rfl, execAluBlock_reg_hi_lo s rfl rfl dst, ?_⟩
        exact wordEffect_hi_lo s dst hasr fun c hc => Option.some.inj (hasrCarry.symm.trans hc)

end Snes
