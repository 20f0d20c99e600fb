/-
# Instruction Formats

The format classes of `SNESInstrFormats.td`.  A format has a declared size, the
`bits<n>` fields it declares, and the layout of its `Inst` word, written from the
most significant bit down as constant chunks and chunks of fields.
-/
import Mathlib

namespace Snes

/-! ## Names of fields and operands -/

/-- The names that formats give to their fields and instructions to their operands. -/
inductive OpName where
  | rd | rr | d | r | k | memri | reg | ptrreg | A | a | b | s | src | src2 | dst | target
  | lhs | rhs | z | addr | bit | baseWb | offs | operand | amt | amt1 | amt2 | trh | cnt | cc
deriving DecidableEq, Repr

/-- A chunk of an `Inst` word: constant bits, or the bits `hi` down to `lo` of a field. -/
inductive InstBits where
  | const (width value : ℕ)
  | field (name : OpName) (hi lo : ℕ)
deriving DecidableEq, Repr

/-- The number of bits in a chunk. -/
def InstBits.width : InstBits → ℕ
  | const width _ => width
  | field _ hi lo => hi + 1 - lo

/-! ## Format classes -/

/-- The format classes, with their template parameters. -/
inductive InstrFormat where
  | pseudo
  | snesImplied (opcode : BitVec 8)
  | snesImm8 (opcode : BitVec 8)
  | snesImm16 (opcode : BitVec 8)
  | fRdRr (opcode : BitVec 4) (f : BitVec 2)
  | fTST (opcode : BitVec 4) (f : BitVec 2)
  | fZRd (t : BitVec 3)
  | fRdK (opcode : BitVec 4)
  | fRd (opcode : BitVec 4) (f : BitVec 7)
  | fSTDLDD (type : BitVec 1)
  | fSTLD (type : BitVec 1) (mode : BitVec 2)
  | fLPMX (e p : BitVec 1)
  | fMOVWRdRr
  | fMUL2RdRr (f : BitVec 1)
  | fFMULRdRr (f : BitVec 2)
  | fIORdA
  | fIOARr
  | fIOBIT (t : BitVec 2)
  | fRdB (t : BitVec 2)
  | fDES
  | fBRsk (f : BitVec 1) (s : BitVec 3)
  | f16 (opcode : BitVec 16)
  | fBRk (f : BitVec 1)
  | f32BRk (f : BitVec 3)
  | f32DM (f : BitVec 1)
  | fS (b : BitVec 1)
  | fSK (f : BitVec 1)
deriving DecidableEq, Repr

namespace InstrFormat

/-- `Size`: 1, 2, 3 or 4 bytes, by the `SNESInst8/16/24/32` class of the format. -/
def size : InstrFormat → ℕ
  | snesImplied _ => 1
  | snesImm16 _ => 3
  | f32BRk _ => 4
  | f32DM _ => 4
  | _ => 2

/-- The `bits<n>` fields that a format declares, in order, without its template parameters. -/
def fields : InstrFormat → List OpName
  | pseudo => []
  | snesImplied _ => []
  | snesImm8 _ => [.k]
  | snesImm16 _ => [.k]
  | fRdRr _ _ => [.rd, .rr]
  | fTST _ _ => [.rd]
  | fZRd _ => [.rd]
  | fRdK _ => [.rd, .k]
  | fRd _ _ => [.d]
  | fSTDLDD _ => [.memri, .reg]
  | fSTLD _ _ => [.ptrreg, .reg]
  | fLPMX _ _ => [.reg]
  | fMOVWRdRr => [.d, .r]
  | fMUL2RdRr _ => [.rd, .rr]
  | fFMULRdRr _ => [.rd, .rr]
  | fIORdA => [.d, .A]
  | fIOARr => [.A, .r]
  | fIOBIT _ => [.A, .b]
  | fRdB _ => [.rd, .b]
  | fDES => [.k]
  | fBRsk _ _ => [.k]
  | f16 _ => []
  | fBRk _ => [.k]
  | f32BRk _ => [.k]
  | f32DM _ => [.rd, .k]
  | fS _ => [.s]
  | fSK _ => [.k, .s]

/-- The layout of `Inst`, from the most significant bit down. -/
def inst : InstrFormat → List InstBits
  | pseudo => [.const 16 0]
  | snesImplied opcode => [.const 8 opcode.toNat]
  | snesImm8 opcode => [.const 8 opcode.toNat, .field .k 7 0]
  | snesImm16 opcode => [.const 8 opcode.toNat, .field .k 15 0]
  | fRdRr opcode f =>
      [.const 4 opcode.toNat, .const 2 f.toNat, .field .rr 4 4, .field .rd 4 0, .field .rr 3 0]
  | fTST opcode f =>
      [.const 4 opcode.toNat, .const 2 f.toNat, .field .rd 4 4, .field .rd 4 0, .field .rd 3 0]
  | fZRd t =>
      [.const 4 0b1001, .const 3 0b001, .field .rd 4 4, .field .rd 3 0, .const 1 0,
        .const 3 t.toNat]
  | fRdK opcode => [.const 4 opcode.toNat, .field .k 7 4, .field .rd 3 0, .field .k 3 0]
  | fRd opcode f =>
      [.const 4 opcode.toNat, .const 3 (f.toNat / 16), .field .d 4 0, .const 4 (f.toNat % 16)]
  | fSTDLDD type =>
      [.const 2 0b10, .field .memri 5 5, .const 1 0, .field .memri 4 3, .const 1 type.toNat,
        .field .reg 4 4, .field .reg 3 0, .field .memri 6 6, .field .memri 2 0]
  | fSTLD type mode =>
      [.const 3 0b100, .const 1 0, .const 2 0b00, .const 1 type.toNat, .field .reg 4 4,
        .field .reg 3 0, .field .ptrreg 1 0, .const 2 mode.toNat]
  | fLPMX e p =>
      [.const 4 0b1001, .const 3 0b000, .field .reg 4 4, .field .reg 3 0, .const 2 0b01,
        .const 1 e.toNat, .const 1 p.toNat]
  | fMOVWRdRr => [.const 8 0b00000001, .field .d 4 1, .field .r 4 1]
  | fMUL2RdRr f => [.const 7 0b0000001, .const 1 f.toNat, .field .rd 3 0, .field .rr 3 0]
  | fFMULRdRr f =>
      [.const 8 0b00000011, .const 1 (f.toNat / 2), .field .rd 2 0, .const 1 (f.toNat % 2),
        .field .rr 2 0]
  | fIORdA => [.const 5 0b10110, .field .A 5 4, .field .d 4 0, .field .A 3 0]
  | fIOARr => [.const 5 0b10111, .field .A 5 4, .field .r 4 0, .field .A 3 0]
  | fIOBIT t =>
      [.const 4 0b1001, .const 2 0b10, .const 2 t.toNat, .field .A 4 1, .field .A 0 0,
        .field .b 2 0]
  | fRdB t =>
      [.const 4 0b1111, .const 1 0b1, .const 2 t.toNat, .field .rd 4 4, .field .rd 3 0,
        .const 1 0, .field .b 2 0]
  | fDES => [.const 4 0b1001, .const 4 0b0100, .field .k 3 0, .const 4 0b1011]
  | fBRsk f s => [.const 5 0b11110, .const 1 f.toNat, .field .k 6 0, .const 3 s.toNat]
  | f16 opcode => [.const 16 opcode.toNat]
  | fBRk f => [.const 3 0b110, .const 1 f.toNat, .field .k 11 0]
  | f32BRk f => [.const 7 0b1001010, .field .k 21 17, .const 3 f.toNat, .field .k 16 0]
  | f32DM f =>
      [.const 4 0b1001, .const 2 0b00, .const 1 f.toNat, .field .rd 4 4, .field .rd 3 0,
        .const 4 0b0000, .field .k 15 0]
  | fS b => [.const 4 0b1001, .const 4 0b0100, .const 1 b.toNat, .field .s 2 0, .const 4 0b1000]
  | fSK f =>
      [.const 4 0b1111, .const 1 0, .const 1 f.toNat, .field .k 6 5, .field .k 4 1,
        .field .k 0 0, .field .s 2 0]

/-- **The declared size is the width of the layout**, eight bits to the byte. -/
theorem sum_width_inst (format : InstrFormat) :
    (format.inst.map InstBits.width).sum = 8 * format.size := by
  cases format <;> rfl

/-- `loadStorePostEncoder` is the post encoder of the `FSTLD` class only. -/
def hasLoadStorePostEncoder : InstrFormat → Bool
  | fSTLD _ _ => true
  | _ => false

end InstrFormat

end Snes
