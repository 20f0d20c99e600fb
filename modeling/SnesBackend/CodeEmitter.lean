/-
# Instruction Encoding

`SNESMCCodeEmitter.cpp`: the operand encoders, the value that the generated
`getBinaryCodeForInstr` computes from the layout of a format, and the bytes that
`emitInstruction` writes for it.

An instruction whose operands violate an assertion or reach `llvm_unreachable`
has no encoding (`none`).
-/
import SnesBackend.InstrInfo

namespace Snes

/-! ## Expressions and fixups -/

/-- The modifiers of `SNESMCExpr`. -/
inductive VariantKind where
  | lo8 | hi8 | hh8 | hhi8 | pmLo8 | pmHi8 | pmHh8
deriving DecidableEq, Repr

/-- The operators of the sums and differences in symbolic operands. -/
inductive MCBinaryOp where
  | add | sub
deriving DecidableEq, Repr

/-- Symbolic operands: constants, symbols, sums and differences, and modified expressions. -/
inductive MCExpr where
  | constant (value : BitVec 64)
  | symbolRef (symbol : ℕ)
  | binary (op : MCBinaryOp) (lhs rhs : MCExpr)
  | target (kind : VariantKind) (negated : Bool) (subExpr : MCExpr)
deriving DecidableEq, Repr

/-- The fixup kinds that the encoder records. -/
inductive FixupKind where
  | fixup7Pcrel | fixup13Pcrel | fixup16 | fixupLdi
  | fixupLo8Ldi | fixupHi8Ldi | fixupHh8Ldi | fixupMs8Ldi
  | fixupLo8LdiNeg | fixupHi8LdiNeg | fixupHh8LdiNeg | fixupMs8LdiNeg
  | fixupLo8LdiPm | fixupHi8LdiPm | fixupHh8LdiPm
  | fixupLo8LdiPmNeg | fixupHi8LdiPmNeg | fixupHh8LdiPmNeg
  | fixupCall | fixup6 | fixupPort6 | fixupPort5
deriving DecidableEq, Repr

/-- A recorded fixup. -/
structure MCFixup where
  offset : ℕ
  value : MCExpr
  kind : FixupKind
deriving DecidableEq, Repr

/-- `SNESMCExpr::evaluateAsInt64`: negate, shift, keep one byte. -/
def VariantKind.evaluateAsInt64 (kind : VariantKind) (negated : Bool) (value : BitVec 64) :
    BitVec 64 :=
  let value := if negated then -value else value
  let shifted := match kind with
    | lo8 => value
    | hi8 => value.sshiftRight 8
    | hh8 => value.sshiftRight 16
    | hhi8 => value.sshiftRight 24
    | pmLo8 => value.sshiftRight 1
    | pmHi8 => value.sshiftRight 9
    | pmHh8 => value.sshiftRight 17
  shifted &&& 0xff

/-- `SNESMCExpr::getFixupKind`. -/
def VariantKind.getFixupKind : VariantKind → Bool → FixupKind
  | lo8, false => .fixupLo8Ldi
  | lo8, true => .fixupLo8LdiNeg
  | hi8, false => .fixupHi8Ldi
  | hi8, true => .fixupHi8LdiNeg
  | hh8, false => .fixupHh8Ldi
  | hh8, true => .fixupHh8LdiNeg
  | hhi8, false => .fixupMs8Ldi
  | hhi8, true => .fixupMs8LdiNeg
  | pmLo8, false => .fixupLo8LdiPm
  | pmLo8, true => .fixupLo8LdiPmNeg
  | pmHi8, false => .fixupHi8LdiPm
  | pmHi8, true => .fixupHi8LdiPmNeg
  | pmHh8, false => .fixupHh8LdiPm
  | pmHh8, true => .fixupHh8LdiPmNeg

/-- The absolute value of an expression before layout, when it has no symbol in it. -/
def MCExpr.evaluateAsAbsolute : MCExpr → Option (BitVec 64)
  | constant value => some value
  | symbolRef _ => none
  | binary .add lhs rhs =>
      lhs.evaluateAsAbsolute.bind fun l => rhs.evaluateAsAbsolute.map fun r => l + r
  | binary .sub lhs rhs =>
      lhs.evaluateAsAbsolute.bind fun l => rhs.evaluateAsAbsolute.map fun r => l - r
  | target kind negated subExpr =>
      subExpr.evaluateAsAbsolute.map (kind.evaluateAsInt64 negated)

/-! ## Machine code instructions -/

/-- The operands of an `MCInst`. -/
inductive MCOperand where
  | reg (r : Reg)
  | imm (value : BitVec 64)
  | expr (e : MCExpr)
deriving DecidableEq, Repr

/-- An instruction with its explicit operands. -/
structure MCInst where
  opcode : Opcode
  operands : List MCOperand
deriving DecidableEq, Repr

/-- What an operand encoder returns: the field value and the fixups it records. -/
abbrev Encoded := BitVec 32 × List MCFixup

/-! ## Operand encoders -/

/-- `adjustBranchTarget`: branch targets are shifted right by one. -/
def adjustBranchTarget (target : BitVec 64) : BitVec 64 :=
  target.sshiftRight 1

/-- `encodeRelCondBrTarget`. -/
def encodeRelCondBrTarget (fixup : FixupKind) : MCOperand → Option Encoded
  | .expr e => some (0, [⟨0, e, fixup⟩])
  | .imm target => some ((adjustBranchTarget target).setWidth 32, [])
  | .reg _ => none

/-- `encodeCallTarget`. -/
def encodeCallTarget : MCOperand → Option Encoded
  | .expr e => some (0, [⟨0, e, .fixupCall⟩])
  | .imm target => some ((adjustBranchTarget target).setWidth 32, [])
  | .reg _ => none

/-- `encodeLDSTPtrReg`. -/
def encodeLDSTPtrReg : MCOperand → Option Encoded
  | .reg (.word .X) => some (0x03, [])
  | .reg (.word .Y) => some (0x02, [])
  | .reg (.word .A) => some (0x00, [])
  | _ => none

/-- `encodeMemri`: the pointer register bit above a sign-extended 8-bit offset. -/
def encodeMemri : MCOperand → MCOperand → Option Encoded
  | .reg regOp, offsetOp =>
      let regBit : Option (BitVec 32) := match regOp with
        | .word .A => some 0
        | .word .X => some 1
        | _ => none
      let offsetBits : Option Encoded := match offsetOp with
        | .imm value => some ((value.setWidth 8).signExtend 32, [])
        | .expr e => some (0, [⟨0, e, .fixup6⟩])
        | .reg _ => none
      regBit.bind fun bit => offsetBits.map fun (bits, fixups) => ((bit <<< 6) ||| bits, fixups)
  | _, _ => none

/-- `encodeComplement`. -/
def encodeComplement : MCOperand → Option Encoded
  | .imm value => some ((-1 - value).setWidth 32, [])
  | _ => none

/-- `getExprOpValue`: of a sum only the left operand is looked at, and of a plain symbol nothing is
recorded. -/
def getExprOpValue (e : MCExpr) : Option Encoded :=
  let e := match e with
    | .binary _ lhs _ => lhs
    | e => e
  match e with
  | .target kind negated subExpr =>
      match (MCExpr.target kind negated subExpr).evaluateAsAbsolute with
      | some value => some (value.setWidth 32, [])
      | none => some (0, [⟨0, .target kind negated subExpr, kind.getFixupKind negated⟩])
  | .symbolRef _ => some (0, [])
  | _ => none

/-- `encodeImm`: an expression with a modifier goes to `getExprOpValue`, any other one is recorded
under the fixup of the operand. -/
def encodeImm (fixup : FixupKind) (offset : ℕ) : MCOperand → Option Encoded
  | .expr (.target kind negated subExpr) => getExprOpValue (.target kind negated subExpr)
  | .expr e => some (0, [⟨offset, e, fixup⟩])
  | .imm value => some (value.setWidth 32, [])
  | .reg _ => none

/-- `getMachineOpValue`: register number, immediate, or expression. -/
def getMachineOpValue : MCOperand → Option Encoded
  | .reg r => some (BitVec.ofNat 32 r.hwEncoding, [])
  | .imm value => some (value.setWidth 32, [])
  | .expr e => getExprOpValue e

/-- The encoder that `SNESInstrInfo.td` names for an operand type, at operand number `n`. -/
def OperandType.encode (type : OperandType) (operands : List MCOperand) (n : ℕ) :
    Option Encoded :=
  operands[n]?.bind fun operand =>
    match type with
    | relbrtarget7 => encodeRelCondBrTarget .fixup7Pcrel operand
    | brtarget13 => encodeRelCondBrTarget .fixup13Pcrel operand
    | callTarget => encodeCallTarget operand
    | ldstPtrReg => encodeLDSTPtrReg operand
    | memri => operands[n + 1]?.bind (encodeMemri operand)
    | immCom8 => encodeComplement operand
    | imm16 => encodeImm .fixup16 2 operand
    | immLdi16 => encodeImm .fixupLdi 0 operand
    | immPort5 => encodeImm .fixupPort5 0 operand
    | immPort6 => encodeImm .fixupPort6 0 operand
    | reg _ | i8imm | i16imm | memspi => getMachineOpValue operand

/-! ## The binary code of an instruction -/

/-- The value of a chunk of the layout, for given field values. -/
def InstBits.value (fields : OpName → BitVec 32) : InstBits → ℕ
  | const _ value => value
  | field name hi lo => ((fields name).toNat >>> lo) % 2 ^ (hi + 1 - lo)

/-- The value of a layout: its chunks side by side, the first one on top. -/
def layoutValue (fields : OpName → BitVec 32) (layout : List InstBits) : ℕ :=
  layout.foldl (fun acc chunk => acc * 2 ^ chunk.width + chunk.value fields) 0

/-- `loadStorePostEncoder`: bit 12 is set for predecrement, postincrement, and when the first
operand is `A`; the first two operands must be registers. -/
def loadStorePostEncoder (mi : MCInst) (encodedValue : BitVec 64) : Option (BitVec 64) :=
  match mi.operands with
  | .reg first :: .reg _ :: _ =>
      let isRegX := first == .A
      let isPredec := mi.opcode == .LDRdPtrPd || mi.opcode == .STPtrPdRr
      let isPostinc := mi.opcode == .LDRdPtrPi || mi.opcode == .STPtrPiRr
      some (if isRegX || isPredec || isPostinc then encodedValue ||| (1 <<< 12) else encodedValue)
  | _ => none

/-- The encoded fields of an instruction, in the order of its format. -/
def encodeFields (mi : MCInst) :
    List (OpName × ℕ × OperandType) → Option (List (OpName × Encoded))
  | [] => some []
  | (name, n, type) :: rest =>
      (type.encode mi.operands n).bind fun encoded =>
        (encodeFields mi rest).map ((name, encoded) :: ·)

/-- The value of a field, zero when the format has no field of that name. -/
def fieldValue (fields : List (OpName × Encoded)) (name : OpName) : BitVec 32 :=
  ((fields.lookup name).map Prod.fst).getD 0

/-- `getBinaryCodeForInstr`, as it is generated from the formats: the layout with the encoded
operands in its fields, and the fixups recorded on the way. -/
def getBinaryCodeForInstr (mi : MCInst) : Option (BitVec 64 × List MCFixup) :=
  (desc mi.opcode).fieldOperands.bind fun operands =>
    (encodeFields mi operands).bind fun fields =>
      let value := BitVec.ofNat 64 (layoutValue (fieldValue fields) mi.opcode.format.inst)
      let fixups := fields.flatMap fun field => field.2.2
      if mi.opcode.format.hasLoadStorePostEncoder then
        (loadStorePostEncoder mi value).map fun value => (value, fixups)
      else
        some (value, fixups)

/-! ## Emission -/

/-- The two bytes of a 16-bit word, low byte first. -/
def wordBytes (word : BitVec 16) : List (BitVec 8) :=
  [((word &&& 0x00ff) >>> 0).setWidth 8, ((word &&& 0xff00) >>> 8).setWidth 8]

/-- The loop of `emitInstruction`: word `n - 1` first, word 0 last. -/
def emitWords (val : BitVec 64) : ℕ → List (BitVec 8)
  | 0 => []
  | i + 1 => wordBytes ((val >>> (16 * i)).setWidth 16) ++ emitWords val i

/-- `emitInstruction`: `Size / 2` words. -/
def emitInstruction (val : BitVec 64) (size : ℕ) : List (BitVec 8) :=
  emitWords val (size / 2)

/-- `encodeInstruction`: the bytes of an instruction and its fixups. -/
def encodeInstruction (mi : MCInst) : Option (List (BitVec 8) × List MCFixup) :=
  (getBinaryCodeForInstr mi).map fun (binaryOpCode, fixups) =>
    (emitInstruction binaryOpCode mi.opcode.getSize, fixups)

/-- A word is two bytes. -/
@[simp]
theorem length_wordBytes (word : BitVec 16) : (wordBytes word).length = 2 := rfl

/-- The two bytes of a word are its low half and its high half. -/
theorem wordBytes_eq (word : BitVec 16) :
    wordBytes word = [word.setWidth 8, (word >>> 8).setWidth 8] := by
  unfold wordBytes
  congr 1
  · ext i hi
    simp [show i < 16 by omega]
    interval_cases i <;> simp
  · congr 1
    ext i hi
    simp [show 8 + i < 16 by omega]
    interval_cases i <;> simp

/-- `n` words are `2 * n` bytes. -/
@[simp]
theorem length_emitWords (val : BitVec 64) (n : ℕ) : (emitWords val n).length = 2 * n := by
  induction n with
  | zero => rfl
  | succ i ih =>
      rw [emitWords, List.length_append, length_wordBytes, ih]
      omega

/-- **The emitted length** is the size rounded down to whole words. -/
theorem length_emitInstruction (val : BitVec 64) (size : ℕ) :
    (emitInstruction val size).length = 2 * (size / 2) :=
  length_emitWords val (size / 2)

/-- What a successful encoding consists of. -/
theorem encodeInstruction_eq_some {mi : MCInst} {bytes : List (BitVec 8)} {fixups : List MCFixup}
    (h : encodeInstruction mi = some (bytes, fixups)) :
    ∃ value, getBinaryCodeForInstr mi = some (value, fixups) ∧
      bytes = emitInstruction value mi.opcode.getSize := by
  unfold encodeInstruction at h
  rw [Option.map_eq_some_iff] at h
  obtain ⟨⟨value, fixups'⟩, hcode, heq⟩ := h
  simp only [Prod.mk.injEq] at heq
  obtain ⟨rfl, rfl⟩ := heq
  exact ⟨value, hcode, rfl⟩

end Snes
