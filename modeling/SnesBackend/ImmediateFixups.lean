/-
# Symbolic Immediates

The operands of `encodeImm`: where their bits go in the code of an instruction,
where the fixups of `LDI`, `LDS`, `IN` and `SBI` put them, and for which values the
two are the same.
-/
import SnesBackend.EncodedBytes
import SnesBackend.EncodedFixups
import SnesBackend.ModifierFixups

namespace Snes

open BytePatching

/-! ## Immediates -/

namespace OperandType

/-- The width of the operands that `encodeImm` encodes. -/
def immWidth : OperandType → Option ℕ
  | imm16 => some 16
  | immLdi16 => some 8
  | immPort5 => some 5
  | immPort6 => some 6
  | _ => none

/-- The four operand types that `encodeImm` encodes. -/
theorem eq_of_immWidth {type : OperandType} (h : type.immWidth.isSome = true) :
    type = imm16 ∨ type = immLdi16 ∨ type = immPort5 ∨ type = immPort6 := by
  cases type <;> simp [immWidth] at h ⊢

/-- The fixup that `encodeImm` records, and its offset. -/
def immFixup : OperandType → FixupKind × ℕ
  | imm16 => (.fixup16, 2)
  | immLdi16 => (.fixupLdi, 0)
  | immPort5 => (.fixupPort5, 0)
  | _ => (.fixupPort6, 0)

/-- Where the bits of an immediate go in the code of an instruction. -/
def placement (type : OperandType) (v : BitVec 64) : BitVec 16 :=
  match type with
  | imm16 => v.setWidth 16
  | immLdi16 => (frdkPlacement v).setWidth 16
  | immPort5 => (v &&& 0x1f).setWidth 16 <<< 3
  | _ => ((v &&& 0x30).setWidth 16 <<< 5) ||| (v &&& 0xf).setWidth 16

/-- The bytes of a code with an immediate of a type: a 32-bit code for `imm16`, otherwise a 16-bit
one. -/
def codeBytes (type : OperandType) (code : BitVec 64) : List (BitVec 8) :=
  match type with
  | imm16 => [byteOf code 2, byteOf code 3, byteOf code 0, byteOf code 1]
  | _ => [byteOf code 0, byteOf code 1]

end OperandType

/-- `isa<SNESMCExpr>`: the expressions with a modifier. -/
def MCExpr.isSNESMCExpr : MCExpr → Bool
  | target _ _ _ => true
  | _ => false

/-- The operand that `encodeImm` encodes, with its number. -/
def Opcode.immOperand (op : Opcode) : Option (ℕ × OperandType) :=
  ((InstrDesc.numberFrom 0 (desc op).operands).find? fun entry => entry.2.2.immWidth.isSome).map
    Prod.snd

/-- A code with an immediate is the code with an empty field and the immediate or-ed into it; the
empty field has no bits. -/
def PlacesImmediate (type : OperandType) (empty full v : BitVec 64) : Prop :=
  full = empty ||| (type.placement v).setWidth 64 ∧
    ∀ i, (type.placement (-1)).getLsbD i = true → empty.getLsbD i = false

section

variable {empty full : OpName → BitVec 32} {v : BitVec 64}

/-- An immediate is placed when it is in every bit of the code. -/
theorem placesImmediate_of_bits {type : OperandType} {format : InstrFormat}
    (hsize : 2 ≤ format.size)
    (hbits : ∀ i < 8 * format.size, layoutBit full i format.inst =
      (layoutBit empty i format.inst || (type.placement v).getLsbD i))
    (hempty : ∀ i < 16, (type.placement (-1)).getLsbD i = true →
      layoutBit empty i format.inst = false) :
    PlacesImmediate type (format.code empty) (format.code full) v := by
  constructor
  · apply BitVec.eq_of_getLsbD_eq
    intro i hi
    rw [BitVec.getLsbD_or, BitVec.getLsbD_setWidth]
    rcases Nat.lt_or_ge i (8 * format.size) with hlt | hge
    · rw [InstrFormat.getLsbD_code, InstrFormat.getLsbD_code, hbits i hlt, decide_eq_true hi,
        Bool.true_and, Bool.true_and, Bool.true_and]
    · rw [format.getLsbD_code_of_ge full hge, format.getLsbD_code_of_ge empty hge,
        BitVec.getLsbD_of_ge _ _ (show 16 ≤ i by omega), Bool.and_false, Bool.or_false]
  · intro i hmask
    rw [InstrFormat.getLsbD_code, hempty i (BitVec.lt_of_getLsbD hmask) hmask, Bool.and_false]

variable (empty full v)

/-- The immediates of `LDI` and its family. -/
theorem placesImmediate_fRdK (opcode : BitVec 4) (hk₀ : empty .k = 0)
    (hk : full .k = v.setWidth 32) (hrd : full .rd = empty .rd) :
    PlacesImmediate .immLdi16 ((InstrFormat.fRdK opcode).code empty)
      ((InstrFormat.fRdK opcode).code full) v := by
  refine placesImmediate_of_bits (Nat.le_refl 2) (fun i hi => ?_) fun i hi => ?_
  · change i < 16 at hi
    interval_cases i <;>
      simp [InstrFormat.inst, layoutBit, layoutWidth, InstBits.width, InstBits.bit, hk₀, hk, hrd,
        OperandType.placement, frdkPlacement]
  · interval_cases i <;>
      simp [InstrFormat.inst, layoutBit, layoutWidth, InstBits.width, InstBits.bit, hk₀,
        OperandType.placement, frdkPlacement]

/-- The addresses of `LDS` and `STS`. -/
theorem placesImmediate_f32DM (f : BitVec 1) (hk₀ : empty .k = 0)
    (hk : full .k = v.setWidth 32) (hrd : full .rd = empty .rd) :
    PlacesImmediate .imm16 ((InstrFormat.f32DM f).code empty)
      ((InstrFormat.f32DM f).code full) v := by
  refine placesImmediate_of_bits (show 2 ≤ 4 by decide) (fun i hi => ?_) fun i hi => ?_
  · change i < 32 at hi
    interval_cases i <;>
      simp [InstrFormat.inst, layoutBit, layoutWidth, InstBits.width, InstBits.bit, hk₀, hk, hrd,
        OperandType.placement]
  · interval_cases i <;>
      simp [InstrFormat.inst, layoutBit, layoutWidth, InstBits.width, InstBits.bit, hk₀,
        OperandType.placement]

/-- The port of `IN`. -/
theorem placesImmediate_fIORdA (hA₀ : empty .A = 0)
    (hA : full .A = v.setWidth 32) (hd : full .d = empty .d) :
    PlacesImmediate .immPort6 (InstrFormat.fIORdA.code empty) (InstrFormat.fIORdA.code full) v := by
  refine placesImmediate_of_bits (Nat.le_refl 2) (fun i hi => ?_) fun i hi => ?_
  · change i < 16 at hi
    interval_cases i <;>
      simp [InstrFormat.inst, layoutBit, layoutWidth, InstBits.width, InstBits.bit, hA₀, hA, hd,
        OperandType.placement]
  · interval_cases i <;>
      simp [InstrFormat.inst, layoutBit, layoutWidth, InstBits.width, InstBits.bit, hA₀,
        OperandType.placement]

/-- The port of `OUT`. -/
theorem placesImmediate_fIOARr (hA₀ : empty .A = 0)
    (hA : full .A = v.setWidth 32) (hr : full .r = empty .r) :
    PlacesImmediate .immPort6 (InstrFormat.fIOARr.code empty) (InstrFormat.fIOARr.code full) v := by
  refine placesImmediate_of_bits (Nat.le_refl 2) (fun i hi => ?_) fun i hi => ?_
  · change i < 16 at hi
    interval_cases i <;>
      simp [InstrFormat.inst, layoutBit, layoutWidth, InstBits.width, InstBits.bit, hA₀, hA, hr,
        OperandType.placement]
  · interval_cases i <;>
      simp [InstrFormat.inst, layoutBit, layoutWidth, InstBits.width, InstBits.bit, hA₀,
        OperandType.placement]

/-- The port of `SBI` and its family. -/
theorem placesImmediate_fIOBIT (t : BitVec 2) (hA₀ : empty .A = 0)
    (hA : full .A = v.setWidth 32) (hb : full .b = empty .b) :
    PlacesImmediate .immPort5 ((InstrFormat.fIOBIT t).code empty)
      ((InstrFormat.fIOBIT t).code full) v := by
  refine placesImmediate_of_bits (Nat.le_refl 2) (fun i hi => ?_) fun i hi => ?_
  · change i < 16 at hi
    interval_cases i <;>
      simp [InstrFormat.inst, layoutBit, layoutWidth, InstBits.width, InstBits.bit, hA₀, hA, hb,
        OperandType.placement]
  · interval_cases i <;>
      simp [InstrFormat.inst, layoutBit, layoutWidth, InstBits.width, InstBits.bit, hA₀,
        OperandType.placement]

end

/-- A real instruction with an operand for `encodeImm`: the format has a field for it and one other
field, which is filled by a register or a plain immediate. -/
structure ImmShape (op : Opcode) (n : ℕ) (type : OperandType) (field other : OpName) (m : ℕ)
    (otherType : OperandType) : Prop where
  ne : n ≠ m
  width : type.immWidth.isSome = true
  plain : otherType = .reg .mainRegs ∨ otherType = .i16imm
  numbered : ∃ name, (name, m, otherType) ∈ InstrDesc.numberFrom 0 (desc op).operands
  fields : (desc op).fieldOperands = some [(other, m, otherType), (field, n, type)] ∨
    (desc op).fieldOperands = some [(field, n, type), (other, m, otherType)]
  distinct : field ≠ other
  post : op.format.hasLoadStorePostEncoder = false
  bytes : ∀ code, emitInstruction code op.getSize = type.codeBytes code
  places : ∀ (empty full : OpName → BitVec 32) (v : BitVec 64), empty field = 0 →
    full field = v.setWidth 32 → full other = empty other →
    PlacesImmediate type (op.format.code empty) (op.format.code full) v

/-- **The instructions of `encodeImm`** all have this shape. -/
theorem exists_immShape {op : Opcode} {n : ℕ} {type : OperandType} (hreal : op.isPseudo = false)
    (h : op.immOperand = some (n, type)) :
    ∃ field other m otherType, ImmShape op n type field other m otherType := by
  cases op
  case LDIRdK | CPIRdK | SUBIRdK | SBCIRdK | SBRRdK =>
    obtain ⟨rfl, rfl⟩ := Prod.mk.inj (Option.some.inj h)
    exact ⟨.k, .rd, 0, .reg .mainRegs, by decide, rfl, .inl rfl, ⟨.rd, by decide⟩, .inl rfl,
      by decide, rfl, emitInstruction_two,
      fun empty full v => placesImmediate_fRdK empty full v _⟩
  case LDSRdK =>
    obtain ⟨rfl, rfl⟩ := Prod.mk.inj (Option.some.inj h)
    exact ⟨.k, .rd, 0, .reg .mainRegs, by decide, rfl, .inl rfl, ⟨.rd, by decide⟩, .inl rfl,
      by decide, rfl, emitInstruction_four,
      fun empty full v => placesImmediate_f32DM empty full v _⟩
  case STSKRr =>
    obtain ⟨rfl, rfl⟩ := Prod.mk.inj (Option.some.inj h)
    exact ⟨.k, .rd, 1, .reg .mainRegs, by decide, rfl, .inl rfl, ⟨.rd, by decide⟩, .inl rfl,
      by decide, rfl, emitInstruction_four,
      fun empty full v => placesImmediate_f32DM empty full v _⟩
  case INRdA =>
    obtain ⟨rfl, rfl⟩ := Prod.mk.inj (Option.some.inj h)
    exact ⟨.A, .d, 0, .reg .mainRegs, by decide, rfl, .inl rfl, ⟨.dst, by decide⟩, .inl rfl,
      by decide, rfl, emitInstruction_two, placesImmediate_fIORdA⟩
  case OUTARr =>
    obtain ⟨rfl, rfl⟩ := Prod.mk.inj (Option.some.inj h)
    exact ⟨.A, .r, 1, .reg .mainRegs, by decide, rfl, .inl rfl, ⟨.src, by decide⟩, .inr rfl,
      by decide, rfl, emitInstruction_two, placesImmediate_fIOARr⟩
  case SBICAb | SBISAb =>
    obtain ⟨rfl, rfl⟩ := Prod.mk.inj (Option.some.inj h)
    exact ⟨.A, .b, 1, .i16imm, by decide, rfl, .inr rfl, ⟨.b, by decide⟩, .inr rfl,
      by decide, rfl, emitInstruction_two,
      fun empty full v => placesImmediate_fIOBIT empty full v _⟩
  case SBIAb | CBIAb =>
    obtain ⟨rfl, rfl⟩ := Prod.mk.inj (Option.some.inj h)
    exact ⟨.A, .b, 1, .i16imm, by decide, rfl, .inr rfl, ⟨.bit, by decide⟩, .inr rfl,
      by decide, rfl, emitInstruction_two,
      fun empty full v => placesImmediate_fIOBIT empty full v _⟩
  all_goals
    first
    | exact absurd hreal (by decide)
    | exact absurd (show none = some (n, type) from h) (by simp)

namespace ImmShape

variable {op : Opcode} {n m : ℕ} {type otherType : OperandType} {field other : OpName}

/-- A plain immediate that fits is an immediate. -/
theorem exists_imm_of_takeOperands {operands rest : List MCOperand}
    (h : OperandType.i16imm.takeOperands operands = some rest) :
    ∃ v, operands = .imm v :: rest := by
  rcases operands with _ | ⟨operand, operands⟩
  · simp [OperandType.takeOperands] at h
  · cases operand <;> simp [OperandType.takeOperands] at h
    exact ⟨_, by rw [h]⟩

/-- The other operand is encoded on its own and records nothing. -/
theorem exists_encode_other {mi : MCInst}
    (shape : ImmShape mi.opcode n type field other m otherType) (hwt : mi.WellTyped) :
    ∃ x : BitVec 32, ∀ operand, otherType.encode (mi.operands.set n operand) m = some (x, []) := by
  obtain ⟨name, hnumbered⟩ := shape.numbered
  obtain ⟨rest, htake⟩ := takeOperands_of_mem_numberFrom (n := 0) hwt hnumbered
  have hhead : mi.operands[m]? = (mi.operands.drop m)[0]? := by
    rw [List.getElem?_drop, Nat.add_zero]
  have hset : ∀ operand, (mi.operands.set n operand)[m]? = mi.operands[m]? := fun operand =>
    List.getElem?_set_ne shape.ne
  rcases shape.plain with rfl | rfl
  · obtain ⟨r, hr⟩ := exists_reg_of_takeOperands rfl htake
    refine ⟨BitVec.ofNat 32 r.hwEncoding, fun operand => ?_⟩
    rw [OperandType.encode, hset, hhead, hr]
    rfl
  · obtain ⟨w, hw⟩ := exists_imm_of_takeOperands htake
    refine ⟨w.setWidth 32, fun operand => ?_⟩
    rw [OperandType.encode, hset, hhead, hw]
    rfl

/-- The code of an instruction of this shape, by the value of its field. -/
theorem encodeInstruction_withOperand {mi : MCInst} {operand : MCOperand} {x y : BitVec 32}
    {fixups : List MCFixup} (shape : ImmShape mi.opcode n type field other m otherType)
    (hy : type.encode (mi.operands.set n operand) n = some (y, fixups))
    (hx : otherType.encode (mi.operands.set n operand) m = some (x, [])) :
    ∃ fields : OpName → BitVec 32, fields field = y ∧ fields other = x ∧
      encodeInstruction (mi.withOperand n operand) =
        some (type.codeBytes (mi.opcode.format.code fields), fixups) := by
  have hother : (other == field) = false := by simpa using shape.distinct.symm
  have hfield : (field == other) = false := by simpa using shape.distinct
  rcases shape.fields with hassigned | hassigned
  · refine ⟨fieldValue [(other, x, []), (field, y, fixups)], ?_, ?_, ?_⟩
    · simp [fieldValue, List.lookup, hfield]
    · simp [fieldValue, List.lookup]
    · rw [encodeInstruction_eq_code (mi.withOperand n operand) hassigned
        (by simp [encodeFields, MCInst.withOperand, hx, hy]; rfl) shape.post]
      exact congrArg some (Prod.ext (shape.bytes _) (by simp))
  · refine ⟨fieldValue [(field, y, fixups), (other, x, [])], ?_, ?_, ?_⟩
    · simp [fieldValue, List.lookup]
    · simp [fieldValue, List.lookup, hother]
    · rw [encodeInstruction_eq_code (mi.withOperand n operand) hassigned
        (by simp [encodeFields, MCInst.withOperand, hx, hy]; rfl) shape.post]
      exact congrArg some (Prod.ext (shape.bytes _) (by simp))

/-- **The two encodings** of an instruction of this shape. -/
theorem exists_encodings {mi : MCInst} (shape : ImmShape mi.opcode n type field other m otherType)
    (hwt : mi.WellTyped) {v : BitVec 64} (hv : mi.operands[n]? = some (.imm v)) {e : MCExpr}
    (he : e.isSNESMCExpr = false) :
    ∃ empty full, PlacesImmediate type empty full v ∧
      encodeInstruction (mi.withOperand n (.imm v)) = some (type.codeBytes full, []) ∧
      encodeInstruction (mi.withOperand n (.expr e)) =
        some (type.codeBytes empty, [⟨type.immFixup.2, e, type.immFixup.1⟩]) := by
  obtain ⟨x, hx⟩ := shape.exists_encode_other hwt
  obtain ⟨hn, -⟩ := List.getElem?_eq_some_iff.mp hv
  have hself : ∀ operand, (mi.operands.set n operand)[n]? = some operand := fun operand =>
    List.getElem?_set_self hn
  have htype := OperandType.eq_of_immWidth shape.width
  have himm : type.encode (mi.operands.set n (.imm v)) n = some (v.setWidth 32, []) := by
    rw [OperandType.encode, hself]
    rcases htype with rfl | rfl | rfl | rfl <;> rfl
  have hexpr : type.encode (mi.operands.set n (.expr e)) n =
      some (0, [⟨type.immFixup.2, e, type.immFixup.1⟩]) := by
    rw [OperandType.encode, hself]
    cases e
    case target => exact absurd he (by simp [MCExpr.isSNESMCExpr])
    all_goals rcases htype with rfl | rfl | rfl | rfl <;> rfl
  obtain ⟨full, hfull, hfullOther, hfullCode⟩ :=
    shape.encodeInstruction_withOperand himm (hx (.imm v))
  obtain ⟨empty, hempty, hemptyOther, hemptyCode⟩ :=
    shape.encodeInstruction_withOperand hexpr (hx (.expr e))
  exact ⟨_, _, shape.places empty full v hempty hfull (hfullOther.trans hemptyOther.symm),
    hfullCode, hemptyCode⟩

end ImmShape

/-! ## Patched immediates -/

/-- A byte that is patched where it is empty. -/
theorem byteOf_or_eq_iff {c x p : BitVec 64} {m n : ℕ}
    (hx : ∀ i < 8, x.getLsbD (n * 8 + i) = true → c.getLsbD (m * 8 + i) = false)
    (hp : ∀ i < 8, p.getLsbD (m * 8 + i) = true → c.getLsbD (m * 8 + i) = false) :
    byteOf c m ||| byteOf x n = byteOf (c ||| p) m ↔
      ∀ i < 8, x.getLsbD (n * 8 + i) = p.getLsbD (m * 8 + i) := by
  rw [BitVec.eq_of_getLsbD_eq_iff]
  apply forall_congr'
  intro i
  apply imp_congr_right
  intro hi
  simp only [BitVec.getLsbD_or, getLsbD_byteOf, hi, decide_true, Bool.true_and]
  specialize hx i hi
  specialize hp i hi
  revert hx hp
  generalize c.getLsbD (m * 8 + i) = cbit
  generalize x.getLsbD (n * 8 + i) = xbit
  generalize p.getLsbD (m * 8 + i) = pbit
  cases cbit <;> cases xbit <;> cases pbit <;> decide

/-- An immediate is placed within the places of its type. -/
theorem placement_mask {type : OperandType} (htype : type.immWidth.isSome = true) (v : BitVec 64)
    {i : ℕ} (h : (type.placement v).getLsbD i = true) :
    (type.placement (-1)).getLsbD i = true := by
  have hi := BitVec.lt_of_getLsbD h
  rcases OperandType.eq_of_immWidth htype with rfl | rfl | rfl | rfl <;> interval_cases i <;>
    simp [OperandType.placement, frdkPlacement] at h ⊢

section

variable {type : OperandType} {empty full v : BitVec 64} (h : PlacesImmediate type empty full v)

include h

/-- The field of the empty code has no bits where an immediate is placed. -/
theorem empty_of_placement (htype : type.immWidth.isSome = true) (w : BitVec 64) {i : ℕ}
    (hbit : ((type.placement w).setWidth 64).getLsbD i = true) : empty.getLsbD i = false := by
  rw [BitVec.getLsbD_setWidth] at hbit
  exact h.2 i (placement_mask htype w (by simp at hbit; exact hbit.2))

/-- A whole patch of the two bytes of a value is right when the value is the immediate. -/
theorem patched_iff_placement (htype : type.immWidth.isSome = true) (w : BitVec 64) :
    (byteOf empty 0 ||| byteOf ((type.placement w).setWidth 64) 0 = byteOf full 0 ∧
        byteOf empty 1 ||| byteOf ((type.placement w).setWidth 64) 1 = byteOf full 1) ↔
      type.placement w = type.placement v := by
  rw [h.1, byteOf_or_eq_iff (fun i _ hbit => empty_of_placement h htype w hbit)
      fun i _ hbit => empty_of_placement h htype v hbit,
    byteOf_or_eq_iff (fun i _ hbit => empty_of_placement h htype w hbit)
      fun i _ hbit => empty_of_placement h htype v hbit]
  constructor
  · rintro ⟨hlow, hhigh⟩
    apply BitVec.eq_of_getLsbD_eq
    intro i hi
    rcases Nat.lt_or_ge i 8 with hlt | hge
    · have hbit := hlow i hlt
      simpa [show i < 64 by omega] using hbit
    · have hbit := hhigh (i - 8) (by omega)
      simpa [show 1 * 8 + (i - 8) = i by omega, show i < 64 by omega] using hbit
  · intro heq
    rw [heq]
    exact ⟨fun i _ => rfl, fun i _ => rfl⟩

/-- The patch of one byte is right when the value has the low byte of the immediate, and the
immediate has no other. -/
theorem patched_iff_lowByte (htype : type.immWidth.isSome = true) {x : BitVec 64}
    (hx : ∀ i < 8, x.getLsbD i = true → empty.getLsbD i = false) :
    (byteOf empty 0 ||| byteOf x 0 = byteOf full 0 ∧ byteOf empty 1 = byteOf full 1) ↔
      (∀ i < 8, x.getLsbD i = (type.placement v).getLsbD i) ∧
        ∀ i < 8, (type.placement v).getLsbD (8 + i) = false := by
  have hsecond : byteOf empty 1 = byteOf empty 1 ||| byteOf (0 : BitVec 64) 1 := by simp
  rw [h.1, byteOf_or_eq_iff (by simpa using hx)
    fun i _ hbit => empty_of_placement h htype v hbit, hsecond,
    byteOf_or_eq_iff (by simp) fun i _ hbit => empty_of_placement h htype v hbit]
  apply and_congr
  · apply forall₂_congr
    intro i hi
    simp [show i < 64 by omega]
  · apply forall₂_congr
    intro i hi
    rw [BitVec.getLsbD_setWidth, decide_eq_true (show 1 * 8 + i < 64 by omega), Bool.true_and]
    constructor <;> intro hzero <;> simpa using hzero.symm

end

/-- Two more than a value differs from it in bit 1. -/
theorem getLsbD_one_add_two (v : BitVec 64) : (v + 2).getLsbD 1 = !v.getLsbD 1 := by
  have htwo : (2 : BitVec 64).toNat = 2 := rfl
  have hv := v.isLt
  simp only [BitVec.getLsbD, Nat.testBit_eq_decide_div_mod_eq, BitVec.toNat_add, htwo]
  rw [← decide_not, decide_eq_decide]
  omega

/-- A value without bits above the low 16 is given by those. -/
theorem eq_setWidth_of_bits {x : BitVec 64} {p : BitVec 16} (hx : x.toNat < 2 ^ 16)
    (h : ∀ i < 16, x.getLsbD i = p.getLsbD i) : x = p.setWidth 64 := by
  apply BitVec.eq_of_getLsbD_eq
  intro i hi
  rw [BitVec.getLsbD_setWidth, decide_eq_true hi, Bool.true_and]
  rcases Nat.lt_or_ge i 16 with hlt | hge
  · exact h i hlt
  · rw [BitVec.getLsbD_of_ge _ _ hge]
    exact Nat.testBit_lt_two_pow (lt_of_lt_of_le hx (Nat.pow_le_pow_right (by decide) hge))

/-- A shifted mask bounds a value. -/
theorem toNat_mask_shiftLeft_lt (w m : BitVec 64) {n : ℕ} (hm : m.toNat * 2 ^ n < 2 ^ 16) :
    ((w &&& m) <<< n).toNat < 2 ^ 16 := by
  have hand : (w &&& m).toNat ≤ m.toNat := by
    rw [BitVec.toNat_and]
    exact Nat.and_le_right
  rw [BitVec.toNat_shiftLeft, Nat.shiftLeft_eq]
  calc (w &&& m).toNat * 2 ^ n % 2 ^ 64
      ≤ (w &&& m).toNat * 2 ^ n := Nat.mod_le _ _
    _ ≤ m.toNat * 2 ^ n := Nat.mul_le_mul_right _ hand
    _ < 2 ^ 16 := hm

/-- A mask bounds a value. -/
theorem toNat_mask_lt (w m : BitVec 64) (hm : m.toNat < 2 ^ 16) : (w &&& m).toNat < 2 ^ 16 := by
  rw [BitVec.toNat_and]
  exact lt_of_le_of_lt Nat.and_le_right hm

/-- Two bounded values put together. -/
theorem toNat_or_lt {x y : BitVec 64} (hx : x.toNat < 2 ^ 16) (hy : y.toNat < 2 ^ 16) :
    (x ||| y).toNat < 2 ^ 16 := by
  rw [BitVec.toNat_or]
  exact Nat.or_lt_two_pow hx hy

/-- The masks and shifts of the backend put an immediate in its places. -/
theorem adjusted_eq_placement (w : BitVec 64) :
    w &&& 0xffff = (OperandType.imm16.placement w).setWidth 64 ∧
      Adjust.ldiFixup w = (OperandType.immLdi16.placement w).setWidth 64 ∧
      (w &&& 0x1f) <<< 3 = (OperandType.immPort5.placement w).setWidth 64 ∧
      ((w &&& 0x30) <<< 5) ||| (w &&& 0x0f) = (OperandType.immPort6.placement w).setWidth 64 := by
  refine ⟨eq_setWidth_of_bits ?_ ?_, eq_setWidth_of_bits ?_ ?_, eq_setWidth_of_bits ?_ ?_,
    eq_setWidth_of_bits ?_ ?_⟩
  case refine_2 | refine_4 | refine_6 | refine_8 =>
    intro i hi
    interval_cases i <;> simp [OperandType.placement, frdkPlacement, Adjust.ldiFixup]
  · exact toNat_mask_lt w 0xffff (by decide)
  · exact toNat_or_lt (toNat_mask_shiftLeft_lt w 0xf0 (by decide)) (toNat_mask_lt w 0x0f (by decide))
  · exact toNat_mask_shiftLeft_lt w 0x1f (by decide)
  · exact toNat_or_lt (toNat_mask_shiftLeft_lt w 0x30 (by decide)) (toNat_mask_lt w 0x0f (by decide))

/-- What the backend makes of an immediate: a range check, except for `fixup_ldi`, and the places of
the format. -/
theorem adjustKind_immFixup {type : OperandType} {width : ℕ} (htype : type.immWidth = some width)
    (w : BitVec 64) :
    (type = .immLdi16 ∨ w.toNat < 2 ^ width →
      adjustKind type.immFixup.1 w = .ok ((type.placement w).setWidth 64)) ∧
    (¬ (type = .immLdi16 ∨ w.toNat < 2 ^ width) →
      ∃ err, adjustKind type.immFixup.1 w = .error err) := by
  obtain ⟨h16, hldi, hport5, hport6⟩ := adjusted_eq_placement w
  rcases OperandType.eq_of_immWidth (Option.isSome_of_eq_some htype) with rfl | rfl | rfl | rfl
  case inr.inl => exact ⟨fun _ => congrArg _ hldi, fun hout => absurd (.inl rfl) hout⟩
  all_goals
    obtain rfl := Option.some.inj htype
    rw [← isUIntN_eq_true_iff (by decide), or_iff_right (by decide)]
  case inl =>
    obtain ⟨hok, herr⟩ := Adjust.unsignedWidth_eq 16 w "port number"
    refine ⟨fun hin => ?_, fun hout => ?_⟩
    · rw [← h16]
      simp only [adjustKind, OperandType.immFixup, hok hin]
      rfl
    · obtain ⟨err, herr⟩ := herr hout
      exact ⟨err, by simp only [adjustKind, OperandType.immFixup, herr]; rfl⟩
  case inr.inr.inl =>
    obtain ⟨hok, herr⟩ := Adjust.unsignedWidth_eq 5 w "port number"
    refine ⟨fun hin => ?_, fun hout => ?_⟩
    · rw [← hport5]
      simp only [adjustKind, OperandType.immFixup, Adjust.fixupPort5, hok hin]
      rfl
    · obtain ⟨err, herr⟩ := herr hout
      exact ⟨err, by simp only [adjustKind, OperandType.immFixup, Adjust.fixupPort5, herr]; rfl⟩
  case inr.inr.inr =>
    obtain ⟨hok, herr⟩ := Adjust.unsignedWidth_eq 6 w "port number"
    refine ⟨fun hin => ?_, fun hout => ?_⟩
    · rw [← hport6]
      simp only [adjustKind, OperandType.immFixup, Adjust.fixupPort6, hok hin]
      rfl
    · obtain ⟨err, herr⟩ := herr hout
      exact ⟨err, by simp only [adjustKind, OperandType.immFixup, Adjust.fixupPort6, herr]; rfl⟩

/-! ## When they agree -/

/-- The values that are patched in as they are encoded: the addresses of `LDS` and `STS` and the
ports of `IN` and `OUT` with an ordinary symbol, the values of `LDI` that fit a nibble, and one port
of `SBI`. -/
def OperandType.ImmAgreesAt (type : OperandType) (temporary : Bool) (v : BitVec 64) : Prop :=
  match type, temporary with
  | imm16, false | immPort6, false => True
  | immLdi16, false => v.toNat < 16
  | immPort5, false => v = 0
  | immPort5, true => v = 16
  | _, _ => False

/-- The bytes of an empty code after the fixup with the un-adjusted value `w`. -/
def OperandType.patched (type : OperandType) (empty w : BitVec 64) : List (BitVec 8) :=
  orBytes ((type.placement w).setWidth 64 <<< (getFixupKindInfo type.immFixup.1).targetOffset)
    type.immFixup.2 type.immFixup.1.numBytes (type.codeBytes empty)

section

variable {empty full v : BitVec 64}

/-- The addresses of `LDS` and `STS` and the ports of `IN` and `OUT` are patched as a whole. -/
theorem patched_iff_of_whole {type : OperandType} (htype : type = .imm16 ∨ type = .immPort6)
    (h : PlacesImmediate type empty full v) (w : BitVec 64) :
    type.patched empty w = type.codeBytes full ↔ type.placement w = type.placement v := by
  have hbits (i : ℕ) (hi : 16 ≤ i) : full.getLsbD i = empty.getLsbD i := by
    rw [h.1, BitVec.getLsbD_or, BitVec.getLsbD_setWidth, BitVec.getLsbD_of_ge _ _ hi,
      Bool.and_false, Bool.or_false]
  have hhigh (n : ℕ) (hn : 2 ≤ n) : byteOf empty n = byteOf full n := by
    apply BitVec.eq_of_getLsbD_eq
    intro i hi
    rw [getLsbD_byteOf, getLsbD_byteOf, hbits _ (by omega)]
  rcases htype with rfl | rfl
  · rw [← patched_iff_placement h rfl w]
    show [byteOf empty 2, byteOf empty 3, _, _] = [byteOf full 2, byteOf full 3, _, _] ↔ _
    rw [hhigh 2 (by decide), hhigh 3 (by decide)]
    simp [getFixupKindInfo, OperandType.immFixup]
  · rw [← patched_iff_placement h rfl w]
    show [_, _] = [_, _] ↔ _
    simp [getFixupKindInfo, OperandType.immFixup]

/-- The values of `LDI` lose their high nibble. -/
theorem patched_iff_of_ldi (h : PlacesImmediate .immLdi16 empty full v) (w : BitVec 64) :
    OperandType.immLdi16.patched empty w = OperandType.immLdi16.codeBytes full ↔
      (∀ i < 4, w.getLsbD i = v.getLsbD i) ∧ ∀ i < 4, v.getLsbD (4 + i) = false := by
  have hx : ∀ i < 8, ((OperandType.immLdi16.placement w).setWidth 64).getLsbD i = true →
      empty.getLsbD i = false := fun i _ hbit => empty_of_placement h rfl w hbit
  have hbytes : OperandType.immLdi16.patched empty w = OperandType.immLdi16.codeBytes full ↔
      byteOf empty 0 ||| byteOf ((OperandType.immLdi16.placement w).setWidth 64) 0 = byteOf full 0 ∧
        byteOf empty 1 = byteOf full 1 := by
    show [_, _] = [_, _] ↔ _
    simp [getFixupKindInfo, OperandType.immFixup]
  rw [hbytes, patched_iff_lowByte h rfl hx]
  apply and_congr
  · constructor
    · intro heq i hi
      have hbit := heq i (by omega)
      interval_cases i <;> simpa [OperandType.placement, frdkPlacement] using hbit
    · intro heq i hi
      rw [BitVec.getLsbD_setWidth]
      interval_cases i <;> simp [OperandType.placement, frdkPlacement]
      case «0» => simpa using heq 0 (by decide)
      case «1» => simpa using heq 1 (by decide)
      case «2» => simpa using heq 2 (by decide)
      case «3» => simpa using heq 3 (by decide)
  · constructor
    · intro heq i hi
      have hbit := heq i (by omega)
      interval_cases i <;> simpa [OperandType.placement, frdkPlacement] using hbit
    · intro heq i hi
      interval_cases i <;> simp [OperandType.placement, frdkPlacement]
      case «0» => simpa using heq 0 (by decide)
      case «1» => simpa using heq 1 (by decide)
      case «2» => simpa using heq 2 (by decide)
      case «3» => simpa using heq 3 (by decide)

/-- The ports of `SBI` are moved up twice, once by `fixup_port5` and once as the offset of the
fixup. -/
theorem patched_iff_of_port5 (h : PlacesImmediate .immPort5 empty full v) (w : BitVec 64) :
    OperandType.immPort5.patched empty w = OperandType.immPort5.codeBytes full ↔
      (v.getLsbD 0 = false ∧ v.getLsbD 1 = false ∧ v.getLsbD 2 = false) ∧
        w.getLsbD 0 = v.getLsbD 3 ∧ w.getLsbD 1 = v.getLsbD 4 := by
  have hx : ∀ i < 8, ((OperandType.immPort5.placement w).setWidth 64 <<< 3).getLsbD i = true →
      empty.getLsbD i = false := by
    intro i hi hbit
    have hmask : (OperandType.immPort5.placement (-1)).getLsbD i = true := by
      interval_cases i <;> simp [OperandType.placement] at hbit ⊢
    exact h.2 i hmask
  have hbytes : OperandType.immPort5.patched empty w = OperandType.immPort5.codeBytes full ↔
      byteOf empty 0 ||| byteOf ((OperandType.immPort5.placement w).setWidth 64 <<< 3) 0 =
          byteOf full 0 ∧ byteOf empty 1 = byteOf full 1 := by
    show [_, _] = [_, _] ↔ _
    simp [getFixupKindInfo, OperandType.immFixup]
  have hhigh : ∀ i < 8, (OperandType.immPort5.placement v).getLsbD (8 + i) = false := by
    intro i hi
    interval_cases i <;> simp [OperandType.placement]
  rw [hbytes, patched_iff_lowByte h rfl hx, and_iff_left hhigh]
  constructor
  · intro heq
    have h3 := heq 3 (by decide)
    have h4 := heq 4 (by decide)
    have h5 := heq 5 (by decide)
    have h6 := heq 6 (by decide)
    have h7 := heq 7 (by decide)
    simp [OperandType.placement] at h3 h4 h5 h6 h7
    simp [h3, h4, h5, h6, h7]
  · rintro ⟨⟨h0, h1, h2⟩, h3, h4⟩ i hi
    simp at h0 h1 h2 h3 h4
    interval_cases i <;> simp [OperandType.placement, h0, h1, h2, h3, h4]

end

/-- The bit of a value in terms of its digits. -/
theorem getLsbD_eq_decide (v : BitVec 64) (i : ℕ) :
    v.getLsbD i = decide (v.toNat / 2 ^ i % 2 = 1) := by
  rw [← BitVec.testBit_toNat, Nat.testBit_eq_decide_div_mod_eq]

/-- A byte with an empty high nibble is less than 16. -/
theorem lt_sixteen_iff {v : BitVec 64} (h : v.toNat < 2 ^ 8) :
    (∀ i < 4, v.getLsbD (4 + i) = false) ↔ v.toNat < 16 := by
  constructor
  · intro hzero
    have hnibble : v.toNat / 2 ^ 4 % 2 ^ 4 = (0 : BitVec 64).toNat / 2 ^ 0 % 2 ^ 4 := by
      apply digits_eq_of_getLsbD_eq
      intro k hk
      rw [hzero k hk]
      exact BitVec.getLsbD_zero.symm
    have hzero : (0 : BitVec 64).toNat = 0 := rfl
    rw [hzero] at hnibble
    omega
  · intro hlt i hi
    rw [← BitVec.testBit_toNat]
    exact Nat.testBit_lt_two_pow
      (lt_of_lt_of_le hlt (Nat.pow_le_pow_right (show 0 < 2 by decide) (show 4 ≤ 4 + i by omega)))

/-- The addresses of `LDS` and `STS` and the ports of `IN` and `OUT`, un-adjusted or not. -/
theorem placement_eq_iff {type : OperandType} (htype : type = .imm16 ∨ type = .immPort6)
    (temporary : Bool) (v : BitVec 64) :
    type.placement (if temporary then v + 2 else v) = type.placement v ↔
      type.ImmAgreesAt temporary v := by
  have hbit (w : BitVec 64) : (type.placement w).getLsbD 1 = w.getLsbD 1 := by
    rcases htype with rfl | rfl <;> simp [OperandType.placement]
  cases temporary
  · rcases htype with rfl | rfl <;> simp [OperandType.ImmAgreesAt]
  · have hne : type.placement (v + 2) ≠ type.placement v := by
      intro heq
      have hflip := congrArg (fun x => x.getLsbD 1) heq
      simp only [hbit, getLsbD_one_add_two] at hflip
      cases v.getLsbD 1 <;> simp at hflip
    refine iff_of_false hne ?_
    rcases htype with rfl | rfl <;> exact id

/-- The values of `LDI`, un-adjusted or not. -/
theorem ldi_agrees_iff (temporary : Bool) {v : BitVec 64} (hfits : v.toNat < 2 ^ 8) :
    ((∀ i < 4, (if temporary then v + 2 else v).getLsbD i = v.getLsbD i) ∧
        ∀ i < 4, v.getLsbD (4 + i) = false) ↔
      OperandType.immLdi16.ImmAgreesAt temporary v := by
  rw [lt_sixteen_iff hfits]
  cases temporary
  · simp [OperandType.ImmAgreesAt]
  · refine iff_of_false ?_ id
    rintro ⟨hlow, -⟩
    have hflip := hlow 1 (by decide)
    rw [if_pos rfl, getLsbD_one_add_two] at hflip
    cases v.getLsbD 1 <;> simp at hflip

/-- The ports of `SBI`, un-adjusted or not. -/
theorem port5_agrees_iff (temporary : Bool) {v : BitVec 64} (hfits : v.toNat < 2 ^ 5) :
    ((v.getLsbD 0 = false ∧ v.getLsbD 1 = false ∧ v.getLsbD 2 = false) ∧
        (if temporary then v + 2 else v).getLsbD 0 = v.getLsbD 3 ∧
        (if temporary then v + 2 else v).getLsbD 1 = v.getLsbD 4) ↔
      OperandType.immPort5.ImmAgreesAt temporary v := by
  have htwo : (2 : BitVec 64).toNat = 2 := rfl
  have hzero : (0 : BitVec 64).toNat = 0 := rfl
  have hsixteen : (16 : BitVec 64).toNat = 16 := rfl
  cases temporary
  all_goals
    simp only [OperandType.ImmAgreesAt, Bool.false_eq_true, if_false, if_true, getLsbD_eq_decide,
      BitVec.toNat_add, htwo, ← BitVec.toNat_inj, hzero, hsixteen, decide_eq_false_iff_not,
      decide_eq_decide]
    generalize v.toNat = u at hfits ⊢
    interval_cases u <;> decide

/-- **When a patched immediate is the encoded one**: at the values of `ImmAgreesAt`. -/
theorem immEncodesAlike_iff (mi : MCInst) (hreal : mi.opcode.isPseudo = false)
    (hwt : mi.WellTyped) {n : ℕ} {type : OperandType} (himm : mi.opcode.immOperand = some (n, type))
    {v : BitVec 64} (hv : mi.operands[n]? = some (.imm v)) {width : ℕ}
    (hwidth : type.immWidth = some width) (hfits : v.toNat < 2 ^ width) {e : MCExpr}
    (he : e.isSNESMCExpr = false) (temporary : Bool) (before after : List (BitVec 8)) :
    mi.EncodesAlike n e temporary before after v ↔ type.ImmAgreesAt temporary v := by
  obtain ⟨field, other, m, otherType, shape⟩ := exists_immShape hreal himm
  obtain ⟨empty, full, hplaces, hfull, hempty⟩ := shape.exists_encodings hwt hv he
  obtain ⟨hok, herr⟩ := adjustKind_immFixup hwidth (if temporary then v + 2 else v)
  have hbytes : type.immFixup.2 + type.immFixup.1.numBytes ≤ (type.codeBytes empty).length := by
    rcases OperandType.eq_of_immWidth shape.width with rfl | rfl | rfl | rfl <;>
      simp [OperandType.codeBytes] <;> decide
  by_cases haccept : type = .immLdi16 ∨ (if temporary then v + 2 else v).toNat < 2 ^ width
  · rw [encodesAlike_iff_of_ok hfull hempty (hok haccept) hbytes]
    change type.patched empty _ = _ ↔ _
    rcases OperandType.eq_of_immWidth shape.width with rfl | rfl | rfl | rfl
    · rw [patched_iff_of_whole (.inl rfl) hplaces, placement_eq_iff (.inl rfl)]
    · obtain rfl := Option.some.inj hwidth
      rw [patched_iff_of_ldi hplaces, ldi_agrees_iff temporary hfits]
    · obtain rfl := Option.some.inj hwidth
      rw [patched_iff_of_port5 hplaces, port5_agrees_iff temporary hfits]
    · rw [patched_iff_of_whole (.inr rfl) hplaces, placement_eq_iff (.inr rfl)]
  · -- only a temporary label leads out of the range, and then nothing is emitted
    obtain ⟨err, herr⟩ := herr haccept
    refine iff_of_false (not_encodesAlike_of_error hfull hempty herr before after) fun hagrees => ?_
    cases temporary with
    | false => exact haccept (.inr hfits)
    | true =>
        rcases OperandType.eq_of_immWidth shape.width with rfl | rfl | rfl | rfl
        case inr.inr.inl =>
          obtain rfl := Option.some.inj hwidth
          obtain rfl : v = 16 := hagrees
          exact haccept (.inr (by decide))
        all_goals exact hagrees

/-- `LDI` of a value that fits a nibble is patched as it is encoded. -/
theorem immEncodesAlike_LDIRdK_three :
    (MCInst.mk .LDIRdK [.reg .A, .imm 3]).EncodesAlike 1 (.symbolRef 0) false [] [] 3 :=
  (immEncodesAlike_iff ⟨.LDIRdK, [.reg .A, .imm 3]⟩ rfl
    ⟨[.imm 3], by decide, [], by decide, trivial⟩ rfl rfl rfl (by decide) rfl false [] []).mpr
    (show 3 < 16 by decide)

/-- `LDI` of 16 is encoded with a high nibble that its fixup does not write. -/
theorem not_immEncodesAlike_LDIRdK_sixteen :
    ¬ (MCInst.mk .LDIRdK [.reg .A, .imm 16]).EncodesAlike 1 (.symbolRef 0) false [] [] 16 := by
  rintro ⟨bytes, himm, hexpr⟩
  have hencoded : encodeInstruction ⟨.LDIRdK, [.reg .A, .imm 16]⟩ = some ([0x00, 0xe1], []) := by
    decide
  have hresolved : resolvedFragment [] [] ⟨.LDIRdK, [.reg .A, .expr (.symbolRef 0)]⟩ false 16 =
      some (.ok [0x00, 0xe0]) := rfl
  obtain rfl : [0x00, 0xe1] = bytes := by
    have heq := hencoded.symm.trans himm
    simpa using heq
  have hbytes := hresolved.symm.trans hexpr
  exact absurd hbytes (by simp)

end Snes
