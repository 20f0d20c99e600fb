/-
# Symbolic Operands up to the Object File

What becomes of an expression operand: the fixup or the constant that the operand
encoders make of it, whether `adjustFixupValue` knows the fixup, and what the
relocation that `getRelocType` chooses tells the linker.
-/
import SnesBackend.EncodedFixups

namespace Snes

/-! ## Relocations -/

/-- `shouldForceRelocation`. -/
def shouldForceRelocation : FixupKind → Bool
  | .fixup7Pcrel | .fixup13Pcrel | .fixupCall => true
  | _ => false

/-- A fixup is left to the linker when the assembler cannot resolve it or is told not to. -/
def leftToLinker (resolved : Bool) (kind : FixupKind) : Bool :=
  !resolved || shouldForceRelocation kind

/-- `ELF::EM_SNES`. -/
def emSNES : ℕ := 248

/-- `getRelocType`: the switch over the kinds is commented out. -/
def getRelocType (_fixup : MCFixup) (_isPCRel : Bool) : ℕ :=
  emSNES

/-- The field that a kind patches. -/
def FixupKind.field (kind : FixupKind) : ℕ × ℕ :=
  ((getFixupKindInfo kind).targetOffset, (getFixupKindInfo kind).targetSize)

/-- The relocation type that a fixup is given. -/
def MCFixup.relocType (fixup : MCFixup) : ℕ :=
  getRelocType fixup (getFixupKindInfo fixup.kind).isPCRel

/-- A fixup that patches another field has another relocation type. -/
def MCFixup.RelocTypeTells (fixup : MCFixup) : Prop :=
  ∀ other : MCFixup, other.kind.field ≠ fixup.kind.field → other.relocType ≠ fixup.relocType

/-- **No relocation type tells the field** that is to be patched. -/
theorem not_relocTypeTells (fixup : MCFixup) : ¬ fixup.RelocTypeTells := by
  have other : ∃ kind : FixupKind, kind.field ≠ fixup.kind.field := by
    by_cases h : FixupKind.fixupLdi.field = fixup.kind.field
    · exact ⟨.fixup16, by rw [← h]; decide⟩
    · exact ⟨.fixupLdi, h⟩
  obtain ⟨kind, hkind⟩ := other
  intro h
  exact h ⟨0, fixup.value, kind⟩ hkind rfl

/-! ## Known fixups -/

/-- A computation that does not reach `unhandled fixup`. -/
def NeverUnhandled {α : Type} (x : Except FixupError α) : Prop :=
  x ≠ .error (.unreachable "unhandled fixup")

/-- A sequence does not reach `unhandled fixup` when neither part does. -/
theorem NeverUnhandled.bind {α β : Type} {x : Except FixupError α}
    {next : α → Except FixupError β} (hx : NeverUnhandled x)
    (hnext : ∀ a, NeverUnhandled (next a)) : NeverUnhandled (x >>= next) := by
  cases x with
  | error err =>
      intro heq
      apply hx
      cases heq
      rfl
  | ok a => exact hnext a

/-- A result is no error. -/
theorem NeverUnhandled.ok {α : Type} (a : α) :
    NeverUnhandled (Except.ok a : Except FixupError α) :=
  nofun

/-- Range checks end in a diagnostic, not in `unhandled fixup`. -/
theorem neverUnhandled_check (width : ℕ) (value : BitVec 64) (description : String) :
    NeverUnhandled (Adjust.signedWidth width value description) ∧
      NeverUnhandled (Adjust.unsignedWidth width value description) := by
  unfold Adjust.signedWidth Adjust.unsignedWidth
  constructor <;> split <;> exact nofun

/-- `adjustFixupValue` does not reach `unhandled fixup` for a kind. -/
def FixupKind.Handled (kind : FixupKind) : Prop :=
  ∀ temporary value, NeverUnhandled (adjustFixupValue kind temporary value)

/-- **The kinds that `adjustFixupValue` knows**: all that the encoder records, except `fixup_6`. -/
theorem handled_iff (kind : FixupKind) : kind.Handled ↔ kind ≠ .fixup6 := by
  constructor
  · rintro h rfl
    exact h false 0 rfl
  · intro hkind temporary value
    unfold adjustFixupValue
    generalize (if temporary then value + 2 else value) = v
    have signed (width : ℕ) (text : String) := (neverUnhandled_check width v text).1
    have unsigned (width : ℕ) (text : String) := (neverUnhandled_check width v text).2
    cases kind
    case fixup6 => exact absurd rfl hkind
    case fixup7Pcrel | fixup13Pcrel =>
      exact ((signed _ _).bind fun _ => .ok _).bind fun _ => .ok _
    case fixupCall => exact ((unsigned _ _).bind fun _ => .ok _).bind fun _ => .ok _
    case fixup16 | fixupPort5 | fixupPort6 => exact (unsigned _ _).bind fun _ => .ok _
    all_goals exact .ok _

/-! ## Encoded operands -/

/-- The field that operand number `n` fills: its name, its first operand and its type. -/
def Opcode.fieldEntry (op : Opcode) (n : ℕ) : Option (OpName × ℕ × OperandType) :=
  (desc op).fieldOperands.bind fun assigned =>
    assigned.find? fun entry =>
      decide (entry.2.1 ≤ n) && decide (n < entry.2.1 + entry.2.2.miNumOperands)

/-- What the operand encoders make of operand number `n`: the value of its field and the fixups. -/
def MCInst.encodedOperand (mi : MCInst) (n : ℕ) : Option Encoded :=
  (mi.opcode.fieldEntry n).bind fun entry => entry.2.2.encode mi.operands entry.2.1

/-- No real instruction has a field for a `memspi`. -/
theorem memspi_notMem_fieldOperands (op : Opcode) :
    ((desc op).fieldOperands.getD []).all (fun entry => entry.2.2 != .memspi) = true := by
  cases op <;> rfl

/-- The entry of a field is for the operand itself, unless that is the offset of a `memri`. -/
theorem eq_of_fieldEntry {op : Opcode} {n m : ℕ} {name : OpName} {type : OperandType}
    (h : op.fieldEntry n = some (name, m, type)) (hmemri : type ≠ .memri) :
    m = n ∧ type ≠ .memspi := by
  unfold Opcode.fieldEntry at h
  obtain ⟨assigned, hassigned, hfind⟩ := Option.bind_eq_some_iff.mp h
  have hmem := List.mem_of_find?_eq_some hfind
  have hspan := List.find?_some hfind
  have hreal := memspi_notMem_fieldOperands op
  rw [hassigned] at hreal
  have hmemspi : type ≠ .memspi := by
    simpa using List.all_eq_true.mp hreal (name, m, type) hmem
  have hone : type.miNumOperands = 1 := by cases type <;> first | rfl | contradiction
  simp only [hone, Bool.and_eq_true, decide_eq_true_eq] at hspan
  exact ⟨by omega, hmemspi⟩

/-! ## Operands that survive -/

/-- An expression operand survives: it is recorded as a whole or encoded as its constant, every
fixup of it is known to the backend, and one that is left to the linker says what to patch. -/
def MCInst.OperandSurvives (mi : MCInst) (n : ℕ) (e : MCExpr) (resolved : Bool) : Prop :=
  ∃ value fixups, mi.encodedOperand n = some (value, fixups) ∧
    ((∃ fixup ∈ fixups, fixup.value = e) ∨
      ∃ c, e.evaluateAsAbsolute = some c ∧ fixups = [] ∧
        (mi.withOperand n (.imm c)).encodedOperand n = some (value, [])) ∧
    ∀ fixup ∈ fixups, fixup.kind.Handled ∧
      (leftToLinker resolved fixup.kind = true → fixup.RelocTypeTells)

namespace OperandType

/-- The operand types with a fixup of their own for expressions without a modifier. -/
def usesEncodeImm : OperandType → Bool
  | imm16 | immLdi16 | immPort5 | immPort6 => true
  | _ => false

/-- The operand types without an encoder of their own. -/
def usesMachineOpValue : OperandType → Bool
  | reg _ | i8imm | i16imm => true
  | _ => false

/-- The expressions that survive in an operand of a given type: a modifier that is constant or that
the assembler resolves; with `encodeImm` every expression that the assembler resolves; without an
encoder a constant modifier to which nothing is added. -/
def ExprSurvives (type : OperandType) (e : MCExpr) (resolved : Bool) : Prop :=
  match e with
  | .target _ _ _ =>
      (type.usesEncodeImm = true ∨ type.usesMachineOpValue = true) ∧
        (e.evaluateAsAbsolute.isSome = true ∨ resolved = true)
  | .binary _ (.target kind negated subExpr) rhs =>
      type.usesEncodeImm = true ∧ resolved = true ∨
        type.usesMachineOpValue = true ∧
          (MCExpr.target kind negated subExpr).evaluateAsAbsolute.isSome = true ∧
          ∃ r, rhs.evaluateAsAbsolute = some r ∧ r.setWidth 32 = 0
  | _ => type.usesEncodeImm = true ∧ resolved = true

end OperandType

/-- What survives of one operand encoder's result. -/
def Encoded.Survives (encoded : Encoded) (e : MCExpr) (immediate : BitVec 64 → Option Encoded)
    (resolved : Bool) : Prop :=
  ((∃ fixup ∈ encoded.2, fixup.value = e) ∨
      ∃ c, e.evaluateAsAbsolute = some c ∧ encoded.2 = [] ∧ immediate c = some (encoded.1, [])) ∧
    ∀ fixup ∈ encoded.2, fixup.kind.Handled ∧
      (leftToLinker resolved fixup.kind = true → fixup.RelocTypeTells)

/-- One fixup for the whole expression survives when the backend knows it and the assembler resolves
it. -/
theorem survives_fixup_iff (e : MCExpr) (value : BitVec 32) (offset : ℕ) (kind : FixupKind)
    (immediate : BitVec 64 → Option Encoded) (resolved : Bool) :
    Encoded.Survives (value, [⟨offset, e, kind⟩]) e immediate resolved ↔
      kind ≠ .fixup6 ∧ shouldForceRelocation kind = false ∧ resolved = true := by
  unfold Encoded.Survives leftToLinker
  simp only [List.mem_singleton, exists_eq_left, true_or, true_and, forall_eq, handled_iff]
  apply and_congr_right'
  have htells := not_relocTypeTells ⟨offset, e, kind⟩
  simp only [htells, imp_false, Bool.or_eq_true, Bool.not_eq_true']
  cases resolved <;> simp

/-- A constant survives when it is the one that the immediate has. -/
theorem survives_constant_iff (e : MCExpr) (value : BitVec 32)
    (immediate : BitVec 64 → Option Encoded) (resolved : Bool) :
    Encoded.Survives (value, []) e immediate resolved ↔
      ∃ c, e.evaluateAsAbsolute = some c ∧ immediate c = some (value, []) := by
  unfold Encoded.Survives
  simp

/-- A modified expression survives when it is constant or resolved. -/
theorem survives_target_iff (kind : VariantKind) (negated : Bool) (subExpr : MCExpr)
    {immediate : BitVec 64 → Option Encoded} (himm : ∀ c, immediate c = some (c.setWidth 32, []))
    (resolved : Bool) :
    (∃ encoded, getExprOpValue (.target kind negated subExpr) = some encoded ∧
        encoded.Survives (.target kind negated subExpr) immediate resolved) ↔
      (MCExpr.target kind negated subExpr).evaluateAsAbsolute.isSome = true ∨ resolved = true := by
  have hknown : kind.getFixupKind negated ≠ .fixup6 ∧
      shouldForceRelocation (kind.getFixupKind negated) = false := by
    cases kind <;> cases negated <;> decide
  unfold getExprOpValue
  cases hvalue : (MCExpr.target kind negated subExpr).evaluateAsAbsolute with
  | none =>
      simp only [hvalue, Option.some.injEq, exists_eq_left', survives_fixup_iff]
      simp [hknown]
  | some c =>
      simp only [hvalue, Option.some.injEq, exists_eq_left', survives_constant_iff]
      simp [himm]

/-- A modified expression to which something is added survives when both are constant and what is
added is zero. -/
theorem survives_sum_iff (op : MCBinaryOp) (kind : VariantKind) (negated : Bool)
    (subExpr rhs : MCExpr) {immediate : BitVec 64 → Option Encoded}
    (himm : ∀ c, immediate c = some (c.setWidth 32, [])) (resolved : Bool) :
    (∃ encoded, getExprOpValue (.binary op (.target kind negated subExpr) rhs) = some encoded ∧
        encoded.Survives (.binary op (.target kind negated subExpr) rhs) immediate resolved) ↔
      (MCExpr.target kind negated subExpr).evaluateAsAbsolute.isSome = true ∧
        ∃ r, rhs.evaluateAsAbsolute = some r ∧ r.setWidth 32 = 0 := by
  unfold getExprOpValue
  cases hvalue : (MCExpr.target kind negated subExpr).evaluateAsAbsolute with
  | none =>
      -- the fixup of the left operand does not cover the sum
      simp only [hvalue, Option.some.injEq, exists_eq_left']
      unfold Encoded.Survives
      simp
  | some l =>
      simp only [hvalue, Option.some.injEq, exists_eq_left', survives_constant_iff, himm,
        Prod.mk.injEq, and_true, Option.isSome_some, true_and]
      cases op
      · rw [MCExpr.evaluateAsAbsolute, hvalue]
        simp [BitVec.setWidth_add, and_comm]
      · rw [MCExpr.evaluateAsAbsolute, hvalue]
        simp [BitVec.sub_eq_add_neg, BitVec.setWidth_add, BitVec.setWidth_neg_of_le, and_comm]

/-- An operand without an encoder of its own. -/
theorem survives_machineOpValue_iff {type : OperandType} (htype : type.usesMachineOpValue = true)
    (e : MCExpr) {immediate : BitVec 64 → Option Encoded}
    (himm : ∀ c, immediate c = some (c.setWidth 32, [])) (resolved : Bool) :
    (∃ encoded, getExprOpValue e = some encoded ∧ encoded.Survives e immediate resolved) ↔
      type.ExprSurvives e resolved := by
  have hother : type.usesEncodeImm = false := by cases type <;> first | rfl | contradiction
  unfold OperandType.ExprSurvives
  split
  case h_1 kind negated subExpr => simp [survives_target_iff _ _ _ himm, htype]
  case h_2 op kind negated subExpr rhs => simp [survives_sum_iff _ _ _ _ _ himm, htype, hother]
  case h_3 htarget hsum =>
    simp only [hother, Bool.false_eq_true, false_and, iff_false]
    rintro ⟨encoded, hencoded, hsurvives⟩
    -- what is left is a symbol, for which nothing is recorded, or has no encoding
    have hdropped : encoded = (0, []) ∧ e.evaluateAsAbsolute = none := by
      cases e with
      | constant value => simp [getExprOpValue] at hencoded
      | symbolRef symbol => exact ⟨(Option.some.inj hencoded).symm, rfl⟩
      | target kind negated subExpr => exact absurd rfl (htarget kind negated subExpr)
      | binary op lhs rhs =>
          cases lhs with
          | symbolRef symbol =>
              exact ⟨(Option.some.inj hencoded).symm, by cases op <;> rfl⟩
          | target kind negated subExpr => exact absurd rfl (hsum op kind negated subExpr rhs)
          | constant value => simp [getExprOpValue] at hencoded
          | binary op' lhs' rhs' => simp [getExprOpValue] at hencoded
    obtain ⟨rfl, hnone⟩ := hdropped
    rw [survives_constant_iff, hnone] at hsurvives
    obtain ⟨c, hc, -⟩ := hsurvives
    exact absurd hc (by simp)

/-- An operand of `encodeImm`. -/
theorem survives_encodeImm_iff {type : OperandType} (htype : type.usesEncodeImm = true)
    (e : MCExpr) {kind : FixupKind} (hkind : kind ≠ .fixup6 ∧ shouldForceRelocation kind = false)
    (offset : ℕ) {immediate : BitVec 64 → Option Encoded}
    (himm : ∀ c, immediate c = some (c.setWidth 32, [])) (resolved : Bool) :
    (∃ encoded, encodeImm kind offset (.expr e) = some encoded ∧
        encoded.Survives e immediate resolved) ↔ type.ExprSurvives e resolved := by
  have hother : type.usesMachineOpValue = false := by cases type <;> first | rfl | contradiction
  cases e with
  | target kind' negated subExpr =>
      simp [encodeImm, survives_target_iff _ _ _ himm, OperandType.ExprSurvives, htype]
  | constant value => simp [encodeImm, survives_fixup_iff, OperandType.ExprSurvives, htype, hkind]
  | symbolRef symbol =>
      simp [encodeImm, survives_fixup_iff, OperandType.ExprSurvives, htype, hkind]
  | binary op lhs rhs =>
      cases lhs <;>
        simp [encodeImm, survives_fixup_iff, OperandType.ExprSurvives, htype, hkind, hother]

/-- The operand types with an encoder that is not for expressions, or whose fixups are forced or not
known to the backend. -/
theorem not_exprSurvives {type : OperandType} (hencode : type.usesEncodeImm = false)
    (hmachine : type.usesMachineOpValue = false) (e : MCExpr) (resolved : Bool) :
    ¬ type.ExprSurvives e resolved := by
  unfold OperandType.ExprSurvives
  split <;> simp [hencode, hmachine]

/-- **Which operands survive**, for the encoder of an operand type. -/
theorem survives_encode_iff {type : OperandType} {operands : List MCOperand} {n : ℕ} {e : MCExpr}
    (h : operands[n]? = some (.expr e)) (hmemri : type ≠ .memri) (hmemspi : type ≠ .memspi)
    (resolved : Bool) :
    (∃ encoded, type.encode operands n = some encoded ∧
        encoded.Survives e (fun c => type.encode (operands.set n (.imm c)) n) resolved) ↔
      type.ExprSurvives e resolved := by
  obtain ⟨hn, -⟩ := List.getElem?_eq_some_iff.mp h
  have hset (c : BitVec 64) : (operands.set n (.imm c))[n]? = some (.imm c) :=
    List.getElem?_set_self hn
  cases type
  case memri => exact absurd rfl hmemri
  case memspi => exact absurd rfl hmemspi
  case relbrtarget7 | brtarget13 | callTarget =>
    refine iff_of_false ?_ (not_exprSurvives rfl rfl e resolved)
    simp only [OperandType.encode, h, Option.bind_some, encodeRelCondBrTarget, encodeCallTarget,
      Option.some.injEq, exists_eq_left', survives_fixup_iff]
    exact fun hforced => absurd hforced.2.1 (by decide)
  case ldstPtrReg | immCom8 =>
    refine iff_of_false ?_ (not_exprSurvives rfl rfl e resolved)
    simp [OperandType.encode, h, encodeLDSTPtrReg, encodeComplement]
  case imm16 | immLdi16 | immPort5 | immPort6 =>
    simp only [OperandType.encode, h, Option.bind_some]
    exact survives_encodeImm_iff rfl e (by decide) _ (fun c => by rw [hset]; rfl) resolved
  case reg | i8imm | i16imm =>
    simp only [OperandType.encode, h, Option.bind_some, getMachineOpValue]
    exact survives_machineOpValue_iff rfl e (fun c => by rw [hset]; rfl) resolved

/-- No expression survives in a `memri`: `fixup_6` is not known to the backend. -/
theorem not_survives_memri {operands : List MCOperand} {n m : ℕ} {e : MCExpr}
    (h : operands[n]? = some (.expr e)) (hspan : m ≤ n ∧ n < m + 2) {encoded : Encoded}
    (hencode : OperandType.memri.encode operands m = some encoded)
    (immediate : BitVec 64 → Option Encoded) (resolved : Bool) :
    ¬ encoded.Survives e immediate resolved := by
  unfold OperandType.encode at hencode
  obtain ⟨base, hbase, hencode⟩ := Option.bind_eq_some_iff.mp hencode
  obtain ⟨offset, hoffset, hencode⟩ := Option.bind_eq_some_iff.mp hencode
  rcases Nat.lt_or_ge m n with hlt | hge
  · obtain rfl : n = m + 1 := by omega
    obtain rfl : .expr e = offset := by
      rw [h] at hoffset
      exact Option.some.inj hoffset
    have hrecorded : ∃ value, encoded = (value, [⟨0, e, .fixup6⟩]) := by
      cases base with
      | reg r =>
          obtain ⟨bit, -, hbits⟩ := Option.bind_eq_some_iff.mp hencode
          exact ⟨_, (Option.some.inj hbits).symm⟩
      | imm value => simp [encodeMemri] at hencode
      | expr e' => simp [encodeMemri] at hencode
    obtain ⟨value, rfl⟩ := hrecorded
    rw [survives_fixup_iff]
    exact fun hknown => hknown.1 rfl
  · obtain rfl : m = n := by omega
    obtain rfl : .expr e = base := by
      rw [h] at hbase
      exact Option.some.inj hbase
    simp [encodeMemri] at hencode

/-- An operand survives when the encoding of its field does. -/
theorem operandSurvives_iff_encoded {mi : MCInst} {n m : ℕ} {name : OpName} {type : OperandType}
    (hentry : mi.opcode.fieldEntry n = some (name, m, type)) (e : MCExpr) (resolved : Bool) :
    mi.OperandSurvives n e resolved ↔
      ∃ encoded, type.encode mi.operands m = some encoded ∧
        encoded.Survives e (fun c => type.encode (mi.operands.set n (.imm c)) m) resolved := by
  unfold MCInst.OperandSurvives MCInst.encodedOperand MCInst.withOperand
  simp only [hentry, Option.bind_some]
  constructor
  · rintro ⟨value, fixups, hencode, hsurvives⟩
    exact ⟨(value, fixups), hencode, hsurvives⟩
  · rintro ⟨⟨value, fixups⟩, hencode, hsurvives⟩
    exact ⟨value, fixups, hencode, hsurvives⟩

/-- The offset or base of a `memri` fills the field from the base on. -/
theorem span_of_fieldEntry {op : Opcode} {n m : ℕ} {name : OpName}
    (h : op.fieldEntry n = some (name, m, .memri)) : m ≤ n ∧ n < m + 2 := by
  obtain ⟨assigned, -, hfind⟩ := Option.bind_eq_some_iff.mp h
  have hspan := List.find?_some hfind
  simp only [Bool.and_eq_true, decide_eq_true_eq] at hspan
  exact hspan

/-- **Which symbolic operands survive** between the encoder and the object file. -/
theorem operandSurvives_iff (mi : MCInst) {n : ℕ} {e : MCExpr}
    (h : mi.operands[n]? = some (.expr e)) (resolved : Bool) :
    mi.OperandSurvives n e resolved ↔
      ∃ name m type, mi.opcode.fieldEntry n = some (name, m, type) ∧
        type.ExprSurvives e resolved := by
  cases hentry : mi.opcode.fieldEntry n with
  | none => simp [MCInst.OperandSurvives, MCInst.encodedOperand, hentry]
  | some entry =>
      obtain ⟨name, m, type⟩ := entry
      have hexpr : (∃ name' m' type', some (name, m, type) = some (name', m', type') ∧
          type'.ExprSurvives e resolved) ↔ type.ExprSurvives e resolved := by
        constructor
        · rintro ⟨name', m', type', heq, hsurvives⟩
          obtain ⟨rfl, rfl, rfl⟩ : name = name' ∧ m = m' ∧ type = type' := by simpa using heq
          exact hsurvives
        · intro hsurvives
          exact ⟨name, m, type, rfl, hsurvives⟩
      rw [hexpr, operandSurvives_iff_encoded hentry]
      by_cases hmemri : type = .memri
      · subst hmemri
        refine iff_of_false ?_ (not_exprSurvives rfl rfl e resolved)
        rintro ⟨encoded, hencode, hsurvives⟩
        exact not_survives_memri h (span_of_fieldEntry hentry) hencode _ resolved hsurvives
      · obtain ⟨rfl, hmemspi⟩ := eq_of_fieldEntry hentry hmemri
        exact survives_encode_iff h hmemri hmemspi resolved

/-- A constant modifier survives in `LDI`. -/
theorem operandSurvives_lo8_constant :
    (MCInst.mk .LDIRdK [.reg .A, .expr (.target .lo8 false (.constant 0x1234))]).OperandSurvives 1
      (.target .lo8 false (.constant 0x1234)) false :=
  (operandSurvives_iff ⟨.LDIRdK, [.reg .A, .expr (.target .lo8 false (.constant 0x1234))]⟩ rfl
    false).mpr ⟨.k, 1, .immLdi16, rfl, .inl rfl, .inl rfl⟩

/-- The symbol of `LDA #sym` is dropped: no fixup is recorded and zero is encoded. -/
theorem not_operandSurvives_LDAimm16 :
    ¬ (MCInst.mk .LDAimm16 [.reg .A, .expr (.symbolRef 0)]).OperandSurvives 1 (.symbolRef 0)
      true := by
  rintro ⟨value, fixups, hencode, hcovers, -⟩
  obtain ⟨rfl, rfl⟩ := Prod.mk.inj (Option.some.inj (show some (0, []) = some (value, fixups) from
    hencode))
  rcases hcovers with ⟨fixup, hmem, -⟩ | ⟨c, hc, -⟩
  · exact absurd hmem (by simp)
  · exact absurd hc (by simp [MCExpr.evaluateAsAbsolute])

end Snes
