/-
# The Bytes of an Encoded Instruction

Which instructions `encodeInstruction` writes as the formats document them:
`getSize` bytes, the opcode byte first and the immediate after it in
little-endian order.
-/
import SnesBackend.CodeEmitter

namespace Snes

/-! ## Well-typed instructions -/

/-- The operands left over after an operand of a given type, when the ones in front fit it. -/
def OperandType.takeOperands : OperandType → List MCOperand → Option (List MCOperand)
  | reg rc, .reg r :: rest => if r ∈ rc.members then some rest else none
  | ldstPtrReg, .reg r :: rest => if r ∈ RegClass.indexRegs.members then some rest else none
  | memri, .reg r :: .imm _ :: rest =>
      if r ∈ RegClass.mainRegs.members then some rest else none
  | memspi, .reg r :: .imm _ :: rest => if r = .SP then some rest else none
  | reg _, _ | ldstPtrReg, _ | memri, _ | memspi, _ => none
  | _, .imm _ :: rest => some rest
  | _, _ => none

/-- Operands that fit a list of operand types, one after the other. -/
def FitsOperands : List (OpName × OperandType) → List MCOperand → Prop
  | [], _ => True
  | (_, type) :: types, operands =>
      ∃ rest, type.takeOperands operands = some rest ∧ FitsOperands types rest

/-- An instruction whose register and immediate operands fit its description. -/
def MCInst.WellTyped (mi : MCInst) : Prop :=
  FitsOperands (desc mi.opcode).operands mi.operands

/-- An operand that fits takes as many places as its type says. -/
theorem takeOperands_eq_drop {type : OperandType} {operands rest : List MCOperand}
    (h : type.takeOperands operands = some rest) : rest = operands.drop type.miNumOperands := by
  unfold OperandType.takeOperands at h
  split at h <;> simp_all [OperandType.miNumOperands]

/-- Every numbered operand of a fitting list starts with operands of its type. -/
theorem takeOperands_of_mem_numberFrom {types : List (OpName × OperandType)}
    {operands : List MCOperand} {n : ℕ} (h : FitsOperands types (operands.drop n))
    {name : OpName} {m : ℕ} {type : OperandType}
    (hmem : (name, m, type) ∈ InstrDesc.numberFrom n types) :
    ∃ rest, type.takeOperands (operands.drop m) = some rest := by
  induction types generalizing n with
  | nil => simp [InstrDesc.numberFrom] at hmem
  | cons entry types ih =>
      obtain ⟨name', type'⟩ := entry
      obtain ⟨rest, htake, hfits⟩ := h
      rw [takeOperands_eq_drop htake, List.drop_drop] at hfits
      rcases List.mem_cons.mp hmem with heq | htail
      · obtain ⟨rfl, rfl, rfl⟩ : name = name' ∧ m = n ∧ type = type' := by simpa using heq
        exact ⟨rest, htake⟩
      · exact ih hfits htail

/-! ## The operands of the fields -/

/-- A named operand is a numbered operand. -/
theorem exists_mem_of_operandNamed {d : InstrDesc} {name : OpName} {operand : ℕ × OperandType}
    (h : d.operandNamed name = some operand) :
    ∃ name', (name', operand) ∈ InstrDesc.numberFrom 0 d.operands := by
  unfold InstrDesc.operandNamed at h
  obtain ⟨before, after, heq, -⟩ := List.lookup_eq_some_iff.mp h
  exact ⟨name, by simp [heq]⟩

/-- An operand taken by position is a numbered operand. -/
theorem exists_mem_of_operandNumbered {d : InstrDesc} {n : ℕ} {operand : ℕ × OperandType}
    (h : d.operandNumbered n = some operand) :
    ∃ name', (name', operand) ∈ InstrDesc.numberFrom 0 d.operands := by
  unfold InstrDesc.operandNumbered at h
  rw [Option.map_eq_some_iff] at h
  obtain ⟨entry, hfind, rfl⟩ := h
  exact ⟨entry.1, List.mem_of_find?_eq_some hfind⟩

/-- The operand of every field is a numbered operand of the instruction. -/
theorem exists_mem_of_mem_assignFields {d : InstrDesc} {next : ℕ} {names : List OpName}
    {assigned : List (OpName × ℕ × OperandType)} (h : d.assignFields next names = some assigned)
    {entry : OpName × ℕ × OperandType} (hmem : entry ∈ assigned) :
    ∃ name', (name', entry.2) ∈ InstrDesc.numberFrom 0 d.operands := by
  induction names generalizing next assigned with
  | nil =>
      obtain rfl : [] = assigned := by simpa [InstrDesc.assignFields] using h
      simp at hmem
  | cons name names ih =>
      unfold InstrDesc.assignFields at h
      split at h
      case h_1 operand hnamed =>
        rw [Option.map_eq_some_iff] at h
        obtain ⟨rest, hrest, rfl⟩ := h
        rcases List.mem_cons.mp hmem with rfl | htail
        · exact exists_mem_of_operandNamed hnamed
        · exact ih hrest htail
      case h_2 =>
        rw [Option.bind_eq_some_iff] at h
        obtain ⟨operand, hnumbered, h⟩ := h
        rw [Option.map_eq_some_iff] at h
        obtain ⟨rest, hrest, rfl⟩ := h
        rcases List.mem_cons.mp hmem with rfl | htail
        · exact exists_mem_of_operandNumbered hnumbered
        · exact ih hrest htail

/-- The value of the immediate operand of a given name. -/
def MCInst.namedImm (mi : MCInst) (name : OpName) : Option (BitVec 64) :=
  ((desc mi.opcode).operandNamed name).bind fun operand =>
    match mi.operands[operand.1]? with
    | some (.imm value) => some value
    | _ => none

/-- The base register of the `memri` operand. -/
def MCInst.memriBase (mi : MCInst) : Option Reg :=
  ((desc mi.opcode).operandNamed .memri).bind fun operand =>
    match mi.operands[operand.1]? with
    | some (.reg r) => some r
    | _ => none

/-- A field with a `memri` operand is the one named `memri`. -/
theorem operandNamed_memri_of_mem (op : Opcode) {assigned : List (OpName × ℕ × OperandType)}
    (h : (desc op).fieldOperands = some assigned) {name : OpName} {n : ℕ}
    (hmem : (name, n, .memri) ∈ assigned) : (desc op).operandNamed .memri = some (n, .memri) := by
  have table : ∀ op : Opcode, ((desc op).fieldOperands.getD []).all (fun entry =>
      entry.2.2 != .memri || (desc op).operandNamed .memri == some entry.2) = true := by
    intro op
    cases op <;> rfl
  have entry := List.all_eq_true.mp (table op) (name, n, .memri) (by rw [h]; exact hmem)
  simpa using entry

/-! ## Encoding succeeds -/

/-- A pointer register that fits has an encoding. -/
theorem exists_encodeLDSTPtrReg {r : Reg} (h : r ∈ RegClass.indexRegs.members) :
    ∃ encoded, encodeLDSTPtrReg (.reg r) = some encoded := by
  simp only [RegClass.members, List.mem_cons, List.not_mem_nil, or_false] at h
  rcases h with rfl | rfl <;> exact ⟨_, rfl⟩

/-- A base register that fits has an encoding, except `Y`. -/
theorem exists_encodeMemri {r : Reg} (h : r ∈ RegClass.mainRegs.members) (hY : r ≠ .Y)
    (value : BitVec 64) : ∃ encoded, encodeMemri (.reg r) (.imm value) = some encoded := by
  simp only [RegClass.members, List.mem_cons, List.not_mem_nil, or_false] at h
  rcases h with rfl | rfl | rfl
  · exact ⟨_, rfl⟩
  · exact ⟨_, rfl⟩
  · exact absurd rfl hY

/-- Operands that fit have an encoding, except a `memri` on `Y`. -/
theorem exists_encode {type : OperandType} {operands rest : List MCOperand} {n : ℕ}
    (h : type.takeOperands (operands.drop n) = some rest)
    (hbase : type = .memri → operands[n]? ≠ some (.reg .Y)) :
    ∃ encoded, type.encode operands n = some encoded := by
  have first : operands[n]? = (operands.drop n)[0]? := by rw [List.getElem?_drop, Nat.add_zero]
  have second : operands[n + 1]? = (operands.drop n)[1]? := by rw [List.getElem?_drop]
  unfold OperandType.encode
  rw [first] at hbase ⊢
  rw [second]
  generalize operands.drop n = front at h hbase ⊢
  cases front with
  | nil => cases type <;> simp [OperandType.takeOperands] at h
  | cons operand tail =>
      cases type
      case memri =>
        unfold OperandType.takeOperands at h
        split at h <;> simp_all
        exact Prod.exists.mp (exists_encodeMemri (by simp [h.1]) hbase _)
      case ldstPtrReg =>
        unfold OperandType.takeOperands at h
        split at h <;> simp_all
        exact Prod.exists.mp (exists_encodeLDSTPtrReg (by simp [h.1]))
      all_goals
        rcases operand with r | value | e <;>
          first | exact ⟨_, rfl⟩ | simp [OperandType.takeOperands] at h

/-- A list of fields is encoded when each of its operands is. -/
theorem exists_encodeFields {mi : MCInst} {assigned : List (OpName × ℕ × OperandType)}
    (h : ∀ entry ∈ assigned, ∃ encoded, entry.2.2.encode mi.operands entry.2.1 = some encoded) :
    ∃ fields, encodeFields mi assigned = some fields := by
  induction assigned with
  | nil => exact ⟨[], rfl⟩
  | cons entry rest ih =>
      obtain ⟨name, n, type⟩ := entry
      obtain ⟨encoded, hencoded⟩ := h (name, n, type) (by simp)
      obtain ⟨fields, hfields⟩ := ih fun entry hmem => h entry (List.mem_cons_of_mem _ hmem)
      exact ⟨(name, encoded) :: fields, by simp [encodeFields, hencoded, hfields]⟩

/-- The operand types that only a register fits. -/
def OperandType.isRegister : OperandType → Bool
  | reg _ => true
  | ldstPtrReg => true
  | _ => false

/-- The first two operands of the `FSTLD` instructions are registers. -/
theorem registers_of_hasLoadStorePostEncoder {op : Opcode}
    (h : op.format.hasLoadStorePostEncoder = true) :
    ∃ first second rest, (desc op).operands = first :: second :: rest ∧
      first.2.isRegister = true ∧ second.2.isRegister = true := by
  cases op <;> first | exact absurd h (by decide) | exact ⟨_, _, _, rfl, rfl, rfl⟩

/-- A register operand that fits is a register. -/
theorem exists_reg_of_takeOperands {type : OperandType} {operands rest : List MCOperand}
    (htype : type.isRegister = true) (h : type.takeOperands operands = some rest) :
    ∃ r, operands = .reg r :: rest := by
  unfold OperandType.takeOperands at h
  split at h <;> simp_all [OperandType.isRegister]

/-- The post encoder accepts every well-typed instruction that has it. -/
theorem exists_loadStorePostEncoder {mi : MCInst} (hwt : mi.WellTyped)
    (h : mi.opcode.format.hasLoadStorePostEncoder = true) (value : BitVec 64) :
    ∃ value', loadStorePostEncoder mi value = some value' := by
  obtain ⟨first, second, types, htypes, hfirst, hsecond⟩ := registers_of_hasLoadStorePostEncoder h
  unfold MCInst.WellTyped at hwt
  rw [htypes] at hwt
  obtain ⟨rest₁, htake₁, rest₂, htake₂, -⟩ := hwt
  obtain ⟨r, hr⟩ := exists_reg_of_takeOperands hfirst htake₁
  obtain ⟨s, rfl⟩ := exists_reg_of_takeOperands hsecond htake₂
  unfold loadStorePostEncoder
  rw [hr]
  exact ⟨_, rfl⟩

/-- **Encoding succeeds** on a well-typed instruction unless its `memri` base is `Y`. -/
theorem exists_encodeInstruction {mi : MCInst} (hwt : mi.WellTyped)
    (hbase : mi.memriBase ≠ some .Y) :
    ∃ bytes fixups, encodeInstruction mi = some (bytes, fixups) := by
  obtain ⟨assigned, hassigned⟩ := Option.isSome_iff_exists.mp (fieldOperands_isSome mi.opcode)
  have encodable : ∀ entry ∈ assigned,
      ∃ encoded, entry.2.2.encode mi.operands entry.2.1 = some encoded := by
    rintro ⟨name, n, type⟩ hmem
    obtain ⟨name', hnumbered⟩ := exists_mem_of_mem_assignFields hassigned hmem
    obtain ⟨rest, htake⟩ := takeOperands_of_mem_numberFrom (n := 0) hwt hnumbered
    refine exists_encode htake fun hmemri hY => hbase ?_
    subst hmemri
    have named := operandNamed_memri_of_mem mi.opcode hassigned hmem
    simp only at hY
    simp [MCInst.memriBase, named, hY]
  obtain ⟨fields, hfields⟩ := exists_encodeFields encodable
  unfold encodeInstruction getBinaryCodeForInstr
  rw [hassigned, Option.bind_some, hfields, Option.bind_some]
  by_cases hpost : mi.opcode.format.hasLoadStorePostEncoder = true
  · obtain ⟨value, hvalue⟩ := exists_loadStorePostEncoder hwt hpost
      (BitVec.ofNat 64 (layoutValue (fieldValue fields) mi.opcode.format.inst))
    exact ⟨_, _, by simp only [hpost, if_true, hvalue]; rfl⟩
  · exact ⟨_, _, by simp only [hpost]; rfl⟩

/-- An encoded list of fields has the encoding of each of its operands. -/
theorem encode_of_encodeFields {mi : MCInst} {assigned : List (OpName × ℕ × OperandType)}
    {fields : List (OpName × Encoded)} (h : encodeFields mi assigned = some fields)
    {entry : OpName × ℕ × OperandType} (hmem : entry ∈ assigned) :
    ∃ encoded, entry.2.2.encode mi.operands entry.2.1 = some encoded := by
  induction assigned generalizing fields with
  | nil => simp at hmem
  | cons head rest ih =>
      obtain ⟨name, n, type⟩ := head
      unfold encodeFields at h
      rw [Option.bind_eq_some_iff] at h
      obtain ⟨encoded, hencoded, h⟩ := h
      rw [Option.map_eq_some_iff] at h
      obtain ⟨fields', hfields, -⟩ := h
      rcases List.mem_cons.mp hmem with rfl | htail
      · exact ⟨encoded, hencoded⟩
      · exact ih hfields htail

/-- The operand named `memri` of a real instruction fills a field. -/
theorem memri_mem_fieldOperands {op : Opcode} (hreal : op.isPseudo = false)
    {operand : ℕ × OperandType} (h : (desc op).operandNamed .memri = some operand) :
    operand.2 = .memri ∧
      ∃ assigned, (desc op).fieldOperands = some assigned ∧ (.memri, operand) ∈ assigned := by
  obtain ⟨assigned, hassigned⟩ := Option.isSome_iff_exists.mp (fieldOperands_isSome op)
  have table : ∀ op : Opcode, op.isPseudo = true ∨ (desc op).operandNamed .memri = none ∨
      ∃ n ∈ [0, 1], (desc op).operandNamed .memri = some (n, .memri) ∧
        (.memri, n, .memri) ∈ (desc op).fieldOperands.getD [] := by
    intro op
    cases op <;> decide
  rcases table op with hpseudo | hnone | ⟨n, -, hnamed, hmem⟩
  · rw [hreal] at hpseudo
    exact absurd hpseudo (by decide)
  · rw [hnone] at h
    exact absurd h (by simp)
  · rw [hnamed, Option.some.injEq] at h
    subst h
    rw [hassigned] at hmem
    exact ⟨rfl, assigned, hassigned, hmem⟩

/-- **A `memri` on `Y` has no encoding**: `encodeMemri` knows `A` and `X` only. -/
theorem memriBase_ne_of_encodeInstruction {mi : MCInst} (hreal : mi.opcode.isPseudo = false)
    {bytes : List (BitVec 8)} {fixups : List MCFixup}
    (h : encodeInstruction mi = some (bytes, fixups)) : mi.memriBase ≠ some .Y := by
  intro hY
  unfold MCInst.memriBase at hY
  rw [Option.bind_eq_some_iff] at hY
  obtain ⟨⟨n, type⟩, hnamed, hY⟩ := hY
  obtain ⟨htype, assigned, hassigned, hmem⟩ := memri_mem_fieldOperands hreal hnamed
  obtain ⟨value, hcode, -⟩ := encodeInstruction_eq_some h
  unfold getBinaryCodeForInstr at hcode
  rw [hassigned, Option.bind_some, Option.bind_eq_some_iff] at hcode
  obtain ⟨fields, hfields, -⟩ := hcode
  obtain ⟨encoded, hencoded⟩ := encode_of_encodeFields hfields hmem
  have hreg : mi.operands[n]? = some (.reg .Y) := by
    cases hop : mi.operands[n]? with
    | none => simp [hop] at hY
    | some operand => cases operand <;> simp_all
  simp only at htype
  subst htype
  simp only [OperandType.encode, hreg, Option.bind_some] at hencoded
  cases hoff : mi.operands[n + 1]? <;> simp [hoff, encodeMemri] at hencoded

/-! ## The value of the immediate formats -/

/-- The `k` operand of the immediate formats is a plain immediate. -/
theorem operandNamed_k_of_fields {op : Opcode}
    (h : (∃ opcode, op.format = .snesImm8 opcode) ∨ ∃ opcode, op.format = .snesImm16 opcode) :
    ∃ n type, (desc op).operandNamed .k = some (n, type) ∧ (type = .i8imm ∨ type = .i16imm) := by
  cases op <;>
    first
    | exact ⟨_, _, rfl, Or.inl rfl⟩
    | exact ⟨_, _, rfl, Or.inr rfl⟩
    | rcases h with ⟨_, h⟩ | ⟨_, h⟩ <;> cases h

/-- The binary code of an instruction whose only field is the immediate `k`. -/
theorem getBinaryCodeForInstr_of_immediate {mi : MCInst} {k : BitVec 64}
    (h : (∃ opcode, mi.opcode.format = .snesImm8 opcode) ∨
      ∃ opcode, mi.opcode.format = .snesImm16 opcode)
    (hk : mi.namedImm .k = some k) :
    ∃ fields : OpName → BitVec 32, fields .k = k.setWidth 32 ∧
      getBinaryCodeForInstr mi =
        some (BitVec.ofNat 64 (layoutValue fields mi.opcode.format.inst), []) := by
  obtain ⟨n, type, hnamed, htype⟩ := operandNamed_k_of_fields h
  have hfields : mi.opcode.format.fields = [.k] := by
    rcases h with ⟨opcode, h⟩ | ⟨opcode, h⟩ <;> rw [h] <;> rfl
  have hpost : mi.opcode.format.hasLoadStorePostEncoder = false := by
    rcases h with ⟨opcode, h⟩ | ⟨opcode, h⟩ <;> rw [h] <;> rfl
  have hoperand : mi.operands[n]? = some (.imm k) := by
    simp only [MCInst.namedImm, hnamed, Option.bind_some] at hk
    cases hop : mi.operands[n]? with
    | none => simp [hop] at hk
    | some operand => cases operand <;> simp_all
  have hencode : type.encode mi.operands n = some (k.setWidth 32, []) := by
    rcases htype with rfl | rfl <;> simp [OperandType.encode, hoperand, getMachineOpValue]
  have hassigned : (desc mi.opcode).fieldOperands = some [(.k, n, type)] := by
    simp only [InstrDesc.fieldOperands, show (desc mi.opcode).format.fields = [.k] from hfields,
      InstrDesc.assignFields, hnamed, Option.map_some]
  refine ⟨fieldValue [(.k, k.setWidth 32, [])], rfl, ?_⟩
  simp [getBinaryCodeForInstr, hassigned, encodeFields, hencode, hpost]

/-- The layout of `<|opcode|imm8|>` as a number. -/
theorem layoutValue_imm8 (fields : OpName → BitVec 32) (opcode : BitVec 8) :
    layoutValue fields (InstrFormat.snesImm8 opcode).inst =
      opcode.toNat * 2 ^ 8 + (fields .k).toNat % 2 ^ 8 := by
  simp [layoutValue, InstrFormat.inst, InstBits.value, InstBits.width]

/-! ## The documented bytes -/

/-- The bytes that the formats document: the opcode, then the immediate, low byte first. -/
def documentedBytes (mi : MCInst) : Option (List (BitVec 8)) :=
  match mi.opcode.format with
  | .snesImplied opcode => some [opcode]
  | .snesImm8 opcode => (mi.namedImm .k).map fun k => [opcode, k.setWidth 8]
  | .snesImm16 opcode =>
      (mi.namedImm .k).map fun (k : BitVec 64) => [opcode, k.setWidth 8, (k >>> 8).setWidth 8]
  | _ => none

/-- An instruction is emitted as documented: it has an encoding, of `getSize` bytes, and the bytes
are the documented ones where the format documents them. -/
def EmitsAsDocumented (mi : MCInst) : Prop :=
  ∃ bytes fixups, encodeInstruction mi = some (bytes, fixups) ∧
    bytes.length = mi.opcode.getSize ∧
    ∀ documented, documentedBytes mi = some documented → bytes = documented

/-- A `SNESImm8` instruction is emitted with its immediate first and its opcode last. -/
theorem encodeInstruction_imm8 {mi : MCInst} {opcode : BitVec 8} {k : BitVec 64}
    (hformat : mi.opcode.format = .snesImm8 opcode) (hk : mi.namedImm .k = some k) :
    encodeInstruction mi = some ([k.setWidth 8, opcode], []) := by
  obtain ⟨fields, hfields, hcode⟩ := getBinaryCodeForInstr_of_immediate (Or.inl ⟨opcode, hformat⟩) hk
  have hsize : mi.opcode.getSize = 2 := by rw [Opcode.getSize, hformat]; rfl
  have hopcode := opcode.isLt
  have hvalue : layoutValue fields mi.opcode.format.inst =
      opcode.toNat * 2 ^ 8 + k.toNat % 2 ^ 8 := by
    rw [hformat, layoutValue_imm8, hfields, BitVec.toNat_setWidth]
    omega
  unfold encodeInstruction
  rw [hcode, Option.map_some, hsize, hvalue]
  simp only [emitInstruction, emitWords, wordBytes_eq, List.append_nil, Nat.reduceDiv,
    Nat.mul_zero, BitVec.ushiftRight_zero, Option.some.injEq, Prod.mk.injEq, List.cons.injEq,
    and_true]
  constructor <;> apply BitVec.eq_of_toNat_eq
  · simp only [BitVec.toNat_setWidth, BitVec.toNat_ofNat]
    omega
  · simp only [BitVec.toNat_setWidth, BitVec.toNat_ushiftRight, BitVec.toNat_ofNat,
      Nat.shiftRight_eq_div_pow]
    omega

/-- **When an instruction is emitted as documented**: its `memri` base is not `Y`, its size is a
whole number of words, and for `SNESImm8` its immediate has the opcode's own value. -/
theorem emitsAsDocumented_iff (mi : MCInst) (hreal : mi.opcode.isPseudo = false)
    (hwt : mi.WellTyped) :
    EmitsAsDocumented mi ↔
      mi.memriBase ≠ some .Y ∧ mi.opcode.getSize % 2 = 0 ∧
        ∀ opcode k, mi.opcode.format = .snesImm8 opcode → mi.namedImm .k = some k →
          k.setWidth 8 = opcode := by
  constructor
  · rintro ⟨bytes, fixups, hencode, hlength, hdocumented⟩
    refine ⟨memriBase_ne_of_encodeInstruction hreal hencode, ?_, ?_⟩
    · obtain ⟨value, -, rfl⟩ := encodeInstruction_eq_some hencode
      rw [length_emitInstruction] at hlength
      omega
    · intro opcode k hformat hk
      have hbytes := hdocumented [opcode, k.setWidth 8] (by
        unfold documentedBytes
        rw [hformat, hk]
        rfl)
      rw [encodeInstruction_imm8 hformat hk, hbytes] at hencode
      simp only [Option.some.injEq, Prod.mk.injEq, List.cons.injEq] at hencode
      exact hencode.1.1
  · rintro ⟨hbase, hsize, himm⟩
    obtain ⟨bytes, fixups, hencode⟩ := exists_encodeInstruction hwt hbase
    refine ⟨bytes, fixups, hencode, ?_, ?_⟩
    · obtain ⟨value, -, rfl⟩ := encodeInstruction_eq_some hencode
      rw [length_emitInstruction]
      omega
    · intro documented hdocumented
      unfold documentedBytes at hdocumented
      split at hdocumented
      case h_1 opcode hformat => simp [Opcode.getSize, hformat, InstrFormat.size] at hsize
      case h_2 opcode hformat =>
        rw [Option.map_eq_some_iff] at hdocumented
        obtain ⟨k, hk, rfl⟩ := hdocumented
        rw [encodeInstruction_imm8 hformat hk, himm opcode k hformat hk] at hencode
        simp only [Option.some.injEq, Prod.mk.injEq] at hencode
        rw [himm opcode k hformat hk, hencode.1]
      case h_3 opcode hformat => simp [Opcode.getSize, hformat, InstrFormat.size] at hsize
      case h_4 => simp at hdocumented

/-- `LDA #0x12` is well-typed and not emitted as documented: its bytes are `12 A9`. -/
theorem not_emitsAsDocumented_LDAimm8 :
    ¬ EmitsAsDocumented ⟨.LDAimm8, [.reg .AL, .imm 0x12]⟩ := by
  intro h
  have cond := (emitsAsDocumented_iff ⟨.LDAimm8, [.reg .AL, .imm 0x12]⟩ (by decide)
    ⟨[.imm 0x12], by decide, [], by decide, trivial⟩).mp h
  exact absurd (cond.2.2 0xA9 0x12 rfl rfl) (by decide)

/-- **Not every instruction is emitted as documented**: `CLC` has size 1 and emits no byte. -/
theorem not_emitsAsDocumented_CLC :
    Opcode.CLC.isPseudo = false ∧ (MCInst.mk .CLC []).WellTyped ∧
      ¬ EmitsAsDocumented ⟨.CLC, []⟩ := by
  refine ⟨by decide, trivial, ?_⟩
  rintro ⟨bytes, fixups, hencode, hlength, -⟩
  obtain ⟨value, -, rfl⟩ := encodeInstruction_eq_some hencode
  rw [length_emitInstruction] at hlength
  exact absurd hlength (by decide)

end Snes
