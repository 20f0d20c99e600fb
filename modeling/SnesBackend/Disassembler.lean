/-
# The Disassembler

`SNESDisassembler.cpp`: a word of 16 bits is tried first, then one of 32 bits, low
byte first.  Which encoded instructions come back from it: those of 16 bits whose
operands are all immediates with a field of their own name, which hold values that
fit it, and which no more specific instruction has the bits of.
-/
import SnesBackend.DecoderTables
import SnesBackend.EncodedBytes

namespace Snes

open BitPatterns BytePatching

/-! ## Reading words -/

/-- `readInstruction16`: `Size` and `Insn`. -/
def readInstruction16 : List (BitVec 8) → ℕ × Option (BitVec 32)
  | b0 :: b1 :: _ => (2, some ((b0.setWidth 32 <<< 0) ||| (b1.setWidth 32 <<< 8)))
  | _ => (0, none)

/-- `readInstruction32`. -/
def readInstruction32 : List (BitVec 8) → ℕ × Option (BitVec 32)
  | b0 :: b1 :: b2 :: b3 :: _ =>
      (4, some ((b0.setWidth 32 <<< 0) ||| (b1.setWidth 32 <<< 8) ||| (b2.setWidth 32 <<< 16) |||
        (b3.setWidth 32 <<< 24)))
  | _ => (0, none)

/-- `getInstruction`: `Size`, and the instruction unless the status is `Fail`. -/
def getInstruction (table16 : DecoderTable decoderTable16) (table32 : DecoderTable decoderTable32)
    (bytes : List (BitVec 8)) : ℕ × Option MCInst :=
  match readInstruction16 bytes with
  | (size, none) => (size, none)
  | (size, some insn) =>
      match decodeInstruction table16 insn with
      | some inst => (size, some inst)
      | none =>
          match readInstruction32 bytes with
          | (size, none) => (size, none)
          | (size, some insn) => (size, decodeInstruction table32 insn)

/-- The word that is read from two bytes of a code. -/
def word16 (c : BitVec 64) : BitVec 32 :=
  (c.setWidth 16).setWidth 32

/-- The word that is read from the four bytes of a code, whose high half is emitted first. -/
def word32 (c : BitVec 64) : BitVec 32 :=
  (c.setWidth 16 ++ (c >>> 16).setWidth 16 : BitVec 32)

/-- What is read from two bytes. -/
theorem readInstruction16_byteOf (c : BitVec 64) (rest : List (BitVec 8)) :
    readInstruction16 ([byteOf c 0, byteOf c 1] ++ rest) = (2, some (word16 c)) := by
  have hword : ((byteOf c 0).setWidth 32 <<< 0) ||| ((byteOf c 1).setWidth 32 <<< 8) =
      word16 c := by
    apply BitVec.eq_of_getLsbD_eq
    intro i hi
    simp only [word16, BitVec.getLsbD_or, BitVec.getLsbD_shiftLeft, BitVec.getLsbD_setWidth,
      getLsbD_byteOf, hi]
    rcases (by omega : i < 8 ∨ (8 ≤ i ∧ i < 16) ∨ 16 ≤ i) with h | ⟨h, hlt⟩ | h
    · simp [h, hi, show i < 16 by omega]
    · simp [hlt, show ¬ i < 8 by omega, show i - 8 < 8 by omega, show i - 8 < 32 by omega,
        show 8 + (i - 8) = i by omega]
    · simp [show ¬ i < 8 by omega, show ¬ i < 16 by omega, show ¬ i - 8 < 8 by omega]
  exact congrArg (fun insn => (2, some insn)) hword

/-- The bits of the word that is read from the four bytes of a code. -/
theorem getLsbD_word32 (c : BitVec 64) (i : ℕ) (hi : i < 32) :
    (word32 c).getLsbD i = if i < 16 then c.getLsbD (16 + i) else c.getLsbD (i - 16) := by
  rw [word32, BitVec.getLsbD_append]
  split_ifs with h
  · simp [h]
  · simp [show i - 16 < 16 by omega]

/-- What is read from four bytes. -/
theorem readInstruction32_byteOf (c : BitVec 64) (rest : List (BitVec 8)) :
    readInstruction32 ([byteOf c 2, byteOf c 3, byteOf c 0, byteOf c 1] ++ rest) =
      (4, some (word32 c)) := by
  have hword : ((byteOf c 2).setWidth 32 <<< 0) ||| ((byteOf c 3).setWidth 32 <<< 8) |||
      ((byteOf c 0).setWidth 32 <<< 16) ||| ((byteOf c 1).setWidth 32 <<< 24) = word32 c := by
    apply BitVec.eq_of_getLsbD_eq
    intro i hi
    rw [getLsbD_word32 c i hi]
    simp only [BitVec.getLsbD_or, BitVec.getLsbD_shiftLeft, BitVec.getLsbD_setWidth,
      getLsbD_byteOf, hi]
    rcases (by omega : i < 8 ∨ (8 ≤ i ∧ i < 16) ∨ (16 ≤ i ∧ i < 24) ∨ 24 ≤ i) with
      h | ⟨h, hlt⟩ | ⟨h, hlt⟩ | h
    · simp [h, hi, show i < 16 by omega, show i < 24 by omega]
    · simp [hlt, show ¬ i < 8 by omega, show i < 24 by omega, show i - 8 < 8 by omega,
        show i - 8 < 32 by omega, show 24 + (i - 8) = 16 + i by omega]
    · simp [hlt, show ¬ i < 8 by omega, show ¬ i < 16 by omega, show ¬ i - 8 < 8 by omega,
        show i - 16 < 8 by omega, show i - 16 < 32 by omega]
    · simp [show ¬ i < 8 by omega, show ¬ i < 16 by omega, show ¬ i - 8 < 8 by omega,
        show ¬ i < 24 by omega, show i - 24 < 8 by omega, show ¬ i - 16 < 8 by omega,
        show i - 24 < 32 by omega, show 8 + (i - 24) = i - 16 by omega]
  exact congrArg (fun insn => (4, some insn)) hword

section

variable (table16 : DecoderTable decoderTable16) (table32 : DecoderTable decoderTable32)

/-- **Two bytes come back**, whatever follows them, when their word does. -/
theorem getInstruction_two_iff {c : BitVec 64} {mi : MCInst} :
    (∀ rest, getInstruction table16 table32 ([byteOf c 0, byteOf c 1] ++ rest) = (2, some mi)) ↔
      decodeInstruction table16 (word16 c) = some mi := by
  constructor
  · intro h
    have hbytes := h []
    rw [getInstruction, readInstruction16_byteOf] at hbytes
    cases hdecode : decodeInstruction table16 (word16 c) with
    | none => simp [hdecode, readInstruction32] at hbytes
    | some inst =>
        simp only [hdecode, Prod.mk.injEq, true_and] at hbytes
        exact hbytes
  · intro h rest
    rw [getInstruction, readInstruction16_byteOf]
    simp only [h]

/-- Four bytes come back only from the second try. -/
theorem decodeInstruction_of_four {c : BitVec 64} {mi : MCInst}
    (h : getInstruction table16 table32 [byteOf c 2, byteOf c 3, byteOf c 0, byteOf c 1] =
      (4, some mi)) : decodeInstruction table32 (word32 c) = some mi := by
  have hread := readInstruction32_byteOf c []
  rw [List.append_nil] at hread
  rw [getInstruction, readInstruction16] at h
  simp only [hread] at h
  split at h
  · simp at h
  · exact congrArg Prod.snd h

end

/-! ## Instructions that are decoded as a whole -/

/-- An operand that fits takes its places. -/
theorem length_of_takeOperands {type : OperandType} {operands rest : List MCOperand}
    (h : type.takeOperands operands = some rest) :
    operands.length = type.miNumOperands + rest.length := by
  unfold OperandType.takeOperands at h
  split at h <;> simp_all [OperandType.miNumOperands] <;> omega

/-- Operands that fit are at least as many as their types take. -/
theorem sum_le_length_of_fitsOperands {types : List (OpName × OperandType)}
    {operands : List MCOperand} (h : FitsOperands types operands) :
    (types.map fun entry => entry.2.miNumOperands).sum ≤ operands.length := by
  induction types generalizing operands with
  | nil => simp
  | cons entry types ih =>
      obtain ⟨rest, htake, hrest⟩ := h
      rw [List.map_cons, List.sum_cons, length_of_takeOperands htake]
      exact Nat.add_le_add_left (ih hrest) _

/-- All operands of an instruction are decoded. -/
def Opcode.decodesAll (op : Opcode) : Bool :=
  decide (((desc op).operands.map fun entry => entry.2.miNumOperands).sum ≤
    ((desc op).operands.filter op.format.decodes).length)

/-- What a decoded instruction is. -/
theorem decodeInstruction_eq_some {opcodes : List Opcode} {table : DecoderTable opcodes}
    {insn : BitVec 32} {mi : MCInst} (h : decodeInstruction table insn = some mi) :
    table.decode insn = some mi.opcode ∧ mi = decodeToMCInst mi.opcode insn := by
  obtain ⟨op, hop, rfl⟩ := Option.map_eq_some_iff.mp h
  have hopcode : (decodeToMCInst op insn).opcode = op := by rw [decodeToMCInst_eq]
  rw [hopcode]
  exact ⟨hop, rfl⟩

/-- **A well-typed instruction comes back** only if all its operands are decoded. -/
theorem decodesAll_of_decodeInstruction {opcodes : List Opcode} {table : DecoderTable opcodes}
    {insn : BitVec 32} {mi : MCInst} (hwt : mi.WellTyped)
    (h : decodeInstruction table insn = some mi) :
    mi.opcode ∈ opcodes ∧ mi.opcode.decodesAll = true := by
  obtain ⟨hop, hmi⟩ := decodeInstruction_eq_some h
  have hlength := sum_le_length_of_fitsOperands hwt
  rw [decodeToMCInst_eq] at hmi
  have hoperands := congrArg (fun inst => inst.operands.length) hmi
  simp only [List.length_map] at hoperands
  exact ⟨table.mem_table hop, decide_eq_true (hlength.trans_eq hoperands)⟩

/-- The instructions without operands that are decoded as a whole. -/
def plainOpcodes : List Opcode :=
  [.IJMP, .EIJMP, .ICALL, .EICALL, .RET, .RETI, .LPM, .ELPM, .SPM, .BREAK, .SLEEP, .WDR]

/-- The one field of an instruction that is decoded as a whole, with its width. -/
def Opcode.wholeField : Opcode → Option (OpName × ℕ)
  | .SEP | .REP => some (.k, 8)
  | .DESK => some (.k, 4)
  | .BSETs | .BCLRs => some (.s, 3)
  | _ => none

/-- **The instructions that are decoded as a whole.** -/
theorem cases_of_decodesAll {op : Opcode} (hop : op ∈ decoderTable16)
    (h : op.decodesAll = true) :
    op ∈ plainOpcodes ∨ op.wholeField.isSome = true ∨ op ∈ [Opcode.BRBSsk, .BRBCsk] := by
  have table : ∀ op ∈ decoderTable16, op.decodesAll = false ∨ op ∈ plainOpcodes ∨
      op.wholeField.isSome = true ∨ op ∈ [Opcode.BRBSsk, .BRBCsk] := by decide +kernel
  rcases table op hop with hnot | hcases
  · rw [h] at hnot
    exact absurd hnot (by decide)
  · exact hcases

/-- Of the 32-bit instructions the two with an absolute target are decoded as a whole. -/
theorem cases_of_decodesAll_32 {op : Opcode} (hop : op ∈ decoderTable32)
    (h : op.decodesAll = true) : op = .JMPk ∨ op = .CALLk := by
  have table : ∀ op ∈ decoderTable32, op.decodesAll = false ∨ op = .JMPk ∨ op = .CALLk := by
    decide
  rcases table op hop with hnot | hcases
  · rw [h] at hnot
    exact absurd hnot (by decide)
  · exact hcases

/-! ## Decoding a code -/

/-- The instructions that have no more specific one beside them. -/
def dominantOpcodes : List Opcode :=
  [.IJMP, .EIJMP, .ICALL, .EICALL, .RET, .RETI, .LPM, .ELPM, .SPM, .BREAK, .SLEEP, .WDR,
    .SEP, .REP, .DESK, .BSETs, .BCLRs,
    .BREQk, .BRNEk, .BRSHk, .BRLOk, .BRMIk, .BRPLk, .BRGEk, .BRLTk]

/-- The other instructions of the table have other bits, or fewer. -/
theorem dominant {op : Opcode} (hop : op ∈ dominantOpcodes) :
    op ∈ decoderTable16 ∧ ∀ b ∈ decoderTable16, b = op ∨
      Pattern.clashes op.insnWithID b.insnWithID = true ∨
        Pattern.moreSpecific op.insnWithID b.insnWithID = true := by
  revert op
  decide +kernel

/-- The word that is read has the bits of the layout. -/
theorem getLsbD_word16_code {format : InstrFormat} (hsize : format.size = 2)
    (fields : OpName → BitVec 32) :
    ∀ i < layoutWidth format.inst,
      (word16 (format.code fields)).getLsbD i = layoutBit fields i format.inst := by
  intro i hi
  have hwidth : layoutWidth format.inst = 8 * format.size := InstrFormat.sum_width_inst format
  have hlt : i < 16 := by omega
  rw [word16, BitVec.getLsbD_setWidth, BitVec.getLsbD_setWidth, InstrFormat.getLsbD_code]
  simp [hlt, show i < 32 by omega, show i < 64 by omega]

/-- An instruction has its pattern in its own code. -/
theorem matches_word16_code {op : Opcode} (hsize : op.format.size = 2)
    (fields : OpName → BitVec 32) :
    op.insnWithID.Matches (word16 (op.format.code fields)) := by
  intro i hi b hb
  rw [Opcode.insnWithID, length_layoutInsnBits] at hi
  rw [getLsbD_word16_code hsize fields i hi]
  exact layoutBit_of_layoutInsnBits fields hb

/-- **The code of a dominant instruction** is decoded to it. -/
theorem decodeInstruction_code_of_dominant (table16 : DecoderTable decoderTable16) {op : Opcode}
    (hop : op ∈ dominantOpcodes) (fields : OpName → BitVec 32) :
    decodeInstruction table16 (word16 (op.format.code fields)) =
      some (decodeToMCInst op (word16 (op.format.code fields))) := by
  obtain ⟨hmem, hdominant⟩ := dominant hop
  have hsize : op.format.size = 2 := ((mem_decoderTable_iff op).1.mp hmem).2
  rw [decodeInstruction,
    table16.decode_eq_some hmem (matches_word16_code hsize fields) hdominant, Option.map_some]

/-! ## Instructions without operands -/

/-- An instruction without operands has the opcode of its format. -/
theorem plain {op : Opcode} (hop : op ∈ plainOpcodes) :
    (desc op).operands = [] ∧ (desc op).fieldOperands = some [] ∧ op.getSize = 2 ∧
      op.format.hasLoadStorePostEncoder = false ∧ op ∈ dominantOpcodes := by
  simp only [plainOpcodes, List.mem_cons, List.not_mem_nil, or_false] at hop
  rcases hop with rfl | rfl | rfl | rfl | rfl | rfl | rfl | rfl | rfl | rfl | rfl | rfl <;>
    exact ⟨rfl, rfl, rfl, rfl, by decide⟩

/-- The bytes of an instruction without operands. -/
theorem encodeInstruction_plain {op : Opcode} (hop : op ∈ plainOpcodes) :
    encodeInstruction ⟨op, []⟩ =
      some ([byteOf (op.format.code (fieldValue [])) 0, byteOf (op.format.code (fieldValue [])) 1],
        []) := by
  obtain ⟨-, hassigned, hsize, hpost, -⟩ := plain hop
  exact encodeInstruction_eq_two ⟨op, []⟩ hassigned rfl hpost hsize

/-- **An instruction without operands** comes back. -/
theorem decodeInstruction_plain (table16 : DecoderTable decoderTable16) {op : Opcode}
    (hop : op ∈ plainOpcodes) :
    decodeInstruction table16 (word16 (op.format.code (fieldValue []))) = some ⟨op, []⟩ := by
  obtain ⟨hoperands, -, -, -, hdominant⟩ := plain hop
  rw [decodeInstruction_code_of_dominant table16 hdominant, decodeToMCInst_eq, hoperands]
  rfl

/-! ## Instructions with one field -/

/-- What an instruction with one field is. -/
theorem wholeField_facts {op : Opcode} {name : OpName} {n : ℕ}
    (h : op.wholeField = some (name, n)) :
    ∃ type, (desc op).operands = [(name, type)] ∧
      (desc op).fieldOperands = some [(name, 0, type)] ∧
      (∀ k, type.encode [.imm k] 0 = some (k.setWidth 32, [])) ∧
      op.getSize = 2 ∧ op.format.hasLoadStorePostEncoder = false ∧
      op.format.decodes (name, type) = true ∧ name.decodedField = name ∧
      (∀ j, layoutCovers name j op.format.inst = decide (j < n)) ∧ n ≤ 32 ∧
      op ∈ dominantOpcodes := by
  unfold Opcode.wholeField at h
  split at h
  case h_6 => simp at h
  all_goals
    obtain ⟨rfl, rfl⟩ := Prod.mk.inj (Option.some.inj h)
    refine ⟨_, rfl, rfl, fun _ => rfl, rfl, rfl, rfl, rfl, fun j => ?_, by decide, by decide⟩
    rw [Bool.eq_iff_iff]
    simp [layoutCovers, Opcode.format, desc, InstrFormat.inst]
    omega

/-- The fields of an instruction with one field. -/
def wholeFields (name : OpName) (k : BitVec 64) : OpName → BitVec 32 :=
  fieldValue [(name, k.setWidth 32, [])]

/-- The bytes of an instruction with one field. -/
theorem encodeInstruction_wholeField {op : Opcode} {name : OpName} {n : ℕ}
    (h : op.wholeField = some (name, n)) (k : BitVec 64) :
    encodeInstruction ⟨op, [.imm k]⟩ =
      some ([byteOf (op.format.code (wholeFields name k)) 0,
        byteOf (op.format.code (wholeFields name k)) 1], []) := by
  obtain ⟨type, -, hassigned, hencode, hsize, hpost, -⟩ := wholeField_facts h
  have hfields : encodeFields ⟨op, [.imm k]⟩ [(name, 0, type)] =
      some [(name, k.setWidth 32, [])] := by
    simp [encodeFields, hencode]
  exact encodeInstruction_eq_two ⟨op, [.imm k]⟩ hassigned hfields hpost hsize

/-- **An instruction with one field** is decoded with the low bits of its operand. -/
theorem decodeInstruction_wholeField (table16 : DecoderTable decoderTable16) {op : Opcode}
    {name : OpName} {n : ℕ} (h : op.wholeField = some (name, n)) (k : BitVec 64) :
    decodeInstruction table16 (word16 (op.format.code (wholeFields name k))) =
      some ⟨op, [.imm (BitVec.ofNat 64 (k.toNat % 2 ^ n))]⟩ := by
  obtain ⟨type, hoperands, -, -, hsize, -, hdecodes, hname, hcovers, hn, hdominant⟩ :=
    wholeField_facts h
  have hvalue : (decodeField name (word16 (op.format.code (wholeFields name k)))
      op.format.inst).toNat = k.toNat % 2 ^ n := by
    rw [toNat_decodeField _ (getLsbD_word16_code hsize (wholeFields name k)) hcovers]
    simp only [wholeFields, fieldValue, List.lookup_cons_self, Option.map_some, Option.getD_some,
      BitVec.toNat_setWidth]
    exact Nat.mod_mod_of_dvd _ (Nat.pow_dvd_pow 2 hn)
  rw [decodeInstruction_code_of_dominant table16 hdominant, decodeToMCInst_eq, hoperands]
  simp only [List.filter_cons, hdecodes, if_true, List.filter_nil, List.map_cons, List.map_nil,
    InstrFormat.decodedImm, hname]
  rw [← hvalue, BitVec.ofNat_toNat]

/-- A number is its low bits when it has no others. -/
theorem ofNat_mod_eq_iff {k : BitVec 64} {n : ℕ} :
    BitVec.ofNat 64 (k.toNat % 2 ^ n) = k ↔ k.toNat < 2 ^ n := by
  have hk := k.isLt
  have hle := Nat.mod_le k.toNat (2 ^ n)
  rw [← BitVec.toNat_inj, BitVec.toNat_ofNat, Nat.mod_eq_of_lt (by omega), Nat.mod_eq_iff_lt
    (Nat.two_pow_pos n).ne']

/-! ## The branches on a bit of the status register -/

/-- The fields of a branch on a bit of the status register. -/
def statusFields (s k : BitVec 64) : OpName → BitVec 32 :=
  fieldValue [(.k, (adjustBranchTarget k).setWidth 32, []), (.s, s.setWidth 32, [])]

/-- What a branch on a bit of the status register is. -/
theorem statusBranch_facts {op : Opcode} (hop : op ∈ [Opcode.BRBSsk, .BRBCsk]) :
    op ∈ decoderTable16 ∧ (desc op).fieldOperands = some [(.k, 1, .relbrtarget7), (.s, 0, .i16imm)] ∧
      op.getSize = 2 ∧ op.format.hasLoadStorePostEncoder = false ∧
      (∀ insn, decodeToMCInst op insn =
        ⟨op, [.imm ((decodeField .s insn op.format.inst).setWidth 64),
          .imm ((decodeField .k insn op.format.inst).setWidth 64)]⟩) ∧
      (∀ j, layoutCovers .s j op.format.inst = decide (j < 3)) ∧
      ∀ j, layoutCovers .k j op.format.inst = decide (j < 7) := by
  simp only [List.mem_cons, List.not_mem_nil, or_false] at hop
  rcases hop with rfl | rfl
  all_goals
    refine ⟨by decide, rfl, rfl, rfl, fun insn => ?_, fun j => ?_, fun j => ?_⟩
    · rw [decodeToMCInst_eq]
      rfl
    · rw [Bool.eq_iff_iff]
      simp [layoutCovers, Opcode.format, desc, InstrFormat.inst]
      omega
    · rw [Bool.eq_iff_iff]
      simp [layoutCovers, Opcode.format, desc, InstrFormat.inst]
      omega

/-- The bytes of a branch on a bit of the status register. -/
theorem encodeInstruction_statusBranch {op : Opcode} (hop : op ∈ [Opcode.BRBSsk, .BRBCsk])
    (s k : BitVec 64) :
    encodeInstruction ⟨op, [.imm s, .imm k]⟩ =
      some ([byteOf (op.format.code (statusFields s k)) 0,
        byteOf (op.format.code (statusFields s k)) 1], []) := by
  obtain ⟨-, hassigned, hsize, hpost, -⟩ := statusBranch_facts hop
  exact encodeInstruction_eq_two ⟨op, [.imm s, .imm k]⟩ hassigned rfl hpost hsize

/-- Only the target 0 is its own half. -/
theorem eq_zero_of_adjustBranchTarget {k : BitVec 64}
    (h : k.toNat = ((adjustBranchTarget k).setWidth 32).toNat % 2 ^ 7) : k = 0 := by
  have hlt : k.toNat < 2 ^ 7 := by
    rw [h]
    exact Nat.mod_lt _ (by decide)
  have hmsb : k.msb = false := by
    rw [BitVec.msb_eq_false_iff_two_mul_lt]
    omega
  rw [adjustBranchTarget, BitVec.sshiftRight_eq_of_msb_false hmsb, BitVec.toNat_setWidth,
    BitVec.toNat_ushiftRight, Nat.shiftRight_eq_div_pow] at h
  apply BitVec.eq_of_toNat_eq
  change k.toNat = 0
  omega

/-- A bit of the status register that has a branch of its own has the code of that branch. -/
theorem shadowed : ∀ op ∈ [Opcode.BRBSsk, .BRBCsk], ∀ s ∈ [0, 1, 2, 4],
    ∃ b ∈ dominantOpcodes, b ≠ op ∧
      b.format.code (wholeFields .k 0) = op.format.code (statusFields (BitVec.ofNat 64 s) 0) := by
  decide

/-- A bit of the status register that has no branch of its own is decoded. -/
theorem unshadowed : ∀ op ∈ [Opcode.BRBSsk, .BRBCsk], ∀ s ∈ [3, 5, 6, 7],
    MostSpecific Opcode.insnWithID decoderTable16
        (word16 (op.format.code (statusFields (BitVec.ofNat 64 s) 0))) op ∧
      decodeToMCInst op (word16 (op.format.code (statusFields (BitVec.ofNat 64 s) 0))) =
        ⟨op, [.imm (BitVec.ofNat 64 s), .imm 0]⟩ := by
  decide +kernel

/-- **A branch on a bit of the status register** comes back when the bit has no branch of its own
and the target is 0. -/
theorem decodeInstruction_statusBranch_iff (table16 : DecoderTable decoderTable16) {op : Opcode}
    (hop : op ∈ [Opcode.BRBSsk, .BRBCsk]) {s k : BitVec 64} :
    decodeInstruction table16 (word16 (op.format.code (statusFields s k))) =
        some ⟨op, [.imm s, .imm k]⟩ ↔ s.toNat ∈ [3, 5, 6, 7] ∧ k = 0 := by
  obtain ⟨hmem, -, hsize, -, hdecode, hs, hk⟩ := statusBranch_facts hop
  constructor
  · intro h
    obtain ⟨-, hmi⟩ := decodeInstruction_eq_some h
    simp only [hdecode, MCInst.mk.injEq, List.cons.injEq, MCOperand.imm.injEq, and_true,
      true_and] at hmi
    obtain ⟨hs', hk'⟩ := hmi
    have hagree := getLsbD_word16_code hsize (statusFields s k)
    have hsvalue : s.toNat < 8 := by
      rw [hs', BitVec.toNat_setWidth, toNat_decodeField _ hagree hs]
      omega
    obtain rfl : k = 0 := by
      refine eq_zero_of_adjustBranchTarget ?_
      conv_lhs => rw [hk', BitVec.toNat_setWidth, toNat_decodeField _ hagree hk]
      rw [Nat.mod_eq_of_lt (by omega)]
      rfl
    refine ⟨?_, rfl⟩
    have hbits : ∀ m < 8, m ∈ [0, 1, 2, 4] ∨ m ∈ [3, 5, 6, 7] := by decide
    refine (hbits s.toNat hsvalue).resolve_left fun hshadow => ?_
    obtain ⟨b, hb, hne, hcode⟩ := shadowed op hop s.toNat hshadow
    rw [BitVec.ofNat_toNat, BitVec.setWidth_eq] at hcode
    rw [← hcode, decodeInstruction_code_of_dominant table16 hb, decodeToMCInst_eq] at h
    exact hne (congrArg MCInst.opcode (Option.some.inj h))
  · rintro ⟨hs, rfl⟩
    obtain ⟨hspecific, hmi⟩ := unshadowed op hop s.toNat hs
    rw [BitVec.ofNat_toNat, BitVec.setWidth_eq] at hspecific hmi
    rw [decodeInstruction, table16.eq_some hmem hspecific, Option.map_some, hmi]

/-! ## Absolute targets -/

section

variable (f : BitVec 3) (fields : OpName → BitVec 32)

/-- The bits of the code of an absolute target that the halves show to each other: bit 31 is
constant, bit 14 is one of the target. -/
theorem getLsbD_code_absolute :
    (InstrFormat.code (.f32BRk f) fields).getLsbD 31 = true ∧
      (InstrFormat.code (.f32BRk f) fields).getLsbD 14 = (fields .k).getLsbD 14 := by
  constructor
  · rw [InstrFormat.getLsbD_code]
    simp [layoutBit, InstrFormat.inst, layoutWidth, InstBits.width, InstBits.bit]
    decide
  · rw [InstrFormat.getLsbD_code]
    simp [layoutBit, InstrFormat.inst, layoutWidth, InstBits.width, InstBits.bit]

/-- Bit 15 of the target is read from bit 15 of a word. -/
theorem getLsbD_decodeField_absolute (insn : BitVec 32) :
    (decodeField .k insn (InstrFormat.inst (.f32BRk f))).getLsbD 15 = insn.getLsbD 15 := by
  have hlow : (fieldFromInstruction insn 0 17).getLsbD 15 = insn.getLsbD 15 := by
    rw [getLsbD_fieldFromInstruction]
    rfl
  simpa [decodeField, InstrFormat.inst, layoutWidth, InstBits.width] using hlow

end

/-- What a jump or call with an absolute target is. -/
theorem absolute_facts {op : Opcode} (hop : op ∈ [Opcode.JMPk, .CALLk]) :
    (desc op).fieldOperands = some [(.k, 0, .callTarget)] ∧ op.getSize = 4 ∧
      (∃ f, op.format = .f32BRk f) ∧
      ∀ insn, decodeToMCInst op insn =
        ⟨op, [.imm ((decodeField .k insn op.format.inst).setWidth 64)]⟩ := by
  simp only [List.mem_cons, List.not_mem_nil, or_false] at hop
  rcases hop with rfl | rfl <;>
    exact ⟨rfl, rfl, ⟨_, rfl⟩, fun insn => by rw [decodeToMCInst_eq]; rfl⟩

/-- The fields of a jump or call with an absolute target. -/
def absoluteFields (t : BitVec 64) : OpName → BitVec 32 :=
  fieldValue [(.k, (adjustBranchTarget t).setWidth 32, [])]

/-- The bytes of a jump or call with an absolute target. -/
theorem encodeInstruction_absolute {op : Opcode} (hop : op ∈ [Opcode.JMPk, .CALLk])
    (t : BitVec 64) :
    encodeInstruction ⟨op, [.imm t]⟩ =
      some ([byteOf (op.format.code (absoluteFields t)) 2,
        byteOf (op.format.code (absoluteFields t)) 3,
        byteOf (op.format.code (absoluteFields t)) 0,
        byteOf (op.format.code (absoluteFields t)) 1], []) := by
  obtain ⟨hassigned, hsize, ⟨f, hformat⟩, -⟩ := absolute_facts hop
  have hpost : op.format.hasLoadStorePostEncoder = false := by
    rw [hformat]
    rfl
  exact encodeInstruction_eq_four ⟨op, [.imm t]⟩ hassigned rfl hpost hsize

/-- **A jump or call with an absolute target** does not come back: its halves are read the other
way round. -/
theorem decodeInstruction_absolute_ne (table32 : DecoderTable decoderTable32) {op : Opcode}
    (hop : op ∈ [Opcode.JMPk, .CALLk]) (t : BitVec 64) :
    decodeInstruction table32 (word32 (op.format.code (absoluteFields t))) ≠
      some ⟨op, [.imm t]⟩ := by
  intro h
  obtain ⟨hdecode, hmi⟩ := decodeInstruction_eq_some h
  have hdisjoint : ∀ a ∈ decoderTable32, ∀ b ∈ decoderTable32, b = a ∨
      Pattern.clashes a.insnWithID b.insnWithID = true := by decide
  have hmatches := table32.matches_of_decode hdisjoint hdecode
  obtain ⟨-, -, ⟨f, hformat⟩, hdecoded⟩ := absolute_facts hop
  simp only [hdecoded, MCInst.mk.injEq, List.cons.injEq, MCOperand.imm.injEq, and_true,
    true_and] at hmi
  rw [hformat] at hmi hmatches
  obtain ⟨hhigh, hlow⟩ := getLsbD_code_absolute f (absoluteFields t)
  -- bit 31 of the code is read as bit 15 of the target, and bit 14 as bit 30 of the opcode
  have htarget : t.getLsbD 15 = true := by
    rw [hmi, BitVec.getLsbD_setWidth, getLsbD_decodeField_absolute, getLsbD_word32 _ 15 (by decide)]
    simpa using hhigh
  have hopcode : (absoluteFields t .k).getLsbD 14 = false := by
    have hbit : op.insnWithID[30]? = some (some false) := by
      rw [Opcode.insnWithID, hformat]
      rfl
    have hword := hmatches.getLsbD_eq hbit
    rw [getLsbD_word32 _ 30 (by decide)] at hword
    rw [← hlow]
    simpa using hword
  have hshift : (absoluteFields t .k).getLsbD 14 = t.getLsbD 15 := by
    rw [absoluteFields, fieldValue, adjustBranchTarget]
    simp only [List.lookup_cons_self, Option.map_some, Option.getD_some]
    rw [BitVec.getLsbD_setWidth, BitVec.getLsbD_sshiftRight]
    simp
  rw [hshift, htarget] at hopcode
  exact absurd hopcode (by decide)

/-! ## Round trips -/

/-- The bytes of an instruction come back as the instruction, with their number as `Size`, whatever
follows them. -/
def MCInst.RoundTrips (mi : MCInst) (table16 : DecoderTable decoderTable16)
    (table32 : DecoderTable decoderTable32) (bytes : List (BitVec 8)) : Prop :=
  ∀ rest, getInstruction table16 table32 (bytes ++ rest) = (bytes.length, some mi)

/-- The instructions that come back: those without operands of 16 bits, those with one field that
their operand fits, and the branches to the target 0 on a bit of the status register that has no
branch of its own. -/
inductive MCInst.DecodesBack : MCInst → Prop where
  | plain {op : Opcode} (hop : op ∈ plainOpcodes) : DecodesBack ⟨op, []⟩
  | wholeField {op : Opcode} {name : OpName} {n : ℕ} {k : BitVec 64}
      (hop : op.wholeField = some (name, n)) (hk : k.toNat < 2 ^ n) : DecodesBack ⟨op, [.imm k]⟩
  | statusBranch {op : Opcode} {s : BitVec 64} (hop : op ∈ [Opcode.BRBSsk, .BRBCsk])
      (hs : s.toNat ∈ [3, 5, 6, 7]) : DecodesBack ⟨op, [.imm s, .imm 0]⟩

section

variable {table16 : DecoderTable decoderTable16} {table32 : DecoderTable decoderTable32}

/-- An instruction of two bytes round-trips when its word is decoded to it. -/
theorem roundTrips_two_iff {mi : MCInst} {c : BitVec 64} :
    mi.RoundTrips table16 table32 [byteOf c 0, byteOf c 1] ↔
      decodeInstruction table16 (word16 c) = some mi :=
  getInstruction_two_iff table16 table32

/-- An instruction that emits nothing does not come back. -/
theorem not_roundTrips_nil (mi : MCInst) : ¬ mi.RoundTrips table16 table32 [] := by
  intro h
  have hnone := h []
  simp [getInstruction, readInstruction16] at hnone

/-- **An instruction of two bytes** that comes back is one of those that do. -/
theorem decodesBack_of_two {mi : MCInst} (hwt : mi.WellTyped) {c : BitVec 64}
    (hencode : encodeInstruction mi = some ([byteOf c 0, byteOf c 1], []))
    (h : mi.RoundTrips table16 table32 [byteOf c 0, byteOf c 1]) : mi.DecodesBack := by
  have hdecode := roundTrips_two_iff.mp h
  obtain ⟨hop, hall⟩ := decodesAll_of_decodeInstruction hwt hdecode
  obtain ⟨-, hmi⟩ := decodeInstruction_eq_some hdecode
  generalize hopcode : mi.opcode = op at hop hall hmi
  rcases cases_of_decodesAll hop hall with hplain | hwhole | hstatus
  · obtain ⟨hoperands, -⟩ := plain hplain
    rw [decodeToMCInst_eq, hoperands] at hmi
    rw [hmi]
    exact .plain hplain
  · obtain ⟨⟨name, n⟩, hwhole⟩ := Option.isSome_iff_exists.mp hwhole
    obtain ⟨type, hoperands, -, -, -, -, hdecodes, -⟩ := wholeField_facts hwhole
    rw [decodeToMCInst_eq, hoperands] at hmi
    simp only [List.filter_cons, hdecodes, if_true, List.filter_nil, List.map_cons,
      List.map_nil, InstrFormat.decodedImm] at hmi
    subst hmi
    generalize BitVec.setWidth 64 _ = k at hencode h
    rw [encodeInstruction_wholeField hwhole] at hencode
    rw [← (Prod.mk.inj (Option.some.inj hencode)).1, roundTrips_two_iff,
      decodeInstruction_wholeField table16 hwhole] at h
    simp only [Option.some.injEq, MCInst.mk.injEq, List.cons.injEq, MCOperand.imm.injEq,
      and_true, true_and] at h
    exact .wholeField hwhole (ofNat_mod_eq_iff.mp h)
  · obtain ⟨-, -, -, -, hdecoded, -⟩ := statusBranch_facts hstatus
    rw [hdecoded] at hmi
    subst hmi
    generalize BitVec.setWidth 64 (decodeField .s _ _) = s at hencode h
    generalize BitVec.setWidth 64 _ = k at hencode h
    rw [encodeInstruction_statusBranch hstatus] at hencode
    rw [← (Prod.mk.inj (Option.some.inj hencode)).1, roundTrips_two_iff,
      decodeInstruction_statusBranch_iff table16 hstatus] at h
    obtain ⟨hs, rfl⟩ := h
    exact .statusBranch hstatus hs

/-- **An instruction of four bytes** does not come back. -/
theorem not_roundTrips_four {mi : MCInst} (hwt : mi.WellTyped) {c : BitVec 64}
    (hencode : encodeInstruction mi =
      some ([byteOf c 2, byteOf c 3, byteOf c 0, byteOf c 1], [])) :
    ¬ mi.RoundTrips table16 table32 [byteOf c 2, byteOf c 3, byteOf c 0, byteOf c 1] := by
  intro h
  have hdecode := decodeInstruction_of_four table16 table32 (h [])
  obtain ⟨hop, hall⟩ := decodesAll_of_decodeInstruction hwt hdecode
  obtain ⟨-, hmi⟩ := decodeInstruction_eq_some hdecode
  generalize hopcode : mi.opcode = op at hop hall hmi
  have habsolute : op ∈ [Opcode.JMPk, .CALLk] := by
    simpa using cases_of_decodesAll_32 hop hall
  obtain ⟨-, -, -, hdecoded⟩ := absolute_facts habsolute
  rw [hdecoded] at hmi
  subst hmi
  generalize BitVec.setWidth 64 _ = t at hencode h
  rw [encodeInstruction_absolute habsolute] at hencode
  rw [← (Prod.mk.inj (Option.some.inj hencode)).1] at h
  exact decodeInstruction_absolute_ne table32 habsolute t
    (decodeInstruction_of_four table16 table32 (h []))

/-- **An instruction that is among those** comes back. -/
theorem MCInst.DecodesBack.roundTrips {mi : MCInst} (hmi : mi.DecodesBack)
    {bytes : List (BitVec 8)} (hencode : encodeInstruction mi = some (bytes, [])) :
    mi.RoundTrips table16 table32 bytes := by
  cases hmi with
  | plain hop =>
      rw [encodeInstruction_plain hop] at hencode
      rw [← (Prod.mk.inj (Option.some.inj hencode)).1, roundTrips_two_iff]
      exact decodeInstruction_plain table16 hop
  | wholeField hop hk =>
      rw [encodeInstruction_wholeField hop] at hencode
      rw [← (Prod.mk.inj (Option.some.inj hencode)).1, roundTrips_two_iff,
        decodeInstruction_wholeField table16 hop, ofNat_mod_eq_iff.mpr hk]
  | statusBranch hop hs =>
      rw [encodeInstruction_statusBranch hop] at hencode
      rw [← (Prod.mk.inj (Option.some.inj hencode)).1, roundTrips_two_iff]
      exact (decodeInstruction_statusBranch_iff table16 hop).mpr ⟨hs, rfl⟩

/-- The sizes of the formats. -/
theorem getSize_cases (op : Opcode) :
    op.getSize = 1 ∨ op.getSize = 2 ∨ op.getSize = 3 ∨ op.getSize = 4 := by
  unfold Opcode.getSize
  cases op.format <;> simp [InstrFormat.size]

end

/-- **Which encoded instructions come back** from the disassembler, with any decoder tables. -/
theorem roundTrips_iff (table16 : DecoderTable decoderTable16)
    (table32 : DecoderTable decoderTable32) (mi : MCInst) (hwt : mi.WellTyped)
    {bytes : List (BitVec 8)} (hencode : encodeInstruction mi = some (bytes, [])) :
    mi.RoundTrips table16 table32 bytes ↔ mi.DecodesBack := by
  constructor
  · intro h
    obtain ⟨value, -, hbytes⟩ := encodeInstruction_eq_some hencode
    rcases getSize_cases mi.opcode with hsize | hsize | hsize | hsize <;>
      rw [hsize] at hbytes
    · rw [hbytes] at h
      exact absurd h (not_roundTrips_nil mi)
    · rw [emitInstruction_two] at hbytes
      subst hbytes
      exact decodesBack_of_two hwt hencode h
    · -- of three bytes, one word is emitted
      rw [show emitInstruction value 3 = emitInstruction value 2 from rfl,
        emitInstruction_two] at hbytes
      subst hbytes
      exact decodesBack_of_two hwt hencode h
    · rw [emitInstruction_four] at hbytes
      subst hbytes
      exact absurd h (not_roundTrips_four hwt hencode)
  · intro h
    exact h.roundTrips hencode

/-- `SEP 0x30` comes back, whatever follows it. -/
theorem roundTrips_SEP :
    MCInst.RoundTrips ⟨.SEP, [.imm 0x30]⟩ (Decoder.mostSpecific _ _ _)
      (Decoder.mostSpecific _ _ _) [0x30, 0xE2] :=
  (roundTrips_iff _ _ ⟨.SEP, [.imm 0x30]⟩ ⟨[], rfl, trivial⟩ (by decide)).mpr
    (.wholeField rfl (by decide))

/-- **Not every instruction comes back**: of `mov A, X` the registers are lost. -/
theorem not_roundTrips_MOVRdRr :
    (MCInst.mk .MOVRdRr [.reg .A, .reg .X]).WellTyped ∧
      encodeInstruction ⟨.MOVRdRr, [.reg .A, .reg .X]⟩ = some ([0x01, 0x2C], []) ∧
      ¬ MCInst.RoundTrips ⟨.MOVRdRr, [.reg .A, .reg .X]⟩ (Decoder.mostSpecific _ _ _)
        (Decoder.mostSpecific _ _ _) [0x01, 0x2C] := by
  refine ⟨⟨[.reg .X], by decide, [], by decide, trivial⟩, by decide, ?_⟩
  intro h
  have hbytes := h []
  revert hbytes
  decide +kernel

end Snes
