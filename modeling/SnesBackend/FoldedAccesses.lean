/-
# Accesses with a Folded Displacement

Loads and stores whose address `SelectAddr` folds into a base register and a displacement of
six bits: the displaced accesses that the passes leave of them, and the pointer bit and the
displacement bits that these are encoded with.  The second byte of a word is one further,
and the pointer bit tells `A` from `X` only.
-/
import SnesBackend.AddressSelection
import SnesBackend.LayoutBits
import SnesBackend.MCInstLower
import SnesBackend.RegScavenger
import SnesBackend.SelectionPatterns

namespace Snes

open MCInstLower

/-! ## Folded accesses -/

/-- The kinds of accesses. -/
inductive AccessKind where
  | load | store
deriving DecidableEq, Repr

/-- An access of memory whose address `SelectAddr` folds, with the registers that the data and the
base of the address are assigned to. -/
structure FoldedAccess where
  kind : AccessKind
  type : ValueType
  data : WordReg
  base : WordReg
  values : DAGValues
  known : KnownBits values
  address : AddressExpr
  baseNode : AddressExpr
  q : BitVec 16
  folded : selectAddr known (.memory (some type)) address =
    .operands [.node baseNode, .targetConstant q]

namespace FoldedAccess

/-- The instruction of the access: the byte-wide one, or the pseudo for words. -/
def instr (a : FoldedAccess) : MachineInstr :=
  match a.kind with
  | .load => ⟨if a.type = .i8 then .LDDRdPtrQ else .LDDWRdPtrQ,
      [.reg (.word a.data), .reg (.word a.base), .imm (a.q.setWidth 64)]⟩
  | .store => ⟨if a.type = .i8 then .STDPtrQRr else .STDWPtrQRr,
      [.reg (.word a.base), .imm (a.q.setWidth 64), .reg (.word a.data)]⟩

/-- The displacements of the bytes. -/
def displacements (a : FoldedAccess) : List (BitVec 64) :=
  match a.type with
  | .i8 => [a.q.setWidth 64]
  | .i16 => [a.q.setWidth 64, a.q.setWidth 64 + 1]

end FoldedAccess

/-! ## Encoded accesses -/

/-- The pointer register and the displacement of a displaced access. -/
def MachineInstr.memriOperand (mi : MachineInstr) : Option (Reg × BitVec 64) :=
  match mi.opcode, mi.operands with
  | .LDDRdPtrQ, [.reg _, .reg ptr, .imm q] => some (ptr, q)
  | .STDPtrQRr, [.reg ptr, .imm q, .reg _] => some (ptr, q)
  | _, _ => none

/-- The pointer register in the code of a displaced access, `Inst{3}`. -/
def encodedPointer (code : BitVec 64) : Reg :=
  if code.getLsbD 3 then .X else .A

/-- The displacement in the code of a displaced access, `Inst{13}`, `Inst{11-10}` and
`Inst{2-0}`. -/
def encodedDisplacement (code : BitVec 64) : BitVec 6 :=
  code.extractLsb' 13 1 ++ code.extractLsb' 10 2 ++ code.extractLsb' 0 3

/-- A displaced access is encoded with its pointer register and its displacement. -/
def MachineInstr.EncodedRight (printer : AsmPrinter) (mi : MachineInstr) : Prop :=
  ∀ ptr q, mi.memriOperand = some (ptr, q) →
    ∃ inst code fixups, lowerInstruction printer mi = some inst ∧
      getBinaryCodeForInstr inst = some (code, fixups) ∧ encodedPointer code = ptr ∧
      (encodedDisplacement code).toNat = q.toNat

/-- An access takes the right bytes: the displaced accesses that the passes leave of it have its
base and the displacements of its bytes, and are encoded with them. -/
def FoldedAccess.TakesRightBytes (a : FoldedAccess) (live : LiveUnits) (printer : AsmPrinter) :
    Prop :=
  ∃ mis, lowerPseudos (fun _ => scavengeMainRegs live) [a.instr] = some mis ∧
    mis.filterMap MachineInstr.memriOperand = a.displacements.map (fun q => (.word a.base, q)) ∧
    ∀ mi ∈ mis, mi.EncodedRight printer

/-- When an access takes the right bytes: its base is not `Y`, the second byte of a word has a
displacement of six bits too, and a word that is loaded into its own base finds a register to go
through. -/
def FoldedAccess.RightWhen (a : FoldedAccess) (live : LiveUnits) : Prop :=
  a.base ≠ .Y ∧ (a.type = .i16 → a.q.toNat ≤ 62) ∧
    (a.type = .i16 → a.kind = .load → a.data = a.base → ∃ r, r ≠ a.base ∧ live.Dead r)

/-! ## The code of a displaced access -/

/-- The pointer bit is bit 6 of the `memri` field. -/
theorem pointer_fSTDLDD (type : BitVec 1) (fields : OpName → BitVec 32) :
    ((InstrFormat.fSTDLDD type).code fields).getLsbD 3 = (fields .memri).getLsbD 6 := by
  rw [InstrFormat.getLsbD_code]
  simp [InstrFormat.inst, layoutBit, layoutWidth, InstBits.width, InstBits.bit]

/-- The displacement bits are the low six bits of the field. -/
theorem displacement_fSTDLDD (type : BitVec 1) (fields : OpName → BitVec 32) :
    encodedDisplacement ((InstrFormat.fSTDLDD type).code fields) =
      (fields .memri).setWidth 6 := by
  apply BitVec.eq_of_getLsbD_eq
  intro i hi
  simp only [encodedDisplacement, BitVec.getLsbD_append, BitVec.getLsbD_extractLsb',
    InstrFormat.getLsbD_code]
  interval_cases i <;>
    simp [InstrFormat.inst, layoutBit, layoutWidth, InstBits.width, InstBits.bit]

/-- The field of a `memri` operand: the pointer bit above the sign-extended displacement. -/
def memriField (pointer : Bool) (q : BitVec 64) : BitVec 32 :=
  ((BitVec.ofBool pointer).setWidth 32 <<< 6) ||| (q.setWidth 8).signExtend 32

/-- `encodeMemri` on a main register. -/
theorem encodeMemri_word (base : WordReg) (q : BitVec 64) :
    encodeMemri (.reg (.word base)) (.imm q) =
      if base = .Y then none else some (memriField (base = .X) q, []) := by
  cases base <;> rfl

/-- The displacement bits of the field are those of the displacement. -/
theorem setWidth_memriField (pointer : Bool) (q : BitVec 64) :
    (memriField pointer q).setWidth 6 = q.setWidth 6 := by
  apply BitVec.eq_of_getLsbD_eq
  intro i hi
  simp [memriField, BitVec.getElem_signExtend, hi, show i < 8 by omega, show i < 32 by omega]

/-- The pointer bit of the field, for a displacement of six bits. -/
theorem getLsbD_memriField (pointer : Bool) {q : BitVec 64} (hq : q.toNat < 64) :
    (memriField pointer q).getLsbD 6 = pointer := by
  have hbit : q[6] = false := by
    rw [← BitVec.getLsbD_eq_getElem, ← BitVec.testBit_toNat]
    exact Nat.testBit_lt_two_pow hq
  cases pointer <;> simp [memriField, BitVec.getElem_signExtend, hbit]

/-- A code with a given `memri` field shows pointer and displacement exactly when the displacement
has six bits. -/
theorem shows_memriField_iff {base : WordReg} (hbase : base ≠ .Y) (type : BitVec 1)
    {fields : OpName → BitVec 32} {q : BitVec 64} (h : fields .memri = memriField (base = .X) q) :
    (encodedPointer ((InstrFormat.fSTDLDD type).code fields) = .word base ∧
      (encodedDisplacement ((InstrFormat.fSTDLDD type).code fields)).toNat = q.toNat) ↔
      q.toNat < 64 := by
  rw [displacement_fSTDLDD, encodedPointer, pointer_fSTDLDD, h, setWidth_memriField,
    BitVec.toNat_setWidth]
  constructor
  · rintro ⟨-, hq⟩
    omega
  · intro hq
    rw [getLsbD_memriField _ hq]
    refine ⟨?_, Nat.mod_eq_of_lt hq⟩
    cases base with
    | A | X => rfl
    | Y => exact absurd rfl hbase

/-- The code of an instruction with a `memri` and a register operand. -/
theorem getBinaryCodeForInstr_memri {inst : MCInst} {type : BitVec 1} {m n : ℕ}
    (hformat : (desc inst.opcode).format = .fSTDLDD type)
    (hassigned : (desc inst.opcode).fieldOperands =
      some [(.memri, m, .memri), (.reg, n, .reg .mainRegs)]) {ptr q reg : MCOperand}
    (hptr : inst.operands[m]? = some ptr) (hq : inst.operands[m + 1]? = some q)
    (hreg : inst.operands[n]? = some reg) :
    getBinaryCodeForInstr inst = (encodeMemri ptr q).bind fun memri =>
      (getMachineOpValue reg).map fun value =>
        ((InstrFormat.fSTDLDD type).code (fieldValue [(.memri, memri), (.reg, value)]),
          memri.2 ++ value.2) := by
  have hfields : encodeFields inst [(.memri, m, .memri), (.reg, n, .reg .mainRegs)] =
      (encodeMemri ptr q).bind fun memri =>
        (getMachineOpValue reg).map fun value => [(.memri, memri), (.reg, value)] := by
    simp only [encodeFields, OperandType.encode, hptr, hq, hreg, Option.bind_some]
    cases encodeMemri ptr q <;> cases getMachineOpValue reg <;> rfl
  have hpost : inst.opcode.format.hasLoadStorePostEncoder = false := by
    rw [Opcode.format, hformat]
    rfl
  simp only [getBinaryCodeForInstr, hassigned, hfields, Option.bind_some, hpost, InstrFormat.code]
  rw [Opcode.format, hformat]
  cases encodeMemri ptr q <;> cases getMachineOpValue reg <;> simp

/-- The displaced accesses: a load of a register, and a store of one. -/
inductive Displaced (base : WordReg) (q : BitVec 64) : MachineInstr → Prop where
  | load (d : Reg) : Displaced base q ⟨.LDDRdPtrQ, [.reg d, .reg (.word base), .imm q]⟩
  | store (r : Reg) : Displaced base q ⟨.STDPtrQRr, [.reg (.word base), .imm q, .reg r]⟩

/-- The pointer and the displacement of a displaced access. -/
theorem memriOperand_eq_iff {base : WordReg} {q : BitVec 64} {mi : MachineInstr} :
    mi.memriOperand = some (.word base, q) ↔ Displaced base q mi := by
  constructor
  · intro h
    obtain ⟨op, operands⟩ := mi
    unfold MachineInstr.memriOperand at h
    split at h
    · next d ptr k hop hoperands =>
      obtain ⟨rfl, rfl⟩ := Prod.mk.inj (Option.some.inj h)
      obtain rfl : op = .LDDRdPtrQ := hop
      obtain rfl : operands = _ := hoperands
      exact .load d
    · next ptr k r hop hoperands =>
      obtain ⟨rfl, rfl⟩ := Prod.mk.inj (Option.some.inj h)
      obtain rfl : op = .STDPtrQRr := hop
      obtain rfl : operands = _ := hoperands
      exact .store r
    · cases h
  · intro h
    cases h <;> rfl

/-- The code of a displaced access. -/
theorem Displaced.exists_code {base : WordReg} {q : BitVec 64} {mi : MachineInstr}
    (h : Displaced base q mi) (printer : AsmPrinter) :
    ∃ inst type, ∃ value : BitVec 32, lowerInstruction printer mi = some inst ∧
      getBinaryCodeForInstr inst =
        if base = .Y then none
        else some ((InstrFormat.fSTDLDD type).code
          (fieldValue [(.memri, memriField (base = .X) q, []), (.reg, value, [])]), []) := by
  cases h with
  | load d =>
      refine ⟨⟨.LDDRdPtrQ, [.reg d, .reg (.word base), .imm q]⟩, 0,
        BitVec.ofNat 32 d.hwEncoding, rfl, ?_⟩
      rw [getBinaryCodeForInstr_memri rfl rfl rfl rfl rfl, encodeMemri_word]
      split_ifs <;> rfl
  | store r =>
      refine ⟨⟨.STDPtrQRr, [.reg (.word base), .imm q, .reg r]⟩, 1,
        BitVec.ofNat 32 r.hwEncoding, rfl, ?_⟩
      rw [getBinaryCodeForInstr_memri rfl rfl rfl rfl rfl, encodeMemri_word]
      split_ifs <;> rfl

/-- **When a displaced access is encoded right**: its pointer is not `Y`, and its displacement has
six bits. -/
theorem Displaced.encodedRight_iff {base : WordReg} {q : BitVec 64} {mi : MachineInstr}
    (h : Displaced base q mi) (printer : AsmPrinter) :
    mi.EncodedRight printer ↔ base ≠ .Y ∧ q.toNat < 64 := by
  obtain ⟨inst, type, value, hlower, hcode⟩ := h.exists_code printer
  constructor
  · intro hright
    obtain ⟨inst', code, fixups, hlower', hcode', hshown⟩ := hright _ _ (memriOperand_eq_iff.mpr h)
    obtain rfl := Option.some.inj (hlower.symm.trans hlower')
    rw [hcode, Option.ite_none_left_eq_some] at hcode'
    obtain ⟨hbase, heq⟩ := hcode'
    obtain ⟨rfl, -⟩ := Prod.mk.inj (Option.some.inj heq)
    exact ⟨hbase, (shows_memriField_iff hbase type rfl).mp hshown⟩
  · rintro ⟨hbase, hq⟩ ptr q' hmemri
    obtain ⟨rfl, rfl⟩ :=
      Prod.mk.inj (Option.some.inj ((memriOperand_eq_iff.mpr h).symm.trans hmemri))
    rw [if_neg hbase] at hcode
    exact ⟨inst, _, _, hlower, hcode, (shows_memriField_iff hbase type rfl).mpr hq⟩

/-! ## What the passes leave of an access -/

/-- A folded displacement has six bits. -/
theorem toNat_lt_of_selectAddr {values : DAGValues} {known : KnownBits values} {user : AddressUser}
    {n base : AddressExpr} {q : BitVec 16}
    (h : selectAddr known user n = .operands [.node base, .targetConstant q]) : q.toNat < 64 := by
  have hfold {n : AddressExpr} {rhsc : ℤ}
      (h : foldOffset user n rhsc = .operands [.node base, .targetConstant q]) : q.toNat < 64 := by
    unfold foldOffset at h
    split at h
    · simp at h
    · cases h
    · split_ifs at h with hrange
      simp only [Selection.operands.injEq, List.cons.injEq, SelectedOperand.targetConstant.injEq,
        and_true] at h
      obtain ⟨-, rfl⟩ := h
      rw [BitVec.toNat_ofInt]
      omega
  unfold selectAddr at h
  split at h
  · simp at h
  · exact hfold h
  · exact hfold h
  · split_ifs at h
    exact hfold h
  · cases h

/-- A displacement of six bits as an `unsigned`. -/
theorem ofUnsigned_toUnsigned_of_lt {k : BitVec 64} (hk : k.toNat < 64) :
    ofUnsigned (toUnsigned k) = .imm k ∧ ofUnsigned (toUnsigned k + 1) = .imm (k + 1) := by
  constructor
  · refine congrArg MachineOperand.imm (BitVec.eq_of_toNat_eq ?_)
    simp only [toUnsigned, BitVec.toNat_setWidth]
    omega
  · refine congrArg MachineOperand.imm (BitVec.eq_of_toNat_eq ?_)
    have hone : (1 : BitVec 32).toNat = 1 ∧ (1 : BitVec 64).toNat = 1 := ⟨rfl, rfl⟩
    simp only [toUnsigned, BitVec.toNat_setWidth, BitVec.toNat_add, hone]
    omega

/-- A store of a word with a displacement in range. -/
theorem expandMI_STDWPtrQRr (scavenge : MachineInstr → Option Reg) (base src : WordReg)
    {k : BitVec 64} (hk : toUnsigned k ≤ 63) :
    expandMI scavenge ⟨.STDWPtrQRr, [.reg (.word base), .imm k, .reg (.word src)]⟩ =
      .expanded [⟨.STDPtrQRr, [.reg (.word base), ofUnsigned (toUnsigned k),
          .reg (.byte src.subLo)]⟩,
        ⟨.STDPtrQRr, [.reg (.word base), ofUnsigned (toUnsigned k + 1),
          .reg (.byte src.subHi)]⟩] := by
  have hsome : ExpandPseudo.expandSTDWPtrQRr
      ⟨.STDWPtrQRr, [.reg (.word base), .imm k, .reg (.word src)]⟩ =
        some [⟨.STDPtrQRr, [.reg (.word base), ofUnsigned (toUnsigned k),
            .reg (.byte src.subLo)]⟩,
          ⟨.STDPtrQRr, [.reg (.word base), ofUnsigned (toUnsigned k + 1),
            .reg (.byte src.subHi)]⟩] := by
    simp only [ExpandPseudo.expandSTDWPtrQRr, MachineInstr.getReg, MachineInstr.getImm,
      List.getElem?_cons_zero, List.getElem?_cons_succ, Reg.splitReg, Option.bind_eq_bind,
      Option.bind_some, guard_of_pos hk]
    rfl
  exact congrArg ExpandResult.ofOption hsome

/-- A store with a displacement in range is not relaxed. -/
theorem relaxMem_STDWPtrQRr_of_lt (base src : WordReg) {k : BitVec 64} (hk : k.toNat < 64) :
    relaxMem ⟨.STDWPtrQRr, [.reg (.word base), .imm k, .reg (.word src)]⟩ =
      [⟨.STDWPtrQRr, [.reg (.word base), .imm k, .reg (.word src)]⟩] := by
  have hle : ¬ 63 < k.toInt := by
    rw [BitVec.toInt_eq_toNat_of_lt (by omega)]
    omega
  simp [relaxMem, relaxSTDWPtrQRr, MachineInstr.getReg, MachineInstr.getImm, hle]

namespace FoldedAccess

variable (a : FoldedAccess)

/-- The displacement as an immediate. -/
theorem toNat_setWidth_q_lt : (a.q.setWidth 64).toNat < 64 := by
  have hq := toNat_lt_of_selectAddr a.folded
  rw [BitVec.toNat_setWidth]
  omega

/-- It stays within the assertions of the expansions. -/
theorem toUnsigned_q_le : toUnsigned (a.q.setWidth 64) ≤ 63 := by
  have hq := a.toNat_setWidth_q_lt
  rw [BitVec.le_def, toUnsigned, BitVec.toNat_setWidth]
  change _ ≤ 63
  omega

/-- The displaced accesses among instructions are those of the bytes of the access. -/
def Left (mis : List MachineInstr) : Prop :=
  mis.filterMap MachineInstr.memriOperand = a.displacements.map fun q => (.word a.base, q)

/-- The passes on an instruction that is expanded in one round and not relaxed. -/
theorem lowerPseudos_of_expanded {scavenge : MachineInstr → Option Reg} {mi : MachineInstr}
    {mis : List MachineInstr} (hrelax : relaxMem mi = [mi])
    (hexpand : expandMI scavenge mi = .expanded mis) (hmis : NoPseudos mis) :
    lowerPseudos (fun _ => scavenge) [mi] = some mis := by
  rw [lowerPseudos, List.flatMap_singleton, hrelax]
  exact runOnMachineFunction_singleton.mp (runOnMachineFunction_of_expanded hexpand hmis)

/-- The pass leaves a byte-wide access alone. -/
theorem exists_left_of_i8 (htype : a.type = .i8) (scavenge : Scavenger) :
    ∃ mis, lowerPseudos scavenge [a.instr] = some mis ∧ a.Left mis := by
  have hnoPseudos : NoPseudos [a.instr] := by
    refine .cons ?_ noPseudos_nil
    cases hkind : a.kind <;> simp [instr, hkind, htype] <;> rfl
  have hrelax : relaxMem a.instr = [a.instr] := by
    apply relaxMem_of_ne
    cases hkind : a.kind <;> simp [instr, hkind, htype]
  refine ⟨[a.instr], ?_, ?_⟩
  · rw [lowerPseudos, List.flatMap_singleton, hrelax]
    exact RoundRewriting.rewriteRounds_of_unchanged
      (rewriteRound_of_noPseudos scavenge [] hnoPseudos)
  · cases hkind : a.kind <;>
      simp [Left, displacements, instr, hkind, htype, MachineInstr.memriOperand]

/-- A store of a word is not relaxed, and expanded to two displaced stores. -/
theorem exists_left_of_store (hkind : a.kind = .store) (htype : a.type = .i16)
    (scavenge : MachineInstr → Option Reg) :
    ∃ mis, lowerPseudos (fun _ => scavenge) [a.instr] = some mis ∧ a.Left mis := by
  have hinstr : a.instr = ⟨.STDWPtrQRr,
      [.reg (.word a.base), .imm (a.q.setWidth 64), .reg (.word a.data)]⟩ := by
    simp [instr, hkind, htype]
  have hexpand := expandMI_STDWPtrQRr scavenge a.base a.data a.toUnsigned_q_le
  obtain ⟨hlow, hhigh⟩ := ofUnsigned_toUnsigned_of_lt a.toNat_setWidth_q_lt
  rw [hlow, hhigh] at hexpand
  have hrelax := relaxMem_STDWPtrQRr_of_lt a.base a.data a.toNat_setWidth_q_lt
  rw [hinstr]
  refine ⟨_, lowerPseudos_of_expanded hrelax hexpand (noPseudos_pair rfl rfl), ?_⟩
  rw [Left, displacements, htype]
  rfl

/-- A load of a word is expanded to two displaced loads, where a register is found if the load is
through its own destination. -/
theorem exists_left_of_load (hkind : a.kind = .load) (htype : a.type = .i16)
    {scavenge : MachineInstr → Option Reg}
    (hfound : a.data = a.base → (scavenge a.instr).isSome = true) :
    ∃ mis, lowerPseudos (fun _ => scavenge) [a.instr] = some mis ∧ a.Left mis := by
  have hinstr : a.instr = ⟨.LDDWRdPtrQ,
      [.reg (.word a.data), .reg (.word a.base), .imm (a.q.setWidth 64)]⟩ := by
    simp [instr, hkind, htype]
  have hrelax : relaxMem ⟨.LDDWRdPtrQ,
      [.reg (.word a.data), .reg (.word a.base), .imm (a.q.setWidth 64)]⟩ = [_] :=
    relaxMem_of_ne (by simp)
  obtain ⟨hlow, hhigh⟩ := ofUnsigned_toUnsigned_of_lt a.toNat_setWidth_q_lt
  rw [hinstr] at hfound ⊢
  by_cases hself : a.data = a.base
  · obtain ⟨tmpReg, htmp⟩ := Option.isSome_iff_exists.mp (hfound hself)
    rw [hself] at htmp hrelax ⊢
    have hexpand : expandMI scavenge ⟨.LDDWRdPtrQ,
        [.reg (.word a.base), .reg (.word a.base), .imm (a.q.setWidth 64)]⟩ = _ :=
      congrArg ExpandResult.ofOption (expandLDDWRdPtrQ_self a.base a.toUnsigned_q_le .LDDWRdPtrQ)
    rw [htmp, hlow, hhigh] at hexpand
    refine ⟨_, lowerPseudos_of_expanded hrelax hexpand ?_, ?_⟩
    · exact .cons rfl (.cons rfl (.cons rfl (noPseudos_pair rfl rfl)))
    · rw [Left, displacements, htype]
      rfl
  · have hexpand : expandMI scavenge ⟨.LDDWRdPtrQ,
        [.reg (.word a.data), .reg (.word a.base), .imm (a.q.setWidth 64)]⟩ = _ :=
      congrArg ExpandResult.ofOption
        (expandLDDWRdPtrQ_of_ne hself a.toUnsigned_q_le .LDDWRdPtrQ)
    rw [hlow, hhigh] at hexpand
    refine ⟨_, lowerPseudos_of_expanded hrelax hexpand (noPseudos_pair rfl rfl), ?_⟩
    rw [Left, displacements, htype]
    rfl

/-- **Once the passes are through**, the access takes the right bytes when each displacement is
encoded right. -/
theorem takesRightBytes_iff_of_left {live : LiveUnits} (printer : AsmPrinter)
    {mis : List MachineInstr}
    (hlower : lowerPseudos (fun _ => scavengeMainRegs live) [a.instr] = some mis)
    (hleft : a.Left mis) :
    a.TakesRightBytes live printer ↔ ∀ q ∈ a.displacements, a.base ≠ .Y ∧ q.toNat < 64 := by
  constructor
  · rintro ⟨mis', hlower', -, hencoded⟩ q hq
    obtain rfl := Option.some.inj (hlower.symm.trans hlower')
    have hmem : (Reg.word a.base, q) ∈ mis.filterMap MachineInstr.memriOperand := by
      rw [hleft]
      exact List.mem_map_of_mem hq
    obtain ⟨mi, hmi, hmemri⟩ := List.mem_filterMap.mp hmem
    exact ((memriOperand_eq_iff.mp hmemri).encodedRight_iff printer).mp (hencoded mi hmi)
  · intro hright
    refine ⟨mis, hlower, hleft, fun mi hmi ptr q hmemri => ?_⟩
    have hmem : (ptr, q) ∈ mis.filterMap MachineInstr.memriOperand :=
      List.mem_filterMap.mpr ⟨mi, hmi, hmemri⟩
    rw [hleft] at hmem
    obtain ⟨q', hq, heq⟩ := List.mem_map.mp hmem
    obtain ⟨rfl, rfl⟩ := Prod.mk.inj heq
    exact ((memriOperand_eq_iff.mp hmemri).encodedRight_iff printer).mpr (hright _ hq) _ _ hmemri

/-- The displacements that are encoded right. -/
theorem forall_displacements_iff :
    (∀ q ∈ a.displacements, a.base ≠ .Y ∧ q.toNat < 64) ↔
      a.base ≠ .Y ∧ (a.type = .i16 → a.q.toNat ≤ 62) := by
  have hq := toNat_lt_of_selectAddr a.folded
  have hlow := a.toNat_setWidth_q_lt
  have hhigh : (a.q.setWidth 64 + 1).toNat = a.q.toNat + 1 := by
    have hone : (1 : BitVec 64).toNat = 1 := rfl
    rw [BitVec.toNat_add, BitVec.toNat_setWidth, hone]
    omega
  cases htype : a.type with
  | i8 =>
      simp only [displacements, htype, List.mem_singleton, forall_eq, hlow, and_true]
      simp
  | i16 =>
      simp only [displacements, htype, List.forall_mem_cons, hlow, hhigh, List.not_mem_nil,
        IsEmpty.forall_iff, implies_true, and_true, forall_const]
      constructor
      · rintro ⟨hbase, -, hlt⟩
        exact ⟨hbase, by omega⟩
      · rintro ⟨hbase, hle⟩
        exact ⟨hbase, hbase, by omega⟩

/-- A register is scavenged for a load of a word through its own destination when another main
register has no live half. -/
theorem isSome_scavengeMainRegs_instr_iff (hkind : a.kind = .load) (htype : a.type = .i16)
    (hself : a.data = a.base) (live : LiveUnits) :
    (scavengeMainRegs live a.instr).isSome = true ↔ ∃ r, r ≠ a.base ∧ live.Dead r := by
  have hinstr : a.instr =
      SelfLoad.instr ⟨a.base, some (a.q.setWidth 64), false, false⟩ := by
    simp [instr, SelfLoad.instr, hkind, htype, hself]
  rw [hinstr]
  exact isSome_scavengeMainRegs_iff live _

/-- Without a register the expansion fails. -/
theorem lowerPseudos_eq_none (hkind : a.kind = .load) (htype : a.type = .i16)
    (hself : a.data = a.base) {scavenge : MachineInstr → Option Reg}
    (hnone : scavenge a.instr = none) : lowerPseudos (fun _ => scavenge) [a.instr] = none := by
  have hinstr : a.instr = ⟨.LDDWRdPtrQ,
      [.reg (.word a.base), .reg (.word a.base), .imm (a.q.setWidth 64)]⟩ := by
    simp [instr, hkind, htype, hself]
  rw [hinstr] at hnone ⊢
  rw [lowerPseudos, List.flatMap_singleton, relaxMem_of_ne (by simp)]
  refine RoundRewriting.rounds_eq_none (fun before => ?_) 10 (List.mem_singleton_self _)
  have hfail : expandMI scavenge ⟨.LDDWRdPtrQ,
      [.reg (.word a.base), .reg (.word a.base), .imm (a.q.setWidth 64)]⟩ = _ :=
    congrArg ExpandResult.ofOption (expandLDDWRdPtrQ_self a.base a.toUnsigned_q_le .LDDWRdPtrQ)
  rw [hnone] at hfail
  exact congrArg ExpandResult.toStep hfail

/-- **When an access takes the right bytes**, for every folded address, displacement and assignment
of registers. -/
theorem takesRightBytes_iff (live : LiveUnits) (printer : AsmPrinter) :
    a.TakesRightBytes live printer ↔ a.RightWhen live := by
  by_cases hfound : a.type = .i16 → a.kind = .load → a.data = a.base →
      ∃ r, r ≠ a.base ∧ live.Dead r
  · have hleft : ∃ mis, lowerPseudos (fun _ => scavengeMainRegs live) [a.instr] = some mis ∧
        a.Left mis := by
      cases htype : a.type with
      | i8 => exact a.exists_left_of_i8 htype _
      | i16 =>
          cases hkind : a.kind with
          | store => exact a.exists_left_of_store hkind htype _
          | load =>
              refine a.exists_left_of_load hkind htype fun hself => ?_
              rw [a.isSome_scavengeMainRegs_instr_iff hkind htype hself]
              exact hfound htype hkind hself
    obtain ⟨mis, hlower, hleft⟩ := hleft
    rw [a.takesRightBytes_iff_of_left printer hlower hleft, forall_displacements_iff, RightWhen,
      ← and_assoc, and_iff_left hfound]
  · refine iff_of_false ?_ fun h => hfound h.2.2
    rintro ⟨mis, hlower, -⟩
    simp only [Classical.not_imp] at hfound
    obtain ⟨htype, hkind, hself, hnone⟩ := hfound
    rw [← a.isSome_scavengeMainRegs_instr_iff hkind htype hself, Option.not_isSome_iff_eq_none]
      at hnone
    rw [a.lowerPseudos_eq_none hkind htype hself hnone] at hlower
    cases hlower

/-- A load of the word at `X + 63` into `A`. -/
def loadAtLast : FoldedAccess where
  kind := .load
  type := .i16
  data := .A
  base := .X
  values := ⟨fun _ => 0, fun _ => 0, fun _ => 0⟩
  known := noKnownBits _
  address := .ADD (.CopyFromReg (.virtual 0)) (.Constant 63)
  baseNode := .CopyFromReg (.virtual 0)
  q := 63
  folded := rfl

/-- Its second byte has the displacement 64, of which six bits are left. -/
theorem not_takesRightBytes_loadAtLast :
    ¬ loadAtLast.TakesRightBytes (fun _ => false) ⟨id, id, fun _ => false⟩ := by
  intro h
  obtain ⟨mis, hlower, hleft⟩ := loadAtLast.exists_left_of_load rfl rfl
    (fun hself => absurd hself (by decide : WordReg.A ≠ .X))
  have hright := (loadAtLast.takesRightBytes_iff_of_left _ hlower hleft).mp h
  have hle := (loadAtLast.forall_displacements_iff.mp hright).2 rfl
  exact absurd hle (by decide)

end FoldedAccess

/-! ## The addresses of the patterns -/

/-- An address as an expression over the registers that hold its parts. -/
def AccessAddress.toExpr : AccessAddress → AddressExpr
  | value ptr => .CopyFromReg (.physical (.word ptr))
  | ADD base c => .ADD (.CopyFromReg (.physical (.word base))) (.Constant c)
  | SUB base c => .SUB (.CopyFromReg (.physical (.word base))) (.Constant c)
  | constant k => .Constant k
  | SNESWrapper gv _ _ => .other gv

/-- The operands of an instruction for a folded register and displacement. -/
def Selection.registerAndDisplacement : Selection → Option (List MachineOperand)
  | .operands [.node (.CopyFromReg (.physical r)), .targetConstant q] =>
      some [.reg r, .imm (q.setWidth 64)]
  | _ => none

/-- A six-bit offset as a constant of 16 bits and as an immediate. -/
theorem setWidth_ofInt_of_lt {rhsc : ℤ} (h : 0 ≤ rhsc ∧ rhsc < 64) :
    (BitVec.ofInt 16 rhsc).setWidth 64 = BitVec.ofInt 64 rhsc := by
  apply BitVec.eq_of_toNat_eq
  rw [BitVec.toNat_setWidth, BitVec.toNat_ofInt, BitVec.toNat_ofInt]
  omega

/-- **The addresses of the patterns** are selected as expressions are. -/
theorem selectAddr_toExpr {values : DAGValues} (known : KnownBits values) (a : AccessAddress) :
    a.selectAddr = (selectAddr known (.memory (some .i16)) a.toExpr).registerAndDisplacement := by
  have hfold (base : WordReg) (rhsc : ℤ) :
      (if 0 ≤ rhsc ∧ rhsc < 64 then
        some [MachineOperand.reg (.word base), .imm (BitVec.ofInt 64 rhsc)] else none) =
      (foldOffset (.memory (some .i16)) (.CopyFromReg (.physical (.word base)))
        rhsc).registerAndDisplacement := by
    by_cases h : 0 ≤ rhsc ∧ rhsc < 64
    · simp [foldOffset, h, Selection.registerAndDisplacement, setWidth_ofInt_of_lt h]
    · simp [foldOffset, h, Selection.registerAndDisplacement]
  cases a with
  | ADD base c => exact hfold base c.toNat
  | SUB base c => exact hfold base (-c.toNat)
  | value | constant | SNESWrapper => rfl

end Snes
