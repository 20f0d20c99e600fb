/-
# Legal Addressing Modes

`isLegalAddressingMode`, on whose answer the passes rely that shape addresses, beside
`SelectAddr`, which folds the addresses.  The first one takes an offset by its
magnitude, the second one as an unsigned number.
-/
import SnesBackend.AddressSelection

namespace Snes

/-! ## Addressing modes -/

/-- `TargetLowering::AddrMode`: `BaseGV + BaseOffs + BaseReg + Scale * ScaleReg`. -/
structure AddrMode where
  baseGV : Option ℕ
  baseOffs : BitVec 64
  hasBaseReg : Bool
  scale : BitVec 64
deriving DecidableEq, Repr

/-- `isLegalAddressingMode`.  Of the type it asks whether it is a pointer, of the address space
whether it is that of the program. -/
def isLegalAddressingMode (am : AddrMode) (isPointer isProgramMemory : Bool) : Bool :=
  let offs := am.baseOffs
  if am.baseGV.isSome && !am.hasBaseReg && am.scale == 0 && offs == 0 then true
  else if isPointer && isProgramMemory then false
  else
    let offs := if offs.slt 0 then -offs else offs
    am.baseGV.isNone && am.hasBaseReg && am.scale == 0 && decide (offs.toNat < 64)

/-- The two nodes that an offset can be added with. -/
inductive OffsetNode where
  | ADD | SUB
deriving DecidableEq, Repr

/-- The address of a base and an offset: the offset is added, or its negation is subtracted. -/
def OffsetNode.address (form : OffsetNode) (base : AddressExpr) (offs : BitVec 64) : AddressExpr :=
  match form with
  | ADD => .ADD base (.Constant (offs.setWidth 16))
  | SUB => .SUB base (.Constant ((-offs).setWidth 16))

/-- Both nodes have the value of the addressing mode. -/
theorem OffsetNode.eval_address (form : OffsetNode) (values : DAGValues) (base : AddressExpr)
    (offs : BitVec 64) :
    (form.address base offs).eval values = base.eval values + offs.setWidth 16 := by
  cases form with
  | ADD => rfl
  | SUB =>
      show base.eval values - (-offs).setWidth 16 = _
      rw [BitVec.setWidth_neg_of_le (by omega), BitVec.sub_neg]

/-- `SelectAddr` folds the address of a base and an offset into a base and a displacement, of the
same address. -/
def FoldsOffset {values : DAGValues} (known : KnownBits values) (vt : ValueType)
    (form : OffsetNode) (base : AddressExpr) (offs : BitVec 64) : Prop :=
  ∃ b d, selectAddr known (.memory (some vt)) (form.address base offs) = .operands [b, d] ∧
    b.eval values + d.eval values = base.eval values + offs.setWidth 16

/-- What is folded: any offset of a frame object, the offset zero, and a positive offset that is
added. -/
def OffsetNode.Foldable (form : OffsetNode) (base : AddressExpr) (offs : BitVec 64) : Prop :=
  (∃ index, base = .FrameIndex index) ∨ offs = 0 ∨ (form = .ADD ∧ 0 ≤ offs.toInt)

/-! ## What is legal and what is folded -/

/-- **The legal modes** of a base register alone: the magnitude of the offset has six bits. -/
theorem natAbs_lt_of_isLegal {am : AddrMode} (hreg : am.hasBaseReg = true) {isPointer : Bool}
    {isProgramMemory : Bool} (hlegal : isLegalAddressingMode am isPointer isProgramMemory = true) :
    am.baseOffs.toInt.natAbs < 64 := by
  have hoffs : (if am.baseOffs.slt 0 then -am.baseOffs else am.baseOffs).toNat < 64 := by
    unfold isLegalAddressingMode at hlegal
    rw [hreg] at hlegal
    split_ifs at hlegal <;> simp_all
  have hbound := am.baseOffs.isLt
  have hint := BitVec.toInt_eq_toNat_cond am.baseOffs
  split_ifs at hoffs with hneg
  · rw [BitVec.toNat_neg] at hoffs
    split_ifs at hint with hsmall <;> omega
  · split_ifs at hint with hsmall <;> omega

/-- An offset that is folded into a base without a frame index has six bits. -/
theorem foldOffset_eq_operands_iff {vt : ValueType} {base : AddressExpr}
    (hbase : ∀ index, base ≠ .FrameIndex index) (rhsc : ℤ) :
    (∃ b d, foldOffset (.memory (some vt)) base rhsc = .operands [b, d]) ↔
      0 ≤ rhsc ∧ rhsc < 64 := by
  have hfold : foldOffset (.memory (some vt)) base rhsc =
      if (0 ≤ rhsc ∧ rhsc < 64) ∧ (some vt).isSome then
        .operands [.node base, .targetConstant (BitVec.ofInt 16 rhsc)]
      else .noMatch := by
    cases base with
    | FrameIndex index => exact absurd rfl (hbase index)
    | _ => rfl
  rw [hfold]
  split_ifs with hsix
  · exact iff_of_true ⟨_, _, rfl⟩ hsix.1
  · refine iff_of_false ?_ fun hin => hsix ⟨hin, rfl⟩
    rintro ⟨b, d, ⟨⟩⟩

/-- An address that is folded keeps its value. -/
theorem foldsOffset_iff {values : DAGValues} (known : KnownBits values) (vt : ValueType)
    (form : OffsetNode) (base : AddressExpr) (offs : BitVec 64) :
    FoldsOffset known vt form base offs ↔
      ∃ b d, selectAddr known (.memory (some vt)) (form.address base offs) = .operands [b, d] := by
  constructor
  · rintro ⟨b, d, hfold, -⟩
    exact ⟨b, d, hfold⟩
  · rintro ⟨b, d, hfold⟩
    refine ⟨b, d, hfold, ?_⟩
    rw [← form.eval_address]
    exact rightFor_selectAddr known _ _ b d hfold

/-- **When a legal addressing mode is folded.**  With a base register, a legal mode has no global
and no scale. -/
theorem foldsOffset_iff_foldable {values : DAGValues} (known : KnownBits values) (vt : ValueType)
    (form : OffsetNode) (base : AddressExpr) (am : AddrMode) (isPointer isProgramMemory : Bool)
    (hreg : am.hasBaseReg = true)
    (hlegal : isLegalAddressingMode am isPointer isProgramMemory = true) :
    FoldsOffset known vt form base am.baseOffs ↔ form.Foldable base am.baseOffs := by
  have hlt := natAbs_lt_of_isLegal hreg hlegal
  rw [foldsOffset_iff]
  unfold OffsetNode.Foldable
  by_cases hframe : ∃ index, base = .FrameIndex index
  · obtain ⟨index, rfl⟩ := hframe
    refine iff_of_true ?_ (.inl ⟨index, rfl⟩)
    cases form with
    | ADD => exact ⟨_, _, rfl⟩
    | SUB => exact ⟨_, _, rfl⟩
  · have hbase : ∀ index, base ≠ .FrameIndex index := fun index h => hframe ⟨index, h⟩
    have hbound := am.baseOffs.isLt
    have hint := BitVec.toInt_eq_toNat_cond am.baseOffs
    have hzero : am.baseOffs = 0 ↔ am.baseOffs.toNat = 0 := by
      rw [← BitVec.toNat_inj]
      rfl
    rw [or_iff_right hframe, hzero]
    cases form with
    | ADD =>
        refine (foldOffset_eq_operands_iff hbase _).trans ?_
        rw [BitVec.toNat_setWidth]
        split_ifs at hint with hsmall
        · simp
          omega
        · simp
          omega
    | SUB =>
        refine (foldOffset_eq_operands_iff hbase _).trans ?_
        rw [BitVec.toNat_setWidth, BitVec.toNat_neg]
        split_ifs at hint with hsmall
        · simp
          omega
        · simp
          omega

/-- The largest offset, added to a base that is any node. -/
theorem foldsOffset_sixtyThree :
    isLegalAddressingMode ⟨none, 63, true, 0⟩ false false = true ∧
      FoldsOffset (noKnownBits ⟨fun _ => 0, fun _ => 0, fun _ => 0⟩) .i16 .ADD (.other 0) 63 :=
  ⟨by decide, (foldsOffset_iff_foldable _ .i16 .ADD (.other 0) ⟨none, 63, true, 0⟩ false false rfl
    (by decide)).mpr (.inr (.inr ⟨rfl, by decide⟩))⟩

/-- The offset minus one is legal, and neither node folds it. -/
theorem not_foldsOffset_minusOne :
    isLegalAddressingMode ⟨none, -1, true, 0⟩ false false = true ∧
      ¬ FoldsOffset (noKnownBits ⟨fun _ => 0, fun _ => 0, fun _ => 0⟩) .i16 .ADD (.other 0)
        (-1) ∧
      ¬ FoldsOffset (noKnownBits ⟨fun _ => 0, fun _ => 0, fun _ => 0⟩) .i16 .SUB (.other 0)
        (-1) := by
  refine ⟨by decide, ?_, ?_⟩
  · rw [foldsOffset_iff]
    rintro ⟨b, d, ⟨⟩⟩
  · rw [foldsOffset_iff]
    rintro ⟨b, d, ⟨⟩⟩

end Snes
