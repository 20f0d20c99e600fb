/-
# Relative Branches

The twelve relative branches, the displacement that a fixup writes into them,
which displacements `adjustFixupValue` accepts, and which ones branch relaxation
(`isBranchOffsetInRange`) leaves to it.
-/
import SnesBackend.Fixups
import SnesBackend.LayoutBits

namespace Snes

open BytePatching

/-! ## The branches -/

/-- The relative branches with the operands in front of their target. -/
inductive RelBranch where
  | RJMPk | RCALLk
  | BRBSsk (s : BitVec 64) | BRBCsk (s : BitVec 64)
  | BREQk | BRNEk | BRSHk | BRLOk | BRMIk | BRPLk | BRGEk | BRLTk
deriving DecidableEq, Repr

namespace RelBranch

/-- The opcode of a branch. -/
def opcode : RelBranch → Opcode
  | RJMPk => .RJMPk
  | RCALLk => .RCALLk
  | BRBSsk _ => .BRBSsk
  | BRBCsk _ => .BRBCsk
  | BREQk => .BREQk
  | BRNEk => .BRNEk
  | BRSHk => .BRSHk
  | BRLOk => .BRLOk
  | BRMIk => .BRMIk
  | BRPLk => .BRPLk
  | BRGEk => .BRGEk
  | BRLTk => .BRLTk

/-- The instruction with a given target operand. -/
def mcInst (b : RelBranch) (target : MCOperand) : MCInst :=
  match b with
  | BRBSsk s | BRBCsk s => ⟨b.opcode, [.imm s, target]⟩
  | _ => ⟨b.opcode, [target]⟩

/-- The jump and the call have the long field. -/
def isJump : RelBranch → Bool
  | RJMPk | RCALLk => true
  | _ => false

/-- The fixup that is recorded for a symbolic target. -/
def fixupKind (b : RelBranch) : FixupKind :=
  if b.isJump then .fixup13Pcrel else .fixup7Pcrel

/-- The width of the displacement field. -/
def width (b : RelBranch) : ℕ :=
  (getFixupKindInfo b.fixupKind).targetSize

/-- The position of the displacement field. -/
def position (b : RelBranch) : ℕ :=
  (getFixupKindInfo b.fixupKind).targetOffset

/-- The displacement `k` in the bytes of a branch, read as a signed number. -/
def displacement (b : RelBranch) : List (BitVec 8) → ℤ
  | [low, high] => (((high ++ low) >>> b.position).setWidth b.width).toInt
  | _ => 0

/-- The mask that takes the sign bits off. -/
def fieldMask (b : RelBranch) : BitVec 64 :=
  if b.isJump then 0xfff else 0x7f

/-- A branch is conditional with a 7-bit field, or a jump or call with a 12-bit field. -/
theorem cond_or_jump (b : RelBranch) :
    (b.isJump = false ∧ b.fixupKind = .fixup7Pcrel ∧ b.width = 7 ∧ b.position = 3 ∧
      b.fieldMask = 0x7f) ∨
    (b.isJump = true ∧ b.fixupKind = .fixup13Pcrel ∧ b.width = 12 ∧ b.position = 0 ∧
      b.fieldMask = 0xfff) := by
  unfold width position fieldMask fixupKind
  cases b.isJump
  · exact Or.inl ⟨rfl, rfl, rfl, rfl, rfl⟩
  · exact Or.inr ⟨rfl, rfl, rfl, rfl, rfl⟩

end RelBranch

/-! ## Encoded branches -/

/-- The layouts of the relative branches have the field `k` at the position of the fixup. -/
theorem layoutBit_displacement (fields : OpName → BitVec 32) (hk : fields .k = 0) :
    (∀ f i, i < 12 → layoutBit fields (0 + i) (InstrFormat.fBRk f).inst = false) ∧
      (∀ f s i, i < 7 → layoutBit fields (3 + i) (InstrFormat.fBRsk f s).inst = false) ∧
      (∀ f i, i < 7 → layoutBit fields (3 + i) (InstrFormat.fSK f).inst = false) := by
  refine ⟨fun f i hi => ?_, fun f s i hi => ?_, fun f i hi => ?_⟩ <;> interval_cases i <;>
    simp [InstrFormat.inst, layoutBit, layoutWidth, InstBits.width, InstBits.bit, hk]

namespace RelBranch

/-- The encoded fields of a branch to a symbol. -/
def encodedFields (b : RelBranch) (e : MCExpr) : List (OpName × Encoded) :=
  match b with
  | BRBSsk s | BRBCsk s => [(.k, 0, [⟨0, e, b.fixupKind⟩]), (.s, s.setWidth 32, [])]
  | _ => [(.k, 0, [⟨0, e, b.fixupKind⟩])]

/-- The binary code of a branch to a symbol. -/
def code (b : RelBranch) (e : MCExpr) : BitVec 64 :=
  b.opcode.format.code (fieldValue (b.encodedFields e))

/-- **A branch to a symbol** is encoded with the fixup of its kind. -/
theorem encodeInstruction_expr (b : RelBranch) (e : MCExpr) :
    encodeInstruction (b.mcInst (.expr e)) =
      some ([byteOf (b.code e) 0, byteOf (b.code e) 1], [⟨0, e, b.fixupKind⟩]) := by
  cases b <;> exact encodeInstruction_eq_two _ rfl rfl rfl rfl

/-- The field of a branch to a symbol is empty. -/
theorem getLsbD_code (b : RelBranch) (e : MCExpr) {i : ℕ} (hi : i < b.width) :
    (b.code e).getLsbD (b.position + i) = false := by
  have hk : fieldValue (b.encodedFields e) .k = 0 := by cases b <;> rfl
  obtain ⟨jump, cond, status⟩ := layoutBit_displacement _ hk
  rw [code, InstrFormat.getLsbD_code]
  cases b
  case RJMPk | RCALLk => exact (congrArg _ (jump _ i hi)).trans (Bool.and_false _)
  case BRBSsk s | BRBCsk s => exact (congrArg _ (status _ i hi)).trans (Bool.and_false _)
  all_goals exact (congrArg _ (cond _ _ i hi)).trans (Bool.and_false _)

/-- **The displacement that a fixup writes** is the adjusted value in the width of the field. -/
theorem displacement_orBytes (b : RelBranch) (e : MCExpr) (adjusted : BitVec 64) :
    b.displacement (orBytes (adjusted <<< b.position) 0 b.fixupKind.numBytes
      [byteOf (b.code e) 0, byteOf (b.code e) 1]) = (adjusted.setWidth b.width).toInt := by
  have hbytes : b.fixupKind.numBytes = 2 ∧ b.position + b.width ≤ 16 := by
    rcases b.cond_or_jump with
      ⟨-, hkind, hwidth, hposition, -⟩ | ⟨-, hkind, hwidth, hposition, -⟩ <;>
      rw [hkind, hwidth, hposition] <;> decide
  obtain ⟨hbytes, hfield⟩ := hbytes
  rw [hbytes, orBytes_two, displacement, append_byteOf]
  congr 1
  apply BitVec.eq_of_getLsbD_eq
  intro i hi
  have empty := b.getLsbD_code e hi
  rw [BitVec.getLsbD_setWidth, BitVec.getLsbD_ushiftRight, BitVec.getLsbD_setWidth,
    BitVec.getLsbD_or, empty]
  have hi64 : i < 64 := by omega
  simp [hi, show b.position + i < 16 by omega, show b.position + i < 64 by omega,
    BitVec.getLsbD_eq_getElem hi64]

/-! ## Accepted values -/

/-- The value that the range check of a branch sees. -/
def checkedValue (temporary : Bool) (value : BitVec 64) : BitVec 64 :=
  if temporary then value + 2 else value

/-- The range check of a branch. -/
def InRange (b : RelBranch) (x : ℤ) : Prop :=
  -2 ^ b.width ≤ x ∧ x ≤ 2 ^ b.width - 1

/-- The range check in terms of `isIntN`. -/
theorem inRange_iff (b : RelBranch) (x : BitVec 64) :
    b.InRange x.toInt ↔ isIntN (b.width + 1) x = true := by
  have hwidth : b.width + 1 < 64 := by
    rcases b.cond_or_jump with ⟨-, -, hwidth, -, -⟩ | ⟨-, -, hwidth, -, -⟩ <;> omega
  rw [isIntN_eq_true_iff hwidth, InRange, minIntN, maxIntN, Nat.add_sub_cancel]

/-- The mask of a branch keeps the bits of its field. -/
theorem setWidth_and_fieldMask (b : RelBranch) (x : BitVec 64) :
    (x &&& b.fieldMask).setWidth b.width = x.setWidth b.width := by
  apply BitVec.eq_of_getLsbD_eq
  intro i hi
  have hone : b.fieldMask.getLsbD i = true := by
    rcases b.cond_or_jump with ⟨-, -, hwidth, -, hmask⟩ | ⟨-, -, hwidth, -, hmask⟩ <;>
      rw [hmask] <;> rw [hwidth] at hi <;> interval_cases i <;> rfl
  simp [hi, hone]

/-- **What the backend does with a branch**: a range check before the adjustment by two. -/
theorem adjustKind_eq (b : RelBranch) (x : BitVec 64) :
    (b.InRange x.toInt → adjustKind b.fixupKind x = .ok (((x - 2) >>> 1) &&& b.fieldMask)) ∧
      (¬ b.InRange x.toInt → ∃ err, adjustKind b.fixupKind x = .error err) := by
  rw [inRange_iff]
  have hcheck := Adjust.signedWidth_eq (b.width + 1) x "branch target"
  rcases b.cond_or_jump with ⟨-, hkind, hwidth, -, hmask⟩ | ⟨-, hkind, hwidth, -, hmask⟩ <;>
    rw [hwidth] at hcheck ⊢ <;> rw [hkind, hmask] <;> refine ⟨fun h => ?_, fun h => ?_⟩
  case inl.refine_1 | inr.refine_1 =>
    simp only [adjustKind, Adjust.fixup7Pcrel, Adjust.fixup13Pcrel, Adjust.adjustRelativeBranch,
      getFixupKindInfo, hcheck.1 h]
    rfl
  all_goals
    obtain ⟨err, herr⟩ := hcheck.2 h
    refine ⟨err, ?_⟩
    simp only [adjustKind, Adjust.fixup7Pcrel, Adjust.fixup13Pcrel, Adjust.adjustRelativeBranch,
      getFixupKindInfo, herr]
    rfl

/-! ## Where a branch goes -/

/-- The displacement that is written for an accepted value. -/
def writtenDisplacement (b : RelBranch) (x : BitVec 64) : ℤ :=
  (((x - 2) >>> 1).setWidth b.width).toInt

/-- The displacement that is written for a value in range: half of what is left after two are taken
away, except that the least two values wrap around. -/
theorem writtenDisplacement_eq (b : RelBranch) {x : BitVec 64} (h : b.InRange x.toInt) :
    b.writtenDisplacement x = if x.toInt < -2 ^ b.width + 2 then 2 ^ (b.width - 1) - 1
      else (x.toInt - 2) / 2 := by
  have hx := x.isLt
  have htwo : (2 : BitVec 64).toNat = 2 := rfl
  unfold InRange at h
  rw [BitVec.toInt_eq_toNat_cond] at h ⊢
  rw [writtenDisplacement, BitVec.toInt_setWidth, BitVec.toNat_ushiftRight, BitVec.toNat_sub,
    Nat.shiftRight_eq_div_pow, htwo]
  rcases b.cond_or_jump with ⟨-, -, hwidth, -, -⟩ | ⟨-, -, hwidth, -, -⟩ <;>
    rw [hwidth] at h ⊢ <;> simp only [Int.bmod] <;> omega

/-- A branch with displacement `k` at address `p` goes to `t`. -/
theorem target_eq_iff (p t : BitVec 64) {k : ℤ} (hlow : -2 ^ 61 ≤ k) (hhigh : k < 2 ^ 61) :
    p + 2 + BitVec.ofInt 64 (2 * k) = t ↔ 2 * k + 2 = (t - p).toInt := by
  have hsum : p + 2 + BitVec.ofInt 64 (2 * k) = p + BitVec.ofInt 64 (2 * k + 2) := by
    rw [BitVec.ofInt_add, BitVec.add_assoc, BitVec.add_comm 2]
    rfl
  have hcancel : p + BitVec.ofInt 64 (2 * k + 2) = t ↔ BitVec.ofInt 64 (2 * k + 2) = t - p := by
    constructor
    · rintro rfl
      rw [BitVec.add_comm, BitVec.add_sub_cancel]
    · intro h
      rw [h, BitVec.add_comm, BitVec.sub_add_cancel]
  rw [hsum, hcancel, ← BitVec.toInt_inj, BitVec.toInt_ofInt]
  rw [Int.bmod_eq_of_le (by omega) (by omega)]

/-! ## Fixups of branches -/

/-- The displacement `d` from a branch to its label is even and, less the two bytes of the branch,
half of it fits the field. -/
def Fits (b : RelBranch) (d : ℤ) : Prop :=
  (d - 2) % 2 = 0 ∧ -2 ^ (b.width - 1) ≤ (d - 2) / 2 ∧ (d - 2) / 2 < 2 ^ (b.width - 1)

/-- The fixup of a branch at `p` to a label at `t` is accepted exactly when the displacement fits,
and the branch then goes to `t`. -/
def FixupReaches (b : RelBranch) (e : MCExpr) (temporary : Bool) (p t : BitVec 64) : Prop :=
  ((∃ adjusted, adjustFixupValue b.fixupKind temporary (t - p) = .ok adjusted) ↔
      b.Fits (t - p).toInt) ∧
    ∀ data, resolvedFragment [] [] (b.mcInst (.expr e)) temporary (t - p) = some (.ok data) →
      p + 2 + BitVec.ofInt 64 (2 * b.displacement data) = t

/-- The accepted values and the displacements written for them. -/
theorem resolvedFragment_eq (b : RelBranch) (e : MCExpr) (temporary : Bool) (value : BitVec 64) :
    (b.InRange (checkedValue temporary value).toInt →
      (∃ adjusted, adjustFixupValue b.fixupKind temporary value = .ok adjusted) ∧
      ∃ data, resolvedFragment [] [] (b.mcInst (.expr e)) temporary value = some (.ok data) ∧
        b.displacement data = b.writtenDisplacement (checkedValue temporary value)) ∧
    (¬ b.InRange (checkedValue temporary value).toInt →
      (¬ ∃ adjusted, adjustFixupValue b.fixupKind temporary value = .ok adjusted) ∧
      ∃ err, resolvedFragment [] [] (b.mcInst (.expr e)) temporary value = some (.error err)) := by
  obtain ⟨hin, hout⟩ := b.adjustKind_eq (checkedValue temporary value)
  constructor
  · intro h
    have hadjust : adjustFixupValue b.fixupKind temporary value = _ := hin h
    refine ⟨⟨_, hadjust⟩, _, resolvedFragment_of_ok (b.encodeInstruction_expr e) hadjust ?_ [] [],
      ?_⟩
    · rcases b.cond_or_jump with ⟨-, hkind, -⟩ | ⟨-, hkind, -⟩ <;> rw [hkind] <;>
        exact Nat.le_refl 2
    · rw [List.nil_append, List.append_nil]
      exact (b.displacement_orBytes e _).trans (congrArg _ (b.setWidth_and_fieldMask _))
  · intro h
    obtain ⟨err, herr⟩ := hout h
    have hadjust : adjustFixupValue b.fixupKind temporary value = .error err := herr
    refine ⟨?_, err, resolvedFragment_of_error (b.encodeInstruction_expr e) hadjust [] []⟩
    rintro ⟨adjusted, hok⟩
    rw [hadjust] at hok
    exact absurd hok (by simp)

/-- The displacements that the fixup of a branch treats right: for an ordinary label the even ones
except the two at the ends of the range, and the odd ones outside it; for a temporary label, to
which two are added, only displacements that do not fit and are not accepted. -/
def AgreesAt (b : RelBranch) (temporary : Bool) (d : ℤ) : Prop :=
  if temporary then d < -2 ^ b.width - 2 ∨ d = 2 ^ b.width - 1 ∨ 2 ^ b.width < d
  else (d % 2 = 0 ∧ d ≠ -2 ^ b.width ∧ d ≠ 2 ^ b.width) ∨
    (d % 2 = 1 ∧ (d < -2 ^ b.width ∨ 2 ^ b.width ≤ d))

/-- The displacements that are written stay within 12 bits. -/
theorem writtenDisplacement_bounds (b : RelBranch) (x : BitVec 64) :
    -2 ^ 61 ≤ b.writtenDisplacement x ∧ b.writtenDisplacement x < 2 ^ 61 := by
  have hlow := BitVec.le_toInt (((x - 2) >>> 1).setWidth b.width)
  have hhigh := BitVec.toInt_lt (x := ((x - 2) >>> 1).setWidth b.width)
  unfold writtenDisplacement
  rcases b.cond_or_jump with ⟨-, -, hwidth, -⟩ | ⟨-, -, hwidth, -⟩ <;>
    rw [hwidth] at hlow hhigh ⊢ <;> omega

/-- The value that is checked, as an integer. -/
theorem toInt_checkedValue {b : RelBranch} {temporary : Bool} {v : BitVec 64}
    (h : b.InRange (checkedValue temporary v).toInt ∨ b.InRange (v.toInt + 2 * temporary.toNat)) :
    (checkedValue temporary v).toInt = v.toInt + 2 * temporary.toNat := by
  cases temporary with
  | false => simp [checkedValue]
  | true =>
      have hlow := BitVec.le_toInt v
      have hhigh := BitVec.toInt_lt (x := v)
      have htwo : (2 : BitVec 64).toInt = 2 := rfl
      simp only [checkedValue, if_true, Bool.toNat_true, BitVec.toInt_add, htwo, InRange] at h ⊢
      rcases b.cond_or_jump with ⟨-, -, hwidth, -⟩ | ⟨-, -, hwidth, -⟩ <;>
        rw [hwidth] at h <;> simp only [Int.bmod] at h ⊢ <;> omega

/-- An accepted branch is right when its displacement fits and is written as it is. -/
theorem fixupReaches_of_inRange {b : RelBranch} {e : MCExpr} {temporary : Bool} {p t : BitVec 64}
    (h : b.InRange (checkedValue temporary (t - p)).toInt) :
    b.FixupReaches e temporary p t ↔
      b.Fits (t - p).toInt ∧
        2 * b.writtenDisplacement (checkedValue temporary (t - p)) + 2 = (t - p).toInt := by
  obtain ⟨haccepted, data, hdata, hwritten⟩ := (b.resolvedFragment_eq e temporary (t - p)).1 h
  obtain ⟨hlow, hhigh⟩ := b.writtenDisplacement_bounds (checkedValue temporary (t - p))
  unfold FixupReaches
  rw [iff_true_left haccepted, hdata]
  apply and_congr_right'
  rw [← target_eq_iff p t hlow hhigh, ← hwritten]
  constructor
  · intro hall
    exact hall data rfl
  · intro htarget data' hdata'
    obtain rfl : data = data' := by simpa using hdata'
    exact htarget

/-- A refused branch is right when its displacement does not fit. -/
theorem fixupReaches_of_not_inRange {b : RelBranch} {e : MCExpr} {temporary : Bool}
    {p t : BitVec 64} (h : ¬ b.InRange (checkedValue temporary (t - p)).toInt) :
    b.FixupReaches e temporary p t ↔ ¬ b.Fits (t - p).toInt := by
  obtain ⟨hrefused, err, herr⟩ := (b.resolvedFragment_eq e temporary (t - p)).2 h
  unfold FixupReaches
  rw [iff_false_left hrefused, herr]
  apply and_iff_left
  intro data hdata
  exact absurd hdata (by simp)

/-- **When the fixup of a branch is right**: exactly at the displacements of `AgreesAt`. -/
theorem fixupReaches_iff (b : RelBranch) (e : MCExpr) (temporary : Bool) (p t : BitVec 64) :
    b.FixupReaches e temporary p t ↔ b.AgreesAt temporary (t - p).toInt := by
  by_cases h : b.InRange (checkedValue temporary (t - p)).toInt
  · have hvalue := toInt_checkedValue (Or.inl h)
    have hwritten := b.writtenDisplacement_eq h
    rw [fixupReaches_of_inRange h, hwritten]
    rw [hvalue] at h ⊢
    unfold InRange at h
    unfold Fits AgreesAt
    rcases b.cond_or_jump with ⟨-, -, hwidth, -⟩ | ⟨-, -, hwidth, -⟩ <;> rw [hwidth] at h ⊢ <;>
      cases temporary <;>
      simp only [Bool.toNat_false, Bool.toNat_true, if_true, Bool.false_eq_true, if_false] at h ⊢ <;>
      omega
  · have hout : ¬ b.InRange ((t - p).toInt + 2 * temporary.toNat) := by
      intro hin
      rw [toInt_checkedValue (Or.inr hin)] at h
      exact h hin
    rw [fixupReaches_of_not_inRange h]
    unfold InRange at hout
    unfold Fits AgreesAt
    rcases b.cond_or_jump with ⟨-, -, hwidth, -⟩ | ⟨-, -, hwidth, -⟩ <;> rw [hwidth] at hout ⊢ <;>
      cases temporary <;>
      simp only [Bool.toNat_false, Bool.toNat_true, if_true, Bool.false_eq_true, if_false]
        at hout ⊢ <;>
      omega

/-- `BREQ` at 128 to an ordinary label at 0: the displacement -128 is accepted although -65 does not
fit seven bits. -/
theorem not_fixupReaches_BREQk : ¬ BREQk.FixupReaches (.symbolRef 0) false 128 0 := by
  intro h
  have fits := h.1.mp ⟨63, rfl⟩
  exact absurd fits (by unfold Fits; decide)

end RelBranch

/-! ## Branch relaxation -/

/-- `isBranchOffsetInRange`; `none` for a failed assertion and for the other opcodes. -/
def isBranchOffsetInRange (branchOp : Opcode) (brOffset : BitVec 64) : Option Bool :=
  match branchOp with
  | .JMPk | .CALLk => if 0 ≤ brOffset.toInt then some (isUIntN 16 brOffset) else none
  | .RCALLk | .RJMPk => some (isIntN 13 brOffset)
  | .BRBSsk | .BRBCsk | .BREQk | .BRNEk | .BRSHk | .BRLOk | .BRMIk | .BRPLk | .BRGEk | .BRLTk =>
      some (isIntN 7 brOffset)
  | _ => none

namespace RelBranch

/-- A branch that relaxation leaves alone at an even offset `d` is accepted by the backend, and from
every address it then goes `d` bytes further. -/
def RelaxedRight (b : RelBranch) (e : MCExpr) (d : BitVec 64) : Prop :=
  d.toInt % 2 = 0 → isBranchOffsetInRange b.opcode d = some true →
    ∃ data, resolvedFragment [] [] (b.mcInst (.expr e)) false d = some (.ok data) ∧
      ∀ p : BitVec 64, p + 2 + BitVec.ofInt 64 (2 * b.displacement data) = p + d

/-- The range of branch relaxation: a bit less than the field for the conditional branches, the
whole range of the backend for the jump and the call. -/
theorem isBranchOffsetInRange_eq_true_iff (b : RelBranch) (d : BitVec 64) :
    isBranchOffsetInRange b.opcode d = some true ↔
      if b.isJump then -4096 ≤ d.toInt ∧ d.toInt ≤ 4095 else -64 ≤ d.toInt ∧ d.toInt ≤ 63 := by
  have hjump := isIntN_eq_true_iff (show 13 < 64 by decide) d
  have hcond := isIntN_eq_true_iff (show 7 < 64 by decide) d
  simp only [minIntN, maxIntN] at hjump hcond
  cases b <;> simp [isBranchOffsetInRange, opcode, isJump, hjump, hcond]

/-- An accepted offset to an ordinary label is right when it is written as it is. -/
theorem resolves_of_inRange {b : RelBranch} {e : MCExpr} {d : BitVec 64} (h : b.InRange d.toInt) :
    (∃ data, resolvedFragment [] [] (b.mcInst (.expr e)) false d = some (.ok data) ∧
        ∀ p : BitVec 64, p + 2 + BitVec.ofInt 64 (2 * b.displacement data) = p + d) ↔
      2 * b.writtenDisplacement d + 2 = d.toInt := by
  obtain ⟨-, data, hdata, hwritten⟩ := (b.resolvedFragment_eq e false d).1 h
  obtain ⟨hlow, hhigh⟩ := b.writtenDisplacement_bounds d
  have htarget : ∀ p : BitVec 64, p + 2 + BitVec.ofInt 64 (2 * b.writtenDisplacement d) = p + d ↔
      2 * b.writtenDisplacement d + 2 = d.toInt := by
    intro p
    rw [target_eq_iff p (p + d) hlow hhigh, BitVec.add_comm, BitVec.add_sub_cancel]
  constructor
  · rintro ⟨data', hdata', hall⟩
    obtain rfl : data = data' := by
      rw [hdata'] at hdata
      simpa using hdata.symm
    rw [hwritten] at hall
    exact (htarget 0).mp (hall 0)
  · intro heq
    refine ⟨data, hdata, fun p => ?_⟩
    rw [hwritten]
    exact (htarget p).mpr heq

/-- **When relaxation and the backend agree**: always, except for `RJMPk` and `RCALLk` at -4096. -/
theorem relaxedRight_iff (b : RelBranch) (e : MCExpr) (d : BitVec 64) :
    b.RelaxedRight e d ↔ ¬ (b.isJump = true ∧ d.toInt = -4096) := by
  unfold RelaxedRight
  rw [isBranchOffsetInRange_eq_true_iff]
  by_cases h : b.InRange d.toInt
  · rw [resolves_of_inRange h, b.writtenDisplacement_eq h]
    unfold InRange at h
    rcases b.cond_or_jump with ⟨hjump, -, hwidth, -⟩ | ⟨hjump, -, hwidth, -⟩ <;>
      rw [hwidth] at h ⊢ <;> rw [hjump] <;>
      simp only [Bool.false_eq_true, if_false, if_true, false_and, true_and, not_false_eq_true,
        iff_true] <;>
      omega
  · -- the range of relaxation lies within that of the backend
    unfold InRange at h
    refine iff_of_true (fun _ hrange => ?_) ?_
    · rcases b.cond_or_jump with ⟨hjump, -, hwidth, -⟩ | ⟨hjump, -, hwidth, -⟩ <;>
        rw [hwidth] at h <;> rw [hjump] at hrange <;>
        simp only [Bool.false_eq_true, if_false, if_true] at hrange <;> omega
    · rintro ⟨hjump, hd⟩
      rcases b.cond_or_jump with ⟨hcond, -⟩ | ⟨-, -, hwidth, -⟩
      · exact absurd hjump (by simp [hcond])
      · rw [hwidth] at h
        omega

/-- `RJMP` at offset -4096: relaxation leaves it alone, and the backend writes the displacement
2047. -/
theorem not_relaxedRight_RJMPk : ¬ RJMPk.RelaxedRight (.symbolRef 0) (-4096) := by
  intro h
  obtain ⟨data, hdata, hall⟩ := h rfl rfl
  obtain rfl : [0xff, 0xc7] = data := by
    have hresolved : resolvedFragment [] [] (RJMPk.mcInst (.expr (.symbolRef 0))) false (-4096) =
      some (.ok [0xff, 0xc7]) := rfl
    rw [hresolved] at hdata
    simpa using hdata
  exact absurd (hall 0) (by decide)

end RelBranch

end Snes
