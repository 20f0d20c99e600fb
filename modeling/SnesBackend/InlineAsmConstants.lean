/-
# Constants in Inline Assembly

The constraint letters of `SNESISelLowering.cpp` that stand for integer constants:
`getSingleConstraintMatchWeight` rates an operand for a letter, and
`LowerAsmOperandForConstraint` lowers the operand for the letter that was chosen.

Both check the same ranges, on the constant of the call and on the node that is built
from it.  An integer constant is a bit vector of the width of its type.
-/
import SnesBackend.Fixups

namespace Snes

/-! ## Weights -/

/-- `ConstraintWeight`. -/
inductive ConstraintWeight where
  | invalid | okay | good | better | best
deriving DecidableEq, Repr

namespace ConstraintWeight

/-- `CW_SpecificReg`. -/
def specificReg : ConstraintWeight := okay

/-- `CW_Register`. -/
def register : ConstraintWeight := good

/-- `CW_Memory`. -/
def memory : ConstraintWeight := better

/-- `CW_Constant`. -/
def constant : ConstraintWeight := best

/-- `CW_Default`. -/
def default : ConstraintWeight := okay

end ConstraintWeight

/-- `CallOperandVal`: the values that the weights tell apart. -/
inductive CallOperandVal where
  | constantInt {w : ℕ} (value : BitVec w)
  | constantFP (isZero : Bool)
  | globalValue
  | other (isIntegerTy : Bool)
deriving Repr

/-- `getType()->isIntegerTy()`. -/
def CallOperandVal.isIntegerTy : CallOperandVal → Bool
  | constantInt _ => true
  | constantFP _ | globalValue => false
  | other isIntegerTy => isIntegerTy

/-- `getZExtValue`; it asserts that the value has at most 64 bits. -/
def getZExtValue {w : ℕ} (c : BitVec w) : BitVec 64 :=
  c.setWidth 64

/-- `getSExtValue`; it asserts that the value has at most 64 bits. -/
def getSExtValue {w : ℕ} (c : BitVec w) : BitVec 64 :=
  c.signExtend 64

/-- `TargetLowering::getSingleConstraintMatchWeight`. -/
def genericConstraintMatchWeight (operand : CallOperandVal) (letter : Char) : ConstraintWeight :=
  match letter with
  | 'i' | 'n' =>
      match operand with
      | .constantInt _ => .constant
      | _ => .invalid
  | 's' =>
      match operand with
      | .globalValue => .constant
      | _ => .invalid
  | 'E' | 'F' =>
      match operand with
      | .constantFP _ => .constant
      | _ => .invalid
  | '<' | '>' | 'm' | 'o' | 'V' => .memory
  | 'r' | 'g' => if operand.isIntegerTy then .register else .invalid
  | _ => .default

/-- The weight of a constant that passes a check; other operands do not match. -/
def constantIntWeight (operand : CallOperandVal) (check : (w : ℕ) → BitVec w → Bool) :
    ConstraintWeight :=
  match operand with
  | .constantInt c => if check _ c then .constant else .invalid
  | _ => .invalid

/-- `getSingleConstraintMatchWeight`, of an operand that may have no value. -/
def getSingleConstraintMatchWeight (operand : Option CallOperandVal) (letter : Char) :
    ConstraintWeight :=
  match operand with
  | none => .default
  | some operand =>
      match letter with
      | 'd' | 'r' | 'l' => .register
      | 'a' | 'b' | 'e' | 'q' | 't' | 'w' | 'x' | 'X' | 'y' | 'Y' | 'z' | 'Z' => .specificReg
      | 'G' =>
          match operand with
          | .constantFP isZero => if isZero then .constant else .invalid
          | _ => .invalid
      | 'I' => constantIntWeight operand fun _ c => isUIntN 6 (getZExtValue c)
      | 'J' => constantIntWeight operand fun _ c =>
          decide ((getSExtValue c).toInt ≥ -63) && decide ((getSExtValue c).toInt ≤ 0)
      | 'K' => constantIntWeight operand fun _ c => getZExtValue c == 2
      | 'L' => constantIntWeight operand fun _ c => getZExtValue c == 0
      | 'M' => constantIntWeight operand fun _ c => isUIntN 8 (getZExtValue c)
      | 'N' => constantIntWeight operand fun _ c => (getSExtValue c).toInt == -1
      | 'O' => constantIntWeight operand fun _ c =>
          getZExtValue c == 8 || getZExtValue c == 16 || getZExtValue c == 24
      | 'P' => constantIntWeight operand fun _ c => getZExtValue c == 1
      | 'R' => constantIntWeight operand fun _ c =>
          decide ((getSExtValue c).toInt ≥ -6) && decide ((getSExtValue c).toInt ≤ 5)
      | 'Q' => .memory
      | letter => genericConstraintMatchWeight operand letter

/-! ## Lowering -/

/-- A target constant: its value at the width of its type. -/
structure TargetConstant where
  width : ℕ
  value : BitVec width
deriving DecidableEq, Repr

/-- The operands that `LowerAsmOperandForConstraint` tells apart. -/
inductive AsmOperand where
  | constant {w : ℕ} (value : BitVec w)
  | constantFP (isZero : Bool)
  | other
deriving Repr

/-- What becomes of an operand: it is not accepted, a target constant is pushed, the generic
function decides, or an assertion fails. -/
inductive LoweredOperand where
  | rejected
  | constant (emitted : TargetConstant)
  | generic
  | assertionFailed
deriving DecidableEq, Repr

/-- The widths of the integers among the simple value types. -/
def simpleWidths : List ℕ := [1, 8, 16, 32, 64, 128]

section

variable (assertions : Bool)

/-- `getTargetConstant`, for the type of integers of a width.  It asserts that the value fits. -/
def getTargetConstant (val : BitVec 64) (width : ℕ) : LoweredOperand :=
  if assertions && !(decide (width ≥ 64) || decide (val.sshiftRight width + 1 < 2)) then
    .assertionFailed
  else
    .constant ⟨width, val.setWidth width⟩

/-- The inner switch of `LowerAsmOperandForConstraint`, with its last case behind it. -/
def lowerConstantForConstraint {w : ℕ} (c : BitVec w) (letter : Char) : LoweredOperand :=
  let cVal64 := getSExtValue c
  let cuVal64 := getZExtValue c
  match letter with
  | 'I' => if !isUIntN 6 cuVal64 then .rejected else getTargetConstant assertions cuVal64 w
  | 'J' =>
      if cVal64.toInt < -63 || cVal64.toInt > 0 then .rejected
      else getTargetConstant assertions cVal64 w
  | 'K' => if cuVal64 != 2 then .rejected else getTargetConstant assertions cuVal64 w
  | 'L' => if cuVal64 != 0 then .rejected else getTargetConstant assertions cuVal64 w
  | 'M' =>
      if !isUIntN 8 cuVal64 then
        .rejected
      -- `getSimpleVT`
      else if assertions && !simpleWidths.contains w then
        .assertionFailed
      else
        getTargetConstant assertions cuVal64 (if w = 8 then 16 else w)
  | 'N' => if cVal64.toInt != -1 then .rejected else getTargetConstant assertions cVal64 w
  | 'O' =>
      if cuVal64 != 8 && cuVal64 != 16 && cuVal64 != 24 then .rejected
      else getTargetConstant assertions cuVal64 w
  | 'P' => if cuVal64 != 1 then .rejected else getTargetConstant assertions cuVal64 w
  | 'R' =>
      if cVal64.toInt < -6 || cVal64.toInt > 5 then .rejected
      else getTargetConstant assertions cVal64 w
  | _ => .generic

/-- `LowerAsmOperandForConstraint`; only constraints of length 1 are supported. -/
def lowerAsmOperandForConstraint (op : AsmOperand) (constraint : String) : LoweredOperand :=
  match constraint.toList with
  | [letter] =>
      match letter with
      | 'I' | 'J' | 'K' | 'L' | 'M' | 'N' | 'O' | 'P' | 'R' =>
          match op with
          | .constant c => lowerConstantForConstraint assertions c letter
          | _ => .rejected
      | 'G' =>
          match op with
          | .constantFP true => getTargetConstant assertions 0 8
          | _ => .rejected
      | _ => .generic
  | _ => .rejected

end

/-! ## Target constants -/

section

variable {w : ℕ}

/-- `getZExtValue` as a number. -/
theorem toNat_getZExtValue (c : BitVec w) (hw : w ≤ 64) : (getZExtValue c).toNat = c.toNat := by
  have hle : 2 ^ w ≤ 2 ^ 64 := Nat.pow_le_pow_right Nat.two_pos hw
  rw [getZExtValue, BitVec.toNat_setWidth, Nat.mod_eq_of_lt (Nat.lt_of_lt_of_le c.isLt hle)]

/-- `getSExtValue` as a number. -/
theorem toInt_getSExtValue (c : BitVec w) (hw : w ≤ 64) : (getSExtValue c).toInt = c.toInt := by
  rw [getSExtValue, BitVec.toInt_signExtend_of_le hw]

/-- A value that fits a type with or without its sign passes the assertion. -/
theorem getTargetConstant_of_fits (assertions : Bool) {val : BitVec 64} {width : ℕ}
    (lower : width < 64 → -2 ^ width ≤ val.toInt) (upper : width < 64 → val.toInt < 2 ^ width) :
    getTargetConstant assertions val width = .constant ⟨width, val.setWidth width⟩ := by
  have fits : 64 ≤ width ∨ val.sshiftRight width + 1 < 2 := by
    by_cases h : 64 ≤ width
    · exact .inl h
    have shifted : (val.sshiftRight width).toInt = val.toInt / 2 ^ width := by
      rw [BitVec.toInt_sshiftRight, Int.shiftRight_eq_div_pow]
      push_cast
      rfl
    right
    rcases lt_or_ge val.toInt 0 with negative | positive
    · have minusOne : val.sshiftRight width = -1 := by
        apply BitVec.eq_of_toInt_eq
        rw [shifted, Int.ediv_eq_neg_one_of_neg_of_le negative (by have := lower (by omega); omega)]
        rfl
      rw [minusOne]
      decide
    · have zero : val.sshiftRight width = 0 := by
        apply BitVec.eq_of_toInt_eq
        rw [shifted, Int.ediv_eq_zero_of_lt positive (upper (by omega))]
        rfl
      rw [zero]
      decide
  rw [getTargetConstant, ← Bool.decide_or, decide_eq_true fits]
  simp

/-- A constant that is read without its sign is emitted as it is, at every width that is wide
enough for it. -/
theorem getTargetConstant_getZExtValue (assertions : Bool) (c : BitVec w) {width : ℕ}
    (hw : w ≤ 64) (hwidth : w ≤ width) :
    getTargetConstant assertions (getZExtValue c) width =
      .constant ⟨width, c.setWidth width⟩ := by
  have value : width < 64 → (getZExtValue c).toInt = c.toNat := by
    intro h
    have hlt : 2 ^ w ≤ 2 ^ 63 := Nat.pow_le_pow_right Nat.two_pos (by omega)
    have hc := c.isLt
    rw [BitVec.toInt_eq_toNat_cond, toNat_getZExtValue c hw, if_pos (by omega)]
  have hlt : c.toNat < 2 ^ width :=
    Nat.lt_of_lt_of_le c.isLt (Nat.pow_le_pow_right Nat.two_pos hwidth)
  rw [getTargetConstant_of_fits]
  · rw [getZExtValue, BitVec.setWidth_setWidth (by omega)]
  · intro h
    rw [value h]
    have : (0 : ℤ) < 2 ^ width := by positivity
    omega
  · intro h
    rw [value h]
    exact_mod_cast hlt

/-- A constant that is read with its sign is emitted as it is at its own width. -/
theorem getTargetConstant_getSExtValue (assertions : Bool) (c : BitVec w) (hw : w ≤ 64) :
    getTargetConstant assertions (getSExtValue c) w = .constant ⟨w, c⟩ := by
  have hpos : (0 : ℤ) < 2 ^ w := by positivity
  have hlt : (c.toNat : ℤ) < 2 ^ w := by exact_mod_cast c.isLt
  have value := BitVec.toInt_eq_toNat_cond c
  push_cast at value
  have ownBits : (getSExtValue c).setWidth w = c := by
    ext i hi
    simp [getSExtValue, BitVec.getElem_signExtend, show i < 64 by omega, hi]
  rw [getTargetConstant_of_fits, ownBits]
  · intro h
    rw [toInt_getSExtValue c hw, value]
    split <;> omega
  · intro h
    rw [toInt_getSExtValue c hw, value]
    split <;> omega

end

/-! ## Ranges -/

/-- The letters of the integer constants. -/
def integerLetters : List Char := ['I', 'J', 'K', 'L', 'M', 'N', 'O', 'P', 'R']

/-- The range of a letter. -/
def inRange {w : ℕ} (letter : Char) (c : BitVec w) : Bool :=
  match letter with
  | 'I' => c.toNat < 64
  | 'J' => -63 ≤ c.toInt && c.toInt ≤ 0
  | 'K' => c.toNat == 2
  | 'L' => c.toNat == 0
  | 'M' => c.toNat < 256
  | 'N' => c.toInt == -1
  | 'O' => c.toNat == 8 || c.toNat == 16 || c.toNat == 24
  | 'P' => c.toNat == 1
  | 'R' => -6 ≤ c.toInt && c.toInt ≤ 5
  | _ => false

section

variable {w : ℕ} {letter : Char}

/-- A comparison with a value of 64 bits. -/
theorem getZExtValue_eq_ofNat (c : BitVec w) (hw : w ≤ 64) {k : ℕ} (hk : k < 2 ^ 64) :
    getZExtValue c = BitVec.ofNat 64 k ↔ c.toNat = k := by
  rw [← BitVec.toNat_inj, toNat_getZExtValue c hw, BitVec.toNat_ofNat, Nat.mod_eq_of_lt hk]

/-- `isUInt`. -/
theorem isUIntN_getZExtValue (c : BitVec w) (hw : w ≤ 64) {n : ℕ} (hn : n < 64) :
    isUIntN n (getZExtValue c) = decide (c.toNat < 2 ^ n) := by
  rw [Bool.eq_iff_iff, isUIntN_eq_true_iff hn, toNat_getZExtValue c hw, decide_eq_true_eq]

/-- The weight of a constant for a letter. -/
theorem getSingleConstraintMatchWeight_constantInt (c : BitVec w) (hw : w ≤ 64)
    (hletter : letter ∈ integerLetters) :
    getSingleConstraintMatchWeight (some (.constantInt c)) letter =
      if inRange letter c then .constant else .invalid := by
  simp only [integerLetters, List.mem_cons, List.not_mem_nil, or_false] at hletter
  rcases hletter with rfl | rfl | rfl | rfl | rfl | rfl | rfl | rfl | rfl <;>
    simp [getSingleConstraintMatchWeight, constantIntWeight, inRange, toInt_getSExtValue c hw,
      getZExtValue_eq_ofNat c hw, isUIntN_getZExtValue c hw]

/-- What becomes of a constant for a letter. -/
theorem lowerConstantForConstraint_eq (assertions : Bool) (c : BitVec w) (hw : w ≤ 64)
    (hletter : letter ∈ integerLetters) (notM : letter ≠ 'M') :
    lowerConstantForConstraint assertions c letter =
      if inRange letter c then .constant ⟨w, c⟩ else .rejected := by
  have zext : getTargetConstant assertions (getZExtValue c) w = .constant ⟨w, c⟩ := by
    rw [getTargetConstant_getZExtValue assertions c hw le_rfl, BitVec.setWidth_eq]
  have sext := getTargetConstant_getSExtValue assertions c hw
  simp only [integerLetters, List.mem_cons, List.not_mem_nil, or_false] at hletter
  rcases hletter with rfl | rfl | rfl | rfl | rfl | rfl | rfl | rfl | rfl <;>
    simp [lowerConstantForConstraint, inRange, toInt_getSExtValue c hw,
      getZExtValue_eq_ofNat c hw, isUIntN_getZExtValue c hw, zext, sext]
  case inr.inr.inr.inr.inl => exact absurd rfl notM
  -- the two sides ask for opposite bounds
  all_goals split_ifs <;> first | rfl | omega

/-- What becomes of a constant for the letter whose constants are widened. -/
theorem lowerConstantForConstraint_M (assertions : Bool) (c : BitVec w) (hw : w ≤ 64) :
    lowerConstantForConstraint assertions c 'M' =
      if inRange 'M' c then
        if assertions && !simpleWidths.contains w then .assertionFailed
        else .constant ⟨if w = 8 then 16 else w, c.setWidth (if w = 8 then 16 else w)⟩
      else .rejected := by
  have wide : w ≤ if w = 8 then 16 else w := by split <;> omega
  rw [← getTargetConstant_getZExtValue assertions c hw wide]
  simp only [lowerConstantForConstraint, isUIntN_getZExtValue c hw (show 8 < 64 by decide), inRange]
  cases decide (c.toNat < 2 ^ 8) <;> rfl

end

/-! ## The two functions agree -/

/-- The width that a constant is emitted at. -/
def emittedWidth (letter : Char) (w : ℕ) : ℕ :=
  if letter = 'M' then max w 16 else w

/-- A constant has the weight of a constant exactly if it is accepted, and it is emitted with its
own value. -/
structure ConstraintAgrees {w : ℕ} (assertions : Bool) (letter : Char) (c : BitVec w) : Prop where
  weighed : getSingleConstraintMatchWeight (some (.constantInt c)) letter = .constant ↔
    ∃ emitted, lowerAsmOperandForConstraint assertions (.constant c) (String.ofList [letter]) =
      .constant emitted
  emits : ∀ emitted,
    lowerAsmOperandForConstraint assertions (.constant c) (String.ofList [letter]) =
        .constant emitted →
      emitted = ⟨emittedWidth letter w, c.setWidth (emittedWidth letter w)⟩

section

variable {w : ℕ} {letter : Char}

/-- The letters of the integer constants lead to the inner switch. -/
theorem lowerAsmOperandForConstraint_constant (assertions : Bool) (c : BitVec w)
    (hletter : letter ∈ integerLetters) :
    lowerAsmOperandForConstraint assertions (.constant c) (String.ofList [letter]) =
      lowerConstantForConstraint assertions c letter := by
  simp only [lowerAsmOperandForConstraint, String.toList_ofList]
  simp only [integerLetters, List.mem_cons, List.not_mem_nil, or_false] at hletter
  rcases hletter with rfl | rfl | rfl | rfl | rfl | rfl | rfl | rfl | rfl <;> rfl

/-- Outside its range a letter takes no constant. -/
theorem lowerConstantForConstraint_rejected (assertions : Bool) (c : BitVec w) (hw : w ≤ 64)
    (hletter : letter ∈ integerLetters) (outside : inRange letter c = false) :
    lowerConstantForConstraint assertions c letter = .rejected := by
  by_cases hM : letter = 'M'
  · subst hM
    rw [lowerConstantForConstraint_M assertions c hw, outside]
    rfl
  · rw [lowerConstantForConstraint_eq assertions c hw hletter hM, outside]
    rfl

/-- Outside the range of the letter the two functions agree. -/
theorem constraintAgrees_of_outside (assertions : Bool) (c : BitVec w) (hw : w ≤ 64)
    (hletter : letter ∈ integerLetters) (outside : inRange letter c = false) :
    ConstraintAgrees assertions letter c := by
  have lowered := lowerConstantForConstraint_rejected assertions c hw hletter outside
  rw [← lowerAsmOperandForConstraint_constant assertions c hletter] at lowered
  have weight := getSingleConstraintMatchWeight_constantInt c hw hletter
  rw [outside, if_neg (by decide)] at weight
  constructor
  · rw [weight, lowered]
    exact iff_of_false (by decide) (by simp)
  · intro emitted h
    rw [lowered] at h
    cases h

/-- Inside the range they agree exactly if the constant is emitted as it should be. -/
theorem constraintAgrees_iff_of_inRange (assertions : Bool) (c : BitVec w) (hw : w ≤ 64)
    (hletter : letter ∈ integerLetters) (inside : inRange letter c = true) :
    ConstraintAgrees assertions letter c ↔
      lowerConstantForConstraint assertions c letter =
        .constant ⟨emittedWidth letter w, c.setWidth (emittedWidth letter w)⟩ := by
  have weight := getSingleConstraintMatchWeight_constantInt c hw hletter
  rw [inside, if_pos rfl] at weight
  rw [← lowerAsmOperandForConstraint_constant assertions c hletter]
  constructor
  · rintro ⟨weighed, emits⟩
    obtain ⟨emitted, h⟩ := weighed.mp weight
    rw [h, emits emitted h]
  · intro h
    refine ⟨⟨fun _ => ⟨_, h⟩, fun _ => weight⟩, fun emitted h' => ?_⟩
    rw [h, LoweredOperand.constant.injEq] at h'
    exact h'.symm

/-- Two emitted constants of one value are the same exactly if their widths are. -/
theorem emitted_eq_iff {a b : ℕ} (c : BitVec w) :
    LoweredOperand.constant ⟨a, c.setWidth a⟩ = .constant ⟨b, c.setWidth b⟩ ↔ a = b := by
  constructor
  · intro h
    rw [LoweredOperand.constant.injEq, TargetConstant.mk.injEq] at h
    exact h.1
  · rintro rfl
    rfl

/-- The width that M emits a constant at is the one that it should have exactly for i8, and for i16
and wider types. -/
theorem widened_eq_iff : (if w = 8 then 16 else w) = emittedWidth 'M' w ↔ w = 8 ∨ 16 ≤ w := by
  rw [emittedWidth, if_pos rfl]
  split <;> omega

/-- M emits a constant as it should exactly for i8, and for i16 and wider types, if they are simple
where assertions are checked. -/
theorem emits_M_iff (assertions : Bool) (c : BitVec w) (hw : w ≤ 64)
    (inside : inRange 'M' c = true) :
    lowerConstantForConstraint assertions c 'M' =
        .constant ⟨emittedWidth 'M' w, c.setWidth (emittedWidth 'M' w)⟩ ↔
      w = 8 ∨ 16 ≤ w ∧ (assertions = true → w ∈ simpleWidths) := by
  rw [lowerConstantForConstraint_M assertions c hw, inside, if_pos rfl]
  by_cases hsimple : assertions = true → w ∈ simpleWidths
  · have passes : (assertions && !simpleWidths.contains w) = false := by
      cases assertions <;> simp_all
    rw [passes, if_neg Bool.false_ne_true, emitted_eq_iff, widened_eq_iff, and_iff_left hsimple]
  · have fails : (assertions && !simpleWidths.contains w) = true := by
      cases assertions <;> simp_all
    rw [fails, if_pos rfl]
    refine iff_of_false (by simp) ?_
    rintro (rfl | ⟨-, h⟩)
    · exact hsimple fun _ => by decide
    · exact hsimple h

/-- **The weight and the lowering agree** for all letters and constants, except for accepted
constants of the letter M whose type is neither i8 nor as wide as i16.  An assertion also excludes
the types that are not simple. -/
theorem constraintAgrees_iff (assertions : Bool) (c : BitVec w) (hw : w ≤ 64)
    (hletter : letter ∈ integerLetters) :
    ConstraintAgrees assertions letter c ↔
      letter ≠ 'M' ∨ 255 < c.toNat ∨ w = 8 ∨
        16 ≤ w ∧ (assertions = true → w ∈ simpleWidths) := by
  cases hr : inRange letter c with
  | false =>
    refine iff_of_true (constraintAgrees_of_outside assertions c hw hletter hr) ?_
    by_cases hM : letter = 'M'
    · subst hM
      have large : ¬ c.toNat < 256 := by simpa [inRange] using hr
      exact .inr (.inl (by omega))
    · exact .inl hM
  | true =>
    rw [constraintAgrees_iff_of_inRange assertions c hw hletter hr]
    by_cases hM : letter = 'M'
    · subst hM
      have small : c.toNat < 256 := by simpa [inRange] using hr
      have notLarge : ¬ 255 < c.toNat := by omega
      rw [emits_M_iff assertions c hw hr]
      simp only [ne_eq, not_true_eq_false, notLarge, false_or]
    · rw [lowerConstantForConstraint_eq assertions c hw hletter hM, hr, emittedWidth, if_neg hM,
        BitVec.setWidth_eq]
      exact iff_of_true rfl (.inl hM)

/-- The letter N takes the constant of i8 that is all ones, and emits it. -/
theorem constraintAgrees_N_minusOne : ConstraintAgrees true 'N' (255#8) :=
  (constraintAgrees_iff true (255#8) (by decide) (by decide)).mpr (.inl (by decide))

/-- The constant true of type i1 is accepted for the letter M, and is emitted as a constant of i1. -/
theorem not_constraintAgrees :
    ¬ ∀ (assertions : Bool) (w : ℕ) (c : BitVec w) (letter : Char),
      w ≤ 64 → letter ∈ integerLetters → ConstraintAgrees assertions letter c := by
  intro agrees
  have emits := (agrees true 1 1#1 'M' (by decide) (by decide)).emits ⟨1, 1#1⟩ (by decide)
  rw [TargetConstant.mk.injEq] at emits
  exact absurd emits.1 (by decide)

end

end Snes
