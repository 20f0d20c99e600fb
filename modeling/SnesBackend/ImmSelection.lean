/-
# Selecting an Addition or Subtraction of a Constant

The patterns of `SNESInstrInfo.td` whose root is `add` or `sub` with a constant
on the right, the order in which the generated selector tries them, and what the
selected instruction computes.

A build with assertions also checks that `imm16_neg_XFORM` gets a 16-bit constant;
here it negates a constant of either width.
-/
import SnesBackend.InstrInfo
import SnesBackend.WordArith

namespace Snes

open WordArith

/-! ## Patterns -/

/-- The two roots. -/
inductive AddSub where
  | add | sub
deriving DecidableEq, Repr

/-- The constant leaf of a pattern: an integer literal, `imm`, or `imm0_63_neg`. -/
inductive ImmLeaf where
  | literal (c : ℤ)
  | imm
  | imm0_63_neg
deriving DecidableEq, Repr

/-- The sign-extended constants that a leaf accepts. -/
def ImmLeaf.accepts (leaf : ImmLeaf) (k : ℤ) : Bool :=
  match leaf with
  | literal c => k == c
  | imm => true
  | imm0_63_neg => decide (-k ≥ 0) && decide (-k < 64)

/-- What a leaf adds to the size of its pattern in `getPatternSize`: an integer literal 5, the
node `imm` 3, and one more for a predicate. -/
def ImmLeaf.size : ImmLeaf → ℕ
  | literal _ => 5
  | imm => 3
  | imm0_63_neg => 4

/-- A pattern: root, type, leaf, the instruction it selects, and whether that instruction gets the
negated constant. -/
structure ImmPattern where
  root : AddSub
  type : ValueType
  leaf : ImmLeaf
  output : Opcode
  negated : Bool
deriving DecidableEq, Repr

/-- `getPatternComplexity`: the root counts 3. -/
def ImmPattern.complexity (p : ImmPattern) : ℕ :=
  3 + p.leaf.size

/-- The patterns in the order of `SNESInstrInfo.td`. -/
def immPatterns : List ImmPattern :=
  [⟨.add, .i16, .literal (-1), .DEA, false⟩,
    ⟨.add, .i16, .literal 1, .INA, false⟩,
    ⟨.add, .i8, .imm, .ADCimm8, false⟩,
    ⟨.sub, .i8, .imm, .SBCimm8, false⟩,
    ⟨.add, .i16, .imm, .ADCimm16, false⟩,
    ⟨.sub, .i16, .imm, .SBCimm16, false⟩,
    ⟨.sub, .i16, .imm, .SUBIRdK, false⟩,
    ⟨.sub, .i16, .imm, .SUBIWRdK, false⟩,
    ⟨.add, .i16, .imm0_63_neg, .SBCimm16, true⟩,
    ⟨.add, .i8, .imm0_63_neg, .SBCimm8, true⟩,
    ⟨.add, .i16, .imm, .SUBIWRdK, true⟩,
    ⟨.add, .i16, .imm, .SUBIRdK, true⟩]

/-- The order of `PatternSortingPredicate`: greater complexity first.  Every pattern here selects
one instruction, so ties are left to the order of the file, which the sort keeps. -/
def sortedImmPatterns : List ImmPattern :=
  immPatterns.insertionSort fun p q => q.complexity ≤ p.complexity

/-- A pattern matches a node `root x k` of a type. -/
def ImmPattern.matchesNode (p : ImmPattern) (root : AddSub) (type : ValueType)
    (k : BitVec type.width) : Bool :=
  p.root == root && p.type == type && p.leaf.accepts k.toInt

/-- A selected instruction with its immediate operand. -/
structure SelectedImm (w : ℕ) where
  opcode : Opcode
  imm : BitVec w
deriving DecidableEq, Repr

/-- The instruction selected for a node `root x k`. -/
def selectImm (root : AddSub) (type : ValueType) (k : BitVec type.width) :
    Option (SelectedImm type.width) :=
  (sortedImmPatterns.find? fun p => p.matchesNode root type k).map fun p =>
    ⟨p.output, if p.negated then -k else k⟩

/-! ## Execution -/

/-- The result in the accumulator of the selectable instructions: `ADC` adds the carry, `SBC`
subtracts its complement, the others do not look at it. -/
def SelectedImm.exec {w : ℕ} (i : SelectedImm w) (x : BitVec w) (carry : Bool) :
    Option (BitVec w) :=
  match i.opcode with
  | .ADCimm8 | .ADCimm16 => some (addCarry x i.imm carry)
  | .SBCimm8 | .SBCimm16 => some (subBorrow x i.imm (!carry))
  | .INA => some (x + 1)
  | .DEA => some (x - 1)
  | .SUBIRdK | .SUBIWRdK => some (x - i.imm)
  | _ => none

/-- The value of a node. -/
def AddSub.eval {w : ℕ} (root : AddSub) (x k : BitVec w) : BitVec w :=
  match root with
  | add => x + k
  | sub => x - k

/-- A node is selected right in a state of the carry: the selected instruction leaves its value. -/
def SelectsRight (root : AddSub) (type : ValueType) (x k : BitVec type.width) (carry : Bool) :
    Prop :=
  ((selectImm root type k).bind fun i => i.exec x carry) = some (root.eval x k)

/-! ## What is selected -/

/-- The patterns in the order in which they are tried. -/
theorem sortedImmPatterns_eq : sortedImmPatterns =
    [⟨.add, .i16, .literal (-1), .DEA, false⟩,
      ⟨.add, .i16, .literal 1, .INA, false⟩,
      ⟨.add, .i16, .imm0_63_neg, .SBCimm16, true⟩,
      ⟨.add, .i8, .imm0_63_neg, .SBCimm8, true⟩,
      ⟨.add, .i8, .imm, .ADCimm8, false⟩,
      ⟨.sub, .i8, .imm, .SBCimm8, false⟩,
      ⟨.add, .i16, .imm, .ADCimm16, false⟩,
      ⟨.sub, .i16, .imm, .SBCimm16, false⟩,
      ⟨.sub, .i16, .imm, .SUBIRdK, false⟩,
      ⟨.sub, .i16, .imm, .SUBIWRdK, false⟩,
      ⟨.add, .i16, .imm, .SUBIWRdK, true⟩,
      ⟨.add, .i16, .imm, .SUBIRdK, true⟩] := by
  decide

/-- Subtractions select `SBC`. -/
theorem exec_selectImm_sub (type : ValueType) (x k : BitVec type.width) (carry : Bool) :
    ((selectImm .sub type k).bind fun i => i.exec x carry) = some (subBorrow x k (!carry)) := by
  cases type <;>
    simp [selectImm, sortedImmPatterns_eq, ImmPattern.matchesNode, ImmLeaf.accepts,
      SelectedImm.exec]

/-- Additions of a constant from -63 to 0 select `SBC` of the negated constant, but for the 16-bit
constant -1. -/
theorem exec_selectImm_add_neg (type : ValueType) (x k : BitVec type.width) (carry : Bool)
    (hneg : -63 ≤ k.toInt ∧ k.toInt ≤ 0) (hdec : type = .i16 → k.toInt ≠ -1) :
    ((selectImm .add type k).bind fun i => i.exec x carry) = some (subBorrow x (-k) (!carry)) := by
  have hinc : ¬ k.toInt = 1 := by omega
  have hrange : k.toInt ≤ 0 ∧ -k.toInt < 64 := by omega
  cases type with
  | i8 =>
      simp [selectImm, sortedImmPatterns_eq, ImmPattern.matchesNode, ImmLeaf.accepts,
        SelectedImm.exec, hrange]
  | i16 =>
      simp [selectImm, sortedImmPatterns_eq, ImmPattern.matchesNode, ImmLeaf.accepts,
        SelectedImm.exec, hrange, hinc, hdec rfl]

/-- Additions of the 16-bit constants 1 and -1 select `INA` and `DEA`, which are right. -/
theorem exec_selectImm_add_one (x k : BitVec 16) (carry : Bool)
    (hone : k.toInt = 1 ∨ k.toInt = -1) :
    ((selectImm .add .i16 k).bind fun i => i.exec x carry) = some (x + k) := by
  rcases hone with hinc | hdec
  · have hk : k = 1 := BitVec.eq_of_toInt_eq hinc
    subst hk
    rfl
  · have hk : k = -1 := BitVec.eq_of_toInt_eq hdec
    subst hk
    show some (x - 1) = some (x + -1)
    rw [sub_eq_add_neg]

/-- All other additions select `ADC`. -/
theorem exec_selectImm_add_other (type : ValueType) (x k : BitVec type.width) (carry : Bool)
    (hneg : ¬ (-63 ≤ k.toInt ∧ k.toInt ≤ 0)) (hone : type = .i16 → k.toInt ≠ 1) :
    ((selectImm .add type k).bind fun i => i.exec x carry) = some (addCarry x k carry) := by
  have hrange : ImmLeaf.imm0_63_neg.accepts k.toInt = false := by
    rw [ImmLeaf.accepts, Bool.and_eq_false_iff, decide_eq_false_iff_not, decide_eq_false_iff_not]
    omega
  have hdec : (ImmLeaf.literal (-1)).accepts k.toInt = false := beq_false_of_ne (by omega)
  have himm : ImmLeaf.imm.accepts k.toInt = true := rfl
  cases type with
  | i8 =>
      simp [selectImm, sortedImmPatterns_eq, ImmPattern.matchesNode, SelectedImm.exec, hrange, himm]
  | i16 =>
      have hinc : (ImmLeaf.literal 1).accepts k.toInt = false := beq_false_of_ne (hone rfl)
      simp [selectImm, sortedImmPatterns_eq, ImmPattern.matchesNode, SelectedImm.exec, hrange, himm,
        hdec, hinc]

/-! ## When the selection is right -/

/-- A type has at least one bit. -/
theorem ValueType.width_pos (type : ValueType) : 0 < type.width := by
  cases type <;> decide

/-- A one-bit number vanishes exactly when the bit is clear. -/
theorem ofNat_toNat_eq_zero_iff {w : ℕ} (hw : 0 < w) (c : Bool) :
    BitVec.ofNat w c.toNat = 0 ↔ c = false := by
  have one_lt : 1 < 2 ^ w := Nat.one_lt_two_pow (by omega)
  cases c
  · simp
  · simp [← BitVec.toNat_inj, Nat.mod_eq_of_lt one_lt]

/-- An addition with carry is the plain sum exactly when the carry is clear. -/
theorem addCarry_eq_add_iff {w : ℕ} (hw : 0 < w) (x k : BitVec w) (c : Bool) :
    addCarry x k c = x + k ↔ c = false := by
  rw [addCarry, add_eq_left]
  exact ofNat_toNat_eq_zero_iff hw c

/-- A subtraction with borrow is the plain difference exactly when the borrow is clear. -/
theorem subBorrow_eq_sub_iff {w : ℕ} (hw : 0 < w) (x k : BitVec w) (c : Bool) :
    subBorrow x k c = x - k ↔ c = false := by
  rw [subBorrow, sub_eq_self]
  exact ofNat_toNat_eq_zero_iff hw c

/-- The state of the carry in which a node is selected right: 16-bit increments and decrements do
not care, `SBC` wants it set, `ADC` wants it clear. -/
def CarryCondition (root : AddSub) (type : ValueType) (k : BitVec type.width) (carry : Bool) :
    Prop :=
  match root with
  | .sub => carry = true
  | .add =>
      (type = .i16 ∧ (k.toInt = 1 ∨ k.toInt = -1)) ∨
        (-63 ≤ k.toInt ∧ k.toInt ≤ 0 ∧ carry = true) ∨
        (¬ (-63 ≤ k.toInt ∧ k.toInt ≤ 0) ∧ carry = false)

/-- **When additions and subtractions of a constant are selected right**: never in both states of
the carry, but for the 16-bit increment and decrement. -/
theorem selectsRight_iff (root : AddSub) (type : ValueType) (x k : BitVec type.width)
    (carry : Bool) : SelectsRight root type x k carry ↔ CarryCondition root type k carry := by
  unfold SelectsRight CarryCondition
  cases root with
  | sub =>
      rw [exec_selectImm_sub, Option.some.injEq, AddSub.eval,
        subBorrow_eq_sub_iff type.width_pos]
      simp
  | add =>
      by_cases hone : type = .i16 ∧ (k.toInt = 1 ∨ k.toInt = -1)
      · obtain ⟨rfl, hk⟩ := hone
        constructor
        · intro _
          exact Or.inl ⟨rfl, hk⟩
        · intro _
          exact exec_selectImm_add_one x k carry hk
      · by_cases hneg : -63 ≤ k.toInt ∧ k.toInt ≤ 0
        · have hdec : type = .i16 → k.toInt ≠ -1 := fun h hk => hone ⟨h, Or.inr hk⟩
          rw [exec_selectImm_add_neg type x k carry hneg hdec, Option.some.injEq, AddSub.eval,
            ← sub_neg_eq_add, subBorrow_eq_sub_iff type.width_pos]
          simp [hone, hneg]
        · have hinc : type = .i16 → k.toInt ≠ 1 := fun h hk => hone ⟨h, Or.inl hk⟩
          rw [exec_selectImm_add_other type x k carry hneg hinc, Option.some.injEq, AddSub.eval,
            addCarry_eq_add_iff type.width_pos]
          constructor
          · intro hcarry
            exact Or.inr (Or.inr ⟨hneg, hcarry⟩)
          · rintro (hone' | ⟨hlo, hhi, -⟩ | ⟨-, hcarry⟩)
            · exact absurd hone' hone
            · exact absurd ⟨hlo, hhi⟩ hneg
            · exact hcarry

/-- **The selection depends on the carry**: `add x, 2` is `ADC #2`, which adds 3 when the carry is
set. -/
theorem not_selectsRight_add_two :
    ¬ SelectsRight .add .i16 (0 : BitVec 16) (2 : BitVec 16) true := by
  unfold SelectsRight
  decide

end Snes
