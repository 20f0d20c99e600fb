/-
# Selection of Addresses

`SelectAddr` and `SelectInlineAsmMemoryOperand`, the two selectors that fold the constant
of an address into a displacement.  The first one negates the constant of a difference and
looks at the right operand only when it is a constant.  The second one does neither.
-/
import SnesBackend.Registers

namespace Snes

/-! ## Addresses -/

/-- The registers of the DAG: physical ones, and virtual ones by number. -/
inductive DAGReg where
  | physical (r : Reg)
  | virtual (number : ℕ)
deriving DecidableEq, Repr

/-- The expressions of pointer type: frame indices, constants, registers, values read from
registers, the operators that the selectors look at, and any other node, by number. -/
inductive AddressExpr where
  | FrameIndex (index : ℤ)
  | Constant (value : BitVec 16)
  | Register (reg : DAGReg)
  | CopyFromReg (reg : DAGReg)
  | ADD (lhs rhs : AddressExpr)
  | SUB (lhs rhs : AddressExpr)
  | OR (lhs rhs : AddressExpr)
  | other (number : ℕ)
deriving DecidableEq, Repr

/-- The values of the leaves: where the frame objects are, what the registers hold, and what the
other nodes compute. -/
structure DAGValues where
  frame : ℤ → BitVec 16
  reg : DAGReg → BitVec 16
  other : ℕ → BitVec 16

/-- The value of an address. -/
def AddressExpr.eval (values : DAGValues) : AddressExpr → BitVec 16
  | FrameIndex index => values.frame index
  | Constant value => value
  | Register reg | CopyFromReg reg => values.reg reg
  | ADD lhs rhs => lhs.eval values + rhs.eval values
  | SUB lhs rhs => lhs.eval values - rhs.eval values
  | OR lhs rhs => lhs.eval values ||| rhs.eval values
  | other number => values.other number

/-- `MaskedValueIsZero`, the analysis of known bits: a mask that it finds zero is zero. -/
structure KnownBits (values : DAGValues) where
  maskedValueIsZero : AddressExpr → BitVec 16 → Bool
  sound : ∀ n mask, maskedValueIsZero n mask = true → n.eval values &&& mask = 0

/-! ## The selectors -/

/-- The operands that the selectors build.  A `copied` node is read back from a new virtual register
of class `MainRegs` that it is copied to. -/
inductive SelectedOperand where
  | targetFrameIndex (index : ℤ)
  | targetConstant (value : BitVec 16)
  | node (n : AddressExpr)
  | copied (n : AddressExpr)
deriving DecidableEq, Repr

/-- The value of an operand. -/
def SelectedOperand.eval (values : DAGValues) : SelectedOperand → BitVec 16
  | targetFrameIndex index => values.frame index
  | targetConstant value => value
  | node n | copied n => n.eval values

/-- What a selector comes to: it fails on a violated assertion or a null pointer, it finds no match,
or it gives operands. -/
inductive Selection where
  | fails
  | noMatch
  | operands (ops : List SelectedOperand)
deriving DecidableEq, Repr

/-- The node that the address is an operand of: an access of memory with its value type, where any
type but `i8` and `i16` is `none`, or another node, on which `cast<MemSDNode>` fails. -/
inductive AddressUser where
  | memory (type : Option ValueType)
  | other
deriving DecidableEq, Repr

/-- The end of `SelectAddr`: an offset of a frame index of any size, or of six bits for an access of
`i8` or `i16`. -/
def foldOffset (user : AddressUser) (base : AddressExpr) (rhsc : ℤ) : Selection :=
  match base, user with
  | .FrameIndex index, _ =>
      .operands [.targetFrameIndex index, .targetConstant (BitVec.ofInt 16 rhsc)]
  | _, .other => .fails
  | base, .memory type =>
      if (0 ≤ rhsc ∧ rhsc < 64) ∧ type.isSome then
        .operands [.node base, .targetConstant (BitVec.ofInt 16 rhsc)]
      else .noMatch

/-- `SelectAddr`. -/
def selectAddr {values : DAGValues} (known : KnownBits values) (user : AddressUser) :
    AddressExpr → Selection
  | .FrameIndex index => .operands [.targetFrameIndex index, .targetConstant 0]
  | .ADD lhs (.Constant c) => foldOffset user lhs c.toNat
  | .SUB lhs (.Constant c) => foldOffset user lhs (-c.toNat)
  | .OR lhs (.Constant c) =>
      if known.maskedValueIsZero lhs c then foldOffset user lhs c.toNat else .noMatch
  | _ => .noMatch

/-- `MachineRegisterInfo::getRegClass`, which asserts that the register is virtual. -/
def DAGReg.getRegClass (classOf : ℕ → RegClass) : DAGReg → Option RegClass
  | physical _ => none
  | virtual number => some (classOf number)

/-- The registers that `CanHandleRegImmOpt` admits: the virtual ones and the main ones. -/
def DAGReg.canHandle : DAGReg → Bool
  | physical r => RegClass.mainRegs.members.contains r
  | virtual _ => true

/-- The sums and differences of `SelectInlineAsmMemoryOperand`: the value of the constant is taken
before it is known that there is one, and it is used as it is for both operators. -/
def selectRegImm (classOf : ℕ → RegClass) (op lhs rhs : AddressExpr) : Selection :=
  match rhs with
  | .Constant c =>
      match lhs with
      | .CopyFromReg reg =>
          if c.toNat < 64 ∧ reg.canHandle = true then
            match reg.getRegClass classOf with
            | some .mainRegs => .operands [.node lhs, .targetConstant c]
            | some _ => .operands [.copied lhs, .targetConstant c]
            | none => .fails
          else .operands [.copied op]
      | _ => .operands [.copied op]
  | _ => .fails

/-- `SelectInlineAsmMemoryOperand`. -/
def selectInlineAsmMemoryOperand {values : DAGValues} (known : KnownBits values)
    (classOf : ℕ → RegClass) (op : AddressExpr) : Selection :=
  match op with
  | .Register reg =>
      match reg.getRegClass classOf with
      | some .mainRegs => .operands [.node op]
      | some _ => .operands [.copied op]
      | none => .fails
  | .FrameIndex _ => selectAddr known .other op
  | .ADD lhs rhs | .SUB lhs rhs => selectRegImm classOf op lhs rhs
  | _ => .operands [.copied op]

/-! ## When the selectors are right -/

/-- A base and a displacement have the value of the address. -/
def Selection.RightFor (values : DAGValues) (n : AddressExpr) (selection : Selection) : Prop :=
  ∀ base disp, selection = .operands [base, disp] →
    base.eval values + disp.eval values = n.eval values

/-- Both selectors are right about an address, and fail on none. -/
structure AddressSelected {values : DAGValues} (known : KnownBits values)
    (type : Option ValueType) (classOf : ℕ → RegClass) (n : AddressExpr) : Prop where
  addr : (selectAddr known (.memory type) n).RightFor values n
  inlineAsm : (selectInlineAsmMemoryOperand known classOf n).RightFor values n
  addr_total : selectAddr known (.memory type) n ≠ .fails
  inlineAsm_total : selectInlineAsmMemoryOperand known classOf n ≠ .fails

/-- The addresses that both selectors are right about.  A sum or a difference has a constant for its
right operand; where the left one is read from a register and the constant has six bits, a main
register may not be physical, and the constant of a difference from a virtual one is zero. -/
def AddressExpr.Selectable : AddressExpr → Prop
  | Register reg => ∃ number, reg = .virtual number
  | ADD lhs rhs => ∃ c, rhs = Constant c ∧
      ∀ r, lhs = CopyFromReg (.physical r) → r ∈ RegClass.mainRegs.members → 64 ≤ c.toNat
  | SUB lhs rhs => ∃ c, rhs = Constant c ∧
      (∀ r, lhs = CopyFromReg (.physical r) → r ∈ RegClass.mainRegs.members → 64 ≤ c.toNat) ∧
      (∀ number, lhs = CopyFromReg (.virtual number) → c.toNat < 64 → c = 0)
  | _ => True

/-! ### `SelectAddr` -/

/-- A selector that gives no two operands is right. -/
theorem rightFor_copied (values : DAGValues) (n op : AddressExpr) :
    (Selection.operands [.copied op]).RightFor values n := by
  intro base disp h
  simp at h

/-- **The offset** of the folded address is the constant. -/
theorem rightFor_foldOffset {values : DAGValues} {user : AddressUser} {n base : AddressExpr}
    {rhsc : ℤ} (h : base.eval values + BitVec.ofInt 16 rhsc = n.eval values) :
    (foldOffset user base rhsc).RightFor values n := by
  intro b d hfold
  unfold foldOffset at hfold
  split at hfold
  · simp only [Selection.operands.injEq, List.cons.injEq, and_true] at hfold
    obtain ⟨rfl, rfl⟩ := hfold
    exact h
  · cases hfold
  · split_ifs at hfold
    simp only [Selection.operands.injEq, List.cons.injEq, and_true] at hfold
    obtain ⟨rfl, rfl⟩ := hfold
    exact h

/-- The offset of an access of memory does not fail. -/
theorem foldOffset_memory_ne_fails (type : Option ValueType) (base : AddressExpr) (rhsc : ℤ) :
    foldOffset (.memory type) base rhsc ≠ .fails := by
  unfold foldOffset
  split
  · simp
  · simp_all
  · split_ifs <;> simp

/-- A natural number as an integer as a word. -/
theorem ofInt_natCast_toNat (c : BitVec 16) : BitVec.ofInt 16 (c.toNat : ℤ) = c := by
  rw [BitVec.ofInt_natCast, BitVec.ofNat_toNat, BitVec.setWidth_eq]

/-- **`SelectAddr`** is right about every address. -/
theorem rightFor_selectAddr {values : DAGValues} (known : KnownBits values) (user : AddressUser)
    (n : AddressExpr) : (selectAddr known user n).RightFor values n := by
  unfold selectAddr
  split
  · intro base disp h
    simp only [Selection.operands.injEq, List.cons.injEq, and_true] at h
    obtain ⟨rfl, rfl⟩ := h
    exact BitVec.add_zero _
  · refine rightFor_foldOffset ?_
    rw [ofInt_natCast_toNat]
    rfl
  · refine rightFor_foldOffset ?_
    rw [BitVec.ofInt_neg, ofInt_natCast_toNat, ← BitVec.sub_eq_add_neg]
    rfl
  · next lhs c =>
    split_ifs with hknown
    · refine rightFor_foldOffset ?_
      rw [ofInt_natCast_toNat]
      -- the bits of the constant are free in the base, so the sum has no carry
      exact BitVec.add_eq_or_of_and_eq_zero _ _ (known.sound lhs c hknown)
    · intro base disp h
      cases h
  · intro base disp h
    cases h

/-- `SelectAddr` does not fail for an access of memory. -/
theorem selectAddr_ne_fails {values : DAGValues} (known : KnownBits values)
    (type : Option ValueType) (n : AddressExpr) : selectAddr known (.memory type) n ≠ .fails := by
  unfold selectAddr
  split
  · simp
  · exact foldOffset_memory_ne_fails _ _ _
  · exact foldOffset_memory_ne_fails _ _ _
  · split_ifs
    · exact foldOffset_memory_ne_fails _ _ _
    · simp
  · simp

/-! ### `SelectInlineAsmMemoryOperand` -/

/-- **The sums and differences**: what the second selector needs in order not to fail, and to add
the constant where the address does. -/
theorem selectRegImm_right_iff (values : DAGValues) (classOf : ℕ → RegClass)
    (n op lhs rhs : AddressExpr) :
    (selectRegImm classOf op lhs rhs).RightFor values n ∧ selectRegImm classOf op lhs rhs ≠ .fails ↔
      ∃ c, rhs = .Constant c ∧
        (∀ r, lhs = .CopyFromReg (.physical r) → r ∈ RegClass.mainRegs.members → 64 ≤ c.toNat) ∧
        (∀ number, lhs = .CopyFromReg (.virtual number) → c.toNat < 64 →
          lhs.eval values + c = n.eval values) := by
  have hgeneric := rightFor_copied values n op
  constructor
  · rintro ⟨hright, htotal⟩
    unfold selectRegImm at hright htotal
    cases rhs with
    | Constant c =>
        refine ⟨c, rfl, ?_, ?_⟩
        · rintro r rfl hmem
          by_contra hlt
          refine htotal ?_
          simp [DAGReg.canHandle, DAGReg.getRegClass, hmem, Nat.lt_of_not_le hlt]
        · rintro number rfl hlt
          simp only [DAGReg.canHandle, DAGReg.getRegClass, hlt, and_self, if_true] at hright
          -- the base is the node or a copy of it, of the same value
          split at hright
          · exact hright _ _ rfl
          · exact hright (.copied _) _ rfl
          · rename_i hnone
            cases hnone
    | _ => exact absurd rfl htotal
  · rintro ⟨c, rfl, hphysical, hvirtual⟩
    unfold selectRegImm
    cases lhs with
    | CopyFromReg reg =>
        cases reg with
        | physical r =>
            have hnot : ¬ (c.toNat < 64 ∧ DAGReg.canHandle (.physical r) = true) := by
              rintro ⟨hlt, hmem⟩
              have hle := hphysical r rfl (List.contains_iff_mem.mp hmem)
              omega
            simp only [hnot, if_false]
            exact ⟨hgeneric, by simp⟩
        | virtual number =>
            by_cases hlt : c.toNat < 64
            · have hsum := hvirtual number rfl hlt
              simp only [DAGReg.canHandle, DAGReg.getRegClass, hlt, and_self, if_true]
              split
              · refine ⟨?_, by simp⟩
                rintro base disp ⟨⟩
                exact hsum
              · refine ⟨?_, by simp⟩
                rintro base disp ⟨⟩
                exact hsum
              · rename_i hnone
                cases hnone
            · simp only [hlt, false_and, if_false]
              exact ⟨hgeneric, by simp⟩
    | _ => exact ⟨hgeneric, by simp⟩

/-- Adding a small constant is subtracting it only where it is zero. -/
theorem add_eq_sub_iff_of_lt (a c : BitVec 16) (hlt : c.toNat < 64) : a + c = a - c ↔ c = 0 := by
  constructor
  · intro h
    have hnat := congrArg BitVec.toNat h
    rw [BitVec.toNat_add, BitVec.toNat_sub] at hnat
    apply BitVec.eq_of_toNat_eq
    change c.toNat = 0
    omega
  · rintro rfl
    simp

/-- The second selector on an address. -/
theorem selectInlineAsmMemoryOperand_right_iff {values : DAGValues} (known : KnownBits values)
    (classOf : ℕ → RegClass) (n : AddressExpr) :
    (selectInlineAsmMemoryOperand known classOf n).RightFor values n ∧
      selectInlineAsmMemoryOperand known classOf n ≠ .fails ↔ n.Selectable := by
  cases n with
  | Register reg =>
      cases reg with
      | physical r => simp [selectInlineAsmMemoryOperand, DAGReg.getRegClass, AddressExpr.Selectable]
      | virtual number =>
          refine iff_of_true ?_ ⟨number, rfl⟩
          simp only [selectInlineAsmMemoryOperand, DAGReg.getRegClass]
          split
          · refine ⟨?_, by simp⟩
            intro base disp h
            simp at h
          · exact ⟨rightFor_copied _ _ _, by simp⟩
          · rename_i hnone
            cases hnone
  | FrameIndex index =>
      refine iff_of_true ⟨rightFor_selectAddr known .other _, ?_⟩ trivial
      simp [selectInlineAsmMemoryOperand, selectAddr]
  | ADD lhs rhs =>
      refine (selectRegImm_right_iff values classOf _ _ lhs rhs).trans ?_
      refine exists_congr fun c => and_congr_right ?_
      rintro rfl
      exact and_iff_left_of_imp fun _ _ _ _ => rfl
  | SUB lhs rhs =>
      refine (selectRegImm_right_iff values classOf _ _ lhs rhs).trans ?_
      refine exists_congr fun c => and_congr_right ?_
      rintro rfl
      refine and_congr_right fun _ => forall_congr' fun number => forall_congr' fun _ => ?_
      exact forall_congr' fun hlt => add_eq_sub_iff_of_lt _ c hlt
  | _ =>
      refine iff_of_true ⟨rightFor_copied _ _ _, ?_⟩ trivial
      simp [selectInlineAsmMemoryOperand]

/-! ### Both selectors -/

/-- **Both selectors** are right about an address and fail nowhere exactly when the second one is
given no difference that it would add, no sum or difference without a constant, and no physical
register whose class it would ask for. -/
theorem addressSelected_iff {values : DAGValues} (known : KnownBits values)
    (type : Option ValueType) (classOf : ℕ → RegClass) (n : AddressExpr) :
    AddressSelected known type classOf n ↔ n.Selectable := by
  rw [← selectInlineAsmMemoryOperand_right_iff known classOf n]
  constructor
  · rintro ⟨-, hright, -, htotal⟩
    exact ⟨hright, htotal⟩
  · rintro ⟨hright, htotal⟩
    exact ⟨rightFor_selectAddr known _ n, hright, selectAddr_ne_fails known type n, htotal⟩

/-- The analysis that knows of no bit. -/
def noKnownBits (values : DAGValues) : KnownBits values where
  maskedValueIsZero _ _ := false
  sound _ _ h := by cases h

/-- The sum of two registers makes the second selector dereference a null pointer. -/
theorem inlineAsm_sum_of_registers :
    ¬ AddressSelected (noKnownBits ⟨fun _ => 0, fun _ => 0, fun _ => 0⟩) (some .i8)
      (fun _ => .mainRegs) (.ADD (.CopyFromReg (.virtual 0)) (.CopyFromReg (.virtual 1))) :=
  fun h => h.inlineAsm_total rfl

end Snes
