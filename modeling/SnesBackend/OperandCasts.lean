/-
# Class Casts of the Matcher

`validateTargetOperandClass` makes a parsed operand the main register that it is the
low half of before it asks whether the operand now fits.  The candidates of a
mnemonic are tried one after the other on the same operands.

What the function does is singled out first: a cast that depends on the operand and
the expected class alone, and a predicate for the operands that fit.
-/
import SnesBackend.AsmParser

namespace Snes

/-! ## Bare numbers -/

/-- No register is called like a bare number with an r in front. -/
theorem matchRegisterName_number (number : String) : matchRegisterName ("r" ++ number) = none := by
  have names : ∀ r ∈ allRegs, r.asmName.toList.head? ≠ some 'r' := by decide
  rw [matchRegisterName, List.find?_eq_none]
  intro r hr named
  apply names r hr
  rw [eq_of_beq named]
  simp

/-! ## The cast -/

namespace SNESOperand

/-- The main register whose low half an operand is. -/
def mainRegister : SNESOperand → Option Reg
  | reg r => toDREG r
  | _ => none

/-- The register that an operand is cast to where a class is expected. -/
def castRegister (op : SNESOperand) (expected : MatchClassKind) : Option Reg :=
  if expected.isSubclassOfMainRegs then op.mainRegister else none

/-- What the matcher makes of an operand. -/
def classCast (op : SNESOperand) (expected : MatchClassKind) : SNESOperand :=
  ((op.castRegister expected).map reg).getD op

/-- An operand fits a class, as it is or through the cast. -/
def fits (op : SNESOperand) (expected : MatchClassKind) : Bool :=
  validateOperandClass op expected || (op.castRegister expected).any fun dreg =>
    validateOperandClass (.reg dreg) expected

end SNESOperand

section

variable {op : SNESOperand} {expected : MatchClassKind} {dreg : Reg}

/-- `toDREG` leads from a register that is no main register to one that is. -/
theorem mem_mainRegs_of_toDREG {r : Reg} (h : toDREG r = some dreg) :
    r ∉ RegClass.mainRegs.members ∧ dreg ∈ RegClass.mainRegs.members := by
  unfold toDREG at h
  split at h <;> cases h <;> decide

/-- A cast register is another operand. -/
theorem reg_ne_of_mainRegister (h : op.mainRegister = some dreg) : SNESOperand.reg dreg ≠ op := by
  cases op with
  | reg r =>
    obtain ⟨notMain, main⟩ := mem_mainRegs_of_toDREG h
    rintro ⟨rfl⟩
    exact notMain main
  | _ => cases h

/-- A cast comes from a low half where main registers are expected. -/
theorem castRegister_eq_some :
    op.castRegister expected = some dreg ↔
      expected.isSubclassOfMainRegs = true ∧ op.mainRegister = some dreg := by
  simp [SNESOperand.castRegister]

/-- A low half does not fit a class of main registers as it is. -/
theorem validateOperandClass_of_cast (h : op.castRegister expected = some dreg) :
    validateOperandClass op expected = false := by
  obtain ⟨main, low⟩ := castRegister_eq_some.mp h
  cases op with
  | reg r =>
    cases expected with
    | regClass rc =>
      have notMain := (mem_mainRegs_of_toDREG low).1
      simp only [MatchClassKind.isSubclassOfMainRegs, List.all_eq_true, decide_eq_true_eq] at main
      simpa [validateOperandClass] using fun hr => notMain (main r hr)
    | _ => cases main
  | _ => cases low

/-- The function casts a low half, whether or not the main register fits, and accepts nothing
else. -/
theorem validateTargetOperandClass_eq (op : SNESOperand) (expected : MatchClassKind) :
    validateTargetOperandClass op expected =
      ((op.castRegister expected).any fun dreg => validateOperandClass (.reg dreg) expected,
        op.classCast expected) := by
  cases op with
  | reg r =>
    cases hm : expected.isSubclassOfMainRegs <;> cases hd : toDREG r <;>
      simp [validateTargetOperandClass, SNESOperand.castRegister, SNESOperand.classCast,
        SNESOperand.mainRegister, hm, hd]
  | imm e =>
    cases e <;>
      simp [validateTargetOperandClass, SNESOperand.castRegister, SNESOperand.classCast,
        SNESOperand.mainRegister, matchRegisterName_number]
  | _ =>
    simp [validateTargetOperandClass, SNESOperand.castRegister, SNESOperand.classCast,
      SNESOperand.mainRegister]

/-- The check of one operand casts it whenever there is a cast. -/
theorem validateActual_eq (op : SNESOperand) (formal : MatchClassKind) :
    validateActual op formal = (op.fits formal, op.classCast formal) := by
  rw [validateActual, validateTargetOperandClass_eq, SNESOperand.fits]
  cases hc : op.castRegister formal with
  | none => cases hv : validateOperandClass op formal <;> simp [SNESOperand.classCast, hc]
  | some dreg => simp [validateOperandClass_of_cast hc]

/-- The cast leaves an operand as it was exactly where there is none. -/
theorem classCast_eq_iff : op.classCast expected = op ↔ op.castRegister expected = none := by
  unfold SNESOperand.classCast
  cases hc : op.castRegister expected with
  | none => simp
  | some dreg => simpa using reg_ne_of_mainRegister (castRegister_eq_some.mp hc).2

end

/-! ## Candidates -/

/-- A candidate with these classes accepts the operands. -/
def acceptsOperands : List SNESOperand → List MatchClassKind → Bool
  | [], formals => formals.isEmpty
  | op :: ops, formals =>
      op.fits (formals.headD .invalidMatchClass) && acceptsOperands ops formals.tail

/-- The operands that a candidate looks at, with their classes: up to the first that does not
fit. -/
def checkedOperands : List SNESOperand → List MatchClassKind → List (SNESOperand × MatchClassKind)
  | [], _ => []
  | op :: ops, formals =>
      (op, formals.headD .invalidMatchClass) ::
        if op.fits (formals.headD .invalidMatchClass) then checkedOperands ops formals.tail else []

/-- Whether a candidate matches. -/
theorem validateOperands_fst (ops : List SNESOperand) (formals : List MatchClassKind) :
    (validateOperands ops formals).1 = acceptsOperands ops formals := by
  induction ops generalizing formals with
  | nil => rfl
  | cons op ops ih =>
    rw [validateOperands, validateActual_eq, acceptsOperands]
    cases op.fits (formals.headD .invalidMatchClass) with
    | false => rfl
    | true => simp [ih]

/-- A candidate keeps the operands exactly when it casts none of those it looks at. -/
theorem validateOperands_snd_eq_iff (ops : List SNESOperand) (formals : List MatchClassKind) :
    (validateOperands ops formals).2 = ops ↔
      ∀ checked ∈ checkedOperands ops formals, checked.1.castRegister checked.2 = none := by
  induction ops generalizing formals with
  | nil => simp [validateOperands, checkedOperands]
  | cons op ops ih =>
    rw [validateOperands, validateActual_eq, checkedOperands]
    cases op.fits (formals.headD .invalidMatchClass) with
    | false => simp [classCast_eq_iff]
    | true => simp [classCast_eq_iff, ih]

section

variable {entries entries' : List MatchEntry} {ops : List SNESOperand}

/-- Where every candidate that fails keeps the operands, they are accepted exactly if a candidate
accepts them as they were parsed. -/
theorem matchEntries_isSome_of_kept
    (kept : ∀ entry ∈ entries,
      (validateOperands ops entry.classes).1 = false →
        (validateOperands ops entry.classes).2 = ops) :
    (matchEntries entries ops).isSome = true ↔
      ∃ entry ∈ entries, acceptsOperands ops entry.classes = true := by
  induction entries with
  | nil => simp [matchEntries]
  | cons entry entries ih =>
    rw [List.exists_mem_cons_iff, ← ih fun e he => kept e (List.mem_cons_of_mem _ he),
      ← validateOperands_fst]
    have first := kept entry List.mem_cons_self
    rw [matchEntries]
    rcases hv : validateOperands ops entry.classes with ⟨_ | _, left⟩
    · rw [hv] at first
      obtain rfl : left = ops := first rfl
      simp
    · simp

/-- Then the order of the candidates does not matter. -/
theorem matchEntries_perm_of_kept
    (kept : ∀ entry ∈ entries,
      (validateOperands ops entry.classes).1 = false →
        (validateOperands ops entry.classes).2 = ops)
    (perm : entries'.Perm entries) :
    (matchEntries entries' ops).isSome = (matchEntries entries ops).isSome := by
  have kept' : ∀ entry ∈ entries',
      (validateOperands ops entry.classes).1 = false →
        (validateOperands ops entry.classes).2 = ops :=
    fun entry he => kept entry (perm.mem_iff.mp he)
  rw [Bool.eq_iff_iff, matchEntries_isSome_of_kept kept', matchEntries_isSome_of_kept kept]
  simp only [perm.mem_iff]

end

/-! ## Operands that stay as they were parsed -/

/-- An operand and the candidates of a mnemonic are free of effects of failed matches: the operand
is changed only by a match, no candidate that fails changes the operands, and the order of the
candidates does not decide what is accepted. -/
structure KeepsOperands (op : SNESOperand) (expected : MatchClassKind)
    (entries : List MatchEntry) (ops : List SNESOperand) : Prop where
  unchanged : (validateTargetOperandClass op expected).1 = false →
    (validateTargetOperandClass op expected).2 = op
  kept : ∀ entry ∈ entries, (validateOperands ops entry.classes).1 = false →
    (validateOperands ops entry.classes).2 = ops
  anyOrder : ∀ entries', entries'.Perm entries →
    (matchEntries entries' ops).isSome = (matchEntries entries ops).isSome

/-- A failed match leaves an operand alone exactly where its cast, if there is one, fits. -/
theorem validateTargetOperandClass_unchanged_iff (op : SNESOperand) (expected : MatchClassKind) :
    ((validateTargetOperandClass op expected).1 = false →
        (validateTargetOperandClass op expected).2 = op) ↔
      ∀ dreg, op.castRegister expected = some dreg →
        validateOperandClass (.reg dreg) expected = true := by
  rw [validateTargetOperandClass_eq, classCast_eq_iff]
  cases op.castRegister expected with
  | none => simp
  | some dreg => simp

/-- **Operands stay as they were parsed** exactly where no low half is expected in a class of main
registers that its main register does not belong to, and where a candidate that does not accept
the operands meets its first misfit before any low half that it would cast. -/
theorem keepsOperands_iff (op : SNESOperand) (expected : MatchClassKind)
    (entries : List MatchEntry) (ops : List SNESOperand) :
    KeepsOperands op expected entries ops ↔
      (∀ dreg, op.castRegister expected = some dreg →
        validateOperandClass (.reg dreg) expected = true) ∧
      ∀ entry ∈ entries, acceptsOperands ops entry.classes = true ∨
        ∀ checked ∈ checkedOperands ops entry.classes,
          checked.1.castRegister checked.2 = none := by
  have candidate : ∀ entry : MatchEntry,
      ((validateOperands ops entry.classes).1 = false →
          (validateOperands ops entry.classes).2 = ops) ↔
        (acceptsOperands ops entry.classes = true ∨
          ∀ checked ∈ checkedOperands ops entry.classes,
            checked.1.castRegister checked.2 = none) := by
    intro entry
    rw [validateOperands_fst, validateOperands_snd_eq_iff]
    cases acceptsOperands ops entry.classes <;> simp
  constructor
  · rintro ⟨unchanged, kept, -⟩
    exact ⟨(validateTargetOperandClass_unchanged_iff op expected).mp unchanged,
      fun entry he => (candidate entry).mp (kept entry he)⟩
  · rintro ⟨castFits, misfits⟩
    have kept := fun entry he => (candidate entry).mpr (misfits entry he)
    exact ⟨(validateTargetOperandClass_unchanged_iff op expected).mpr castFits, kept,
      fun entries' perm => matchEntries_perm_of_kept kept perm⟩

/-- `lpm X, AL`: the index register that is expected is not there, and AL has become A. -/
theorem not_keepsOperands : ¬ ∀ op expected entries ops, KeepsOperands op expected entries ops := by
  intro keeps
  have unchanged := (keeps (.reg .AL) (.regClass .indexRegs) [] []).unchanged
  exact absurd (unchanged rfl) (by decide)

/-- `ld AL, -X`: the load without a decrement does not match, and has cast AL to A. -/
example : validateOperands [.reg .AL, .token "-", .reg .X] [.regClass .mainRegs, .reg] =
    (false, [.reg .A, .token "-", .reg .X]) := by decide

/-! ## Candidates without low halves -/

/-- Whether a low half is among the registers of a class. -/
def MatchClassKind.hasLowHalf : MatchClassKind → Bool
  | regClass rc => rc.members.any fun r => (toDREG r).isSome
  | _ => false

/-- An operand is left, or has become the main register that it is the low half of. -/
def CastFrom (op op' : SNESOperand) : Prop :=
  op' = op ∨ ∃ dreg, op.mainRegister = some dreg ∧ op' = .reg dreg

section

variable {op op' : SNESOperand} {ops ops' : List SNESOperand} {formals : List MatchClassKind}
  {entries entries' : List MatchEntry}

/-- What the matcher makes of an operand is cast from it. -/
theorem castFrom_classCast (op : SNESOperand) (expected : MatchClassKind) :
    CastFrom op (op.classCast expected) := by
  unfold SNESOperand.classCast
  cases hc : op.castRegister expected with
  | none => exact .inl rfl
  | some dreg => exact .inr ⟨dreg, (castRegister_eq_some.mp hc).2, rfl⟩

/-- A candidate leaves operands that are cast from what it has seen. -/
theorem castFrom_validateOperands (ops : List SNESOperand) (formals : List MatchClassKind) :
    List.Forall₂ CastFrom ops (validateOperands ops formals).2 := by
  induction ops generalizing formals with
  | nil => exact .nil
  | cons op ops ih =>
    rw [validateOperands, validateActual_eq]
    cases op.fits (formals.headD .invalidMatchClass) with
    | false => exact .cons (castFrom_classCast op _) (List.forall₂_same.mpr fun op _ => .inl rfl)
    | true => exact .cons (castFrom_classCast op _) (ih formals.tail)

/-- A class without low halves takes a cast operand for the one that was parsed. -/
theorem fits_of_castFrom (h : CastFrom op op') {expected : MatchClassKind}
    (noLowHalf : expected.hasLowHalf = false) : op'.fits expected = op.fits expected := by
  obtain rfl | ⟨dreg, low, rfl⟩ := h
  · rfl
  · cases op with
    | reg r =>
      have low : toDREG r = some dreg := low
      unfold toDREG at low
      split at low <;> cases low <;> cases expected with
      | regClass rc => cases rc <;> first | rfl | cases noLowHalf
      | _ => rfl
    | _ => cases low

/-- So does a candidate. -/
theorem acceptsOperands_of_castFrom (h : List.Forall₂ CastFrom ops ops')
    (noLowHalf : ∀ kind ∈ formals, kind.hasLowHalf = false) :
    acceptsOperands ops' formals = acceptsOperands ops formals := by
  induction h generalizing formals with
  | nil => rfl
  | @cons op op' ops ops' first _ ih =>
    have head : (formals.headD .invalidMatchClass).hasLowHalf = false := by
      cases formals with
      | nil => rfl
      | cons kind _ => exact noLowHalf kind List.mem_cons_self
    rw [acceptsOperands, acceptsOperands, fits_of_castFrom first head,
      ih fun kind hk => noLowHalf kind (List.mem_of_mem_tail hk)]

/-- Where no candidate has a class with a low half, the operands are accepted exactly if a candidate
accepts them as they were parsed, whatever the candidates before it have cast. -/
theorem matchEntries_isSome
    (noLowHalf : ∀ entry ∈ entries, ∀ kind ∈ entry.classes, kind.hasLowHalf = false) :
    (matchEntries entries ops).isSome = true ↔
      ∃ entry ∈ entries, acceptsOperands ops entry.classes = true := by
  induction entries generalizing ops with
  | nil => simp [matchEntries]
  | cons entry entries ih =>
    have later := fun e he => noLowHalf e (List.mem_cons_of_mem entry he)
    have cast := castFrom_validateOperands ops entry.classes
    rw [List.exists_mem_cons_iff, ← validateOperands_fst, matchEntries]
    rcases hv : validateOperands ops entry.classes with ⟨_ | _, left⟩
    · rw [hv] at cast
      simp only [ih later, Bool.false_eq_true, false_or]
      refine exists_congr fun e => and_congr_right fun he => ?_
      rw [acceptsOperands_of_castFrom cast (later e he)]
    · simp

/-- The order of such candidates does not matter. -/
theorem matchEntries_perm
    (noLowHalf : ∀ entry ∈ entries, ∀ kind ∈ entry.classes, kind.hasLowHalf = false)
    (perm : entries'.Perm entries) :
    (matchEntries entries' ops).isSome = (matchEntries entries ops).isSome := by
  rw [Bool.eq_iff_iff, matchEntries_isSome noLowHalf,
    matchEntries_isSome fun entry he => noLowHalf entry (perm.mem_iff.mp he)]
  simp only [perm.mem_iff]

/-- The loads and stores have no class with a low half: they accept the same operands in any
order, although a load that does not match may leave a cast operand behind. -/
theorem matchInstructionImpl_perm {table : List MatchEntry} (perm : table.Perm matchTable)
    (mnemonic : String) (ops : List SNESOperand) :
    (matchEntries (table.filter fun entry => entry.mnemonic == mnemonic) ops).isSome =
      (matchInstructionImpl (.token mnemonic :: ops)).isSome := by
  have noLowHalf : ∀ entry ∈ matchTable, ∀ kind ∈ entry.classes, kind.hasLowHalf = false := by
    decide
  refine matchEntries_perm (fun entry he => noLowHalf entry (List.mem_of_mem_filter he)) ?_
  exact perm.filter _

end

end Snes
