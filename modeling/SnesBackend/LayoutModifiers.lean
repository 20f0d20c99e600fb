/-
# Modifiers of Values Known at Layout Time

A difference of labels is no constant for the encoder and one for the assembler.
When it stands under a modifier, `SNESMCExpr::evaluateAsRelocatableImpl` selects
a byte of it and `adjustFixupValue` selects a byte of that byte.
-/
import SnesBackend.ModifierFixups

namespace Snes

/-! ## Relocatable values -/

/-- `MCValue`: the sum of a symbol, a symbol that is subtracted, and a constant. -/
structure MCValue where
  symA : Option ℕ
  symB : Option ℕ
  constant : BitVec 64
deriving DecidableEq, Repr

/-- A value without symbols. -/
def MCValue.absolute (value : BitVec 64) : MCValue :=
  ⟨none, none, value⟩

/-- `MCValue::isAbsolute`. -/
def MCValue.isAbsolute (value : MCValue) : Bool :=
  value.symA.isNone && value.symB.isNone

/-- An absolute value is absolute. -/
@[simp]
theorem MCValue.isAbsolute_absolute (value : BitVec 64) :
    (MCValue.absolute value).isAbsolute = true :=
  rfl

/-- The constant of an absolute value. -/
@[simp]
theorem MCValue.constant_absolute (value : BitVec 64) :
    (MCValue.absolute value).constant = value :=
  rfl

/-- The section of each defined symbol and its offset there. -/
abbrev MCAsmLayout := ℕ → Option (ℕ × BitVec 64)

/-- `AttemptToFoldSymbolOffsetDifference`: the difference of two symbols of one section is a
number. -/
def attemptToFoldSymbolOffsetDifference (layout : Option MCAsmLayout) (a b : Option ℕ)
    (addend : BitVec 64) : Option ℕ × Option ℕ × BitVec 64 :=
  match layout, a, b with
  | some layout, some sa, some sb =>
      match layout sa, layout sb with
      | some (secA, offsetA), some (secB, offsetB) =>
          if secA = secB then (none, none, addend + (offsetA - offsetB)) else (a, b, addend)
      | _, _ => (a, b, addend)
  | _, _, _ => (a, b, addend)

/-- `EvaluateSymbolicAdd`. -/
def evaluateSymbolicAdd (layout : Option MCAsmLayout) (lhs : MCValue) (rhsA rhsB : Option ℕ)
    (rhsCst : BitVec 64) : Option MCValue :=
  let resultCst := lhs.constant + rhsCst
  let (lhsA, lhsB, resultCst) :=
    attemptToFoldSymbolOffsetDifference layout lhs.symA lhs.symB resultCst
  let (lhsA, rhsB, resultCst) := attemptToFoldSymbolOffsetDifference layout lhsA rhsB resultCst
  let (rhsA, lhsB, resultCst) := attemptToFoldSymbolOffsetDifference layout rhsA lhsB resultCst
  let (rhsA, rhsB, resultCst) := attemptToFoldSymbolOffsetDifference layout rhsA rhsB resultCst
  -- the sum or the difference of two symbols cannot be represented
  if (lhsA.isSome && rhsA.isSome) || (lhsB.isSome && rhsB.isSome) then
    none
  else
    some ⟨lhsA <|> rhsA, lhsB <|> rhsB, resultCst⟩

namespace MCExpr

/-- `evaluateAsRelocatableImpl` of `MCExpr` and, for a modified expression, of `SNESMCExpr`. -/
def evaluateAsRelocatable (layout : Option MCAsmLayout) : MCExpr → Option MCValue
  | constant value => some (.absolute value)
  | symbolRef symbol => some ⟨some symbol, none, 0⟩
  | binary op lhs rhs =>
      (lhs.evaluateAsRelocatable layout).bind fun l =>
        (rhs.evaluateAsRelocatable layout).bind fun r =>
          if l.isAbsolute && r.isAbsolute then
            match op with
            | .add => some (.absolute (l.constant + r.constant))
            | .sub => some (.absolute (l.constant - r.constant))
          else
            match op with
            | .add => evaluateSymbolicAdd layout l r.symA r.symB r.constant
            | .sub => evaluateSymbolicAdd layout l r.symB r.symA (-r.constant)
  | target kind negated subExpr =>
      (subExpr.evaluateAsRelocatable layout).bind fun value =>
        if value.isAbsolute then
          some (.absolute (kind.evaluateAsInt64 negated value.constant))
        else if layout.isNone then
          none
        else
          -- without an added symbol the source reads the kind of a null pointer
          value.symA.map fun symbol => ⟨some symbol, value.symB, value.constant⟩

/-- Without a layout nothing is folded. -/
theorem evaluateSymbolicAdd_none (lhs : MCValue) (rhsA rhsB : Option ℕ) (rhsCst : BitVec 64) :
    evaluateSymbolicAdd none lhs rhsA rhsB rhsCst =
      if (lhs.symA.isSome && rhsA.isSome) || (lhs.symB.isSome && rhsB.isSome) then
        none
      else
        some ⟨lhs.symA <|> rhsA, lhs.symB <|> rhsB, lhs.constant + rhsCst⟩ :=
  rfl

/-- Without a layout a sum with a symbol in it keeps a symbol. -/
theorem not_isAbsolute_evaluateSymbolicAdd {lhs value : MCValue} {rhsA rhsB : Option ℕ}
    {rhsCst : BitVec 64} (hsymbol : ¬ (lhs.isAbsolute = true ∧ rhsA = none ∧ rhsB = none))
    (h : evaluateSymbolicAdd none lhs rhsA rhsB rhsCst = some value) :
    value.isAbsolute = false := by
  obtain ⟨lhsA, lhsB, constant⟩ := lhs
  rw [evaluateSymbolicAdd_none, Option.ite_none_left_eq_some, Option.some.injEq] at h
  obtain ⟨-, rfl⟩ := h
  cases lhsA <;> cases lhsB <;> cases rhsA <;> cases rhsB <;>
    simp [MCValue.isAbsolute] at hsymbol ⊢

/-- **Before layout** an expression evaluates to an absolute value when it has no symbol in it. -/
theorem evaluateAsRelocatable_none (e : MCExpr) :
    ((e.evaluateAsRelocatable none).bind fun value =>
      if value.isAbsolute then some value.constant else none) = e.evaluateAsAbsolute := by
  induction e with
  | constant value => rfl
  | symbolRef symbol => rfl
  | target kind negated subExpr ih =>
      rw [evaluateAsAbsolute, ← ih, evaluateAsRelocatable]
      cases subExpr.evaluateAsRelocatable none with
      | none => rfl
      | some value => cases h : value.isAbsolute <;> simp [h]
  | binary op lhs rhs ihl ihr =>
      have hsum : (binary op lhs rhs).evaluateAsAbsolute =
          lhs.evaluateAsAbsolute.bind fun l => rhs.evaluateAsAbsolute.map fun r =>
            match op with
            | .add => l + r
            | .sub => l - r := by
        cases op <;> rfl
      rw [hsum, ← ihl, ← ihr, evaluateAsRelocatable]
      cases hl : lhs.evaluateAsRelocatable none with
      | none => rfl
      | some l =>
          cases hr : rhs.evaluateAsRelocatable none with
          | none => cases h : l.isAbsolute <;> simp [h]
          | some r =>
              by_cases habs : l.isAbsolute = true ∧ r.isAbsolute = true
              · cases op <;> simp [habs.1, habs.2]
              · -- a symbol of an operand is still there in the sum
                have hnone : ¬ (l.isAbsolute && r.isAbsolute) = true := by simpa using habs
                have hsymbols : ∀ a b, a = r.symA ∧ b = r.symB ∨ a = r.symB ∧ b = r.symA →
                    ¬ (l.isAbsolute = true ∧ a = none ∧ b = none) := by
                  rintro a b hab ⟨hlabs, rfl, rfl⟩
                  refine habs ⟨hlabs, ?_⟩
                  rcases hab with ⟨ha, hb⟩ | ⟨ha, hb⟩ <;>
                    rw [MCValue.isAbsolute, ← ha, ← hb] <;> rfl
                have hright : ((if l.isAbsolute then some l.constant else none).bind fun l' =>
                    (if r.isAbsolute then some r.constant else none).map fun r' =>
                      match op with
                      | .add => l' + r'
                      | .sub => l' - r') = none := by
                  cases hlabs : l.isAbsolute with
                  | false => rfl
                  | true =>
                      cases hrabs : r.isAbsolute with
                      | false => rfl
                      | true => exact absurd ⟨hlabs, hrabs⟩ habs
                simp only [Option.bind_some, if_neg hnone, hright, Option.bind_eq_none_iff]
                intro value hvalue
                have hvalue' : value.isAbsolute = false := by
                  cases op with
                  | add =>
                      have hsymbol := hsymbols _ _ (.inl ⟨rfl, rfl⟩)
                      exact not_isAbsolute_evaluateSymbolicAdd hsymbol hvalue
                  | sub =>
                      have hsymbol := hsymbols _ _ (.inr ⟨rfl, rfl⟩)
                      exact not_isAbsolute_evaluateSymbolicAdd hsymbol hvalue
                rw [hvalue']
                rfl

end MCExpr

/-! ## Fixups at layout time -/

/-- `evaluateFixup`, for the kinds that are not relative to the program counter: what the fixup
points to and the value that is written for it. -/
def evaluateFixup (layout : MCAsmLayout) (fixup : MCFixup) : Option (MCValue × BitVec 64) :=
  (fixup.value.evaluateAsRelocatable (some layout)).map fun target =>
    let offset (symbol : Option ℕ) : BitVec 64 := ((symbol.bind layout).map Prod.snd).getD 0
    (target, target.constant + offset target.symA - offset target.symB)

/-- The value that `applyFixup` writes for a fixup. -/
def MCFixup.adjusted (layout : MCAsmLayout) (temporary : ℕ → Bool) (fixup : MCFixup) :
    Option (Except FixupError (BitVec 64)) :=
  (evaluateFixup layout fixup).map fun (target, value) =>
    adjustFixupValue fixup.kind (target.symA.any temporary) value

/-- The constant that a modified expression has for the encoder:
`SNESMCExpr::evaluateAsConstant`. -/
def VariantKind.evaluateAsConstant (kind : VariantKind) (negated : Bool) (subExpr : MCExpr) :
    Option (BitVec 64) :=
  (subExpr.evaluateAsRelocatable none).bind fun value =>
    if value.isAbsolute then some (kind.evaluateAsInt64 negated value.constant) else none

/-- The constant is the one that `getExprOpValue` looks for. -/
theorem VariantKind.evaluateAsConstant_eq (kind : VariantKind) (negated : Bool)
    (subExpr : MCExpr) :
    kind.evaluateAsConstant negated subExpr =
      (MCExpr.target kind negated subExpr).evaluateAsAbsolute := by
  rw [evaluateAsConstant, MCExpr.evaluateAsAbsolute, ← MCExpr.evaluateAsRelocatable_none]
  cases subExpr.evaluateAsRelocatable none with
  | none => rfl
  | some value => cases h : value.isAbsolute <;> simp [h]

/-- A modified expression that the encoder records is written as its modifier applied to the value
that its subexpression has at layout time. -/
def ModifierAppliedOnce (layout : MCAsmLayout) (temporary : ℕ → Bool) (kind : VariantKind)
    (negated : Bool) (subExpr : MCExpr) (value : BitVec 64) : Prop :=
  ∃ fixup, getExprOpValue (.target kind negated subExpr) = some (0, [fixup]) ∧
    fixup.adjusted layout temporary =
      some (.ok (frdkPlacement (kind.evaluateAsInt64 negated value)))

/-! ## A byte of a byte -/

namespace VariantKind

/-- The one byte besides zero that a negated modifier makes of itself. -/
def negatedByte : VariantKind → ℕ
  | lo8 => 128
  | pmLo8 => 171
  | _ => 255

/-- The byte that a modifier selects is the one that it selects of that byte again: the modifier is
`lo8`, or the byte is zero, or the modifier is negated and the byte is its `negatedByte`. -/
def ByteRepeats (kind : VariantKind) (negated : Bool) (value : BitVec 64) : Prop :=
  let byte :=
    (if negated then -value else value).toNat / 2 ^ (kind.isPm.toNat + kind.byteShift) % 256
  kind = .lo8 ∧ negated = false ∨ byte = 0 ∨ negated = true ∧ byte = kind.negatedByte

instance (kind : VariantKind) (negated : Bool) (value : BitVec 64) :
    Decidable (kind.ByteRepeats negated value) :=
  inferInstanceAs (Decidable (_ ∧ _ ∨ _ ∨ _ ∧ _))

/-- A byte of a value that is a byte. -/
theorem toNat_selectByte_of_lt {value : BitVec 64} (h : value.toNat < 256) {n : ℕ}
    (hn : n = 0 ∨ n = 8 ∨ n = 16 ∨ n = 24) :
    (selectByte value n).toNat = if n = 0 then value.toNat else 0 := by
  rw [toNat_selectByte]
  rcases hn with rfl | rfl | rfl | rfl
  · simp [Nat.mod_eq_of_lt h]
  all_goals rw [if_neg (by decide)]; omega

/-- A byte of the negation of a value that is a byte. -/
theorem toNat_selectByte_neg_of_lt {value : BitVec 64} (h : value.toNat < 256) {n : ℕ}
    (hn : n = 0 ∨ n = 8 ∨ n = 16 ∨ n = 24) :
    (selectByte (-value) n).toNat =
      if value.toNat = 0 then 0 else if n = 0 then 256 - value.toNat else 255 := by
  rw [toNat_selectByte, BitVec.toNat_neg]
  by_cases hzero : value.toNat = 0
  · simp [hzero]
  · have hneg : (2 ^ 64 - value.toNat) % 2 ^ 64 = 2 ^ 64 - value.toNat :=
      Nat.mod_eq_of_lt (by omega)
    rw [if_neg hzero, hneg]
    rcases hn with rfl | rfl | rfl | rfl <;> simp <;> omega

/-- The byte that the backend selects of a byte is that byte again. -/
theorem toNat_selectByte_lateValue_eq_iff (kind : VariantKind) (negated : Bool) {byte : BitVec 64}
    (h : byte.toNat < 256) :
    (selectByte (kind.lateValue negated byte) kind.byteShift).toNat = byte.toNat ↔
      kind = .lo8 ∧ negated = false ∨ byte.toNat = 0 ∨
        negated = true ∧ byte.toNat = kind.negatedByte := by
  have hshift : kind.byteShift = 0 ∨ kind.byteShift = 8 ∨ kind.byteShift = 16 ∨
      kind.byteShift = 24 := by
    cases kind <;> simp [byteShift]
  have hhalf : (byte >>> 1).toNat = byte.toNat / 2 := by
    rw [BitVec.toNat_ushiftRight, Nat.shiftRight_eq_div_pow, pow_one]
  have hlate : (if kind.isPm then byte >>> 1 else byte).toNat < 256 := by
    split <;> omega
  cases negated with
  | false =>
      rw [lateValue, earlyValue, if_neg (by decide), toNat_selectByte_of_lt hlate hshift]
      cases kind <;> simp only [isPm, byteShift, negatedByte, hhalf, if_true, Bool.false_eq_true,
        if_false] <;> grind
  | true =>
      rw [lateValue, earlyValue, if_pos rfl, toNat_selectByte_neg_of_lt hlate hshift]
      cases kind <;> simp only [isPm, byteShift, negatedByte, hhalf, if_true, Bool.false_eq_true,
        if_false] <;> grind

/-- A modifier applied to its own byte gives that byte when it `ByteRepeats`. -/
theorem adjustFixupValue_evaluateAsInt64 (kind : VariantKind) (negated : Bool) (value : BitVec 64) :
    adjustFixupValue (kind.getFixupKind negated) false (kind.evaluateAsInt64 negated value) =
        .ok (frdkPlacement (kind.evaluateAsInt64 negated value)) ↔
      kind.ByteRepeats negated value := by
  have hbyte : (kind.evaluateAsInt64 negated value).toNat =
      (if negated then -value else value).toNat / 2 ^ (kind.isPm.toNat + kind.byteShift) % 256 := by
    rw [evaluateAsInt64_eq, toNat_selectByte]
    rfl
  have hlt : (kind.evaluateAsInt64 negated value).toNat < 256 := by
    rw [hbyte]
    exact Nat.mod_lt _ (by decide)
  have hself : kind.evaluateAsInt64 negated value =
      selectByte (kind.evaluateAsInt64 negated value) 0 := by
    rw [← BitVec.toNat_inj, toNat_selectByte]
    omega
  rw [adjustFixupValue_getFixupKind, Except.ok.injEq]
  conv_lhs => rhs; rw [hself]
  rw [frdkPlacement_inj, ← hself, ← BitVec.toNat_inj,
    toNat_selectByte_lateValue_eq_iff kind negated hlt, hbyte]
  rfl

end VariantKind

/-! ## Applied once -/

/-- What is recorded for a modified expression that is no constant. -/
theorem getExprOpValue_of_symbolic {kind : VariantKind} {negated : Bool} {subExpr : MCExpr}
    (h : kind.evaluateAsConstant negated subExpr = none) :
    getExprOpValue (.target kind negated subExpr) =
      some (0, [⟨0, .target kind negated subExpr, kind.getFixupKind negated⟩]) := by
  rw [VariantKind.evaluateAsConstant_eq] at h
  simp [getExprOpValue, h]

/-- A modified expression that is absolute at layout time is evaluated to its byte. -/
theorem adjusted_of_absolute {layout : MCAsmLayout} {subExpr : MCExpr} {value : BitVec 64}
    (h : subExpr.evaluateAsRelocatable (some layout) = some (.absolute value))
    (temporary : ℕ → Bool) (offset : ℕ) (kind : VariantKind) (negated : Bool)
    (fixupKind : FixupKind) :
    (MCFixup.mk offset (.target kind negated subExpr) fixupKind).adjusted layout temporary =
      some (adjustFixupValue fixupKind false (kind.evaluateAsInt64 negated value)) := by
  unfold MCFixup.adjusted evaluateFixup
  rw [MCExpr.evaluateAsRelocatable, h, Option.bind_some, MCValue.isAbsolute_absolute, if_pos rfl]
  simp [MCValue.absolute]

/-- **When a modifier is applied once**: a modified expression that is no constant for the encoder
and absolute for the assembler is written as the byte of its value exactly when that byte repeats
itself under the modifier. -/
theorem modifierAppliedOnce_iff (layout : MCAsmLayout) (temporary : ℕ → Bool) (kind : VariantKind)
    (negated : Bool) {subExpr : MCExpr} {value : BitVec 64}
    (hencode : kind.evaluateAsConstant negated subExpr = none)
    (hlayout : subExpr.evaluateAsRelocatable (some layout) = some (.absolute value)) :
    ModifierAppliedOnce layout temporary kind negated subExpr value ↔
      kind.ByteRepeats negated value := by
  unfold ModifierAppliedOnce
  rw [getExprOpValue_of_symbolic hencode, ← kind.adjustFixupValue_evaluateAsInt64 negated value]
  constructor
  · rintro ⟨fixup, hfixup, hadjusted⟩
    obtain rfl : _ = fixup := by simpa using hfixup
    rw [adjusted_of_absolute hlayout] at hadjusted
    exact Option.some.inj hadjusted
  · intro hadjusted
    refine ⟨_, rfl, ?_⟩
    rw [adjusted_of_absolute hlayout, hadjusted]

/-- Two labels of one section, `0x1234` bytes apart. -/
def twoLabels : MCAsmLayout
  | 0 => some (0, 0x10)
  | 1 => some (0, 0x1244)
  | _ => none

/-- `lo8(b - a)` is written as `0x34`. -/
theorem modifierAppliedOnce_lo8 :
    ModifierAppliedOnce twoLabels (fun _ => false) .lo8 false
      (.binary .sub (.symbolRef 1) (.symbolRef 0)) 0x1234 :=
  (modifierAppliedOnce_iff twoLabels (fun _ => false) .lo8 false rfl rfl).mpr
    (.inl ⟨rfl, rfl⟩)

/-- `hi8(b - a)` is recorded by the encoder, is `0x12` at layout time, and is not written so. -/
theorem not_modifierAppliedOnce_hi8 :
    VariantKind.evaluateAsConstant .hi8 false (.binary .sub (.symbolRef 1) (.symbolRef 0)) = none ∧
      (MCExpr.binary .sub (.symbolRef 1) (.symbolRef 0)).evaluateAsRelocatable (some twoLabels) =
        some (.absolute 0x1234) ∧
      ¬ ModifierAppliedOnce twoLabels (fun _ => false) .hi8 false
        (.binary .sub (.symbolRef 1) (.symbolRef 0)) 0x1234 := by
  have hvalue : (MCExpr.binary .sub (.symbolRef 1) (.symbolRef 0)).evaluateAsRelocatable
      (some twoLabels) = some (.absolute 0x1234) := rfl
  refine ⟨rfl, hvalue, ?_⟩
  rintro ⟨fixup, hfixup, hadjusted⟩
  rw [getExprOpValue_of_symbolic rfl] at hfixup
  obtain rfl : _ = fixup := by simpa using hfixup
  -- the byte `0x12` has no second byte
  rw [adjusted_of_absolute hvalue] at hadjusted
  exact absurd hadjusted (by decide)

end Snes
