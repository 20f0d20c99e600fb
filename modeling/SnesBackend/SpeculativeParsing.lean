/-
# Speculative Parsing

`tryParseRegisterOperand`, `tryParseRelocExpression` and `tryParseExpression` are
tried one after the other on the tokens of an operand.  One that fails and reports
no error leaves the decision to the next one, which should see the same tokens.

The tokens of a modifier and its argument are singled out first; what the
parsers do is then given by the shape of the tokens.
-/
import SnesBackend.AsmParser

namespace Snes

/-! ## The shapes of operands -/

/-- A modifier with an opening parenthesis: whether a minus sign stands in front, the name, and the
tokens of the argument. -/
def modifierCall : List AsmToken → Option (Bool × String × List AsmToken)
  | .minus :: .identifier name :: .lParen :: inner => some (true, name, inner)
  | .plus :: .identifier name :: .lParen :: inner => some (false, name, inner)
  | .identifier name :: .lParen :: inner => some (false, name, inner)
  | _ => none

/-- A name with an opening parenthesis behind a token that is no sign. -/
def signMissing : List AsmToken → Bool
  | .minus :: .identifier _ :: .lParen :: _ => false
  | .plus :: .identifier _ :: .lParen :: _ => false
  | _ :: .identifier _ :: .lParen :: _ => true
  | _ => false

/-- The generic expression parser never moves back. -/
def MovesForward (parseExpression : List AsmToken → ParsedExpression) : Prop :=
  ∀ tokens, (parseExpression tokens).tokens <:+ tokens

/-! ## The sign of a modifier -/

section

variable {tokens inner : List AsmToken} {isNegated : Bool} {name : String}

/-- A sign is eaten in front of a modifier. -/
theorem parseModifierSign_of_call (h : modifierCall tokens = some (isNegated, name, inner)) :
    parseModifierSign tokens = some (isNegated, .identifier name :: .lParen :: inner) := by
  unfold modifierCall at h
  split at h <;> cases h <;> simp [parseModifierSign]

/-- The token in front of the name is asserted to be a sign. -/
theorem parseModifierSign_of_signMissing (h : signMissing tokens = true) :
    parseModifierSign tokens = none := by
  unfold parseModifierSign
  split
  case h_1 sign name rest =>
    have notMinus : sign ≠ .minus := by
      rintro rfl
      cases h
    have notPlus : sign ≠ .plus := by
      rintro rfl
      cases h
    rw [if_neg notMinus, if_neg notPlus]
  case h_2 other =>
    unfold signMissing at h
    split at h
    case h_3 sign name rest _ _ => exact absurd rfl (other sign name rest)
    all_goals cases h

/-- Otherwise no token is eaten. -/
theorem parseModifierSign_of_plain (hcall : modifierCall tokens = none)
    (hsign : signMissing tokens = false) : parseModifierSign tokens = some (false, tokens) := by
  unfold parseModifierSign
  split
  case h_1 sign name rest =>
    by_cases hminus : sign = .minus
    · subst hminus
      cases hcall
    by_cases hplus : sign = .plus
    · subst hplus
      cases hcall
    simp [signMissing] at hsign
  case h_2 => rfl

/-- The tokens of a modifier. -/
theorem suffix_of_call (h : modifierCall tokens = some (isNegated, name, inner)) :
    .identifier name :: .lParen :: inner <:+ tokens := by
  unfold modifierCall at h
  split at h <;> cases h
  · exact List.suffix_cons _ _
  · exact List.suffix_cons _ _
  · exact List.suffix_rfl

end

/-! ## The three parsers -/

section

variable {parseExpression : List AsmToken → ParsedExpression} {st : ParserState}

/-- **A modifier** that is known is parsed with its argument. -/
theorem tryParseRelocExpression_of_call {isNegated : Bool} {name : String}
    {inner : List AsmToken} (h : modifierCall st.tokens = some (isNegated, name, inner)) :
    tryParseRelocExpression parseExpression st =
      match getKindByName name with
      | none =>
          some (true, { st with
            tokens := .identifier name :: .lParen :: inner
            errors := st.errors ++ ["unknown modifier"] })
      | some kind =>
          match (parseExpression inner).result with
          | none => some (true, st.after (parseExpression inner))
          | some e =>
              if (parseExpression inner).tokens.head? = some .rParen then
                some (false, { st with
                  tokens := (parseExpression inner).tokens.tail
                  operands := st.operands ++ [.imm (.target kind isNegated e)]
                  errors := st.errors ++ (parseExpression inner).errors })
              else
                none := by
  rw [tryParseRelocExpression, parseModifierSign_of_call h, Option.bind_some]
  simp only
  cases getKindByName name with
  | none => rfl
  | some kind =>
      rcases parseExpression inner with ⟨_ | e, errors, rest⟩
      · rfl
      · rcases rest with _ | ⟨tok, rest⟩
        · rfl
        · by_cases hparen : tok = .rParen
          · subst hparen
            rfl
          · simp [hparen]

/-- A name behind a token that is no sign violates an assertion. -/
theorem tryParseRelocExpression_of_signMissing (h : signMissing st.tokens = true) :
    tryParseRelocExpression parseExpression st = none := by
  rw [tryParseRelocExpression, parseModifierSign_of_signMissing h, Option.bind_none]

/-- Tokens of another shape are left to the next parser. -/
theorem tryParseRelocExpression_of_plain (hcall : modifierCall st.tokens = none)
    (hsign : signMissing st.tokens = false) :
    tryParseRelocExpression parseExpression st = some (true, st) := by
  rw [tryParseRelocExpression, parseModifierSign_of_plain hcall hsign, Option.bind_some]
  simp only
  split
  case h_1 name inner heq =>
    rw [heq] at hcall
    cases hcall
  case h_2 => rfl

/-- **What `tryParseRelocExpression` can do**: leave the tokens to the next parser, report an
unknown modifier, fail on the argument, or add an operand. -/
theorem tryParseRelocExpression_cases {outcome : Bool × ParserState}
    (h : tryParseRelocExpression parseExpression st = some outcome) :
    (modifierCall st.tokens = none ∧ outcome = (true, st)) ∨
      ∃ isNegated name inner, modifierCall st.tokens = some (isNegated, name, inner) ∧
        ((getKindByName name = none ∧ outcome = (true, { st with
            tokens := .identifier name :: .lParen :: inner
            errors := st.errors ++ ["unknown modifier"] })) ∨
          ((getKindByName name).isSome = true ∧ (parseExpression inner).result = none ∧
            outcome = (true, st.after (parseExpression inner))) ∨
          ∃ kind e behind, getKindByName name = some kind ∧
            (parseExpression inner).result = some e ∧
            (parseExpression inner).tokens = .rParen :: behind ∧
            outcome = (false, { st with
              tokens := behind
              operands := st.operands ++ [.imm (.target kind isNegated e)]
              errors := st.errors ++ (parseExpression inner).errors })) := by
  cases hcall : modifierCall st.tokens with
  | none =>
      cases hsign : signMissing st.tokens with
      | true =>
          rw [tryParseRelocExpression_of_signMissing hsign] at h
          cases h
      | false =>
          rw [tryParseRelocExpression_of_plain hcall hsign] at h
          exact .inl ⟨rfl, (Option.some.inj h).symm⟩
  | some call =>
      obtain ⟨isNegated, name, inner⟩ := call
      rw [tryParseRelocExpression_of_call hcall] at h
      refine .inr ⟨isNegated, name, inner, rfl, ?_⟩
      cases hkind : getKindByName name with
      | none =>
          rw [hkind] at h
          exact .inl ⟨rfl, (Option.some.inj h).symm⟩
      | some kind =>
          rw [hkind] at h
          cases hresult : (parseExpression inner).result with
          | none =>
              simp only [hresult] at h
              exact .inr (.inl ⟨rfl, rfl, (Option.some.inj h).symm⟩)
          | some e =>
              simp only [hresult] at h
              split_ifs at h with hparen
              obtain ⟨behind, heq⟩ := List.head?_eq_some_iff.mp hparen
              rw [heq] at h
              exact .inr (.inr ⟨kind, e, behind, rfl, rfl, heq, (Option.some.inj h).symm⟩)

/-- A plain expression is parsed unless a sign stands before a name. -/
theorem tryParseExpression_of_reloc {st' : ParserState}
    (h : tryParseRelocExpression parseExpression st = some (true, st')) :
    tryParseExpression parseExpression st =
      if st'.signsIdentifier then some (true, st')
      else
        match (parseExpression st'.tokens).result with
        | none => some (true, st'.after (parseExpression st'.tokens))
        | some e => some (false, (st'.after (parseExpression st'.tokens)).push (.imm e)) := by
  rw [tryParseExpression, h, Option.map_some]
  simp only [if_true]
  split_ifs
  · rfl
  · cases (parseExpression st'.tokens).result with
    | none => rfl
    | some e => rfl

/-- **What `tryParseExpression` can do** after the modifier parser: nothing, when that has succeeded
or a sign stands before a name; otherwise fail on a plain expression, or add it as an operand. -/
theorem tryParseExpression_cases {outcome : Bool × ParserState}
    (h : tryParseExpression parseExpression st = some outcome) :
    ∃ failed st', tryParseRelocExpression parseExpression st = some (failed, st') ∧
      (outcome = (failed, st') ∨
        (failed = true ∧ (parseExpression st'.tokens).result = none ∧
          outcome = (true, st'.after (parseExpression st'.tokens))) ∨
        ∃ e, failed = true ∧ (parseExpression st'.tokens).result = some e ∧
          outcome = (false, (st'.after (parseExpression st'.tokens)).push (.imm e))) := by
  cases hreloc : tryParseRelocExpression parseExpression st with
  | none =>
      rw [tryParseExpression, hreloc] at h
      cases h
  | some reloc =>
      obtain ⟨_ | _, st'⟩ := reloc
      · rw [tryParseExpression, hreloc] at h
        exact ⟨false, st', rfl, .inl (Option.some.inj h).symm⟩
      · rw [tryParseExpression_of_reloc hreloc] at h
        refine ⟨true, st', rfl, ?_⟩
        split_ifs at h
        · exact .inl (Option.some.inj h).symm
        · cases hresult : (parseExpression st'.tokens).result with
          | none =>
              simp only [hresult] at h
              exact .inr (.inl ⟨rfl, rfl, (Option.some.inj h).symm⟩)
          | some e =>
              simp only [hresult] at h
              exact .inr (.inr ⟨e, rfl, rfl, (Option.some.inj h).symm⟩)

/-- The errors that the modifier parser has reported stay. -/
theorem prefix_errors_of_reloc {failed : Bool} {st' : ParserState} {outcome : Bool × ParserState}
    (h : tryParseRelocExpression parseExpression st = some (failed, st'))
    (houtcome : tryParseExpression parseExpression st = some outcome) :
    st'.errors <+: outcome.2.errors := by
  obtain ⟨failed', st'', hreloc, hcases⟩ := tryParseExpression_cases houtcome
  obtain ⟨rfl, rfl⟩ := Prod.mk.inj (Option.some.inj (hreloc.symm.trans h))
  rcases hcases with rfl | ⟨-, -, rfl⟩ | ⟨e, -, -, rfl⟩
  · exact List.prefix_rfl
  · exact List.prefix_append _ _
  · exact List.prefix_append _ _

end

/-! ## Failing without an error -/

/-- Where a parser fails and reports no error, the tokens and the operands are as before. -/
def RestoredOnFailure (st : ParserState) (outcome : Bool × ParserState) : Prop :=
  outcome.1 = true → outcome.2.errors = st.errors →
    outcome.2.tokens = st.tokens ∧ outcome.2.operands = st.operands

/-- All three parsers restore the state. -/
def SpeculationRestores (parseExpression : List AsmToken → ParsedExpression) (st : ParserState) :
    Prop :=
  RestoredOnFailure st (tryParseRegisterOperand st) ∧
    (∀ outcome, tryParseRelocExpression parseExpression st = some outcome →
      RestoredOnFailure st outcome) ∧
    ∀ outcome, tryParseExpression parseExpression st = some outcome → RestoredOnFailure st outcome

/-- A name and a colon are followed by the name of a low half. -/
def pairNamesRegister : List AsmToken → Bool
  | .identifier _ :: .colon :: .identifier low :: _ => ((parseRegisterName low).bind toDREG).isSome
  | .identifier _ :: .colon :: _ => false
  | _ => true

/-- The expression parser fails and reports no error. -/
def ParsedExpression.FailsSilently (parsed : ParsedExpression) : Prop :=
  parsed.result = none ∧ parsed.errors = []

/-- When the parsers restore the state: the tokens do not start with a name and a colon that are no
register pair, and the expression parser does not fail silently, neither on the argument of a
modifier nor, having moved on, on a plain expression. -/
def FailuresRestored (parseExpression : List AsmToken → ParsedExpression) (st : ParserState) :
    Prop :=
  pairNamesRegister st.tokens = true ∧
    (∀ isNegated name inner, modifierCall st.tokens = some (isNegated, name, inner) →
      (getKindByName name).isSome = true → ¬ (parseExpression inner).FailsSilently) ∧
    (modifierCall st.tokens = none → signMissing st.tokens = false → st.signsIdentifier = false →
      (parseExpression st.tokens).FailsSilently → (parseExpression st.tokens).tokens = st.tokens)

section

variable {parseExpression : List AsmToken → ParsedExpression} {st : ParserState}

/-- A register that is not found leaves the tokens, unless a name and a colon were eaten. -/
theorem parseRegister_restores_iff (tokens : List AsmToken) :
    ((parseRegister tokens).1 = none → (parseRegister tokens).2 = tokens) ↔
      pairNamesRegister tokens = true := by
  unfold parseRegister
  split
  case h_1 high low rest =>
    have moved : .identifier low :: rest ≠
        AsmToken.identifier high :: .colon :: .identifier low :: rest := by
      intro same
      have lengths := congrArg List.length same
      simp only [List.length_cons] at lengths
      omega
    simp only [pairNamesRegister, moved, imp_false, Option.isSome_iff_ne_none]
  case h_2 high rest notName =>
    have moved : rest ≠ AsmToken.identifier high :: .colon :: rest := by
      intro same
      have lengths := congrArg List.length same
      simp only [List.length_cons] at lengths
      omega
    simp [pairNamesRegister, moved]
  case h_3 name rest _ notColon =>
    refine iff_of_true (fun _ => rfl) ?_
    rcases rest with _ | ⟨tok, rest⟩
    · rfl
    · cases tok
      case colon => exact absurd rfl (notColon rest)
      all_goals rfl
  case h_4 =>
    simp [pairNamesRegister]

/-- `tryParseRegisterOperand` restores all but a name and a colon. -/
theorem restoredOnFailure_register :
    RestoredOnFailure st (tryParseRegisterOperand st) ↔ pairNamesRegister st.tokens = true := by
  rw [← parseRegister_restores_iff]
  unfold tryParseRegisterOperand
  rcases parseRegister st.tokens with ⟨_ | r, tokens⟩
  · simp [RestoredOnFailure]
  · simp [RestoredOnFailure]

/-- A failure of the expression parser restores the state if it is reported, or if no token was
eaten. -/
theorem restoredOnFailure_after {parsed : ParsedExpression} (h : parsed.result = none) :
    RestoredOnFailure st (true, st.after parsed) ↔
      (parsed.FailsSilently → parsed.tokens = st.tokens) := by
  simp [RestoredOnFailure, ParserState.after, ParsedExpression.FailsSilently, h]

/-- `tryParseRelocExpression` restores all but a modifier whose argument fails silently. -/
theorem restoredOnFailure_reloc (hforward : MovesForward parseExpression) :
    (∀ outcome, tryParseRelocExpression parseExpression st = some outcome →
        RestoredOnFailure st outcome) ↔
      ∀ isNegated name inner, modifierCall st.tokens = some (isNegated, name, inner) →
        (getKindByName name).isSome = true → ¬ (parseExpression inner).FailsSilently := by
  cases hcall : modifierCall st.tokens with
  | none =>
      refine iff_of_true ?_ (by simp)
      intro outcome houtcome
      cases hsign : signMissing st.tokens with
      | true =>
          rw [tryParseRelocExpression_of_signMissing hsign] at houtcome
          cases houtcome
      | false =>
          rw [tryParseRelocExpression_of_plain hcall hsign] at houtcome
          cases houtcome
          exact fun _ _ => ⟨rfl, rfl⟩
  | some call =>
      obtain ⟨isNegated, name, inner⟩ := call
      have reloc : tryParseRelocExpression parseExpression st = _ :=
        tryParseRelocExpression_of_call hcall
      have moved : (parseExpression inner).tokens ≠ st.tokens := by
        intro same
        have shorter := (hforward inner).length_le
        have longer := (suffix_of_call hcall).length_le
        rw [same] at shorter
        simp only [List.length_cons] at longer
        omega
      rw [reloc]
      cases hkind : getKindByName name with
      | none => simp [RestoredOnFailure, hkind]
      | some kind =>
          cases hresult : (parseExpression inner).result with
          | none =>
              simp [restoredOnFailure_after hresult, moved, hkind]
          | some e =>
              have loud : ¬ (parseExpression inner).FailsSilently := by
                simp [ParsedExpression.FailsSilently, hresult]
              simp [RestoredOnFailure, loud]

/-- `tryParseExpression` restores all but, besides, a plain expression that fails silently after the
first token. -/
theorem restoredOnFailure_expression
    (hmodifiers : ∀ isNegated name inner, modifierCall st.tokens = some (isNegated, name, inner) →
        (getKindByName name).isSome = true → ¬ (parseExpression inner).FailsSilently) :
    (∀ outcome, tryParseExpression parseExpression st = some outcome →
        RestoredOnFailure st outcome) ↔
      (modifierCall st.tokens = none → signMissing st.tokens = false → st.signsIdentifier = false →
        (parseExpression st.tokens).FailsSilently →
        (parseExpression st.tokens).tokens = st.tokens) := by
  cases hcall : modifierCall st.tokens with
  | some call =>
      -- a failure of the modifier parser is reported, and errors stay
      refine iff_of_true ?_ (by simp)
      intro outcome houtcome failed silent
      obtain ⟨failed', st', hreloc, hcases⟩ := tryParseExpression_cases houtcome
      have kept := (prefix_errors_of_reloc hreloc houtcome).length_le
      rw [silent] at kept
      rcases tryParseRelocExpression_cases hreloc with
        ⟨hnone, -⟩ | ⟨isNegated, name, inner, hmodifier, hreported⟩
      · rw [hcall] at hnone
        cases hnone
      rcases hreported with ⟨-, heq⟩ | ⟨hkind, hresult, heq⟩ | ⟨kind, e, behind, -, -, -, heq⟩
      · obtain ⟨-, rfl⟩ := Prod.mk.inj heq
        simp at kept
      · obtain ⟨-, rfl⟩ := Prod.mk.inj heq
        have noErrors : (parseExpression inner).errors = [] := by
          simpa [ParserState.after] using kept
        exact absurd ⟨hresult, noErrors⟩ (hmodifiers isNegated name inner hmodifier hkind)
      · obtain ⟨rfl, -⟩ := Prod.mk.inj heq
        rcases hcases with rfl | ⟨hfailed, -⟩ | ⟨e', hfailed, -⟩
        · cases failed
        · cases hfailed
        · cases hfailed
  | none =>
      cases hsign : signMissing st.tokens with
      | true =>
          refine iff_of_true ?_ (by simp)
          intro outcome houtcome
          rw [tryParseExpression, tryParseRelocExpression_of_signMissing hsign] at houtcome
          cases houtcome
      | false =>
          rw [tryParseExpression_of_reloc (tryParseRelocExpression_of_plain hcall hsign)]
          cases hident : st.signsIdentifier with
          | true => simp [RestoredOnFailure]
          | false =>
              cases hresult : (parseExpression st.tokens).result with
              | none => simp [restoredOnFailure_after hresult]
              | some e => simp [RestoredOnFailure, ParsedExpression.FailsSilently, hresult]

/-- **When the speculative parsers restore the state.** -/
theorem speculationRestores_iff (hforward : MovesForward parseExpression) :
    SpeculationRestores parseExpression st ↔ FailuresRestored parseExpression st := by
  rw [SpeculationRestores, FailuresRestored, restoredOnFailure_register,
    restoredOnFailure_reloc hforward]
  constructor
  · rintro ⟨register, reloc, expression⟩
    exact ⟨register, reloc, (restoredOnFailure_expression reloc).mp expression⟩
  · rintro ⟨register, reloc, plain⟩
    exact ⟨register, reloc, (restoredOnFailure_expression reloc).mpr plain⟩

end

/-- An expression parser for numbers. -/
def parseNumber : List AsmToken → ParsedExpression
  | .integer _ value :: rest => ⟨some (.constant value), [], rest⟩
  | tokens => ⟨none, ["unknown token in expression"], tokens⟩

/-- It moves forward. -/
theorem movesForward_parseNumber : MovesForward parseNumber := by
  intro tokens
  unfold parseNumber
  split
  · exact List.suffix_cons _ _
  · exact List.suffix_rfl

/-- A number at the end of a line. -/
theorem speculationRestores_number :
    MovesForward parseNumber ∧
      SpeculationRestores parseNumber ⟨[.integer "5" 5, .endOfStatement "\n"], [], []⟩ := by
  refine ⟨movesForward_parseNumber, (speculationRestores_iff movesForward_parseNumber).mpr ?_⟩
  refine ⟨rfl, by simp [modifierCall], ?_⟩
  intro _ _ _ silent
  cases silent.1

/-- `X:5` is no register pair, and its first two tokens are lost. -/
theorem not_speculationRestores_pair :
    MovesForward parseNumber ∧ ¬ SpeculationRestores parseNumber
      ⟨[.identifier "X", .colon, .integer "5" 5, .endOfStatement "\n"], [], []⟩ := by
  refine ⟨movesForward_parseNumber, ?_⟩
  rintro ⟨register, -, -⟩
  exact absurd (restoredOnFailure_register.mp register) (by decide)

end Snes
