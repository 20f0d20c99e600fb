/-
# The Assertions of the Parser

`tryParseRelocExpression` asserts that a token in front of a name with an opening
parenthesis is a sign, without having looked at it, and that the argument of a
modifier is followed by a closing parenthesis.  Which tokens violate these
assertions, and when `ParseInstruction` reports what is malformed instead.
-/
import SnesBackend.ParserRounds

namespace Snes

open SteppedLoop

/-! ## Where the assertions hold -/

/-- The assertions of `tryParseRelocExpression` hold at these tokens: a token in front of a name
with an opening parenthesis is a sign, and the argument of a known modifier that is an expression is
followed by a closing parenthesis. -/
def AssertionsHold (parseExpression : List AsmToken → ParsedExpression) (tokens : List AsmToken) :
    Prop :=
  signMissing tokens = false ∧
    ∀ isNegated name inner, modifierCall tokens = some (isNegated, name, inner) →
      (getKindByName name).isSome = true → (parseExpression inner).result.isSome = true →
      (parseExpression inner).tokens.head? = some .rParen

section

variable {parseExpression : List AsmToken → ParsedExpression} {st : ParserState}

/-- `tryParseRelocExpression` has an outcome exactly where its assertions hold. -/
theorem tryParseRelocExpression_isSome_iff :
    (tryParseRelocExpression parseExpression st).isSome = true ↔
      AssertionsHold parseExpression st.tokens := by
  unfold AssertionsHold
  cases hsign : signMissing st.tokens with
  | true => simp [tryParseRelocExpression_of_signMissing hsign]
  | false =>
      cases hcall : modifierCall st.tokens with
      | none => simp [tryParseRelocExpression_of_plain hcall hsign]
      | some call =>
          obtain ⟨isNegated, name, inner⟩ := call
          rw [tryParseRelocExpression_of_call hcall]
          cases hkind : getKindByName name with
          | none => simp [hkind]
          | some kind =>
              cases hresult : (parseExpression inner).result with
              | none => simp [hresult]
              | some e =>
                  by_cases hparen : (parseExpression inner).tokens.head? = some .rParen
                  · simp [hparen]
                  · simp [hparen, hkind, hresult]

/-- `tryParseExpression` has no assertions of its own. -/
theorem tryParseExpression_isSome_iff :
    (tryParseExpression parseExpression st).isSome = true ↔
      AssertionsHold parseExpression st.tokens := by
  rw [tryParseExpression, Option.isSome_map, tryParseRelocExpression_isSome_iff]

end

/-- The tokens at which `parseOperand` tries an expression, if it does. -/
def OperandAttempt.expressionTokens : OperandAttempt → Option (List AsmToken)
  | settled _ => none
  | expression st | signed st => some st.tokens

section

variable {parseExpression : List AsmToken → ParsedExpression}

/-- `parseOperand` has an outcome exactly where the assertions hold at the expression it tries. -/
theorem parseOperand_isSome_iff {st : ParserState} :
    (parseOperand parseExpression st).isSome = true ↔
      ∀ tokens, (operandAttempt st).expressionTokens = some tokens →
        AssertionsHold parseExpression tokens := by
  rw [parseOperand_eq]
  cases operandAttempt st with
  | settled outcome => simp [OperandAttempt.parse, OperandAttempt.expressionTokens]
  | expression st' =>
      rw [OperandAttempt.parse, tryParseExpression_isSome_iff]
      simp [OperandAttempt.expressionTokens]
  | signed st' =>
      rw [OperandAttempt.parse, Option.isSome_map, tryParseExpression_isSome_iff]
      simp [OperandAttempt.expressionTokens]

/-- No assertion is violated in a round: it is the end of the statement or the turn of a register
with a displacement, or the assertions hold at the expression that is tried. -/
def RoundAssertionsHold (parseExpression : List AsmToken → ParsedExpression) (mnemonic : String)
    (s : Bool × ParserState) : Prop :=
  s.2.getTok.isEndOfStatement = true ∨
    (mnemonic, (operandState s).operands.length - 1) ∈ operandMatchTable ∨
    ∀ tokens, (operandAttempt (operandState s)).expressionTokens = some tokens →
      AssertionsHold parseExpression tokens

/-- A round stops at an assertion exactly where one is violated. -/
theorem parseInstructionRound_eq_none_iff {mnemonic : String} {s : Bool × ParserState} :
    parseInstructionRound parseExpression mnemonic s = .inr none ↔
      ¬ RoundAssertionsHold parseExpression mnemonic s := by
  rw [parseInstructionRound_eq, RoundAssertionsHold, ← parseOperand_isSome_iff]
  by_cases hend : s.2.getTok.isEndOfStatement = true
  · simp [hend]
  by_cases hmemri : (mnemonic, (operandState s).operands.length - 1) ∈ operandMatchTable
  · rw [if_neg hend, parseNextOperand_of_memri hmemri]
    split_ifs
    · simp [hmemri]
    · simp [hmemri]
  · rw [if_neg hend, parseNextOperand_of_operand hmemri]
    rcases parseOperand parseExpression (operandState s) with _ | ⟨_ | _, st⟩
    · simp [hend, hmemri]
    · simp
    · simp

/-! ## Whole statements -/

/-- `ParseInstruction` returns, and where it fails it has reported an error. -/
def ReportsMalformed (parseExpression : List AsmToken → ParsedExpression) (mnemonic : String)
    (st : ParserState) : Prop :=
  ∃ failed st', Returns (parseInstructionRound parseExpression mnemonic)
      (parseInstructionStart mnemonic st) (some (failed, st')) ∧
    (failed = true → st.errors.length < st'.errors.length)

/-- What has been reported before a reached state is reported still. -/
theorem advances_of_reaches (hforward : MovesForward parseExpression)
    (heats : EatsOnSuccess parseExpression) {mnemonic : String} {s t : Bool × ParserState}
    (h : Reaches (parseInstructionRound parseExpression mnemonic) s t) : s.2.Advances t.2 := by
  have next : ∀ t u, s.2.Advances t.2 →
      parseInstructionRound parseExpression mnemonic t = .inl u → s.2.Advances u.2 := by
    intro t u reached hround
    exact reached.trans (parseInstructionRound_inl hforward heats hround).1
  exact h.invariant next (.refl s.2)

/-- A statement whose first round violates an assertion. -/
theorem not_reportsMalformed_of_round {mnemonic : String} {st : ParserState}
    (h : parseInstructionRound parseExpression mnemonic (parseInstructionStart mnemonic st) =
      .inr none) : ¬ ReportsMalformed parseExpression mnemonic st := by
  rintro ⟨failed, st', hreturns, -⟩
  cases hreturns.unique (Returns.done h)

/-- **When `ParseInstruction` reports what is malformed**: exactly where the assertions hold in all
rounds that it comes to. -/
theorem reportsMalformed_iff (hforward : MovesForward parseExpression)
    (heats : EatsOnSuccess parseExpression) (mnemonic : String) (st : ParserState) :
    ReportsMalformed parseExpression mnemonic st ↔
      ∀ s, Reaches (parseInstructionRound parseExpression mnemonic)
        (parseInstructionStart mnemonic st) s → RoundAssertionsHold parseExpression mnemonic s := by
  constructor
  · rintro ⟨failed, st', hreturns, -⟩ s hreached
    by_contra hviolated
    cases hreturns.eq_of_last hreached (parseInstructionRound_eq_none_iff.mpr hviolated)
  · intro holds
    have done : ∀ t result, Reaches (parseInstructionRound parseExpression mnemonic)
        (parseInstructionStart mnemonic st) t →
        parseInstructionRound parseExpression mnemonic t = .inr result →
        ∃ failed st', result = some (failed, st') ∧
          (failed = true → st.errors.length < st'.errors.length) := by
      intro t result hreached hround
      rcases result with _ | ⟨failed, st'⟩
      · exact absurd (holds t hreached) (parseInstructionRound_eq_none_iff.mp hround)
      · refine ⟨failed, st', rfl, fun hfailed => ?_⟩
        have before := (advances_of_reaches hforward heats hreached).errors.length_le
        exact before.trans_lt ((parseInstructionRound_inr hforward heats hround).2 hfailed)
    obtain ⟨result, hreturns, failed, st', rfl, reported⟩ :=
      exists_returns_parseInstruction hforward heats done
    exact ⟨failed, st', hreturns, reported⟩

end

/-- The parser of numbers eats them. -/
theorem eatsOnSuccess_parseNumber : EatsOnSuccess parseNumber := by
  intro tokens e h
  unfold parseNumber at h ⊢
  split at h
  · simp
  · cases h

/-- A number as the only operand. -/
theorem reportsMalformed_number :
    MovesForward parseNumber ∧ EatsOnSuccess parseNumber ∧
      ReportsMalformed parseNumber "foo" ⟨[.integer "5" 5, .endOfStatement "\n"], [], []⟩ := by
  refine ⟨movesForward_parseNumber, eatsOnSuccess_parseNumber, ?_⟩
  refine (reportsMalformed_iff movesForward_parseNumber eatsOnSuccess_parseNumber "foo" _).mpr ?_
  intro s hreached
  rcases Relation.ReflTransGen.cases_head hreached with rfl | ⟨t, hround, hreached⟩
  · refine .inr (.inr ?_)
    rintro tokens ⟨⟩
    exact ⟨rfl, fun _ _ _ hcall => by cases hcall⟩
  · cases hround
    rcases Relation.ReflTransGen.cases_head hreached with rfl | ⟨t, hround, -⟩
    · exact .inl rfl
    · cases hround

/-- A modifier in parentheses, and a modifier without a closing one: both violate an assertion. -/
theorem not_reportsMalformed_modifier :
    MovesForward parseNumber ∧ EatsOnSuccess parseNumber ∧
      ¬ ReportsMalformed parseNumber "foo"
        ⟨[.lParen, .identifier "lo8", .lParen, .integer "5" 5, .rParen, .rParen,
          .endOfStatement "\n"], [], []⟩ ∧
      ¬ ReportsMalformed parseNumber "foo"
        ⟨[.identifier "lo8", .lParen, .integer "5" 5, .endOfStatement "\n"], [], []⟩ := by
  refine ⟨movesForward_parseNumber, eatsOnSuccess_parseNumber, ?_, ?_⟩
  · exact not_reportsMalformed_of_round rfl
  · exact not_reportsMalformed_of_round rfl

end Snes
