/-
# The Operand Loop with and without Assertions

The loop of `ParseInstruction` ends: a round that is followed by another one has eaten
a token, on every way through the optional comma, the register with a displacement and
the parsers of an operand, also where a sign becomes an operand because no expression
could be parsed.

In builds that do not check assertions the parsers go on behind tokens that the
assertions exclude, and eat them.  Both builds are rounds of one loop, with a parser
of expressions each.  `MatchOperandParserImpl` is generated: of it the loop needs only
that it calls the parser of an operand or eats nothing.
-/
import SnesBackend.ParserAssertions

namespace Snes

open ParserState SteppedLoop

/-! ## Parsers that do not check assertions -/

section

variable (parseExpression : List AsmToken → ParsedExpression)

/-- The sign before a modifier, whatever token it is. -/
def parseSignUnchecked (st : ParserState) : Bool × ParserState :=
  match st.tokens with
  | sign :: .identifier _ :: .lParen :: _ => (sign == .minus, st.lex)
  | _ => (false, st)

/-- `tryParseRelocExpression` behind the sign: any token behind the argument is eaten. -/
def parseModifierUnchecked (isNegated : Bool) (st : ParserState) : Bool × ParserState :=
  match st.tokens with
  | .identifier name :: .lParen :: inner =>
      match getKindByName name with
      | none => (true, st.error "unknown modifier")
      | some kind =>
          match (parseExpression inner).result with
          | none => (true, st.after (parseExpression inner))
          | some e =>
              (false, (st.after (parseExpression inner)).lex.push (.imm (.target kind isNegated e)))
  | _ => (true, st)

/-- `tryParseRelocExpression`. -/
def tryParseRelocExpressionUnchecked (st : ParserState) : Bool × ParserState :=
  parseModifierUnchecked parseExpression (parseSignUnchecked st).1 (parseSignUnchecked st).2

/-- `tryParseExpression`. -/
def tryParseExpressionUnchecked (st : ParserState) : Bool × ParserState :=
  match tryParseRelocExpressionUnchecked parseExpression st with
  | (false, st) => (false, st)
  | (true, st) =>
      if st.signsIdentifier then
        (true, st)
      else
        match (parseExpression st.tokens).result with
        | none => (true, st.after (parseExpression st.tokens))
        | some e => (false, (st.after (parseExpression st.tokens)).push (.imm e))

/-- `tryParseExpression` in builds with and without assertions. -/
def tryParseExpressionIn (assertions : Bool) (st : ParserState) : Option (Bool × ParserState) :=
  if assertions then tryParseExpression parseExpression st
  else some (tryParseExpressionUnchecked parseExpression st)

variable (matchOperand : String → ParserState → OperandMatchResultTy × ParserState)

/-- What a generated `MatchOperandParserImpl` does: it gives the outcome of `parseMemriOperand`, the
only `ParserMethod`, or no match, and then nothing is eaten. -/
def TriesCustomParser : Prop :=
  ∀ mnemonic st, matchOperand mnemonic st = parseMemriOperand parseExpression st ∨
    matchOperand mnemonic st = (.noMatch, st)

/-- The one for the operands of this target. -/
theorem triesCustomParser_matchOperandParserImpl :
    TriesCustomParser parseExpression (matchOperandParserImpl parseExpression) := by
  intro mnemonic st
  unfold matchOperandParserImpl
  split_ifs
  · exact .inl rfl
  · exact .inr rfl

/-- The parser of an operand in a round, in builds with and without assertions: whether it fails and
with which message, and the state. -/
def parseNextOperandIn (assertions : Bool) (mnemonic : String) (st : ParserState) :
    Option (Option String × ParserState) :=
  let matched := matchOperand mnemonic st
  if matched.1 = .success then
    some (none, matched.2)
  else if matched.1 = .parseFail then
    some (some "failed to parse register and immediate pair", matched.2)
  else
    ((operandAttempt matched.2).parseWith (tryParseExpressionIn parseExpression assertions)).map
      fun outcome =>
        (if outcome.1 then some "unexpected token in argument list" else none, outcome.2)

/-- One round of the loop of `ParseInstruction` in builds with and without assertions. -/
def operandLoopRound (assertions : Bool) (mnemonic : String) (s : Bool × ParserState) :
    (Bool × ParserState) ⊕ Option (Bool × ParserState) :=
  if s.2.getTok.isEndOfStatement then
    .inr (some (false, s.2.lex))
  else
    match parseNextOperandIn parseExpression matchOperand assertions mnemonic (operandState s) with
    | none => .inr none
    | some (none, st) => .inl (false, st)
    | some (some message, st) =>
        .inr (some (true, { st with tokens := eatToEndOfStatement st.tokens }.error message))

end

/-! ## The builds agree -/

section

variable {parseExpression : List AsmToken → ParsedExpression}
  {matchOperand : String → ParserState → OperandMatchResultTy × ParserState} {st : ParserState}

/-- With assertions an operand is parsed as `parseOperand` does it. -/
theorem parseNextOperandIn_true (mnemonic : String) (st : ParserState) :
    parseNextOperandIn parseExpression (matchOperandParserImpl parseExpression) true mnemonic st =
      parseNextOperand parseExpression mnemonic st := by
  have checked :
      tryParseExpressionIn parseExpression true = tryParseExpression parseExpression := by
    funext st
    exact if_pos rfl
  rw [parseNextOperandIn, parseNextOperand, checked]
  simp only [parseOperand_eq, OperandAttempt.parse_eq_parseWith]

/-- With assertions the round is `parseInstructionRound`. -/
theorem operandLoopRound_true (mnemonic : String) :
    operandLoopRound parseExpression (matchOperandParserImpl parseExpression) true mnemonic =
      parseInstructionRound parseExpression mnemonic := by
  funext s
  have round := parseInstructionRound_eq parseExpression mnemonic s
  rw [← parseNextOperandIn_true] at round
  exact round.symm

/-- The sign of a modifier. -/
theorem parseSignUnchecked_of_call {isNegated : Bool} {name : String} {inner : List AsmToken}
    (h : modifierCall st.tokens = some (isNegated, name, inner)) :
    parseSignUnchecked st =
      (isNegated, { st with tokens := .identifier name :: .lParen :: inner }) := by
  obtain ⟨tokens, operands, errors⟩ := st
  change modifierCall tokens = _ at h
  unfold modifierCall at h
  split at h
  case h_4 => cases h
  all_goals
    cases h
    rfl

/-- No sign. -/
theorem parseSignUnchecked_of_plain (hcall : modifierCall st.tokens = none)
    (hsign : signMissing st.tokens = false) : parseSignUnchecked st = (false, st) := by
  unfold parseSignUnchecked
  split
  case h_1 sign name rest heq =>
    rw [heq] at hcall hsign
    by_cases hminus : sign = .minus
    · subst hminus
      cases hcall
    by_cases hplus : sign = .plus
    · subst hplus
      cases hcall
    simp [signMissing] at hsign
  case h_2 => rfl

/-- No modifier. -/
theorem parseModifierUnchecked_of_plain {isNegated : Bool} (h : modifierCall st.tokens = none) :
    parseModifierUnchecked parseExpression isNegated st = (true, st) := by
  unfold parseModifierUnchecked
  split
  case h_1 name inner heq =>
    rw [heq] at h
    cases h
  case h_2 => rfl

/-- The parser of modifiers does the same where the assertions hold. -/
theorem tryParseRelocExpressionUnchecked_eq {outcome : Bool × ParserState}
    (h : tryParseRelocExpression parseExpression st = some outcome) :
    tryParseRelocExpressionUnchecked parseExpression st = outcome := by
  rw [tryParseRelocExpressionUnchecked]
  rcases tryParseRelocExpression_cases h with ⟨hcall, rfl⟩ | ⟨isNegated, name, inner, hcall, hcases⟩
  · have hsign : signMissing st.tokens = false := by
      by_contra missing
      rw [tryParseRelocExpression_of_signMissing (by simpa using missing)] at h
      cases h
    rw [parseSignUnchecked_of_plain hcall hsign]
    exact parseModifierUnchecked_of_plain hcall
  · rw [parseSignUnchecked_of_call hcall]
    unfold parseModifierUnchecked
    simp only
    rcases hcases with ⟨hkind, rfl⟩ | ⟨hkind, hresult, rfl⟩ |
      ⟨kind, e, behind, hkind, hresult, heq, rfl⟩
    · rw [hkind]
      rfl
    · obtain ⟨kind, hsome⟩ := Option.isSome_iff_exists.mp hkind
      rw [hsome]
      simp only [hresult]
      rfl
    · rw [hkind]
      simp only [hresult, ParserState.lex, ParserState.push, ParserState.after, heq]
      rfl

/-- So does the parser of expressions. -/
theorem tryParseExpressionUnchecked_eq {outcome : Bool × ParserState}
    (h : tryParseExpression parseExpression st = some outcome) :
    tryParseExpressionUnchecked parseExpression st = outcome := by
  obtain ⟨⟨failed, st'⟩, hreloc, rfl⟩ := Option.map_eq_some_iff.mp h
  rw [tryParseExpressionUnchecked, tryParseRelocExpressionUnchecked_eq hreloc]
  cases failed with
  | false => rfl
  | true => rfl

/-- An operand that is parsed with one parser of expressions is parsed with one that does the same
where the first one has an outcome. -/
theorem OperandAttempt.parseWith_mono
    {tryExpression tryExpression' : ParserState → Option (Bool × ParserState)}
    (h : ∀ st outcome, tryExpression st = some outcome → tryExpression' st = some outcome)
    {attempt : OperandAttempt} {outcome : Bool × ParserState}
    (hparse : attempt.parseWith tryExpression = some outcome) :
    attempt.parseWith tryExpression' = some outcome := by
  cases attempt with
  | settled settled => exact hparse
  | expression st => exact h st outcome hparse
  | signed st =>
    obtain ⟨inner, hinner, rfl⟩ := Option.map_eq_some_iff.mp hparse
    rw [parseWith, h st inner hinner]
    rfl

/-- An operand that is parsed with assertions is parsed without them. -/
theorem parseNextOperandIn_false {mnemonic : String} {outcome : Option String × ParserState}
    (h : parseNextOperandIn parseExpression matchOperand true mnemonic st = some outcome) :
    parseNextOperandIn parseExpression matchOperand false mnemonic st = some outcome := by
  have same : ∀ st outcome, tryParseExpressionIn parseExpression true st = some outcome →
      tryParseExpressionIn parseExpression false st = some outcome := by
    intro st outcome houtcome
    rw [← tryParseExpressionUnchecked_eq (show tryParseExpression _ _ = _ from houtcome)]
    rfl
  unfold parseNextOperandIn at h ⊢
  simp only at h ⊢
  split_ifs at h ⊢
  · exact h
  · exact h
  · obtain ⟨parsed, hparsed, rfl⟩ := Option.map_eq_some_iff.mp h
    rw [OperandAttempt.parseWith_mono same hparsed]
    rfl

/-- **The builds agree** on every round in which the assertions hold. -/
theorem operandLoopRound_false {mnemonic : String} {s : Bool × ParserState}
    (h : parseInstructionRound parseExpression mnemonic s ≠ .inr none) :
    operandLoopRound parseExpression (matchOperandParserImpl parseExpression) false mnemonic s =
      parseInstructionRound parseExpression mnemonic s := by
  rw [← operandLoopRound_true] at h ⊢
  unfold operandLoopRound at h ⊢
  split_ifs at h ⊢
  · rfl
  · cases hparse : parseNextOperandIn parseExpression (matchOperandParserImpl parseExpression) true
        mnemonic (operandState s) with
    | none =>
      rw [hparse] at h
      exact absurd rfl h
    | some outcome => rw [parseNextOperandIn_false hparse]

end

/-! ## Eating tokens -/

section

variable {parseExpression : List AsmToken → ParsedExpression}
  (hforward : MovesForward parseExpression) (heats : EatsOnSuccess parseExpression)
  {matchOperand : String → ParserState → OperandMatchResultTy × ParserState} {mnemonic : String}
  {st : ParserState}

/-- A sign is eaten at most. -/
theorem advances_parseSignUnchecked (st : ParserState) :
    st.Advances (parseSignUnchecked st).2 := by
  unfold parseSignUnchecked
  split
  · exact advances_lex st
  · exact .refl st

include hforward heats in
/-- A modifier is parsed by eating tokens, and one at least where that succeeds. -/
theorem advances_parseModifierUnchecked (isNegated : Bool) (st : ParserState) :
    st.Advances (parseModifierUnchecked parseExpression isNegated st).2 ∧
      ((parseModifierUnchecked parseExpression isNegated st).1 = false →
        (parseModifierUnchecked parseExpression isNegated st).2.tokens.length <
          st.tokens.length) := by
  unfold parseModifierUnchecked
  split
  case h_1 name inner heq =>
    have argument : inner <:+ st.tokens := heq ▸ ⟨[_, _], rfl⟩
    cases getKindByName name with
    | none => exact ⟨advances_error st _, fun h => by cases h⟩
    | some kind =>
      simp only
      have parsed : st.Advances (st.after (parseExpression inner)) :=
        advances_after ((hforward inner).trans argument)
      cases hresult : (parseExpression inner).result with
      | none => exact ⟨parsed, fun h => by cases h⟩
      | some e =>
        have closed := advances_lex (st.after (parseExpression inner))
        refine ⟨(parsed.trans closed).trans (advances_push _ _), fun _ => ?_⟩
        have eaten := heats inner e hresult
        have lexed : (st.after (parseExpression inner)).lex.tokens.length ≤
            (parseExpression inner).tokens.length := closed.tokens.length_le
        have behind := argument.length_le
        show (st.after (parseExpression inner)).lex.tokens.length < st.tokens.length
        omega
  case h_2 => exact ⟨.refl st, fun h => by cases h⟩

include hforward heats in
/-- The parser of modifiers eats tokens. -/
theorem advances_relocUnchecked (st : ParserState) :
    st.Advances (tryParseRelocExpressionUnchecked parseExpression st).2 ∧
      ((tryParseRelocExpressionUnchecked parseExpression st).1 = false →
        (tryParseRelocExpressionUnchecked parseExpression st).2.tokens.length <
          st.tokens.length) := by
  have signed := advances_parseSignUnchecked st
  obtain ⟨advances, shorter⟩ := advances_parseModifierUnchecked hforward heats
    (parseSignUnchecked st).1 (parseSignUnchecked st).2
  exact ⟨signed.trans advances, fun h => (shorter h).trans_le signed.tokens.length_le⟩

include hforward heats in
/-- **Both parsers of expressions eat tokens**, and one at least where they succeed. -/
theorem eatsAhead_tryParseExpressionIn (assertions : Bool) :
    EatsAhead (tryParseExpressionIn parseExpression assertions) := by
  intro st outcome h
  cases assertions with
  | true => exact advances_expression hforward heats h
  | false =>
    obtain ⟨rfl⟩ : some (tryParseExpressionUnchecked parseExpression st) = some outcome := h
    obtain ⟨advances, shorter⟩ := advances_relocUnchecked hforward heats st
    unfold tryParseExpressionUnchecked
    rcases hreloc : tryParseRelocExpressionUnchecked parseExpression st with ⟨_ | _, st'⟩
    · rw [hreloc] at advances shorter
      exact ⟨advances, shorter⟩
    · rw [hreloc] at advances
      have parsed : st.Advances (st'.after (parseExpression st'.tokens)) :=
        advances.trans (advances_after (hforward st'.tokens))
      simp only
      split_ifs
      · exact ⟨advances, fun h => by cases h⟩
      · cases hresult : (parseExpression st'.tokens).result with
        | none => exact ⟨parsed, fun h => by cases h⟩
        | some e =>
          refine ⟨parsed.trans (advances_push _ _), fun _ => ?_⟩
          exact (heats _ e hresult).trans_le advances.tokens.length_le

include hforward heats in
/-- A register with a displacement, where one is asked for; otherwise nothing is eaten. -/
theorem advances_matchOperand (hmatch : TriesCustomParser parseExpression matchOperand)
    (mnemonic : String) (st : ParserState) :
    st.Advances (matchOperand mnemonic st).2 ∧
      ((matchOperand mnemonic st).1 = .success →
        (matchOperand mnemonic st).2.tokens.length < st.tokens.length) := by
  rcases hmatch mnemonic st with custom | unmatched
  · rw [custom]
    exact advances_memri hforward heats st
  · rw [unmatched]
    exact ⟨.refl st, fun h => by cases h⟩

include hforward heats in
/-- The parser of an operand eats tokens, and one at least where it succeeds. -/
theorem advances_parseNextOperandIn (hmatch : TriesCustomParser parseExpression matchOperand)
    {assertions : Bool} {st' : ParserState} {failure : Option String}
    (h : parseNextOperandIn parseExpression matchOperand assertions mnemonic st =
      some (failure, st')) :
    st.Advances st' ∧ (failure = none → st'.tokens.length < st.tokens.length) := by
  obtain ⟨matched, shorter⟩ := advances_matchOperand hforward heats hmatch mnemonic st
  unfold parseNextOperandIn at h
  simp only at h
  split_ifs at h with hsuccess hfail
  · cases h
    exact ⟨matched, fun _ => shorter hsuccess⟩
  · cases h
    exact ⟨matched, fun h => by cases h⟩
  · obtain ⟨failed, hparse, succeeded⟩ := eq_some_of_reported h
    obtain ⟨advances, eats⟩ :=
      advances_parseWith (eatsAhead_tryParseExpressionIn hforward heats assertions) hparse
    refine ⟨matched.trans advances, fun hnone => ?_⟩
    exact (eats (succeeded hnone)).trans_le matched.tokens.length_le

/-- Without assertions every operand has an outcome. -/
theorem parseNextOperandIn_false_ne_none (st : ParserState) :
    parseNextOperandIn parseExpression matchOperand false mnemonic st ≠ none := by
  unfold parseNextOperandIn
  simp only
  split_ifs
  · simp
  · simp
  · cases operandAttempt (matchOperand mnemonic st).2 <;>
      simp [OperandAttempt.parseWith, tryParseExpressionIn]

end

/-! ## The loop -/

/-- What a round may do: go on with fewer tokens, stop at an assertion if these are checked, return
with an error that is reported, or eat the end of the statement. -/
def RoundProgresses (assertions : Bool) (s : Bool × ParserState) :
    (Bool × ParserState) ⊕ Option (Bool × ParserState) → Prop
  | .inl t => t.2.tokens.length < s.2.tokens.length
  | .inr none => assertions = true
  | .inr (some (true, st)) => s.2.errors.length < st.errors.length
  | .inr (some (false, st)) => s.2.getTok.isEndOfStatement = true ∧ st = s.2.lex

section

variable {parseExpression : List AsmToken → ParsedExpression}
  {matchOperand : String → ParserState → OperandMatchResultTy × ParserState}
  (hforward : MovesForward parseExpression) (heats : EatsOnSuccess parseExpression)
  (hmatch : TriesCustomParser parseExpression matchOperand)

include hforward heats hmatch in
/-- **Every round makes progress.** -/
theorem operandLoopRound_progresses (assertions : Bool) (mnemonic : String)
    (s : Bool × ParserState) :
    RoundProgresses assertions s
      (operandLoopRound parseExpression matchOperand assertions mnemonic s) := by
  have start := advances_operandState s
  unfold operandLoopRound
  by_cases hend : s.2.getTok.isEndOfStatement = true
  · rw [if_pos hend]
    exact ⟨hend, rfl⟩
  rw [if_neg hend]
  rcases hparse : parseNextOperandIn parseExpression matchOperand assertions mnemonic
    (operandState s) with _ | ⟨_ | message, st⟩
  · cases assertions with
    | true => exact rfl
    | false => exact absurd hparse (parseNextOperandIn_false_ne_none _)
  · obtain ⟨-, shorter⟩ := advances_parseNextOperandIn hforward heats hmatch hparse
    exact (shorter rfl).trans_le start.tokens.length_le
  · obtain ⟨advances, -⟩ := advances_parseNextOperandIn hforward heats hmatch hparse
    exact length_errors_lt (start.trans advances) message

include hforward heats hmatch in
/-- **The operand loop ends**, in builds with and without assertions: every round makes progress,
and there are at most as many rounds as tokens and one. -/
theorem operandLoop_ends (assertions : Bool) (mnemonic : String) (st : ParserState) :
    (∃ result, iterate (operandLoopRound parseExpression matchOperand assertions mnemonic)
      (st.tokens.length + 1) (parseInstructionStart mnemonic st) = some result) ∧
    ∀ s, RoundProgresses assertions s
      (operandLoopRound parseExpression matchOperand assertions mnemonic s) := by
  have progresses := operandLoopRound_progresses hforward heats hmatch assertions mnemonic
  have next : ∀ s t : Bool × ParserState, True →
      operandLoopRound parseExpression matchOperand assertions mnemonic s = .inl t →
      True ∧ t.2.tokens.length < s.2.tokens.length := by
    intro s t _ hround
    have progress := progresses s
    rw [hround] at progress
    exact ⟨trivial, progress⟩
  exact ⟨exists_iterate_of_measure next trivial (Nat.lt_succ_self _), progresses⟩

end

/-- A number and a register without a comma between them, in a build without assertions. -/
theorem operandLoop_ends_number :
    MovesForward parseNumber ∧ EatsOnSuccess parseNumber ∧
      TriesCustomParser parseNumber (matchOperandParserImpl parseNumber) ∧
      ((∃ result, iterate
          (operandLoopRound parseNumber (matchOperandParserImpl parseNumber) false "foo") 4
          (parseInstructionStart "foo"
            ⟨[.integer "5" 5, .identifier "X", .endOfStatement "\n"], [], []⟩) = some result) ∧
        ∀ s, RoundProgresses false s
          (operandLoopRound parseNumber (matchOperandParserImpl parseNumber) false "foo" s)) := by
  have custom := triesCustomParser_matchOperandParserImpl parseNumber
  refine ⟨movesForward_parseNumber, eatsOnSuccess_parseNumber, custom, ?_⟩
  exact operandLoop_ends movesForward_parseNumber eatsOnSuccess_parseNumber custom false "foo"
    ⟨[.integer "5" 5, .identifier "X", .endOfStatement "\n"], [], []⟩

end Snes
