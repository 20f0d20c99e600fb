/-
# Rounds of the Operand Loop

What each parser of `SNESAsmParser.cpp` may do to the state, and from this what a
round of the loop of `ParseInstruction` does: tokens are eaten from the front,
operands and errors are added at the end, and a round that is followed by another
one has eaten a token.
-/
import SnesBackend.SpeculativeParsing

namespace Snes

/-- The generic expression parser eats a token where it succeeds. -/
def EatsOnSuccess (parseExpression : List AsmToken → ParsedExpression) : Prop :=
  ∀ tokens e, (parseExpression tokens).result = some e →
    (parseExpression tokens).tokens.length < tokens.length

/-! ## Moving on -/

namespace ParserState

/-- A state that parsing comes to from another one. -/
structure Advances (st st' : ParserState) : Prop where
  tokens : st'.tokens <:+ st.tokens
  operands : st.operands <+: st'.operands
  errors : st.errors <+: st'.errors

variable {st st' st'' : ParserState}

/-- Doing nothing. -/
theorem Advances.refl (st : ParserState) : st.Advances st :=
  ⟨List.suffix_rfl, List.prefix_rfl, List.prefix_rfl⟩

/-- One thing after the other. -/
theorem Advances.trans (h : st.Advances st') (h' : st'.Advances st'') : st.Advances st'' :=
  ⟨h'.tokens.trans h.tokens, h.operands.trans h'.operands, h.errors.trans h'.errors⟩

/-- Eating tokens. -/
theorem Advances.eat {tokens : List AsmToken} (h : tokens <:+ st.tokens) :
    st.Advances { st with tokens := tokens } :=
  ⟨h, List.prefix_rfl, List.prefix_rfl⟩

/-- Adding an operand. -/
theorem advances_push (st : ParserState) (op : SNESOperand) : st.Advances (st.push op) :=
  ⟨List.suffix_rfl, List.prefix_append _ _, List.prefix_rfl⟩

/-- Parsing an expression. -/
theorem advances_after {parsed : ParsedExpression} (h : parsed.tokens <:+ st.tokens) :
    st.Advances (st.after parsed) :=
  ⟨h, List.prefix_rfl, List.prefix_append _ _⟩

/-- An error token is one token. -/
theorem skipError_suffix (tokens : List AsmToken) : skipError tokens <:+ tokens := by
  unfold skipError
  split
  · exact List.suffix_cons _ _
  · exact List.suffix_rfl

/-- Reporting an error. -/
theorem advances_error (st : ParserState) (message : String) : st.Advances (st.error message) :=
  ⟨skipError_suffix _, List.prefix_rfl, List.prefix_append _ _⟩

/-- Reporting an error of the lexer. -/
theorem advances_reportError (st : ParserState) : st.Advances st.reportError := by
  unfold reportError
  split
  · exact advances_error st _
  · exact .refl st

/-- Eating a token. -/
theorem advances_lex (st : ParserState) : st.Advances st.lex :=
  (advances_reportError st).trans (.eat (List.tail_suffix _))

/-- A token that is eaten is gone. -/
theorem length_lex_lt (h : st.tokens ≠ []) : st.lex.tokens.length < st.tokens.length := by
  have reported := (advances_reportError st).tokens.length_le
  have pos := List.length_pos_iff.mpr h
  show st.reportError.tokens.tail.length < st.tokens.length
  rw [List.length_tail]
  omega

/-- A current token that is not the end of the file. -/
theorem tokens_ne_nil (h : st.getTok ≠ .eof) : st.tokens ≠ [] := by
  intro empty
  rw [getTok, empty] at h
  exact h rfl

/-- Eating a comma. -/
theorem advances_eatComma (st : ParserState) : st.Advances st.eatComma := by
  unfold eatComma
  split_ifs
  · exact advances_lex st
  · exact .refl st

end ParserState

open ParserState SteppedLoop

/-- Going to the next statement. -/
theorem eatToEndOfStatement_suffix (tokens : List AsmToken) :
    eatToEndOfStatement tokens <:+ tokens := by
  fun_induction eatToEndOfStatement tokens with
  | case1 => exact List.suffix_rfl
  | case2 rest => exact List.suffix_rfl
  | case3 tok rest _ _ => exact List.suffix_cons tok rest
  | case4 tok rest _ _ ih => exact ih.trans (List.suffix_cons tok rest)

/-! ## The parsers -/

/-- A register is looked for in front. -/
theorem parseRegister_suffix (tokens : List AsmToken) : (parseRegister tokens).2 <:+ tokens := by
  unfold parseRegister
  split
  · exact ⟨[_, _], rfl⟩
  · exact ⟨[_, _], rfl⟩
  · exact List.suffix_rfl
  · exact List.suffix_rfl

/-- A register that is found is the current token. -/
theorem parseRegister_eq_some {tokens rest : List AsmToken} {r : Reg}
    (h : parseRegister tokens = (some r, rest)) : ∃ name tail, rest = .identifier name :: tail := by
  unfold parseRegister at h
  split at h
  case h_1 high low tail =>
    obtain ⟨-, rfl⟩ := Prod.mk.inj h
    exact ⟨low, tail, rfl⟩
  case h_2 => cases (Prod.mk.inj h).1
  case h_3 name tail _ _ =>
    obtain ⟨-, rfl⟩ := Prod.mk.inj h
    exact ⟨name, tail, rfl⟩
  case h_4 => cases (Prod.mk.inj h).1

/-- `tryParseRegisterOperand` eats tokens, and one at least where it succeeds. -/
theorem advances_register (st : ParserState) :
    st.Advances (tryParseRegisterOperand st).2 ∧
      ((tryParseRegisterOperand st).1 = false →
        (tryParseRegisterOperand st).2.tokens.length < st.tokens.length) := by
  have eaten := parseRegister_suffix st.tokens
  unfold tryParseRegisterOperand
  rcases hreg : parseRegister st.tokens with ⟨_ | r, tokens⟩
  · rw [hreg] at eaten
    exact ⟨.eat eaten, fun h => by cases h⟩
  · rw [hreg] at eaten
    have moved : st.Advances ({ st with tokens := tokens }.push (.reg r)) :=
      (Advances.eat eaten).trans (advances_push _ _)
    refine ⟨moved.trans (advances_lex _), fun _ => ?_⟩
    obtain ⟨name, tail, rfl⟩ := parseRegister_eq_some hreg
    have shorter := length_lex_lt
      (show ({ st with tokens := .identifier name :: tail }.push (.reg r)).tokens ≠ [] from
        List.cons_ne_nil _ _)
    exact shorter.trans_le eaten.length_le

section

variable {parseExpression : List AsmToken → ParsedExpression}
  (hforward : MovesForward parseExpression) (heats : EatsOnSuccess parseExpression)
  {st : ParserState} {outcome : Bool × ParserState}

include hforward in
/-- `tryParseRelocExpression` eats tokens, and one at least where it succeeds. -/
theorem advances_reloc (h : tryParseRelocExpression parseExpression st = some outcome) :
    st.Advances outcome.2 ∧
      (outcome.1 = false → outcome.2.tokens.length < st.tokens.length) := by
  rcases tryParseRelocExpression_cases h with ⟨-, rfl⟩ | ⟨isNegated, name, inner, hcall, hcases⟩
  · exact ⟨.refl st, fun h => by cases h⟩
  · have atName := suffix_of_call hcall
    have atInner : inner <:+ .identifier name :: .lParen :: inner := ⟨[_, _], rfl⟩
    have parsed := (hforward inner).trans (atInner.trans atName)
    rcases hcases with ⟨-, rfl⟩ | ⟨-, -, rfl⟩ | ⟨kind, e, behind, -, -, heq, rfl⟩
    · exact ⟨⟨atName, List.prefix_rfl, List.prefix_append _ _⟩, fun h => by cases h⟩
    · exact ⟨advances_after parsed, fun h => by cases h⟩
    · rw [heq] at parsed
      have longer := parsed.length_le
      refine ⟨⟨(List.suffix_cons _ _).trans parsed, List.prefix_append _ _,
        List.prefix_append _ _⟩, fun _ => ?_⟩
      rw [List.length_cons] at longer
      exact longer

include hforward heats in
/-- `tryParseExpression` eats tokens, and one at least where it succeeds. -/
theorem advances_expression (h : tryParseExpression parseExpression st = some outcome) :
    st.Advances outcome.2 ∧
      (outcome.1 = false → outcome.2.tokens.length < st.tokens.length) := by
  obtain ⟨failed, st', hreloc, hcases⟩ := tryParseExpression_cases h
  obtain ⟨advances, shorter⟩ := advances_reloc hforward hreloc
  have parsed : st.Advances (st'.after (parseExpression st'.tokens)) :=
    advances.trans (advances_after (hforward st'.tokens))
  rcases hcases with rfl | ⟨-, -, rfl⟩ | ⟨e, -, hresult, rfl⟩
  · exact ⟨advances, shorter⟩
  · exact ⟨parsed, fun h => by cases h⟩
  · refine ⟨parsed.trans (advances_push _ _), fun _ => ?_⟩
    exact (heats _ e hresult).trans_le advances.tokens.length_le

end

/-- A parser of expressions eats tokens, and one at least where it succeeds.  It may also stop at an
assertion. -/
def EatsAhead (tryExpression : ParserState → Option (Bool × ParserState)) : Prop :=
  ∀ st outcome, tryExpression st = some outcome →
    st.Advances outcome.2 ∧
      (outcome.1 = false → outcome.2.tokens.length < st.tokens.length)

/-- The current token as an operand. -/
theorem advances_pushToken (st : ParserState) : st.Advances (pushToken st) :=
  (advances_push st _).trans (advances_lex _)

/-! ## An operand -/

/-- How `parseOperand` goes on when it has looked at the current token and tried a register: it is
settled, or an expression is tried, or one with a sign that may stand for itself. -/
inductive OperandAttempt where
  | settled (outcome : Bool × ParserState)
  | expression (st : ParserState)
  | signed (st : ParserState)

/-- The first part of `parseOperand`. -/
def operandAttempt (st : ParserState) : OperandAttempt :=
  match st.getTok with
  | .identifier _ =>
      match tryParseRegisterOperand st with
      | (false, st) => .settled (false, st)
      | (true, st) => .expression st
  | .lParen | .integer _ _ | .dot => .expression st
  | .plus | .minus =>
      if st.peekTok.takesSign then .signed st else .settled (false, pushToken st)
  | _ => .settled (true, st.error "unexpected token in operand")

section

variable (parseExpression : List AsmToken → ParsedExpression)

/-- The second part of `parseOperand`. -/
def OperandAttempt.parse : OperandAttempt → Option (Bool × ParserState)
  | settled outcome => some outcome
  | expression st => tryParseExpression parseExpression st
  | signed st =>
      (tryParseExpression parseExpression st).map fun (failed, st) =>
        if failed then (false, pushToken st) else (false, st)

/-- The second part of `parseOperand`, with any parser of expressions. -/
def OperandAttempt.parseWith (tryExpression : ParserState → Option (Bool × ParserState)) :
    OperandAttempt → Option (Bool × ParserState)
  | settled outcome => some outcome
  | expression st => tryExpression st
  | signed st =>
      (tryExpression st).map fun outcome =>
        (false, if outcome.1 then pushToken outcome.2 else outcome.2)

/-- The parser of expressions that `parseOperand` uses. -/
theorem OperandAttempt.parse_eq_parseWith (attempt : OperandAttempt) :
    attempt.parse parseExpression = attempt.parseWith (tryParseExpression parseExpression) := by
  cases attempt with
  | settled outcome => rfl
  | expression st => rfl
  | signed st =>
      rw [OperandAttempt.parse, OperandAttempt.parseWith]
      rcases tryParseExpression parseExpression st with _ | ⟨_ | _, st'⟩
      · rfl
      · rfl
      · rfl

/-- `parseOperand` in two parts. -/
theorem parseOperand_eq (st : ParserState) :
    parseOperand parseExpression st = (operandAttempt st).parse parseExpression := by
  unfold parseOperand operandAttempt
  cases st.getTok with
  | identifier name =>
      rcases tryParseRegisterOperand st with ⟨_ | _, st'⟩
      · rfl
      · rfl
  | plus | minus =>
      simp only
      split_ifs
      · rfl
      · rfl
  | _ => rfl

end

/-- **What the first part of `parseOperand` can do**: find a register, or try an expression behind
the tokens that looking for one has eaten; try an expression at the current token; try one with a
sign, or take the sign as the operand; or report the token. -/
theorem operandAttempt_cases (st : ParserState) :
    (∃ st', tryParseRegisterOperand st = (false, st') ∧
      operandAttempt st = .settled (false, st')) ∨
    (∃ st', tryParseRegisterOperand st = (true, st') ∧ operandAttempt st = .expression st') ∨
    operandAttempt st = .expression st ∨
    ((st.getTok = .plus ∨ st.getTok = .minus) ∧
      (operandAttempt st = .signed st ∨ operandAttempt st = .settled (false, pushToken st))) ∨
    operandAttempt st = .settled (true, st.error "unexpected token in operand") := by
  unfold operandAttempt
  cases htok : st.getTok with
  | identifier name =>
      rcases hreg : tryParseRegisterOperand st with ⟨_ | _, st'⟩
      · exact .inl ⟨st', rfl, rfl⟩
      · exact .inr (.inl ⟨st', rfl, rfl⟩)
  | plus =>
      refine .inr (.inr (.inr (.inl ⟨.inl rfl, ?_⟩)))
      simp only
      split_ifs
      · exact .inl rfl
      · exact .inr rfl
  | minus =>
      refine .inr (.inr (.inr (.inl ⟨.inr rfl, ?_⟩)))
      simp only
      split_ifs
      · exact .inl rfl
      · exact .inr rfl
  | lParen | integer | dot => exact .inr (.inr (.inl rfl))
  | _ => exact .inr (.inr (.inr (.inr rfl)))

/-- A sign is a token. -/
theorem tokens_ne_nil_of_sign {st : ParserState} (h : st.getTok = .plus ∨ st.getTok = .minus) :
    st.tokens ≠ [] := by
  apply tokens_ne_nil
  rcases h with h | h
  · rw [h]
    decide
  · rw [h]
    decide

/-- An operand that is settled has eaten a token or failed. -/
theorem advances_settled {st : ParserState} {outcome : Bool × ParserState}
    (h : operandAttempt st = .settled outcome) :
    st.Advances outcome.2 ∧
      (outcome.1 = false → outcome.2.tokens.length < st.tokens.length) := by
  have register := advances_register st
  rcases operandAttempt_cases st with
    ⟨st', hreg, heq⟩ | ⟨st', -, heq⟩ | heq | ⟨hsign, heq | heq⟩ | heq
  · rw [heq] at h
    cases h
    rwa [hreg] at register
  · rw [heq] at h
    cases h
  · rw [heq] at h
    cases h
  · rw [heq] at h
    cases h
  · rw [heq] at h
    cases h
    exact ⟨advances_pushToken st, fun _ => length_lex_lt (tokens_ne_nil_of_sign hsign)⟩
  · rw [heq] at h
    cases h
    exact ⟨advances_error st _, fun h => by cases h⟩

/-- An expression is tried at the current token, or behind a name and a colon. -/
theorem advances_of_expression {st st' : ParserState} (h : operandAttempt st = .expression st') :
    st.Advances st' := by
  have register := advances_register st
  rcases operandAttempt_cases st with
    ⟨st'', -, heq⟩ | ⟨st'', hreg, heq⟩ | heq | ⟨-, heq | heq⟩ | heq
  · rw [heq] at h
    cases h
  · rw [heq] at h
    cases h
    rw [hreg] at register
    exact register.1
  · rw [heq] at h
    cases h
    exact .refl st
  all_goals
    rw [heq] at h
    cases h

/-- An expression with a sign is tried at the sign. -/
theorem getTok_of_signed {st st' : ParserState} (h : operandAttempt st = .signed st') :
    st' = st ∧ (st.getTok = .plus ∨ st.getTok = .minus) := by
  rcases operandAttempt_cases st with
    ⟨st'', -, heq⟩ | ⟨st'', -, heq⟩ | heq | ⟨hsign, heq | heq⟩ | heq
  case inr.inr.inr.inl.inl =>
    rw [heq] at h
    cases h
    exact ⟨rfl, hsign⟩
  all_goals
    rw [heq] at h
    cases h

/-- **An operand** is parsed by eating tokens, and one at least where that succeeds: also where a
sign becomes an operand because no expression could be parsed. -/
theorem advances_parseWith {tryExpression : ParserState → Option (Bool × ParserState)}
    (heats : EatsAhead tryExpression) {st : ParserState} {outcome : Bool × ParserState}
    (h : (operandAttempt st).parseWith tryExpression = some outcome) :
    st.Advances outcome.2 ∧
      (outcome.1 = false → outcome.2.tokens.length < st.tokens.length) := by
  cases hattempt : operandAttempt st with
  | settled settled =>
      rw [hattempt] at h
      cases h
      exact advances_settled hattempt
  | expression st' =>
      rw [hattempt] at h
      have moved := advances_of_expression hattempt
      obtain ⟨advances, shorter⟩ := heats st' outcome h
      refine ⟨moved.trans advances, fun hok => ?_⟩
      exact (shorter hok).trans_le moved.tokens.length_le
  | signed st' =>
      obtain ⟨rfl, sign⟩ := getTok_of_signed hattempt
      rw [hattempt, OperandAttempt.parseWith, Option.map_eq_some_iff] at h
      obtain ⟨⟨failed, st''⟩, hparse, rfl⟩ := h
      obtain ⟨advances, shorter⟩ := heats st' _ hparse
      cases failed with
      | false => exact ⟨advances, shorter⟩
      | true =>
          refine ⟨advances.trans (advances_pushToken _), fun _ => ?_⟩
          have nonempty := tokens_ne_nil_of_sign sign
          have pushed := (advances_pushToken st'').tokens.length_le
          have parsed : st''.tokens.length ≤ st'.tokens.length := advances.tokens.length_le
          show (pushToken st'').tokens.length < st'.tokens.length
          by_cases rest : st''.tokens = []
          · rw [rest, List.length_nil] at pushed
            have pos := List.length_pos_iff.mpr nonempty
            omega
          · have lexed : (pushToken st'').tokens.length < st''.tokens.length := length_lex_lt rest
            omega

section

variable {parseExpression : List AsmToken → ParsedExpression}
  (hforward : MovesForward parseExpression) (heats : EatsOnSuccess parseExpression)

include hforward heats in
/-- `parseOperand` does so. -/
theorem advances_parseOperand {st : ParserState} {outcome : Bool × ParserState}
    (h : parseOperand parseExpression st = some outcome) :
    st.Advances outcome.2 ∧
      (outcome.1 = false → outcome.2.tokens.length < st.tokens.length) := by
  rw [parseOperand_eq, OperandAttempt.parse_eq_parseWith] at h
  exact advances_parseWith (fun st outcome h => advances_expression hforward heats h) h

include hforward heats in
/-- A register with a displacement is parsed by eating tokens, and one at least where that
succeeds. -/
theorem advances_memri (st : ParserState) :
    st.Advances (parseMemriOperand parseExpression st).2 ∧
      ((parseMemriOperand parseExpression st).1 = .success →
        (parseMemriOperand parseExpression st).2.tokens.length < st.tokens.length) := by
  have eaten := parseRegister_suffix st.tokens
  unfold parseMemriOperand
  rcases hreg : parseRegister st.tokens with ⟨_ | r, tokens⟩
  · rw [hreg] at eaten
    exact ⟨.eat eaten, fun h => by cases h⟩
  · rw [hreg] at eaten
    have parsed := (hforward tokens.tail).trans ((List.tail_suffix tokens).trans eaten)
    simp only
    cases hresult : (parseExpression tokens.tail).result with
    | none => exact ⟨advances_after parsed, fun h => by cases h⟩
    | some e =>
        refine ⟨(advances_after parsed).trans (advances_push _ _), fun _ => ?_⟩
        have shorter := heats tokens.tail e hresult
        have tail := ((List.tail_suffix tokens).trans eaten).length_le
        exact shorter.trans_le tail

end

/-! ## A round -/

section

variable (parseExpression : List AsmToken → ParsedExpression) (mnemonic : String)

/-- The state in which a round parses an operand: behind a comma, but in the first round. -/
def operandState (s : Bool × ParserState) : ParserState :=
  if s.1 then s.2 else s.2.eatComma

/-- The parser of an operand in a round: whether it fails and with which message, and the state. -/
def parseNextOperand (st : ParserState) : Option (Option String × ParserState) :=
  let matched := matchOperandParserImpl parseExpression mnemonic st
  if matched.1 = .success then
    some (none, matched.2)
  else if matched.1 = .parseFail then
    some (some "failed to parse register and immediate pair", matched.2)
  else
    (parseOperand parseExpression matched.2).map fun outcome =>
      (if outcome.1 then some "unexpected token in argument list" else none, outcome.2)

/-- The parser of a register with a displacement matches or fails. -/
theorem parseMemriOperand_ne_noMatch (st : ParserState) :
    (parseMemriOperand parseExpression st).1 ≠ .noMatch := by
  unfold parseMemriOperand
  rcases parseRegister st.tokens with ⟨_ | r, tokens⟩
  · intro h
    cases h
  · simp only
    cases (parseExpression tokens.tail).result with
    | none =>
        intro h
        cases h
    | some e =>
        intro h
        cases h

/-- A parser that has an outcome, with the message that is reported where it fails. -/
theorem eq_some_of_reported {outcome : Option (Bool × ParserState)} {message : String}
    {failure : Option String} {st : ParserState}
    (h : (outcome.map fun outcome => (if outcome.1 then some message else none, outcome.2)) =
      some (failure, st)) :
    ∃ failed, outcome = some (failed, st) ∧ (failure = none → failed = false) := by
  obtain ⟨⟨failed, st'⟩, rfl, heq⟩ := Option.map_eq_some_iff.mp h
  obtain ⟨hfailure, rfl⟩ := Prod.mk.inj heq
  refine ⟨failed, rfl, fun hnone => ?_⟩
  cases failed with
  | false => rfl
  | true => cases hfailure.trans hnone

variable {parseExpression mnemonic} in
/-- A register with a displacement, where the table asks for one. -/
theorem parseNextOperand_of_memri {st : ParserState}
    (h : (mnemonic, st.operands.length - 1) ∈ operandMatchTable) :
    parseNextOperand parseExpression mnemonic st =
      some (if (parseMemriOperand parseExpression st).1 = .success then none
        else some "failed to parse register and immediate pair",
        (parseMemriOperand parseExpression st).2) := by
  have matched := parseMemriOperand_ne_noMatch parseExpression st
  unfold parseNextOperand matchOperandParserImpl
  rw [if_pos h]
  rcases hparse : parseMemriOperand parseExpression st with ⟨_ | _ | _, st'⟩
  · rfl
  · rw [hparse] at matched
    exact absurd rfl matched
  · rfl

variable {parseExpression mnemonic} in
/-- Any other operand. -/
theorem parseNextOperand_of_operand {st : ParserState}
    (h : (mnemonic, st.operands.length - 1) ∉ operandMatchTable) :
    parseNextOperand parseExpression mnemonic st =
      (parseOperand parseExpression st).map fun outcome =>
        (if outcome.1 then some "unexpected token in argument list" else none, outcome.2) := by
  unfold parseNextOperand matchOperandParserImpl
  rw [if_neg h]
  rfl

/-- A round is the end of a statement or parses an operand. -/
theorem parseInstructionRound_eq (s : Bool × ParserState) :
    parseInstructionRound parseExpression mnemonic s =
      if s.2.getTok.isEndOfStatement then .inr (some (false, s.2.lex))
      else
        match parseNextOperand parseExpression mnemonic (operandState s) with
        | none => .inr none
        | some (none, st) => .inl (false, st)
        | some (some message, st) =>
            .inr (some (true,
              { st with tokens := eatToEndOfStatement st.tokens }.error message)) := by
  obtain ⟨first, st⟩ := s
  have behindComma : (if first then st else st.eatComma) = operandState (first, st) := rfl
  rw [parseInstructionRound]
  simp only [behindComma]
  generalize operandState (first, st) = start
  by_cases hend : st.getTok.isEndOfStatement = true
  · rw [if_pos hend, if_pos hend]
  rw [if_neg hend, if_neg hend]
  unfold parseNextOperand
  rcases matchOperandParserImpl parseExpression mnemonic start with ⟨_ | _ | _, st'⟩
  · rfl
  · simp only
    rcases parseOperand parseExpression st' with _ | ⟨_ | _, st''⟩
    · rfl
    · rfl
    · rfl
  · rfl

/-- **What a round can do**: eat the end of the statement, or stop at an assertion, go on behind an
operand, or go to the next statement with an error. -/
theorem parseInstructionRound_cases (s : Bool × ParserState) :
    (s.2.getTok.isEndOfStatement = true ∧
      parseInstructionRound parseExpression mnemonic s = .inr (some (false, s.2.lex))) ∨
    (s.2.getTok.isEndOfStatement = false ∧
      ((parseNextOperand parseExpression mnemonic (operandState s) = none ∧
          parseInstructionRound parseExpression mnemonic s = .inr none) ∨
        (∃ st, parseNextOperand parseExpression mnemonic (operandState s) = some (none, st) ∧
          parseInstructionRound parseExpression mnemonic s = .inl (false, st)) ∨
        ∃ message st,
          parseNextOperand parseExpression mnemonic (operandState s) = some (some message, st) ∧
          parseInstructionRound parseExpression mnemonic s = .inr (some (true,
            { st with tokens := eatToEndOfStatement st.tokens }.error message)))) := by
  rw [parseInstructionRound_eq]
  cases hend : s.2.getTok.isEndOfStatement with
  | true => exact .inl ⟨rfl, rfl⟩
  | false =>
      refine .inr ⟨rfl, ?_⟩
      rcases parseNextOperand parseExpression mnemonic (operandState s) with _ | ⟨_ | message, st⟩
      · exact .inl ⟨rfl, rfl⟩
      · exact .inr (.inl ⟨st, rfl, rfl⟩)
      · exact .inr (.inr ⟨message, st, rfl, rfl⟩)

end

section

variable {parseExpression : List AsmToken → ParsedExpression}
  (hforward : MovesForward parseExpression) (heats : EatsOnSuccess parseExpression)
  {mnemonic : String}

include hforward heats in
/-- The parser of an operand eats tokens, and one at least where it succeeds. -/
theorem advances_parseNextOperand {st st' : ParserState} {failure : Option String}
    (h : parseNextOperand parseExpression mnemonic st = some (failure, st')) :
    st.Advances st' ∧ (failure = none → st'.tokens.length < st.tokens.length) := by
  by_cases hmemri : (mnemonic, st.operands.length - 1) ∈ operandMatchTable
  · rw [parseNextOperand_of_memri hmemri] at h
    obtain ⟨advances, shorter⟩ := advances_memri hforward heats st
    obtain ⟨hfailure, rfl⟩ := Prod.mk.inj (Option.some.inj h)
    refine ⟨advances, fun hnone => shorter ?_⟩
    by_contra hfails
    rw [if_neg hfails, hnone] at hfailure
    cases hfailure
  · rw [parseNextOperand_of_operand hmemri] at h
    obtain ⟨failed, hparse, succeeded⟩ := eq_some_of_reported h
    obtain ⟨advances, shorter⟩ := advances_parseOperand hforward heats hparse
    exact ⟨advances, fun hnone => shorter (succeeded hnone)⟩

/-- A round starts behind a comma at most. -/
theorem advances_operandState (s : Bool × ParserState) : s.2.Advances (operandState s) := by
  unfold operandState
  split_ifs
  · exact .refl s.2
  · exact advances_eatComma s.2

/-- An error that is reported behind the rest of the statement. -/
theorem length_errors_lt {st st' : ParserState} (h : st.Advances st') (message : String) :
    st.errors.length <
      ({ st' with tokens := eatToEndOfStatement st'.tokens }.error message).errors.length := by
  have kept := h.errors.length_le
  show st.errors.length < (st'.errors ++ [message]).length
  rw [List.length_append, List.length_singleton]
  omega

include hforward heats in
/-- **A round that is followed by another one** has eaten a token. -/
theorem parseInstructionRound_inl {s t : Bool × ParserState}
    (h : parseInstructionRound parseExpression mnemonic s = .inl t) :
    s.2.Advances t.2 ∧ t.2.tokens.length < s.2.tokens.length := by
  rcases parseInstructionRound_cases parseExpression mnemonic s with
    ⟨-, hround⟩ | ⟨-, ⟨-, hround⟩ | ⟨st, hnext, hround⟩ | ⟨message, st, -, hround⟩⟩
  · cases hround.symm.trans h
  · cases hround.symm.trans h
  · cases hround.symm.trans h
    obtain ⟨advances, shorter⟩ := advances_parseNextOperand hforward heats hnext
    have start := advances_operandState s
    exact ⟨start.trans advances, (shorter rfl).trans_le start.tokens.length_le⟩
  · cases hround.symm.trans h

include hforward heats in
/-- **The last round** reports an error where it fails. -/
theorem parseInstructionRound_inr {s : Bool × ParserState} {failed : Bool} {st : ParserState}
    (h : parseInstructionRound parseExpression mnemonic s = .inr (some (failed, st))) :
    s.2.Advances st ∧ (failed = true → s.2.errors.length < st.errors.length) := by
  rcases parseInstructionRound_cases parseExpression mnemonic s with
    ⟨-, hround⟩ | ⟨-, ⟨-, hround⟩ | ⟨st', -, hround⟩ | ⟨message, st', hnext, hround⟩⟩
  · cases hround.symm.trans h
    exact ⟨advances_lex s.2, fun h => by cases h⟩
  · cases hround.symm.trans h
  · cases hround.symm.trans h
  · cases hround.symm.trans h
    obtain ⟨advances, -⟩ := advances_parseNextOperand hforward heats hnext
    have reached := (advances_operandState s).trans advances
    have skipped : s.2.Advances { st' with tokens := eatToEndOfStatement st'.tokens } :=
      reached.trans (.eat (eatToEndOfStatement_suffix _))
    exact ⟨skipped.trans (advances_error _ message), fun _ => length_errors_lt reached message⟩

include hforward heats in
/-- **The loop ends**: from every state, with what all reached last rounds have in common. -/
theorem exists_returns_parseInstruction {s : Bool × ParserState}
    {Post : Option (Bool × ParserState) → Prop}
    (done : ∀ t result, Reaches (parseInstructionRound parseExpression mnemonic) s t →
      parseInstructionRound parseExpression mnemonic t = .inr result → Post result) :
    ∃ result, Returns (parseInstructionRound parseExpression mnemonic) s result ∧ Post result := by
  apply exists_returns_of_reaches (measure fun s : Bool × ParserState => s.2.tokens.length).wf
  · intro t u _ hround
    exact (parseInstructionRound_inl hforward heats hround).2
  · exact done

end

end Snes
