/-
# The End of a Statement

`ParseInstruction` is to eat the tokens of its own statement, with the end of the
statement, and no others.  Two steps go further.  `parseOperand` makes an operand of
the current token when no expression can be parsed at a sign, also when parsing has
stopped at the end of the statement.  And `Error` lexes past an error of the lexer,
which after `eatToEndOfStatement` is one of the next statement.
-/
import SnesBackend.ParserAssertions

namespace Snes

open SteppedLoop ParserState

/-! ## Tokens of a statement -/

/-- A token inside of a statement. -/
def AsmToken.isInner : AsmToken → Bool
  | endOfStatement _ | eof => false
  | _ => true

/-- The tokens of a statement that is not over: inner tokens, then its end and the tokens that come
after it. -/
def WithinStatement (text : String) (rest tokens : List AsmToken) : Prop :=
  ∃ left, tokens = left ++ .endOfStatement text :: rest ∧ ∀ tok ∈ left, tok.isInner = true

/-- The generic expression parser does not eat the end of a statement. -/
def StopsAtEnd (parseExpression : List AsmToken → ParsedExpression) : Prop :=
  ∀ text rest tokens, WithinStatement text rest tokens →
    .endOfStatement text :: rest <:+ (parseExpression tokens).tokens

section

variable {text : String} {rest tokens tokens' : List AsmToken}

/-- Eating tokens before the end. -/
theorem WithinStatement.eat (h : WithinStatement text rest tokens) (heaten : tokens' <:+ tokens)
    (hend : .endOfStatement text :: rest <:+ tokens') : WithinStatement text rest tokens' := by
  obtain ⟨left, rfl, inner⟩ := h
  obtain ⟨left', rfl⟩ := hend
  obtain ⟨eaten, heaten⟩ := heaten
  rw [← List.append_assoc] at heaten
  have split : eaten ++ left' = left := List.append_cancel_right heaten
  refine ⟨left', rfl, fun tok htok => inner tok ?_⟩
  rw [← split]
  exact List.mem_append_right eaten htok

/-- The end is still to come. -/
theorem WithinStatement.suffix (h : WithinStatement text rest tokens) :
    .endOfStatement text :: rest <:+ tokens := by
  obtain ⟨left, rfl, -⟩ := h
  exact List.suffix_append _ _

/-- Eating a token that is not the end. -/
theorem WithinStatement.tail {tok : AsmToken} (h : WithinStatement text rest (tok :: tokens))
    (htok : tok.isEndOfStatement = false) : WithinStatement text rest tokens := by
  obtain ⟨_ | ⟨first, left⟩, heq, inner⟩ := h
  · obtain ⟨rfl, -⟩ := List.cons.inj heq
    cases htok
  · obtain ⟨-, rfl⟩ := List.cons.inj heq
    exact ⟨left, rfl, fun tok htok => inner tok (List.mem_cons_of_mem first htok)⟩

/-- The end is the one of the statement. -/
theorem WithinStatement.end_eq {text' : String}
    (h : WithinStatement text rest (.endOfStatement text' :: tokens)) : tokens = rest := by
  obtain ⟨_ | ⟨first, left⟩, heq, inner⟩ := h
  · exact (List.cons.inj heq).2
  · obtain ⟨rfl, -⟩ := List.cons.inj heq
    cases inner _ List.mem_cons_self

/-- Tokens that come after the end do not have it before them. -/
theorem not_end_suffix : ¬ .endOfStatement text :: rest <:+ rest := by
  intro h
  have lengths := h.length_le
  rw [List.length_cons] at lengths
  omega

/-- Going to the next statement from within a statement. -/
theorem WithinStatement.eatToEndOfStatement (h : WithinStatement text rest tokens) :
    eatToEndOfStatement tokens = rest := by
  obtain ⟨left, rfl, inner⟩ := h
  induction left with
  | nil => rfl
  | cons tok left ih =>
      have first := inner tok List.mem_cons_self
      have later := ih fun tok' htok' => inner tok' (List.mem_cons_of_mem tok htok')
      cases tok
      case eof => cases first
      case endOfStatement => cases first
      all_goals exact later

end

/-! ## The parsers within a statement -/

section

variable {text : String} {rest tokens : List AsmToken} {st : ParserState}

/-- A register and the prefix of a register pair lie within a statement. -/
theorem WithinStatement.parseRegister (h : WithinStatement text rest tokens) :
    WithinStatement text rest (parseRegister tokens).2 := by
  unfold Snes.parseRegister
  split
  case h_1 => exact (h.tail rfl).tail rfl
  case h_2 => exact (h.tail rfl).tail rfl
  case h_3 => exact h
  case h_4 => exact h

/-- Tokens that `Lex` eats the end of a statement with: the end, also behind an error of the
lexer. -/
def atEnd (tokens : List AsmToken) : Bool :=
  match skipError tokens with
  | .endOfStatement _ :: _ => true
  | _ => false

/-- What `Lex` leaves. -/
theorem lex_tokens (st : ParserState) : st.lex.tokens = (skipError st.tokens).tail := by
  obtain ⟨_ | ⟨tok, tokens⟩, operands, errors⟩ := st
  · rfl
  · cases tok <;> rfl

/-- An error of the lexer is inside of its statement. -/
theorem WithinStatement.skipError (h : WithinStatement text rest tokens) :
    WithinStatement text rest (skipError tokens) := by
  unfold Snes.skipError
  split
  · exact h.tail rfl
  · exact h

/-- Elsewhere `Lex` stays within the statement. -/
theorem WithinStatement.lex (h : WithinStatement text rest st.tokens)
    (hend : atEnd st.tokens = false) : WithinStatement text rest st.lex.tokens := by
  have skipped := h.skipError
  rw [lex_tokens]
  unfold atEnd at hend
  rcases hskip : Snes.skipError st.tokens with _ | ⟨tok, tokens⟩
  · rw [hskip] at skipped
    exact absurd skipped.suffix (by simp)
  · rw [hskip] at skipped hend
    refine skipped.tail ?_
    cases tok
    case endOfStatement => cases hend
    all_goals rfl

/-- At the end of the statement `Lex` goes to the next one. -/
theorem WithinStatement.lex_of_atEnd (h : WithinStatement text rest st.tokens)
    (hend : atEnd st.tokens = true) : st.lex.tokens = rest := by
  have skipped := h.skipError
  rw [lex_tokens]
  unfold atEnd at hend
  split at hend
  case h_1 text' tokens heq =>
    rw [heq] at skipped ⊢
    exact skipped.end_eq
  case h_2 => cases hend

/-- The current token decides where `Lex` stays within the statement. -/
theorem atEnd_of_getTok (h : st.getTok.isEndOfStatement = false)
    (herror : ∀ t e, st.getTok ≠ .error t e) : atEnd st.tokens = false := by
  obtain ⟨_ | ⟨tok, tokens⟩, operands, errors⟩ := st
  · rfl
  · cases tok
    case endOfStatement => cases h
    case error t e => exact absurd rfl (herror t e)
    all_goals rfl

/-- A sign is not the end of a statement. -/
theorem atEnd_of_sign (h : st.getTok = .plus ∨ st.getTok = .minus) : atEnd st.tokens = false := by
  rcases h with h | h
  · apply atEnd_of_getTok
    · rw [h]
      rfl
    · rw [h]
      rintro t e ⟨⟩
  · apply atEnd_of_getTok
    · rw [h]
      rfl
    · rw [h]
      rintro t e ⟨⟩

/-- Eating a comma. -/
theorem WithinStatement.eatComma (h : WithinStatement text rest st.tokens) :
    WithinStatement text rest st.eatComma.tokens := by
  unfold ParserState.eatComma
  split_ifs with hcomma
  · refine h.lex (atEnd_of_getTok ?_ ?_)
    · rw [hcomma]
      rfl
    · rw [hcomma]
      rintro t e ⟨⟩
  · exact h

variable {parseExpression : List AsmToken → ParsedExpression}
  (hforward : MovesForward parseExpression) (hstops : StopsAtEnd parseExpression)

include hforward hstops in
/-- An expression lies within a statement. -/
theorem WithinStatement.parsed (h : WithinStatement text rest tokens) :
    WithinStatement text rest (parseExpression tokens).tokens :=
  h.eat (hforward tokens) (hstops text rest tokens h)

/-- A modifier lies within a statement. -/
theorem WithinStatement.of_call {isNegated : Bool} {name : String} {inner : List AsmToken}
    (h : WithinStatement text rest tokens)
    (hcall : modifierCall tokens = some (isNegated, name, inner)) :
    WithinStatement text rest (.identifier name :: .lParen :: inner) := by
  unfold modifierCall at hcall
  split at hcall <;> cases hcall
  · exact h.tail rfl
  · exact h.tail rfl
  · exact h

include hforward hstops in
/-- `tryParseRelocExpression` stays within the statement. -/
theorem WithinStatement.reloc {outcome : Bool × ParserState}
    (h : WithinStatement text rest st.tokens)
    (hparse : tryParseRelocExpression parseExpression st = some outcome) :
    WithinStatement text rest outcome.2.tokens := by
  rcases tryParseRelocExpression_cases hparse with
    ⟨-, rfl⟩ | ⟨isNegated, name, inner, hcall, hcases⟩
  · exact h
  · have atName := h.of_call hcall
    have parsed := ((atName.tail rfl).tail rfl).parsed hforward hstops
    rcases hcases with ⟨-, rfl⟩ | ⟨-, -, rfl⟩ | ⟨kind, e, behind, -, -, heq, rfl⟩
    · exact atName
    · exact parsed
    · rw [heq] at parsed
      exact parsed.tail rfl

include hforward hstops in
/-- `tryParseExpression` stays within the statement. -/
theorem WithinStatement.expression {outcome : Bool × ParserState}
    (h : WithinStatement text rest st.tokens)
    (hparse : tryParseExpression parseExpression st = some outcome) :
    WithinStatement text rest outcome.2.tokens := by
  obtain ⟨failed, st', hreloc, hcases⟩ := tryParseExpression_cases hparse
  have within := h.reloc hforward hstops hreloc
  have parsed : WithinStatement text rest (parseExpression st'.tokens).tokens :=
    within.parsed hforward hstops
  rcases hcases with rfl | ⟨-, -, rfl⟩ | ⟨e, -, -, rfl⟩
  · exact within
  · exact parsed
  · exact parsed

/-- The register that is found is within the statement, and what comes behind it too. -/
theorem WithinStatement.behind_register {tokens' : List AsmToken} {r : Reg}
    (h : WithinStatement text rest tokens) (hreg : Snes.parseRegister tokens = (some r, tokens')) :
    ∃ name behind, tokens' = .identifier name :: behind ∧ WithinStatement text rest behind := by
  have found := h.parseRegister
  rw [hreg] at found
  obtain ⟨name, behind, rfl⟩ := parseRegister_eq_some hreg
  exact ⟨name, behind, rfl, found.tail rfl⟩

/-- A register operand is parsed within the statement. -/
theorem WithinStatement.register (h : WithinStatement text rest st.tokens) :
    WithinStatement text rest (tryParseRegisterOperand st).2.tokens := by
  have found := h.parseRegister
  unfold tryParseRegisterOperand
  rcases hreg : Snes.parseRegister st.tokens with ⟨_ | r, tokens⟩
  · rw [hreg] at found
    exact found
  · obtain ⟨name, behind, rfl, within⟩ := h.behind_register hreg
    exact within

/-- The state that the first part of `parseOperand` comes to. -/
def OperandAttempt.state : OperandAttempt → ParserState
  | settled outcome => outcome.2
  | expression st | signed st => st

/-- The first part of `parseOperand` stays within the statement. -/
theorem WithinStatement.attempt (h : WithinStatement text rest st.tokens) :
    WithinStatement text rest (operandAttempt st).state.tokens := by
  have register := h.register
  rcases operandAttempt_cases st with
    ⟨st', hreg, heq⟩ | ⟨st', hreg, heq⟩ | heq | ⟨hsign, heq | heq⟩ | heq
  · rw [heq]
    rwa [hreg] at register
  · rw [heq]
    rwa [hreg] at register
  · rw [heq]
    exact h
  · rw [heq]
    exact h
  · rw [heq]
    have lexed : WithinStatement text rest (st.push (.token st.getTok.getString)).lex.tokens :=
      WithinStatement.lex (show WithinStatement text rest (st.push _).tokens from h)
        (atEnd_of_sign hsign)
    exact lexed
  · rw [heq]
    exact h.skipError

include hforward hstops in
/-- **An operand** is parsed within the statement, if a sign that no expression can be parsed at
does not make an operand of its end. -/
theorem WithinStatement.operand {outcome : Bool × ParserState}
    (h : WithinStatement text rest st.tokens)
    (hparse : parseOperand parseExpression st = some outcome)
    (hsign : ∀ st' st'', operandAttempt st = .signed st' →
      tryParseExpression parseExpression st' = some (true, st'') → atEnd st''.tokens = false) :
    WithinStatement text rest outcome.2.tokens := by
  have attempted := h.attempt
  rw [parseOperand_eq] at hparse
  cases hattempt : operandAttempt st with
  | settled outcome' =>
      rw [hattempt] at hparse attempted
      cases hparse
      exact attempted
  | expression st' =>
      rw [hattempt] at hparse attempted
      exact WithinStatement.expression hforward hstops attempted hparse
  | signed st' =>
      have before := hsign st'
      obtain ⟨rfl, -⟩ := getTok_of_signed hattempt
      rw [hattempt, OperandAttempt.parse, Option.map_eq_some_iff] at hparse
      obtain ⟨⟨failed, st''⟩, hparse, rfl⟩ := hparse
      have within := h.expression hforward hstops hparse
      cases failed with
      | false => exact within
      | true =>
          have lexed : WithinStatement text rest (pushToken st'').tokens :=
            WithinStatement.lex (show WithinStatement text rest (st''.push _).tokens from within)
              (before st'' hattempt hparse)
          exact lexed

include hforward hstops in
/-- A register with a displacement is parsed within the statement. -/
theorem WithinStatement.memri (h : WithinStatement text rest st.tokens) :
    WithinStatement text rest (parseMemriOperand parseExpression st).2.tokens := by
  have found := h.parseRegister
  unfold parseMemriOperand
  rcases hreg : Snes.parseRegister st.tokens with ⟨_ | r, tokens⟩
  · rw [hreg] at found
    exact found
  · obtain ⟨name, behind, rfl, within⟩ := h.behind_register hreg
    have parsed : WithinStatement text rest (parseExpression behind).tokens :=
      within.parsed hforward hstops
    simp only [List.tail_cons]
    cases (parseExpression behind).result with
    | none => exact parsed
    | some e => exact parsed

end

/-! ## Rounds -/

/-- A round stays within its statement: no assertion is violated; a sign that no expression can be
parsed at does not make an operand of the end of the statement; and where an operand cannot be
parsed, the next statement does not start with an error of the lexer. -/
structure RoundStays (parseExpression : List AsmToken → ParsedExpression) (mnemonic : String)
    (rest : List AsmToken) (s : Bool × ParserState) : Prop where
  assertions : RoundAssertionsHold parseExpression mnemonic s
  sign : (mnemonic, (operandState s).operands.length - 1) ∉ operandMatchTable →
    ∀ st' st'', operandAttempt (operandState s) = .signed st' →
      tryParseExpression parseExpression st' = some (true, st'') → atEnd st''.tokens = false
  next : s.2.getTok.isEndOfStatement = false →
    ∀ message st', parseNextOperand parseExpression mnemonic (operandState s) =
      some (some message, st') → skipError rest = rest

section

variable {text : String} {rest : List AsmToken} {mnemonic : String} {s : Bool × ParserState}
  {parseExpression : List AsmToken → ParsedExpression}
  (hforward : MovesForward parseExpression) (hstops : StopsAtEnd parseExpression)

/-- A round starts behind a comma at most. -/
theorem WithinStatement.operandState (h : WithinStatement text rest s.2.tokens) :
    WithinStatement text rest (operandState s).tokens := by
  unfold Snes.operandState
  split_ifs
  · exact h
  · exact h.eatComma

include hforward hstops in
/-- The parser of an operand stays within the statement. -/
theorem WithinStatement.nextOperand {failure : Option String} {st : ParserState}
    (h : WithinStatement text rest s.2.tokens)
    (hsign : (mnemonic, (Snes.operandState s).operands.length - 1) ∉ operandMatchTable →
      ∀ st' st'', operandAttempt (Snes.operandState s) = .signed st' →
        tryParseExpression parseExpression st' = some (true, st'') → atEnd st''.tokens = false)
    (hparse : parseNextOperand parseExpression mnemonic (Snes.operandState s) =
      some (failure, st)) :
    WithinStatement text rest st.tokens := by
  have start := h.operandState
  by_cases hmemri : (mnemonic, (Snes.operandState s).operands.length - 1) ∈ operandMatchTable
  · rw [parseNextOperand_of_memri hmemri] at hparse
    obtain ⟨-, rfl⟩ := Prod.mk.inj (Option.some.inj hparse)
    exact start.memri hforward hstops
  · rw [parseNextOperand_of_operand hmemri] at hparse
    obtain ⟨outcome, hoperand, heq⟩ := Option.map_eq_some_iff.mp hparse
    obtain ⟨-, rfl⟩ := Prod.mk.inj heq
    exact start.operand hforward hstops hoperand (hsign hmemri)

include hforward hstops in
/-- **A round that is followed by another one** stays within the statement. -/
theorem WithinStatement.round_inl {t : Bool × ParserState}
    (h : WithinStatement text rest s.2.tokens) (hstays : RoundStays parseExpression mnemonic rest s)
    (hround : parseInstructionRound parseExpression mnemonic s = .inl t) :
    WithinStatement text rest t.2.tokens := by
  rcases parseInstructionRound_cases parseExpression mnemonic s with
    ⟨-, heq⟩ | ⟨-, ⟨-, heq⟩ | ⟨st, hnext, heq⟩ | ⟨message, st, -, heq⟩⟩
  · cases heq.symm.trans hround
  · cases heq.symm.trans hround
  · cases heq.symm.trans hround
    exact h.nextOperand hforward hstops hstays.sign hnext
  · cases heq.symm.trans hround

include hforward hstops in
/-- **The last round** goes to the next statement. -/
theorem WithinStatement.round_inr {failed : Bool} {st : ParserState}
    (h : WithinStatement text rest s.2.tokens) (hstays : RoundStays parseExpression mnemonic rest s)
    (hround : parseInstructionRound parseExpression mnemonic s = .inr (some (failed, st))) :
    st.tokens = rest := by
  rcases parseInstructionRound_cases parseExpression mnemonic s with
    ⟨hend, heq⟩ | ⟨hend, ⟨-, heq⟩ | ⟨st', -, heq⟩ | ⟨message, st', hnext, heq⟩⟩
  · cases heq.symm.trans hround
    obtain ⟨first, ⟨tokens, operands, errors⟩⟩ := s
    rcases tokens with _ | ⟨tok, tokens⟩
    · cases hend
    · cases tok
      case endOfStatement => exact h.end_eq
      all_goals cases hend
  · cases heq.symm.trans hround
  · cases heq.symm.trans hround
  · cases heq.symm.trans hround
    have within := h.nextOperand hforward hstops hstays.sign hnext
    show Snes.skipError (Snes.eatToEndOfStatement st'.tokens) = rest
    rw [within.eatToEndOfStatement, hstays.next hend message st' hnext]

/-! ## Whole statements -/

/-- `ParseInstruction` eats exactly its own statement: it returns just behind the end of the
statement, and in every state that it comes to the end is still to be eaten, so that no operand is
made of it or of what comes after it. -/
def EatsOwnStatement (parseExpression : List AsmToken → ParsedExpression) (mnemonic : String)
    (text : String) (rest : List AsmToken) (st : ParserState) : Prop :=
  (∃ failed st', Returns (parseInstructionRound parseExpression mnemonic)
      (parseInstructionStart mnemonic st) (some (failed, st')) ∧ st'.tokens = rest) ∧
    ∀ s, Reaches (parseInstructionRound parseExpression mnemonic)
      (parseInstructionStart mnemonic st) s → .endOfStatement text :: rest <:+ s.2.tokens

include hforward hstops in
/-- Rounds that stay within the statement lead to states within the statement. -/
theorem WithinStatement.reaches {s t : Bool × ParserState}
    (h : WithinStatement text rest s.2.tokens)
    (hreached : Reaches (parseInstructionRound parseExpression mnemonic) s t)
    (hstays : ∀ u, Reaches (parseInstructionRound parseExpression mnemonic) s u →
      RoundStays parseExpression mnemonic rest u) : WithinStatement text rest t.2.tokens := by
  induction hreached with
  | refl => exact h
  | tail hu hround ih => exact ih.round_inl hforward hstops (hstays _ hu) hround

/-- At the end of a statement there is no comma to be eaten. -/
theorem getTok_operandState (h : s.2.getTok.isEndOfStatement = true) :
    (operandState s).getTok = s.2.getTok := by
  unfold operandState
  split_ifs
  · rfl
  · unfold ParserState.eatComma
    split_ifs with hcomma
    · rw [hcomma] at h
      cases h
    · rfl

include hforward hstops in
/-- A sign whose expression has failed at the end of the statement takes the loop out of the
statement. -/
theorem sign_stays_of_suffix (h : WithinStatement text rest s.2.tokens)
    (hnext : ∀ t, parseInstructionRound parseExpression mnemonic s = .inl t →
      .endOfStatement text :: rest <:+ t.2.tokens)
    (hmemri : (mnemonic, (operandState s).operands.length - 1) ∉ operandMatchTable)
    (st' st'' : ParserState) (hattempt : operandAttempt (operandState s) = .signed st')
    (hparse : tryParseExpression parseExpression st' = some (true, st'')) :
    atEnd st''.tokens = false := by
  by_contra hend
  have start := h.operandState
  obtain ⟨heq, hsign⟩ := getTok_of_signed hattempt
  have notEnd : s.2.getTok.isEndOfStatement = false := by
    by_contra hs
    have same := getTok_operandState (Bool.eq_true_of_not_eq_false hs)
    rw [← same] at hs
    rcases hsign with hsign | hsign
    · rw [hsign] at hs
      exact hs rfl
    · rw [hsign] at hs
      exact hs rfl
  have hround : parseInstructionRound parseExpression mnemonic s =
      .inl (false, pushToken st'') := by
    rw [parseInstructionRound_eq, notEnd, parseNextOperand_of_operand hmemri, parseOperand_eq,
      hattempt, OperandAttempt.parse, hparse]
    rfl
  have within : WithinStatement text rest st''.tokens := by
    rw [← heq] at start
    exact start.expression hforward hstops hparse
  have lexed : (pushToken st'').tokens = rest :=
    WithinStatement.lex_of_atEnd (show WithinStatement text rest (st''.push _).tokens from within)
      (Bool.eq_true_of_not_eq_false hend)
  have suffix := hnext _ hround
  rw [show (false, pushToken st'').2.tokens = rest from lexed] at suffix
  exact not_end_suffix suffix

include hforward hstops in
/-- **When `ParseInstruction` eats exactly its own statement**: where all rounds that it comes to
stay within the statement. -/
theorem eatsOwnStatement_iff (heats : EatsOnSuccess parseExpression) (mnemonic : String)
    (st : ParserState) (hwithin : WithinStatement text rest st.tokens) :
    EatsOwnStatement parseExpression mnemonic text rest st ↔
      ∀ s, Reaches (parseInstructionRound parseExpression mnemonic)
        (parseInstructionStart mnemonic st) s → RoundStays parseExpression mnemonic rest s := by
  have hstart : WithinStatement text rest (parseInstructionStart mnemonic st).2.tokens := hwithin
  constructor
  · rintro ⟨⟨failed, st', hreturns, hrest⟩, hsuffix⟩ s hreached
    have within : WithinStatement text rest s.2.tokens :=
      hstart.eat (advances_of_reaches hforward heats hreached).tokens (hsuffix s hreached)
    have hsign := sign_stays_of_suffix hforward hstops within
      fun t hround => hsuffix t (hreached.tail hround)
    refine ⟨?_, hsign, ?_⟩
    · by_contra hviolated
      cases hreturns.eq_of_last hreached (parseInstructionRound_eq_none_iff.mpr hviolated)
    · intro hend message st'' hnext
      have hround := parseInstructionRound_eq parseExpression mnemonic s
      rw [hend, hnext] at hround
      have last := hreturns.eq_of_last hreached hround
      cases last
      have parsed := within.nextOperand hforward hstops hsign hnext
      have eaten : Snes.skipError (Snes.eatToEndOfStatement st''.tokens) = rest := hrest
      rwa [parsed.eatToEndOfStatement] at eaten
  · intro hstays
    have done : ∀ t result, Reaches (parseInstructionRound parseExpression mnemonic)
        (parseInstructionStart mnemonic st) t →
        parseInstructionRound parseExpression mnemonic t = .inr result →
        ∃ failed st', result = some (failed, st') ∧ st'.tokens = rest := by
      intro t result hreached hround
      rcases result with _ | ⟨failed, st'⟩
      · exact absurd (hstays t hreached).assertions (parseInstructionRound_eq_none_iff.mp hround)
      · have within := hstart.reaches hforward hstops hreached hstays
        exact ⟨failed, st', rfl, within.round_inr hforward hstops (hstays t hreached) hround⟩
    obtain ⟨result, hreturns, failed, st', rfl, hrest⟩ :=
      exists_returns_parseInstruction hforward heats done
    refine ⟨⟨failed, st', hreturns, hrest⟩, fun s hreached => ?_⟩
    exact (hstart.reaches hforward hstops hreached hstays).suffix

end

/-! ## Sums -/

/-- An expression parser for sums of numbers. -/
def parseSum : List AsmToken → ParsedExpression
  | .plus :: tokens => parseSum tokens
  | .integer _ value :: .plus :: tokens =>
      ⟨(parseSum tokens).result.map fun e => .binary .add (.constant value) e,
        (parseSum tokens).errors, (parseSum tokens).tokens⟩
  | .integer _ value :: tokens => ⟨some (.constant value), [], tokens⟩
  | tokens => ⟨none, ["unknown token in expression"], tokens⟩

/-- It moves forward. -/
theorem movesForward_parseSum : MovesForward parseSum := by
  intro tokens
  fun_induction parseSum tokens with
  | case1 tokens ih => exact ih.trans (List.suffix_cons _ _)
  | case2 text value tokens ih => exact ih.trans ⟨[_, _], rfl⟩
  | case3 text value tokens _ => exact List.suffix_cons _ _
  | case4 tokens => exact List.suffix_rfl

/-- It eats what it parses. -/
theorem eatsOnSuccess_parseSum : EatsOnSuccess parseSum := by
  intro tokens
  fun_induction parseSum tokens with
  | case1 tokens ih =>
      intro e h
      exact (ih e h).trans (Nat.lt_succ_self _)
  | case2 text value tokens ih =>
      intro e h
      obtain ⟨e', h', -⟩ := Option.map_eq_some_iff.mp h
      have shorter := ih e' h'
      simp only [List.length_cons]
      omega
  | case3 text value tokens _ =>
      intro _ _
      exact Nat.lt_succ_self _
  | case4 tokens =>
      intro _ h
      cases h

/-- It stops at the end of a statement. -/
theorem stopsAtEnd_parseSum : StopsAtEnd parseSum := by
  intro text rest tokens
  fun_induction parseSum tokens with
  | case1 tokens ih => exact fun h => ih (h.tail rfl)
  | case2 _ value tokens ih => exact fun h => ih ((h.tail rfl).tail rfl)
  | case3 _ value tokens _ => exact fun h => (h.tail rfl).suffix
  | case4 tokens => exact fun h => h.suffix

/-- A number as the only operand. -/
theorem eatsOwnStatement_number :
    MovesForward parseSum ∧ StopsAtEnd parseSum ∧ EatsOnSuccess parseSum ∧
      WithinStatement "\n" [] [.integer "5" 5, .endOfStatement "\n"] ∧
      EatsOwnStatement parseSum "foo" "\n" [] ⟨[.integer "5" 5, .endOfStatement "\n"], [], []⟩ := by
  have within : WithinStatement "\n" [] [.integer "5" 5, .endOfStatement "\n"] :=
    ⟨[.integer "5" 5], rfl, by decide⟩
  refine ⟨movesForward_parseSum, stopsAtEnd_parseSum, eatsOnSuccess_parseSum, within, ?_⟩
  refine (eatsOwnStatement_iff movesForward_parseSum stopsAtEnd_parseSum eatsOnSuccess_parseSum
    "foo" _ within).mpr ?_
  intro s hreached
  rcases Relation.ReflTransGen.cases_head hreached with rfl | ⟨t, hround, hreached⟩
  · refine ⟨.inr (.inr ?_), ?_, fun _ _ _ _ => rfl⟩
    · rintro tokens ⟨⟩
      exact ⟨rfl, fun _ _ _ hcall => by cases hcall⟩
    · rintro - st' st'' ⟨⟩
  · cases hround
    rcases Relation.ReflTransGen.cases_head hreached with rfl | ⟨t, hround, -⟩
    · refine ⟨.inl rfl, ?_, fun _ _ _ _ => rfl⟩
      rintro - st' st'' ⟨⟩
    · cases hround

/-- `+5+` at the end of a line swallows the next line. -/
theorem not_eatsOwnStatement_sum :
    MovesForward parseSum ∧ StopsAtEnd parseSum ∧ EatsOnSuccess parseSum ∧
      ¬ EatsOwnStatement parseSum "foo" "\n" [.identifier "clc", .endOfStatement "\n"]
        ⟨[.plus, .integer "5" 5, .plus, .endOfStatement "\n", .identifier "clc",
          .endOfStatement "\n"], [], []⟩ := by
  refine ⟨movesForward_parseSum, stopsAtEnd_parseSum, eatsOnSuccess_parseSum, ?_⟩
  rintro ⟨-, hsuffix⟩
  have swallowed := hsuffix _ (Relation.ReflTransGen.single rfl)
  exact not_end_suffix swallowed

end Snes
