/-
# The Assembly Parser

`SNESAsmParser.cpp`: from the tokens of a statement to its operands, and from the
operands to an instruction, as the matcher that is generated from
`SNESInstrInfo.td` does it for the loads and stores.

The tokens that are still to be read are a list; when it is empty the current
token is the end of the file.  The generic expression parser is a parameter: it
may fail without reporting an error.  A violated assertion is `none`.
-/
import SnesBackend.CodeEmitter
import SnesBackend.SteppedLoop

namespace Snes

open SteppedLoop

/-! ## Tokens and operands -/

/-- `AsmToken`, by the kinds that the parser tells apart. -/
inductive AsmToken where
  | eof
  | endOfStatement (text : String)
  | identifier (text : String)
  | integer (text : String) (intVal : BitVec 64)
  | bigNum (text : String)
  | real (text : String)
  | dot | comma | plus | minus | colon | lParen | rParen
  | other (text : String)
  | error (text : String) (err : String)
deriving DecidableEq, Repr

/-- `getString`. -/
def AsmToken.getString : AsmToken → String
  | eof => ""
  | endOfStatement text | identifier text | integer text _ | bigNum text | real text
  | other text | error text _ => text
  | dot => "."
  | comma => ","
  | plus => "+"
  | minus => "-"
  | colon => ":"
  | lParen => "("
  | rParen => ")"

/-- `SNESOperand`. -/
inductive SNESOperand where
  | token (tok : String)
  | reg (r : Reg)
  | imm (e : MCExpr)
  | memri (r : Reg) (e : MCExpr)
deriving DecidableEq, Repr

/-- Lexing past the current token if it is an error of the lexer. -/
def skipError : List AsmToken → List AsmToken
  | .error _ _ :: rest => rest
  | tokens => tokens

/-- What the generic expression parser comes to: the expression if it succeeds, the errors that it
has reported, and the tokens that it leaves. -/
structure ParsedExpression where
  result : Option MCExpr
  errors : List String
  tokens : List AsmToken
deriving DecidableEq, Repr

/-- The lexer's tokens, the operands parsed so far, and the errors reported so far. -/
structure ParserState where
  tokens : List AsmToken
  operands : List SNESOperand
  errors : List String
deriving DecidableEq, Repr

namespace ParserState

/-- `getTok`. -/
def getTok (st : ParserState) : AsmToken :=
  st.tokens.headD .eof

/-- `peekTok`. -/
def peekTok (st : ParserState) : AsmToken :=
  st.tokens.tail.headD .eof

/-- `Error`: it supersedes an error of the lexer, which is lexed past. -/
def error (st : ParserState) (message : String) : ParserState :=
  { st with tokens := skipError st.tokens, errors := st.errors ++ [message] }

/-- An error of the lexer that is the current token is reported. -/
def reportError (st : ParserState) : ParserState :=
  match st.getTok with
  | .error _ err => st.error err
  | _ => st

/-- `Lex`: the token that it eats is the next one if an error had to be reported. -/
def lex (st : ParserState) : ParserState :=
  { st.reportError with tokens := st.reportError.tokens.tail }

/-- `Operands.push_back`. -/
def push (st : ParserState) (op : SNESOperand) : ParserState :=
  { st with operands := st.operands ++ [op] }

/-- The state that the generic expression parser leaves. -/
def after (st : ParserState) (parsed : ParsedExpression) : ParserState :=
  { st with tokens := parsed.tokens, errors := st.errors ++ parsed.errors }

/-- `eatComma`. -/
def eatComma (st : ParserState) : ParserState :=
  if st.getTok = .comma then st.lex else st

end ParserState

/-- `isNot(AsmToken::EndOfStatement)`, negated. -/
def AsmToken.isEndOfStatement : AsmToken → Bool
  | endOfStatement _ => true
  | _ => false

/-- `eatToEndOfStatement`: the tokens behind the next end of statement. -/
def eatToEndOfStatement : List AsmToken → List AsmToken
  | [] => []
  | .eof :: rest => .eof :: rest
  | tok :: rest => if tok.isEndOfStatement then rest else eatToEndOfStatement rest

/-! ## Registers -/

/-- The name of a register in `SNESRegisterInfo.td`. -/
def Reg.asmName : Reg → String
  | byte .AL => "AL"
  | byte .AH => "AH"
  | byte .XL => "XL"
  | byte .XH => "XH"
  | byte .YL => "YL"
  | byte .YH => "YH"
  | word .A => "A"
  | word .X => "X"
  | word .Y => "Y"
  | DB => "DB"
  | P => "P"
  | PB => "PB"
  | SP => "SP"
  | DP => "DP"
  | PC => "PC"

/-- The registers of `SNESRegisterInfo.td`. -/
def allRegs : List Reg :=
  [.AL, .AH, .XL, .XH, .YL, .YH, .A, .X, .Y, .DB, .P, .PB, .SP, .DP, .PC]

/-- `MatchRegisterName`; no register has alternative names. -/
def matchRegisterName (name : String) : Option Reg :=
  allRegs.find? fun r => r.asmName == name

/-- `StringRef::lower`. -/
def lower (s : String) : String :=
  String.ofList (s.toList.map Char.toLower)

/-- `StringRef::upper`. -/
def upper (s : String) : String :=
  String.ofList (s.toList.map Char.toUpper)

/-- `parseRegisterName`: the name as it is, in lower case, in upper case. -/
def parseRegisterName (name : String) : Option Reg :=
  ((matchRegisterName name).or (matchRegisterName (lower name))).or
    (matchRegisterName (upper name))

/-- `toDREG`: the main register of a low half. -/
def toDREG : Reg → Option Reg
  | .byte .AL => some .A
  | .byte .XL => some .X
  | .byte .YL => some .Y
  | _ => none

/-- `parseRegister`: a register pair, whose last token is not eaten, or a register, whose token is
not eaten. -/
def parseRegister : List AsmToken → Option Reg × List AsmToken
  | .identifier _ :: .colon :: .identifier low :: rest =>
      ((parseRegisterName low).bind toDREG, .identifier low :: rest)
  | .identifier _ :: .colon :: rest => (none, rest)
  | .identifier name :: rest => (parseRegisterName name, .identifier name :: rest)
  | tokens => (none, tokens)

/-! ## Operands -/

/-- `getKindByName`. -/
def getKindByName (name : String) : Option VariantKind :=
  [("lo8", .lo8), ("hi8", .hi8), ("hh8", .hh8), ("hlo8", .hh8), ("hhi8", .hhi8),
    ("pm_lo8", .pmLo8), ("pm_hi8", .pmHi8), ("pm_hh8", VariantKind.pmHh8)].lookup name

/-- `tryParseRegisterOperand`; like the source's parsers it returns whether it failed. -/
def tryParseRegisterOperand (st : ParserState) : Bool × ParserState :=
  match parseRegister st.tokens with
  | (none, tokens) => (true, { st with tokens := tokens })
  | (some r, tokens) => (false, ({ st with tokens := tokens }.push (.reg r)).lex)

section

variable (parseExpression : List AsmToken → ParsedExpression)

/-- The sign before a modifier, and the tokens behind it. -/
def parseModifierSign : List AsmToken → Option (Bool × List AsmToken)
  | sign :: .identifier name :: .lParen :: rest =>
      if sign = .minus then
        some (true, .identifier name :: .lParen :: rest)
      else if sign = .plus then
        some (false, .identifier name :: .lParen :: rest)
      else
        none
  | tokens => some (false, tokens)

/-- `tryParseRelocExpression`. -/
def tryParseRelocExpression (st : ParserState) : Option (Bool × ParserState) :=
  (parseModifierSign st.tokens).bind fun (isNegated, tokens) =>
    let st := { st with tokens := tokens }
    match tokens with
    | .identifier name :: .lParen :: inner =>
        match getKindByName name with
        | none => some (true, st.error "unknown modifier")
        | some kind =>
            match parseExpression inner with
            | ⟨none, errors, rest⟩ => some (true, st.after ⟨none, errors, rest⟩)
            | ⟨some e, errors, .rParen :: rest⟩ =>
                some (false,
                  (st.after ⟨some e, errors, rest⟩).push (.imm (.target kind isNegated e)))
            | ⟨some _, _, _⟩ => none
    | _ => some (true, st)

/-- A sign that stands before an identifier. -/
def ParserState.signsIdentifier (st : ParserState) : Bool :=
  match st.tokens with
  | .plus :: .identifier _ :: _ | .minus :: .identifier _ :: _ => true
  | _ => false

/-- `tryParseExpression`. -/
def tryParseExpression (st : ParserState) : Option (Bool × ParserState) :=
  (tryParseRelocExpression parseExpression st).map fun (failed, st) =>
    if failed then
      if st.signsIdentifier then
        -- it should be split into two separate tokens
        (true, st)
      else
        match (parseExpression st.tokens).result with
        | none => (true, st.after (parseExpression st.tokens))
        | some e => (false, (st.after (parseExpression st.tokens)).push (.imm e))
    else
      (false, st)

/-- A token that a sign may belong to. -/
def AsmToken.takesSign : AsmToken → Bool
  | integer _ _ | bigNum _ | identifier _ | real _ => true
  | _ => false

/-- The current token as an operand of its own. -/
def pushToken (st : ParserState) : ParserState :=
  (st.push (.token st.getTok.getString)).lex

/-- `parseOperand`. -/
def parseOperand (st : ParserState) : Option (Bool × ParserState) :=
  match st.getTok with
  | .identifier _ =>
      match tryParseRegisterOperand st with
      | (false, st) => some (false, st)
      | (true, st) => tryParseExpression parseExpression st
  | .lParen | .integer _ _ | .dot => tryParseExpression parseExpression st
  | .plus | .minus =>
      if st.peekTok.takesSign then
        (tryParseExpression parseExpression st).map fun (failed, st) =>
          if failed then (false, pushToken st) else (false, st)
      else
        some (false, pushToken st)
  | _ => some (true, st.error "unexpected token in operand")

/-- `OperandMatchResultTy`. -/
inductive OperandMatchResultTy where
  | success | noMatch | parseFail
deriving DecidableEq, Repr

/-- `parseMemriOperand`. -/
def parseMemriOperand (st : ParserState) : OperandMatchResultTy × ParserState :=
  match parseRegister st.tokens with
  | (none, tokens) => (.parseFail, { st with tokens := tokens })
  | (some r, tokens) =>
      match (parseExpression tokens.tail).result with
      | none => (.parseFail, st.after (parseExpression tokens.tail))
      | some e => (.success, (st.after (parseExpression tokens.tail)).push (.memri r e))

/-- The operands with a parser of their own: mnemonic and operand number. -/
def operandMatchTable : List (String × ℕ) :=
  [("ldd", 1), ("std", 0)]

/-- `MatchOperandParserImpl`. -/
def matchOperandParserImpl (mnemonic : String) (st : ParserState) :
    OperandMatchResultTy × ParserState :=
  if (mnemonic, st.operands.length - 1) ∈ operandMatchTable then
    parseMemriOperand parseExpression st
  else
    (.noMatch, st)

/-! ## Statements -/

/-- One round of the loop of `ParseInstruction`; the flag says whether it is the first one.  The
result is whether parsing failed, and the state. -/
def parseInstructionRound (mnemonic : String) :
    Bool × ParserState → (Bool × ParserState) ⊕ Option (Bool × ParserState)
  | (first, st) =>
      if st.getTok.isEndOfStatement then
        .inr (some (false, st.lex))
      else
        let st := if first then st else st.eatComma
        match matchOperandParserImpl parseExpression mnemonic st with
        | (.success, st) => .inl (false, st)
        | (.parseFail, st) =>
            .inr (some (true, { st with tokens := eatToEndOfStatement st.tokens }.error
              "failed to parse register and immediate pair"))
        | (.noMatch, st) =>
            match parseOperand parseExpression st with
            | none => .inr none
            | some (false, st) => .inl (false, st)
            | some (true, st) =>
                .inr (some (true, { st with tokens := eatToEndOfStatement st.tokens }.error
                  "unexpected token in argument list"))

/-- The state in which the loop of `ParseInstruction` starts. -/
def parseInstructionStart (mnemonic : String) (st : ParserState) : Bool × ParserState :=
  (true, st.push (.token mnemonic))

/-- `ParseInstruction`, for so many rounds of its loop at most. -/
def parseInstruction (rounds : ℕ) (mnemonic : String) (st : ParserState) :
    Option (Option (Bool × ParserState)) :=
  iterate (parseInstructionRound parseExpression mnemonic) rounds
    (parseInstructionStart mnemonic st)

end

/-! ## Matching -/

/-- `MatchClassKind`: the classes of formal operands. -/
inductive MatchClassKind where
  | invalidMatchClass
  | token (text : String)
  | regClass (rc : RegClass)
  | imm | memri | reg
deriving DecidableEq, Repr

/-- `isSubclass(Kind, MCK_MainRegs)`. -/
def MatchClassKind.isSubclassOfMainRegs : MatchClassKind → Bool
  | regClass rc => rc.members.all fun r => r ∈ RegClass.mainRegs.members
  | _ => false

/-- `validateOperandClass`. -/
def validateOperandClass : SNESOperand → MatchClassKind → Bool
  | .token tok, .token text => tok == text
  | .reg _, .reg => true
  | .imm _, .imm => true
  | .memri _ _, .memri => true
  | .reg r, .regClass rc => r ∈ rc.members
  | _, _ => false

/-- `validateTargetOperandClass`: whether the operand is accepted, and what it has become. -/
def validateTargetOperandClass (op : SNESOperand) (expected : MatchClassKind) :
    Bool × SNESOperand :=
  -- bare numbers are register numbers
  let named : Option Reg := match op with
    | .imm (.constant value) => matchRegisterName ("r" ++ toString value.toInt)
    | _ => none
  let op := (named.map SNESOperand.reg).getD op
  if named.isSome && validateOperandClass op expected then
    (true, op)
  else
    match op with
    | .reg r =>
        if expected.isSubclassOfMainRegs then
          match toDREG r with
          | some dreg => (validateOperandClass (.reg dreg) expected, .reg dreg)
          | none => (false, op)
        else
          (false, op)
    | _ => (false, op)

/-- The check of one operand by the matcher. -/
def validateActual (op : SNESOperand) (formal : MatchClassKind) : Bool × SNESOperand :=
  if validateOperandClass op formal then
    (true, op)
  else
    validateTargetOperandClass op formal

/-- The operands of a candidate instruction: whether they match, and what they have become. -/
def validateOperands : List SNESOperand → List MatchClassKind → Bool × List SNESOperand
  | [], formals => (formals.isEmpty, [])
  | op :: ops, formals =>
      match validateActual op (formals.headD .invalidMatchClass) with
      | (false, op) => (false, op :: ops)
      | (true, op) => (validateOperands ops formals.tail).map id (op :: ·)

/-- Where an operand of the instruction comes from. -/
inductive ResOperand where
  | rendered (actual : ℕ)
  | tied (operand : ℕ)
  | imm (value : BitVec 64)
deriving DecidableEq, Repr

/-- An entry of the table of the matcher. -/
structure MatchEntry where
  mnemonic : String
  opcode : Opcode
  classes : List MatchClassKind
  results : List ResOperand
deriving DecidableEq, Repr

/-- The loads and stores of the match table, in its order.  The offset of a store that moves its
pointer does not stand in the assembly string. -/
def matchTable : List MatchEntry :=
  [⟨"ld", .LDRdPtr, [.regClass .mainRegs, .reg], [.rendered 0, .rendered 1]⟩,
    ⟨"ld", .LDRdPtrPd, [.regClass .mainRegs, .token "-", .reg],
      [.rendered 0, .rendered 2, .tied 1]⟩,
    ⟨"ld", .LDRdPtrPi, [.regClass .mainRegs, .reg, .token "+"],
      [.rendered 0, .rendered 1, .tied 1]⟩,
    ⟨"ldd", .LDDRdPtrQ, [.regClass .mainRegs, .memri], [.rendered 0, .rendered 1]⟩,
    ⟨"st", .STPtrRr, [.reg, .regClass .mainRegs], [.rendered 0, .rendered 1]⟩,
    ⟨"st", .STPtrPdRr, [.token "-", .reg, .regClass .mainRegs],
      [.rendered 1, .tied 0, .rendered 2, .imm 0]⟩,
    ⟨"st", .STPtrPiRr, [.reg, .token "+", .regClass .mainRegs],
      [.rendered 0, .tied 0, .rendered 2, .imm 0]⟩,
    ⟨"std", .STDPtrQRr, [.memri, .regClass .mainRegs], [.rendered 0, .rendered 1]⟩]

/-- `addExpr`. -/
def addExpr : MCExpr → MCOperand
  | .constant value => .imm value
  | e => .expr e

/-- `addRegOperands`, `addImmOperands` and `addMemriOperands`. -/
def SNESOperand.render : SNESOperand → List MCOperand
  | token _ => []
  | reg r => [.reg r]
  | imm e => [addExpr e]
  | memri r e => [.reg r, addExpr e]

/-- `convertToMCInst`. -/
def convertToMCInst (operands : List SNESOperand) (results : List ResOperand) : List MCOperand :=
  results.foldl (fun inst result =>
    inst ++ match result with
      | .rendered actual => ((operands[actual]?).map SNESOperand.render).getD []
      | .tied operand => (inst[operand]?).toList
      | .imm value => [.imm value]) []

/-- The search of `MatchInstructionImpl`; what a candidate has made of the operands is what the next
one sees. -/
def matchEntries : List MatchEntry → List SNESOperand → Option MCInst
  | [], _ => none
  | entry :: entries, operands =>
      match validateOperands operands entry.classes with
      | (true, operands) => some ⟨entry.opcode, convertToMCInst operands entry.results⟩
      | (false, operands) => matchEntries entries operands

/-- `MatchInstructionImpl`. -/
def matchInstructionImpl : List SNESOperand → Option MCInst
  | .token mnemonic :: operands =>
      matchEntries (matchTable.filter fun entry => entry.mnemonic == mnemonic) operands
  | _ => none

end Snes
