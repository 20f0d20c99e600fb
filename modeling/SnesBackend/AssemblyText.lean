/-
# The Text of Loads and Stores

`SNESInstPrinter.cpp` for the indirect loads and stores, the tokens of the text
it prints, and what the assembly parser makes of them.  The printer prints every
16-bit register as its low half; of the operands of a load or a store the parser
turns only the data register back.
-/
import SnesBackend.AsmParser

namespace Snes

open SteppedLoop

/-! ## Printing -/

/-- `getPrettyRegisterName`: the low half of a register that has one. -/
def getPrettyRegisterName : Reg → String
  | .word r => Reg.asmName (.byte r.subLo)
  | r => r.asmName

/-- `printOperand`; expressions are left out. -/
def printOperand : MCOperand → Option String
  | .reg r => some (getPrettyRegisterName r)
  | .imm value => some (toString value.toInt)
  | .expr _ => none

/-- `printMemri`: a register, and an offset whose sign is always there. -/
def printMemri : MCOperand → MCOperand → Option String
  | .reg r, .imm offset =>
      some (getPrettyRegisterName r ++
        ((if 0 ≤ offset.toInt then "+" else "") ++ toString offset.toInt))
  | _, _ => none

/-- `printInst`, for the indirect loads and stores. -/
def printInst (mi : MCInst) : Option String :=
  let operand (n : ℕ) : Option String := (mi.operands[n]?).bind printOperand
  let memri (n : ℕ) : Option String :=
    (mi.operands[n]?).bind fun r => (mi.operands[n + 1]?).bind (printMemri r)
  match mi.opcode with
  | .LDRdPtr =>
      (operand 0).bind fun reg => (operand 1).map fun ptr => "\tld\t" ++ reg ++ ", " ++ ptr
  | .LDRdPtrPi =>
      (operand 0).bind fun reg => (operand 1).map fun ptr => "\tld\t" ++ reg ++ ", " ++ ptr ++ "+"
  | .LDRdPtrPd =>
      (operand 0).bind fun reg => (operand 1).map fun ptr => "\tld\t" ++ reg ++ ", -" ++ ptr
  | .LDDRdPtrQ =>
      (operand 0).bind fun reg => (memri 1).map fun ptr => "\tldd\t" ++ reg ++ ", " ++ ptr
  | .STPtrRr =>
      (operand 0).bind fun ptr => (operand 1).map fun reg => "\tst\t" ++ ptr ++ ", " ++ reg
  | .STPtrPiRr =>
      (operand 1).bind fun ptr => (operand 2).map fun reg => "\tst\t" ++ ptr ++ "+, " ++ reg
  | .STPtrPdRr =>
      (operand 1).bind fun ptr => (operand 2).map fun reg => "\tst\t-" ++ ptr ++ ", " ++ reg
  | .STDPtrQRr =>
      (memri 0).bind fun ptr => (operand 2).map fun reg => "\tstd\t" ++ ptr ++ ", " ++ reg
  | _ => none

/-! ## Tokens of a line

`AsmLexer.cpp`, for lines of identifiers, decimal numbers and punctuation.
-/

/-- What the lexer is in the middle of. -/
inductive LexState where
  | blank
  | identifier (text : List Char)
  | number (digits : List Char)
deriving DecidableEq, Repr

/-- `IsIdentifierChar`. -/
def isIdentifierChar (c : Char) : Bool :=
  c.isAlphanum || c == '_' || c == '$' || c == '.' || c == '?'

/-- `LexDigit` for a decimal number, which a zero does not start unless it is the whole number. -/
def lexDigit (digits : List Char) : Option AsmToken :=
  if digits.head? = some '0' ∧ digits ≠ ['0'] then
    none
  else
    let value := Nat.ofDigitChars 10 digits 0
    if value < 2 ^ 64 then
      some (.integer (String.ofList digits) (BitVec.ofNat 64 value))
    else
      some (.bigNum (String.ofList digits))

/-- The token that ends here. -/
def LexState.finish : LexState → Option (List AsmToken)
  | blank => some []
  | identifier text => some [.identifier (String.ofList text)]
  | number digits => (lexDigit digits).map ([·])

/-- Blanks and punctuation. -/
def lexPunctuation : Char → Option (List AsmToken)
  | ' ' | '\t' => some []
  | ',' => some [.comma]
  | '+' => some [.plus]
  | '-' => some [.minus]
  | ':' => some [.colon]
  | '(' => some [.lParen]
  | ')' => some [.rParen]
  | _ => none

/-- One character: the tokens that it completes, and the state behind it. -/
def LexState.next (s : LexState) (c : Char) : Option (List AsmToken × LexState) :=
  if isIdentifierChar c then
    match s with
    | blank => some ([], if c.isDigit then number [c] else identifier [c])
    | identifier text => some ([], identifier (text ++ [c]))
    | number digits => if c.isDigit then some ([], number (digits ++ [c])) else none
  else
    s.finish.bind fun before => (lexPunctuation c).map fun here => (before ++ here, blank)

/-- The characters of a text one after the other. -/
def scan : LexState → List Char → Option (List AsmToken × LexState)
  | s, [] => some ([], s)
  | s, c :: cs =>
      (s.next c).bind fun (before, t) => (scan t cs).map fun (after, u) => (before ++ after, u)

/-- The tokens of a line. -/
def lexLine (text : String) : Option (List AsmToken) :=
  (scan .blank text.toList).bind fun (before, s) =>
    s.finish.map fun last => before ++ last ++ [.endOfStatement "\n"]

/-- A text is read in parts. -/
theorem scan_append (s : LexState) (xs ys : List Char) :
    scan s (xs ++ ys) =
      (scan s xs).bind fun (before, t) =>
        (scan t ys).map fun (after, u) => (before ++ after, u) := by
  induction xs generalizing s with
  | nil => simp [scan]
  | cons c cs ih =>
      rw [List.cons_append, scan, scan]
      cases s.next c with
      | none => rfl
      | some r =>
          obtain ⟨before, t⟩ := r
          simp only [Option.bind_some, ih]
          cases scan t cs with
          | none => rfl
          | some q =>
              simp only [Option.bind_some, Option.map_some, Option.map_map]
              congr 1
              funext r
              simp

/-- Digits continue a number. -/
theorem scan_number {ds : List Char} (h : ∀ c ∈ ds, c.isDigit = true) (digits : List Char) :
    scan (.number digits) ds = some ([], .number (digits ++ ds)) := by
  induction ds generalizing digits with
  | nil => simp [scan]
  | cons c cs ih =>
      have hc : c.isDigit = true := h c List.mem_cons_self
      have hid : isIdentifierChar c = true := by simp [isIdentifierChar, Char.isAlphanum, hc]
      rw [scan, LexState.next, if_pos hid]
      simp [hc, ih (fun d hd => h d (List.mem_cons_of_mem c hd))]

/-- Digits are a number. -/
theorem scan_digits {ds : List Char} (h : ∀ c ∈ ds, c.isDigit = true) (hne : ds ≠ []) :
    scan .blank ds = some ([], .number ds) := by
  obtain ⟨c, cs, rfl⟩ := List.exists_cons_of_ne_nil hne
  have hc : c.isDigit = true := h c List.mem_cons_self
  have hid : isIdentifierChar c = true := by simp [isIdentifierChar, Char.isAlphanum, hc]
  rw [scan, LexState.next, if_pos hid]
  simp [hc, scan_number (fun d hd => h d (List.mem_cons_of_mem c hd))]

/-- A comma ends a token. -/
theorem scan_comma (s : LexState) (cs : List Char) :
    scan s (',' :: cs) =
      s.finish.bind fun before =>
        (scan .blank cs).map fun (after, t) => (before ++ .comma :: after, t) := by
  rw [scan, show s.next ',' = s.finish.bind fun before => some (before ++ [.comma], .blank) from rfl]
  cases s.finish with
  | none => rfl
  | some before => simp

/-- The digits of a positive number do not start with a zero. -/
theorem head_toDigits_ne_zero {n : ℕ} (h : n ≠ 0) : (Nat.toDigits 10 n).head? ≠ some '0' := by
  induction n using Nat.strong_induction_on with
  | _ n ih =>
      rcases Nat.lt_or_ge n 10 with hlt | hge
      · rw [Nat.toDigits_of_lt_base hlt]
        interval_cases n <;> first | exact absurd rfl h | decide
      · rw [Nat.toDigits_of_base_le (by decide) hge, List.head?_append_of_ne_nil]
        · exact ih (n / 10) (by omega) (by omega)
        · exact Nat.toDigits_ne_nil

/-- The digits of a number lex as that number. -/
theorem lexDigit_toDigits {n : ℕ} (h : n < 2 ^ 64) :
    lexDigit (Nat.toDigits 10 n) =
      some (.integer (String.ofList (Nat.toDigits 10 n)) (BitVec.ofNat 64 n)) := by
  have hzero : ¬ ((Nat.toDigits 10 n).head? = some '0' ∧ Nat.toDigits 10 n ≠ ['0']) := by
    rintro ⟨hhead, hne⟩
    rcases eq_or_ne n 0 with rfl | hn
    · exact hne (Nat.toDigits_zero 10)
    · exact head_toDigits_ne_zero hn hhead
  rw [lexDigit, if_neg hzero]
  simp only [Nat.ofDigitChars_ten_toDigits, if_pos h]

/-! ## Loads and stores -/

/-- A pointer register that `LDSTPtrReg` admits. -/
structure PtrReg where
  reg : WordReg
  isIndex : Reg.word reg ∈ RegClass.indexRegs.members

/-- The indirect loads and stores, with the registers that their operand classes admit. -/
inductive LoadStore where
  | ld (reg : WordReg) (ptrreg : PtrReg)
  | ldPi (reg : WordReg) (ptrreg : PtrReg)
  | ldPd (reg : WordReg) (ptrreg : PtrReg)
  | ldd (reg base : WordReg) (q : BitVec 64)
  | st (ptrreg : PtrReg) (reg : WordReg)
  | stPi (ptrreg : PtrReg) (reg : WordReg) (offs : BitVec 64)
  | stPd (ptrreg : PtrReg) (reg : WordReg) (offs : BitVec 64)
  | std (base : WordReg) (q : BitVec 64) (reg : WordReg)

namespace LoadStore

/-- The instruction; a pointer that is moved is an output, too. -/
def mcInst : LoadStore → MCInst
  | ld reg ptr => ⟨.LDRdPtr, [.reg (.word reg), .reg (.word ptr.reg)]⟩
  | ldPi reg ptr =>
      ⟨.LDRdPtrPi, [.reg (.word reg), .reg (.word ptr.reg), .reg (.word ptr.reg)]⟩
  | ldPd reg ptr =>
      ⟨.LDRdPtrPd, [.reg (.word reg), .reg (.word ptr.reg), .reg (.word ptr.reg)]⟩
  | ldd reg base q => ⟨.LDDRdPtrQ, [.reg (.word reg), .reg (.word base), .imm q]⟩
  | st ptr reg => ⟨.STPtrRr, [.reg (.word ptr.reg), .reg (.word reg)]⟩
  | stPi ptr reg offs =>
      ⟨.STPtrPiRr, [.reg (.word ptr.reg), .reg (.word ptr.reg), .reg (.word reg), .imm offs]⟩
  | stPd ptr reg offs =>
      ⟨.STPtrPdRr, [.reg (.word ptr.reg), .reg (.word ptr.reg), .reg (.word reg), .imm offs]⟩
  | std base q reg => ⟨.STDPtrQRr, [.reg (.word base), .imm q, .reg (.word reg)]⟩

/-- What the parser makes of it: the pointer is its low half, and the offset of a store that moves
its pointer is lost. -/
def reparsed : LoadStore → MCInst
  | ld reg ptr => ⟨.LDRdPtr, [.reg (.word reg), .reg (.byte ptr.reg.subLo)]⟩
  | ldPi reg ptr =>
      ⟨.LDRdPtrPi,
        [.reg (.word reg), .reg (.byte ptr.reg.subLo), .reg (.byte ptr.reg.subLo)]⟩
  | ldPd reg ptr =>
      ⟨.LDRdPtrPd,
        [.reg (.word reg), .reg (.byte ptr.reg.subLo), .reg (.byte ptr.reg.subLo)]⟩
  | ldd reg base q => ⟨.LDDRdPtrQ, [.reg (.word reg), .reg (.byte base.subLo), .imm q]⟩
  | st ptr reg => ⟨.STPtrRr, [.reg (.byte ptr.reg.subLo), .reg (.word reg)]⟩
  | stPi ptr reg _ =>
      ⟨.STPtrPiRr,
        [.reg (.byte ptr.reg.subLo), .reg (.byte ptr.reg.subLo), .reg (.word reg), .imm 0]⟩
  | stPd ptr reg _ =>
      ⟨.STPtrPdRr,
        [.reg (.byte ptr.reg.subLo), .reg (.byte ptr.reg.subLo), .reg (.word reg), .imm 0]⟩
  | std base q reg => ⟨.STDPtrQRr, [.reg (.byte base.subLo), .imm q, .reg (.word reg)]⟩

end LoadStore

/-! ## Parsing what was printed -/

section

variable (parseExpression : List AsmToken → ParsedExpression)

/-- An instruction that the assembler makes of a line. -/
def AssemblesTo (text : String) (mi : MCInst) : Prop :=
  ∃ name tokens st, lexLine text = some (.identifier name :: tokens) ∧
    Returns (parseInstructionRound parseExpression (lower name))
      (parseInstructionStart (lower name) ⟨tokens, [], []⟩) (some (false, st)) ∧
    matchInstructionImpl st.operands = some mi

/-- Parsing the text of an instruction yields the instruction. -/
def RoundTrips (mi : MCInst) : Prop :=
  ∃ text, printInst mi = some text ∧ AssemblesTo parseExpression text mi

/-- The generic parser reads a signed number at the end of an operand as that number. -/
def ReadsSignedNumbers : Prop :=
  ∀ text value next rest, next = .comma ∨ next.isEndOfStatement = true →
    parseExpression (.plus :: .integer text value :: next :: rest) =
      ⟨some (.constant value), [], next :: rest⟩ ∧
    parseExpression (.minus :: .integer text value :: next :: rest) =
      ⟨some (.constant (-value)), [], next :: rest⟩

end

section

variable {parseExpression : List AsmToken → ParsedExpression}

/-! ### Displacements -/

/-- The digits of a displacement. -/
def offsetDigits (q : BitVec 64) : List Char :=
  Nat.toDigits 10 q.toInt.natAbs

/-- The tokens of a displacement. -/
def offsetTokens (q : BitVec 64) : List AsmToken :=
  [if 0 ≤ q.toInt then .plus else .minus,
    .integer (String.ofList (offsetDigits q)) (BitVec.ofNat 64 q.toInt.natAbs)]

/-- The characters of a displacement. -/
theorem toList_offset (q : BitVec 64) :
    ((if 0 ≤ q.toInt then "+" else "") ++ toString q.toInt).toList =
      (if 0 ≤ q.toInt then '+' else '-') :: offsetDigits q := by
  rw [offsetDigits]
  cases q.toInt with
  | ofNat n => simp [toString, Int.repr]
  | negSucc n => simp [toString, Int.repr]

/-- A displacement behind a name. -/
theorem scan_offset (name : List Char) (q : BitVec 64) :
    scan (.identifier name) ((if 0 ≤ q.toInt then '+' else '-') :: offsetDigits q) =
      some ([.identifier (String.ofList name), if 0 ≤ q.toInt then .plus else .minus],
        .number (offsetDigits q)) := by
  have hdigits : ∀ c ∈ offsetDigits q, c.isDigit = true := fun c hc =>
    Nat.isDigit_of_mem_toDigits (by decide) (by decide) hc
  have hrest := scan_digits hdigits Nat.toDigits_ne_nil
  split
  · rw [scan, show LexState.next (.identifier name) '+' =
      some ([.identifier (String.ofList name), .plus], .blank) from rfl]
    simp [hrest]
  · rw [scan, show LexState.next (.identifier name) '-' =
      some ([.identifier (String.ofList name), .minus], .blank) from rfl]
    simp [hrest]

/-- The number of a displacement. -/
theorem lexDigit_offsetDigits (q : BitVec 64) :
    lexDigit (offsetDigits q) =
      some (.integer (String.ofList (offsetDigits q)) (BitVec.ofNat 64 q.toInt.natAbs)) := by
  apply lexDigit_toDigits
  have hlo := BitVec.le_toInt q
  have hhi := BitVec.toInt_lt (x := q)
  omega

/-- The generic parser reads a displacement as what it is. -/
theorem ReadsSignedNumbers.offset (h : ReadsSignedNumbers parseExpression) (q : BitVec 64)
    {next : AsmToken} (hnext : next = .comma ∨ next.isEndOfStatement = true)
    (rest : List AsmToken) :
    parseExpression (offsetTokens q ++ next :: rest) = ⟨some (.constant q), [], next :: rest⟩ := by
  obtain ⟨hplus, hminus⟩ := h (String.ofList (offsetDigits q))
    (BitVec.ofNat 64 q.toInt.natAbs) next rest hnext
  rw [offsetTokens]
  split
  · case isTrue hq =>
      have hvalue : BitVec.ofNat 64 q.toInt.natAbs = q := by
        rw [← BitVec.ofInt_natCast, Int.natAbs_of_nonneg hq, BitVec.ofInt_toInt]
      rw [hvalue] at hplus
      exact hvalue.symm ▸ hplus
  · case isFalse hq =>
      have hvalue : -BitVec.ofNat 64 q.toInt.natAbs = q := by
        rw [← BitVec.ofInt_natCast, Int.ofNat_natAbs_of_nonpos (by omega), BitVec.ofInt_neg,
          BitVec.ofInt_toInt, neg_neg]
      rw [hvalue] at hminus
      exact hminus

/-- The name that is printed for a main register, as a token. -/
def nameToken (r : WordReg) : AsmToken :=
  .identifier (getPrettyRegisterName (.word r))

/-! ### Lines -/

/-- A line has one meaning at most. -/
theorem AssemblesTo.unique {text : String} {mi mi' : MCInst}
    (h : AssemblesTo parseExpression text mi) (h' : AssemblesTo parseExpression text mi') :
    mi = mi' := by
  obtain ⟨name, tokens, st, hlex, hparse, hmatch⟩ := h
  obtain ⟨name', tokens', st', hlex', hparse', hmatch'⟩ := h'
  obtain ⟨rfl, rfl⟩ : name = name' ∧ tokens = tokens' := by
    simpa using hlex.symm.trans hlex'
  obtain rfl : st = st' := by
    simpa using hparse.unique hparse'
  exact Option.some.inj (hmatch.symm.trans hmatch')

/-- A register in front of a displacement is a register. -/
theorem parseRegister_offset (r : WordReg) (q : BitVec 64) (rest : List AsmToken) :
    parseRegister (nameToken r :: (offsetTokens q ++ rest)) =
      (some (.byte r.subLo),
        nameToken r :: (offsetTokens q ++ rest)) := by
  have hname : parseRegisterName (getPrettyRegisterName (.word r)) = some (.byte r.subLo) := by
    cases r <;> rfl
  rw [offsetTokens]
  split <;> simp [parseRegister, nameToken, hname]

/-- A displacement operand, as it is parsed from its text. -/
theorem parseMemriOperand_offset (h : ReadsSignedNumbers parseExpression) (r : WordReg)
    (q : BitVec 64) {next : AsmToken} (hnext : next = .comma ∨ next.isEndOfStatement = true)
    (rest : List AsmToken) (operands : List SNESOperand) :
    parseMemriOperand parseExpression
        ⟨nameToken r :: (offsetTokens q ++ next :: rest),
          operands, []⟩ =
      (.success, ⟨next :: rest, operands ++ [.memri (.byte r.subLo) (.constant q)], []⟩) := by
  rw [parseMemriOperand, parseRegister_offset]
  simp [h.offset q hnext rest, ParserState.push, ParserState.after]

/-- The tokens of a load with displacement. -/
theorem lexLine_ldd (reg base : WordReg) (q : BitVec 64) :
    lexLine ("\tldd\t" ++ getPrettyRegisterName (.word reg) ++ ", " ++
        (getPrettyRegisterName (.word base) ++
          ((if 0 ≤ q.toInt then "+" else "") ++ toString q.toInt))) =
      some (.identifier "ldd" :: nameToken reg :: .comma ::
        nameToken base ::
        (offsetTokens q ++ [.endOfStatement "\n"])) := by
  have hpre : scan .blank ("\tldd\t" ++ getPrettyRegisterName (.word reg) ++ ", " ++
      getPrettyRegisterName (.word base)).toList =
      some ([.identifier "ldd", nameToken reg, .comma],
        .identifier (getPrettyRegisterName (.word base)).toList) := by
    cases reg <;> cases base <;> rfl
  rw [lexLine, ← String.append_assoc, String.toList_append, toList_offset, scan_append, hpre]
  simp [scan_offset, LexState.finish, lexDigit_offsetDigits, offsetTokens, nameToken]

/-- The tokens of a store with displacement. -/
theorem lexLine_std (reg base : WordReg) (q : BitVec 64) :
    lexLine ("\tstd\t" ++ (getPrettyRegisterName (.word base) ++
          ((if 0 ≤ q.toInt then "+" else "") ++ toString q.toInt)) ++ ", " ++
        getPrettyRegisterName (.word reg)) =
      some (.identifier "std" :: nameToken base ::
        (offsetTokens q ++ [.comma, nameToken reg,
          .endOfStatement "\n"])) := by
  have hpre : scan .blank ("\tstd\t" ++ getPrettyRegisterName (.word base)).toList =
      some ([.identifier "std"], .identifier (getPrettyRegisterName (.word base)).toList) := by
    cases base <;> rfl
  have hreg : scan .blank (" " ++ getPrettyRegisterName (.word reg)).toList =
      some ([], .identifier (getPrettyRegisterName (.word reg)).toList) := by
    cases reg <;> rfl
  have htext : ("\tstd\t" ++ (getPrettyRegisterName (.word base) ++
      ((if 0 ≤ q.toInt then "+" else "") ++ toString q.toInt)) ++ ", " ++
        getPrettyRegisterName (.word reg)).toList =
      ("\tstd\t" ++ getPrettyRegisterName (.word base)).toList ++
        (((if 0 ≤ q.toInt then '+' else '-') :: offsetDigits q) ++
          ',' :: (" " ++ getPrettyRegisterName (.word reg)).toList) := by
    rw [← toList_offset]
    simp
  have hrest (name : List Char) :
      scan (.identifier name) (((if 0 ≤ q.toInt then '+' else '-') :: offsetDigits q) ++
        ',' :: (" " ++ getPrettyRegisterName (.word reg)).toList) =
      some (.identifier (String.ofList name) :: (offsetTokens q ++ [.comma]),
        .identifier (getPrettyRegisterName (.word reg)).toList) := by
    rw [scan_append, scan_offset]
    simp only [Option.bind_some, scan_comma, hreg]
    simp [LexState.finish, lexDigit_offsetDigits, offsetTokens]
  rw [lexLine, htext, scan_append, hpre]
  simp only [Option.bind_some, hrest]
  simp [LexState.finish, nameToken]

/-! ### From the text to the instruction -/

namespace LoadStore

/-- The text that is printed. -/
def text : LoadStore → String
  | ld reg ptr =>
      "\tld\t" ++ getPrettyRegisterName (.word reg) ++ ", " ++ getPrettyRegisterName (.word ptr.reg)
  | ldPi reg ptr =>
      "\tld\t" ++ getPrettyRegisterName (.word reg) ++ ", " ++
        getPrettyRegisterName (.word ptr.reg) ++ "+"
  | ldPd reg ptr =>
      "\tld\t" ++ getPrettyRegisterName (.word reg) ++ ", -" ++
        getPrettyRegisterName (.word ptr.reg)
  | ldd reg base q =>
      "\tldd\t" ++ getPrettyRegisterName (.word reg) ++ ", " ++
        (getPrettyRegisterName (.word base) ++
          ((if 0 ≤ q.toInt then "+" else "") ++ toString q.toInt))
  | st ptr reg =>
      "\tst\t" ++ getPrettyRegisterName (.word ptr.reg) ++ ", " ++ getPrettyRegisterName (.word reg)
  | stPi ptr reg _ =>
      "\tst\t" ++ getPrettyRegisterName (.word ptr.reg) ++ "+, " ++
        getPrettyRegisterName (.word reg)
  | stPd ptr reg _ =>
      "\tst\t-" ++ getPrettyRegisterName (.word ptr.reg) ++ ", " ++
        getPrettyRegisterName (.word reg)
  | std base q reg =>
      "\tstd\t" ++ (getPrettyRegisterName (.word base) ++
          ((if 0 ≤ q.toInt then "+" else "") ++ toString q.toInt)) ++ ", " ++
        getPrettyRegisterName (.word reg)

/-- The mnemonic of the text. -/
def mnemonic : LoadStore → String
  | ld _ _ | ldPi _ _ | ldPd _ _ => "ld"
  | ldd _ _ _ => "ldd"
  | st _ _ | stPi _ _ _ | stPd _ _ _ => "st"
  | std _ _ _ => "std"

/-- The tokens behind the mnemonic. -/
def tokens : LoadStore → List AsmToken
  | ld reg ptr => [nameToken reg, .comma, nameToken ptr.reg, .endOfStatement "\n"]
  | ldPi reg ptr => [nameToken reg, .comma, nameToken ptr.reg, .plus, .endOfStatement "\n"]
  | ldPd reg ptr => [nameToken reg, .comma, .minus, nameToken ptr.reg, .endOfStatement "\n"]
  | ldd reg base q =>
      nameToken reg :: .comma :: nameToken base :: (offsetTokens q ++ [.endOfStatement "\n"])
  | st ptr reg => [nameToken ptr.reg, .comma, nameToken reg, .endOfStatement "\n"]
  | stPi ptr reg _ => [nameToken ptr.reg, .plus, .comma, nameToken reg, .endOfStatement "\n"]
  | stPd ptr reg _ => [.minus, nameToken ptr.reg, .comma, nameToken reg, .endOfStatement "\n"]
  | std base q reg =>
      nameToken base :: (offsetTokens q ++ [.comma, nameToken reg, .endOfStatement "\n"])

/-- The parsed operands. -/
def operands : LoadStore → List SNESOperand
  | ld reg ptr => [.reg (.byte reg.subLo), .reg (.byte ptr.reg.subLo)]
  | ldPi reg ptr => [.reg (.byte reg.subLo), .reg (.byte ptr.reg.subLo), .token "+"]
  | ldPd reg ptr => [.reg (.byte reg.subLo), .token "-", .reg (.byte ptr.reg.subLo)]
  | ldd reg base q => [.reg (.byte reg.subLo), .memri (.byte base.subLo) (.constant q)]
  | st ptr reg => [.reg (.byte ptr.reg.subLo), .reg (.byte reg.subLo)]
  | stPi ptr reg _ => [.reg (.byte ptr.reg.subLo), .token "+", .reg (.byte reg.subLo)]
  | stPd ptr reg _ => [.token "-", .reg (.byte ptr.reg.subLo), .reg (.byte reg.subLo)]
  | std base q reg => [.memri (.byte base.subLo) (.constant q), .reg (.byte reg.subLo)]

/-- Printing gives the text. -/
theorem printInst_mcInst (i : LoadStore) : printInst i.mcInst = some i.text := by
  cases i <;> rfl

/-- The text is its tokens. -/
theorem lexLine_text (i : LoadStore) :
    lexLine i.text = some (.identifier i.mnemonic :: i.tokens) := by
  cases i with
  | ldd reg base q => exact lexLine_ldd reg base q
  | std base q reg => exact lexLine_std reg base q
  | ld reg ptr | ldPi reg ptr | ldPd reg ptr | st ptr reg | stPi ptr reg | stPd ptr reg =>
      obtain ⟨ptr, -⟩ := ptr
      simp only [text, mnemonic, tokens]
      cases reg <;> cases ptr <;> rfl

/-- The tokens parse as the operands. -/
theorem returns_operands (h : ReadsSignedNumbers parseExpression) (i : LoadStore) :
    Returns (parseInstructionRound parseExpression i.mnemonic)
      (parseInstructionStart i.mnemonic ⟨i.tokens, [], []⟩)
      (some (false, ⟨[], .token i.mnemonic :: i.operands, []⟩)) := by
  cases i with
  | ld reg ptr | st ptr reg =>
      obtain ⟨ptr, -⟩ := ptr
      cases reg <;> cases ptr <;> exact .next rfl (.next rfl (.done rfl))
  | ldPi reg ptr | ldPd reg ptr | stPi ptr reg | stPd ptr reg =>
      obtain ⟨ptr, -⟩ := ptr
      cases reg <;> cases ptr <;> exact .next rfl (.next rfl (.next rfl (.done rfl)))
  | ldd reg base q =>
      have hmemri : parseMemriOperand parseExpression
          ⟨nameToken base :: (offsetTokens q ++ [.endOfStatement "\n"]),
            [.token "ldd", .reg (.byte reg.subLo)], []⟩ =
          (.success, ⟨[.endOfStatement "\n"],
            [.token "ldd", .reg (.byte reg.subLo), .memri (.byte base.subLo) (.constant q)], []⟩) :=
        parseMemriOperand_offset h base q (.inr rfl) [] _
      have hreg : parseInstructionRound parseExpression "ldd"
          (parseInstructionStart "ldd" ⟨(ldd reg base q).tokens, [], []⟩) =
          .inl (false, ⟨.comma :: nameToken base :: (offsetTokens q ++ [.endOfStatement "\n"]),
            [.token "ldd", .reg (.byte reg.subLo)], []⟩) := by
        cases reg <;> rfl
      have hround : parseInstructionRound parseExpression "ldd"
          (false, ⟨.comma :: nameToken base :: (offsetTokens q ++ [.endOfStatement "\n"]),
            [.token "ldd", .reg (.byte reg.subLo)], []⟩) =
          .inl (false, ⟨[.endOfStatement "\n"],
            [.token "ldd", .reg (.byte reg.subLo),
              .memri (.byte base.subLo) (.constant q)], []⟩) := by
        simp [parseInstructionRound, ParserState.getTok, AsmToken.isEndOfStatement,
          ParserState.eatComma, ParserState.lex, ParserState.reportError, matchOperandParserImpl,
          operandMatchTable, hmemri]
      exact .next hreg (.next hround (.done rfl))
  | std base q reg =>
      have hmemri : parseMemriOperand parseExpression
          ⟨nameToken base :: (offsetTokens q ++ [.comma, nameToken reg, .endOfStatement "\n"]),
            [.token "std"], []⟩ =
          (.success, ⟨[.comma, nameToken reg, .endOfStatement "\n"],
            [.token "std", .memri (.byte base.subLo) (.constant q)], []⟩) :=
        parseMemriOperand_offset h base q (.inl rfl) [nameToken reg, .endOfStatement "\n"] _
      have hround : parseInstructionRound parseExpression "std"
          (parseInstructionStart "std" ⟨(std base q reg).tokens, [], []⟩) =
          .inl (false, ⟨[.comma, nameToken reg, .endOfStatement "\n"],
            [.token "std", .memri (.byte base.subLo) (.constant q)], []⟩) := by
        have hname : (nameToken base).isEndOfStatement = false := rfl
        simp [parseInstructionRound, parseInstructionStart, tokens, ParserState.push,
          ParserState.getTok, hname, matchOperandParserImpl, operandMatchTable, hmemri]
      refine .next hround ?_
      cases reg <;> exact .next rfl (.done rfl)

/-- The operands match as the instruction with a low half for the pointer. -/
theorem matchInstructionImpl_operands (i : LoadStore) :
    matchInstructionImpl (.token i.mnemonic :: i.operands) = some i.reparsed := by
  cases i with
  | ldd reg base q | std base q reg => cases reg <;> rfl
  | ld reg ptr | ldPi reg ptr | ldPd reg ptr | st ptr reg | stPi ptr reg | stPd ptr reg =>
      obtain ⟨ptr, -⟩ := ptr
      cases reg <;> rfl

/-- **What the parser makes of the text of a load or a store.** -/
theorem assemblesTo_reparsed (h : ReadsSignedNumbers parseExpression) (i : LoadStore) :
    AssemblesTo parseExpression i.text i.reparsed := by
  have hlower : lower i.mnemonic = i.mnemonic := by
    cases i <;> simp only [mnemonic] <;> decide
  refine ⟨i.mnemonic, i.tokens, ⟨[], .token i.mnemonic :: i.operands, []⟩, i.lexLine_text, ?_,
    i.matchInstructionImpl_operands⟩
  rw [hlower]
  exact i.returns_operands h

/-- The instruction that the parser makes has no encoding: no encoder of pointers takes a low
half. -/
theorem getBinaryCodeForInstr_reparsed (i : LoadStore) :
    getBinaryCodeForInstr i.reparsed = none := by
  cases i with
  | ldd reg base q | std base q reg => cases reg <;> cases base <;> rfl
  | ld reg ptr | ldPi reg ptr | ldPd reg ptr | st ptr reg | stPi ptr reg | stPd ptr reg =>
      obtain ⟨ptr, -⟩ := ptr
      cases reg <;> cases ptr <;> rfl

/-- A pointer is not its low half. -/
theorem mcInst_ne_reparsed (i : LoadStore) : i.mcInst ≠ i.reparsed := by
  cases i <;> simp [mcInst, reparsed]

/-- **No load and no store round-trips through its text.** -/
theorem not_roundTrips (h : ReadsSignedNumbers parseExpression) (i : LoadStore) :
    ¬ RoundTrips parseExpression i.mcInst := by
  rintro ⟨text, hprint, hassembles⟩
  obtain rfl : i.text = text := by
    simpa [printInst_mcInst] using hprint
  exact i.mcInst_ne_reparsed (hassembles.unique (i.assemblesTo_reparsed h))

end LoadStore

end

/-- An expression parser for signed numbers. -/
def parseSignedNumber : List AsmToken → ParsedExpression
  | .plus :: .integer _ value :: rest => ⟨some (.constant value), [], rest⟩
  | .minus :: .integer _ value :: rest => ⟨some (.constant (-value)), [], rest⟩
  | tokens => ⟨none, ["unknown token in expression"], tokens⟩

/-- It reads signed numbers. -/
theorem readsSignedNumbers_parseSignedNumber : ReadsSignedNumbers parseSignedNumber :=
  fun _ _ _ _ _ => ⟨rfl, rfl⟩

/-- With it, too, a load does not round-trip. -/
theorem not_roundTrips_ld :
    ReadsSignedNumbers parseSignedNumber ∧
      ¬ RoundTrips parseSignedNumber ⟨.LDRdPtr, [.reg .A, .reg .X]⟩ :=
  ⟨readsSignedNumbers_parseSignedNumber,
    LoadStore.not_roundTrips readsSignedNumbers_parseSignedNumber (.ld .A ⟨.X, by decide⟩)⟩

/-- The text of `ld A, X` is that of a load through the byte register `XL`. -/
theorem ld_text_is_byte_pointer :
    printInst ⟨.LDRdPtr, [.reg .A, .reg .X]⟩ = some "\tld\tAL, XL" ∧
      AssemblesTo parseSignedNumber "\tld\tAL, XL" ⟨.LDRdPtr, [.reg .A, .reg .XL]⟩ ∧
      ¬ RoundTrips parseSignedNumber ⟨.LDRdPtr, [.reg .A, .reg .X]⟩ := by
  have hprint : printInst ⟨.LDRdPtr, [.reg .A, .reg .X]⟩ = some "\tld\tAL, XL" := rfl
  have hassembles :
      AssemblesTo parseSignedNumber "\tld\tAL, XL" ⟨.LDRdPtr, [.reg .A, .reg .XL]⟩ :=
    LoadStore.assemblesTo_reparsed readsSignedNumbers_parseSignedNumber (.ld .A ⟨.X, by decide⟩)
  refine ⟨hprint, hassembles, ?_⟩
  rintro ⟨text, htext, h⟩
  obtain rfl : "\tld\tAL, XL" = text := Option.some.inj (hprint.symm.trans htext)
  exact absurd (h.unique hassembles) (by decide)

end Snes
