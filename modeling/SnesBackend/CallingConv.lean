/-
# The Calling Convention

How arguments get their registers and stack slots: the pieces that `LowerCallTo`
and `LowerArguments` make of the arguments of a function, and
`analyzeStandardArguments`, which assigns a location to each piece, for a call and
for the definition of the function.

`analyzeStandardArguments` is modelled for functions that are not variadic.  It has
no result where it reads a piece that does not exist.
-/
import SnesBackend.CalleeSaved
import SnesBackend.DataLayout

namespace Snes

/-! ## Pieces -/

/-- `getRegisterType` of an integer type: `i8` and `i16` are legal, other types are promoted or
expanded. -/
def getRegisterType (width : ℕ) : ValueType :=
  if width ≤ 8 then .i8 else .i16

/-- `getNumRegisters`. -/
def getNumRegisters (width : ℕ) : ℕ :=
  (width + (getRegisterType width).width - 1) / (getRegisterType width).width

/-- `ISD::OutputArg`: one piece of an argument. -/
structure OutputArg where
  vt : ValueType
  partOffset : ℕ
deriving DecidableEq

/-- The pieces of a value. -/
def outputArgs (width : ℕ) : List OutputArg :=
  (List.range (getNumRegisters width)).map fun j =>
    ⟨getRegisterType width, j * (getRegisterType width).bytes⟩

/-! ## Allocation -/

/-- `CCState`: the registers and the bytes of the stack that are allocated.  The bytes are an
`unsigned` in the source, which does not wrap as long as the arguments of a function take fewer than
2 ^ 32 bytes of the stack. -/
structure CCState where
  usedRegs : List Reg := []
  stackOffset : ℕ := 0

namespace CCState

variable (cc : CCState)

/-- `isAllocated`. -/
def isAllocated (reg : Reg) : Bool :=
  cc.usedRegs.contains reg

/-- `MarkAllocated`: a register and its aliases. -/
def markAllocated (reg : Reg) : CCState :=
  { cc with usedRegs := reg.aliases ++ cc.usedRegs }

/-- `AllocateReg`: the first register of a list that is not allocated, if there is one. -/
def allocateReg (regs : List Reg) : Option Reg × CCState :=
  match regs.find? fun reg => !cc.isAllocated reg with
  | none => (none, cc)
  | some reg => (some reg, cc.markAllocated reg)

/-- `AllocateStack`. -/
def allocateStack (size align : ℕ) : ℕ × CCState :=
  (alignTo cc.stackOffset align, { cc with stackOffset := alignTo cc.stackOffset align + size })

/-- `CheckReturn` with `RetCC_SNES`: every piece gets its register. -/
def checkReturn (cc : CCState) : List ValueType → Bool
  | [] => true
  | vt :: vts =>
      match cc.allocateReg [retCC_SNES vt] with
      | (none, _) => false
      | (some _, cc) => cc.checkReturn vts

end CCState

/-- Where a piece is. -/
inductive ArgLoc where
  | reg (reg : Option Reg)
  | mem (offset : ℕ)
deriving DecidableEq

/-- `CCValAssign`, of a value in full. -/
structure CCValAssign where
  valNo : ℕ
  locVT : ValueType
  loc : ArgLoc
deriving DecidableEq

/-! ## The sizes of arguments -/

/-- `parseFunctionArgs`: the size of each argument of the function in words. -/
def parseFunctionArgs (args : List IRType) : List ℕ :=
  args.map fun type => ((type.sizeInBits + 7) / 8 + 1) / 2

/-- The inner loop of `parseExternFuncCallArgs`: how many pieces follow each other from an offset
on, and the pieces after them. -/
def takeParts (offset : ℕ) : List OutputArg → ℕ × List OutputArg
  | [] => (0, [])
  | out :: outs =>
      if out.partOffset = offset then
        ((takeParts (offset + out.vt.bytes) outs).1 + 1,
          (takeParts (offset + out.vt.bytes) outs).2)
      else (0, out :: outs)

/-- The outer loop of `parseExternFuncCallArgs`.  A round that takes no piece is repeated without
end, so there are at most as many rounds as pieces. -/
def parseParts : ℕ → List OutputArg → Option (List ℕ)
  | _, [] => some []
  | 0, _ :: _ => none
  | fuel + 1, outs => (parseParts fuel (takeParts 0 outs).2).map ((takeParts 0 outs).1 :: ·)

/-- `parseExternFuncCallArgs`: the number of pieces of each run of offsets. -/
def parseExternFuncCallArgs (outs : List OutputArg) : Option (List ℕ) :=
  parseParts outs.length outs

/-! ## Locations -/

/-- `RegList16` for a type of 16 bits, or else `RegList8`. -/
def regList : ValueType → List Reg
  | .i16 => [.A, .X, .Y]
  | .i8 => [.AL, .XL, .YL]

/-- The variables of `analyzeStandardArguments`. -/
structure ArgState where
  cc : CCState := {}
  argLocs : List CCValAssign := []
  regsLeft : ℕ := 3
  valNo : ℕ := 0
  usesStack : Bool := false
  pos : ℕ := 0

namespace ArgState

/-- The next piece goes to a register. -/
def assignReg (vt : ValueType) (a : ArgState) : ArgState :=
  { a with
    cc := (a.cc.allocateReg (regList vt)).2
    argLocs := a.argLocs ++ [⟨a.valNo, vt, .reg (a.cc.allocateReg (regList vt)).1⟩]
    regsLeft := a.regsLeft - 1
    valNo := a.valNo + 1 }

/-- The next piece goes to the stack. -/
def assignStack (vt : ValueType) (a : ArgState) : ArgState :=
  { a with
    cc := (a.cc.allocateStack vt.bytes (integerABIAlign vt.width)).2
    argLocs := a.argLocs ++
      [⟨a.valNo, vt, .mem (a.cc.allocateStack vt.bytes (integerABIAlign vt.width)).1⟩]
    valNo := a.valNo + 1 }

/-- `std::reverse` from a position on. -/
def reverse (pos size : ℕ) (a : ArgState) : ArgState :=
  { a with
    argLocs := a.argLocs.take pos ++ ((a.argLocs.drop pos).take size).reverse ++
      a.argLocs.drop (pos + size) }

/-- One round of the loop: all pieces of an argument, given its size, go to registers or all go to
the stack. -/
def assignArg (vts : List ValueType) (a : ArgState) (size : ℕ) : Option ArgState :=
  if size = 0 then some a
  else
    vts[a.pos]?.map fun vt =>
      if a.usesStack = false ∧ size ≤ a.regsLeft then
        { ((assignReg vt)^[size] a).reverse a.pos size with pos := a.pos + size }
      else
        { (assignStack vt)^[size] { a with usesStack := true } with pos := a.pos + size }

end ArgState

/-- The loop of `analyzeStandardArguments` over the sizes of the arguments. -/
def assignArgs (vts : List ValueType) (sizes : List ℕ) : Option (List CCValAssign) :=
  (sizes.foldlM (ArgState.assignArg vts) {}).map ArgState.argLocs

/-- `analyzeStandardArguments`. -/
def analyzeStandardArguments (args : List IRType) (outs : List OutputArg) (ins : List ValueType)
    (isCall : Bool) : Option (List CCValAssign) :=
  if isCall then (parseExternFuncCallArgs outs).bind (assignArgs (outs.map OutputArg.vt))
  else assignArgs ins (parseFunctionArgs args)

/-! ## Functions -/

/-- The type of a function that is not variadic, without a result if it returns `void`. -/
structure Signature where
  args : List IRType
  ret : Option IRType

namespace Signature

variable (s : Signature)

/-- `CanLowerReturn`, of the pieces of the returned value. -/
def canLowerReturn : Bool :=
  CCState.checkReturn {} (((s.ret.map IRType.valueWidths).getD []).flatMap outputArgs |>.map
    OutputArg.vt)

/-- The values that are passed: `LowerCallTo` and `LowerArguments` put a pointer in front if the
result cannot be returned in registers. -/
def valueWidths : List ℕ :=
  (if s.canLowerReturn then [] else IRType.pointer.valueWidths) ++
    s.args.flatMap IRType.valueWidths

/-- `Outs` of `LowerCallTo`. -/
def outs : List OutputArg :=
  s.valueWidths.flatMap outputArgs

/-- The types in `Ins` of `LowerArguments`. -/
def ins : List ValueType :=
  s.valueWidths.flatMap fun width =>
    List.replicate (getNumRegisters width) (getRegisterType width)

/-- The locations of the arguments at a call. -/
def callerLocs : Option (List CCValAssign) :=
  analyzeStandardArguments s.args s.outs [] true

/-- The locations of the arguments in the definition. -/
def calleeLocs : Option (List CCValAssign) :=
  analyzeStandardArguments s.args [] s.ins false

end Signature

/-- The caller and the callee place every piece in the same location. -/
def ArgumentsPlacedAlike (s : Signature) : Prop :=
  ∃ locs, s.callerLocs = some locs ∧ s.calleeLocs = some locs

end Snes
