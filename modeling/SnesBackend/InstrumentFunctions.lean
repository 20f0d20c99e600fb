/-
# Function Instrumentation

`SNESInstrumentFunctions`: calls of hooks that report the arguments of a function
at its entry and its result at every return.  Functions are control flow graphs
over any state; an instruction of the body is given by its effect on the state
and by the observable effects it has.
-/
import SnesBackend.SteppedLoop

namespace Snes

open SteppedLoop

/-! ## Types -/

/-- The types of LLVM; what derived types are made of is not looked at. -/
inductive LLVMType where
  | void | half | float | double | x86FP80 | fp128 | ppcFP128 | label | metadata | x86MMX | token
  | integer (bitWidth : ℕ)
  | function | struct | array | pointer
  | vector (bitWidth : ℕ)
deriving DecidableEq, Repr

namespace LLVMType

/-- `isFloatingPointTy`. -/
def isFloatingPointTy : LLVMType → Bool
  | half | float | double | x86FP80 | fp128 | ppcFP128 => true
  | _ => false

/-- `getPrimitiveSizeInBits`. -/
def getPrimitiveSizeInBits : LLVMType → ℕ
  | half => 16
  | float => 32
  | double | x86MMX => 64
  | x86FP80 => 80
  | fp128 | ppcFP128 => 128
  | integer bitWidth | vector bitWidth => bitWidth
  | _ => 0

/-- `GetTypeName`, unless it reaches `unknown return type`. -/
def getTypeName (type : LLVMType) : Option String :=
  match type with
  | integer bitWidth => some ("i" ++ toString bitWidth)
  | _ =>
      if type.isFloatingPointTy then
        some ("f" ++ toString type.getPrimitiveSizeInBits)
      else
        none

end LLVMType

/-! ## Functions -/

/-- A formal argument. -/
structure IRArgument where
  name : String
  type : LLVMType
deriving DecidableEq, Repr

/-- A value: its type, and what it is for given arguments in a given state. -/
structure IRValue (σ ν : Type) where
  type : LLVMType
  eval : (ℕ → ν) → σ → ν

/-- The operands of a call: a pointer to a constant string, a constant integer, or a value. -/
inductive CallOperand (σ ν : Type) where
  | string (s : String)
  | constInt (bitWidth : ℕ) (value : ℕ)
  | value (v : IRValue σ ν)

/-- Instructions: those of a body, which may have observable effects and may not complete, calls of
hooks, returns, and the other terminators, which may have no successor. -/
inductive IRInst (σ ν ε : Type) where
  | other (effect : (ℕ → ν) → σ → Option (σ × List ε))
  | call (symbol : String) (operands : List (CallOperand σ ν))
  | ret (value : Option (IRValue σ ν))
  | terminator (next : (ℕ → ν) → σ → Option ℕ)

/-- A basic block; its phi nodes, if it has any, read the block that control comes from. -/
structure IRBlock (σ ν ε : Type) where
  label : ℕ
  phis : Option (ℕ → σ → σ)
  insts : List (IRInst σ ν ε)

/-- A function with its entry block and the other ones. -/
structure IRFunction (σ ν ε : Type) where
  name : String
  args : List IRArgument
  returnType : LLVMType
  entryBlock : IRBlock σ ν ε
  otherBlocks : List (IRBlock σ ν ε)

variable {σ ν ε : Type}

/-- The blocks of a function. -/
def IRFunction.blocks (F : IRFunction σ ν ε) : List (IRBlock σ ν ε) :=
  F.entryBlock :: F.otherBlocks

/-- What the IR verifier asks: the entry block has no phi nodes and no predecessors, and a function
with a result returns a value of its type everywhere. -/
structure IRFunction.Verified (F : IRFunction σ ν ε) : Prop where
  entry_phis : F.entryBlock.phis = none
  targets_mem : ∀ b ∈ F.blocks, ∀ next, .terminator next ∈ b.insts → ∀ args s target,
    next args s = some target → target ∈ F.otherBlocks.map IRBlock.label
  rets_typed : F.returnType ≠ .void → ∀ b ∈ F.blocks, ∀ value, .ret value ∈ b.insts →
    ∃ v, value = some v ∧ v.type = F.returnType

/-! ## Runs -/

/-- The arguments that a hook receives. -/
inductive HookArg (ν : Type) where
  | string (s : String)
  | constInt (bitWidth : ℕ) (value : ℕ)
  | value (type : LLVMType) (v : ν)
deriving DecidableEq, Repr

/-- What can be observed: calls of hooks, and the effects of the body. -/
inductive Event (ν ε : Type) where
  | hook (symbol : String) (args : List (HookArg ν))
  | effect (e : ε)
deriving DecidableEq, Repr

/-- The operand of a call as its hook receives it. -/
def CallOperand.eval (args : ℕ → ν) (s : σ) : CallOperand σ ν → HookArg ν
  | string str => .string str
  | constInt bitWidth n => .constInt bitWidth n
  | value v => .value v.type (v.eval args s)

/-- How a block is left. -/
inductive BlockEnd (ν : Type) where
  | jump (target : ℕ)
  | returned (value : Option ν)

/-- The instructions of a block, up to its terminator. -/
def runInsts (args : ℕ → ν) : List (IRInst σ ν ε) → σ → Option (List (Event ν ε) × σ × BlockEnd ν)
  | [], _ => none
  | .other effect :: rest, s =>
      (effect args s).bind fun (t, effects) =>
        (runInsts args rest t).map fun (events, last) => (effects.map .effect ++ events, last)
  | .call symbol operands :: rest, s =>
      (runInsts args rest s).map fun (events, last) =>
        (.hook symbol (operands.map (CallOperand.eval args s)) :: events, last)
  | .ret value :: _, s => some ([], s, .returned (value.map fun v => v.eval args s))
  | .terminator next :: _, s => (next args s).map fun target => ([], s, .jump target)

/-- Where a run is: the block it comes from, the block it enters, the state, and what has been
observed. -/
structure IRConfig (σ ν ε : Type) where
  pred : Option ℕ
  label : ℕ
  state : σ
  events : List (Event ν ε)

/-- What a run leaves when the function returns: what has been observed, the state and the value. -/
abbrev IRResult (σ ν ε : Type) : Type :=
  List (Event ν ε) × σ × Option ν

/-- The state behind the phi nodes of a block. -/
def IRBlock.enter (b : IRBlock σ ν ε) (pred : Option ℕ) (s : σ) : σ :=
  match b.phis, pred with
  | some phis, some pred => phis pred s
  | _, _ => s

/-- What a block makes of a run; without a result the run is stuck. -/
def IRBlock.step (b : IRBlock σ ν ε) (args : ℕ → ν) (c : IRConfig σ ν ε) :
    IRConfig σ ν ε ⊕ Option (IRResult σ ν ε) :=
  match runInsts args b.insts (b.enter c.pred c.state) with
  | none => .inr none
  | some (events, s, .jump target) => .inl ⟨some c.label, target, s, c.events ++ events⟩
  | some (events, s, .returned value) => .inr (some (c.events ++ events, s, value))

/-- One block of a run. -/
def IRFunction.step (F : IRFunction σ ν ε) (args : ℕ → ν) (c : IRConfig σ ν ε) :
    IRConfig σ ν ε ⊕ Option (IRResult σ ν ε) :=
  match F.blocks.find? fun b => b.label = c.label with
  | none => .inr none
  | some b => b.step args c

/-- A run of a function that returns. -/
def IRFunction.Runs (F : IRFunction σ ν ε) (args : ℕ → ν) (s : σ) (result : IRResult σ ν ε) :
    Prop :=
  Returns (F.step args) ⟨none, F.entryBlock.label, s, []⟩ (some result)

/-- A function that returns for some arguments in some state. -/
def IRFunction.MayReturn (F : IRFunction σ ν ε) : Prop :=
  ∃ args s result, F.Runs args s result

/-! ## The pass -/

/-- `ConstantInt::get`: a number of a type of a given width. -/
def constantInt (bitWidth value : ℕ) : CallOperand σ ν :=
  .constInt bitWidth (value % 2 ^ bitWidth)

/-- `BuildSignatureCall`. -/
def buildSignatureCall (symbol : String) (F : IRFunction σ ν ε) : IRInst σ ν ε :=
  .call symbol [.string F.name, constantInt 16 F.args.length]

/-- `symbols::BEGIN_FUNCTION_SIGNATURE`. -/
def beginFunctionSignature : String :=
  "snes_instrumentation_begin_signature"

/-- `symbols::END_FUNCTION_SIGNATURE`. -/
def endFunctionSignature : String :=
  "snes_instrumentation_end_signature"

/-- `GetArgumentSymbolName`. -/
def getArgumentSymbolName (type : LLVMType) : Option String :=
  type.getTypeName.map fun name => "snes_instrumentation_argument_" ++ name

/-- `GetReturnSymbolName`. -/
def getReturnSymbolName (type : LLVMType) : Option String :=
  type.getTypeName.map fun name => "snes_instrumentation_result_" ++ name

/-- `BuildArgument`. -/
def buildArgument (arg : IRArgument) (argNo : ℕ) : Option (IRInst σ ν ε) :=
  (getArgumentSymbolName arg.type).map fun symbol =>
    .call symbol [.string arg.name, constantInt 8 argNo, .value ⟨arg.type, fun args _ => args argNo⟩]

/-- The loop of `BuildSignature` over the arguments from number `argNo` on. -/
def buildArguments : ℕ → List IRArgument → Option (List (IRInst σ ν ε))
  | _, [] => some []
  | argNo, arg :: rest =>
      (buildArgument arg argNo).bind fun call =>
        (buildArguments (argNo + 1) rest).map fun calls => call :: calls

/-- `BuildSignature`. -/
def buildSignature (F : IRFunction σ ν ε) : Option (List (IRInst σ ν ε)) :=
  (buildArguments 0 F.args).map fun calls =>
    buildSignatureCall beginFunctionSignature F :: calls ++
      [buildSignatureCall endFunctionSignature F]

/-- A label that is not in use. -/
def IRFunction.newLabel (F : IRFunction σ ν ε) : ℕ :=
  (F.blocks.map IRBlock.label).foldr max 0 + 1

/-- `BuildEntryBlock`: a block with the signature that jumps to the actual entry block. -/
def buildEntryBlock (F : IRFunction σ ν ε) : Option (IRFunction σ ν ε) :=
  (buildSignature F).map fun calls =>
    { F with
      entryBlock := ⟨F.newLabel, none, calls ++ [.terminator fun _ _ => some F.entryBlock.label]⟩
      otherBlocks := F.blocks }

/-- `BuildExitHook`: the instruction with the call in front of it, if it is a return. -/
def buildExitHook : IRInst σ ν ε → Option (List (IRInst σ ν ε))
  | .ret (some v) =>
      (getReturnSymbolName v.type).map fun symbol => [.call symbol [.value v], .ret (some v)]
  -- `should only be instrumenting functions with return values`
  | .ret none => none
  | i => some [i]

/-- The loop of `BuildExitHooks` over the instructions of a block. -/
def buildInstHooks : List (IRInst σ ν ε) → Option (List (IRInst σ ν ε))
  | [] => some []
  | i :: rest => (buildExitHook i).bind fun is => (buildInstHooks rest).map fun js => is ++ js

/-- `BuildExitHooks` in one block. -/
def buildBlockHooks (b : IRBlock σ ν ε) : Option (IRBlock σ ν ε) :=
  (buildInstHooks b.insts).map fun insts => { b with insts := insts }

/-- The loop of `BuildExitHooks` over blocks. -/
def buildBlocksHooks : List (IRBlock σ ν ε) → Option (List (IRBlock σ ν ε))
  | [] => some []
  | b :: rest => (buildBlockHooks b).bind fun b' => (buildBlocksHooks rest).map fun bs => b' :: bs

/-- `BuildExitHooks`. -/
def buildExitHooks (F : IRFunction σ ν ε) : Option (IRFunction σ ν ε) :=
  (buildBlockHooks F.entryBlock).bind fun entryBlock =>
    (buildBlocksHooks F.otherBlocks).map fun otherBlocks =>
      { F with entryBlock := entryBlock, otherBlocks := otherBlocks }

/-- `ShouldInstrument`. -/
def shouldInstrument (F : IRFunction σ ν ε) : Bool :=
  F.returnType ≠ .void

/-- `runOnFunction`, unless it reaches `llvm_unreachable` or an assertion that fails. -/
def runOnFunction (F : IRFunction σ ν ε) : Option (IRFunction σ ν ε) :=
  if shouldInstrument F then (buildEntryBlock F).bind buildExitHooks else some F

/-! ## What is reported -/

/-- What is reported of the arguments from number `argNo` on; `wrap` is what becomes of a number in
a constant of a given width. -/
def argumentEvents (wrap : ℕ → ℕ → ℕ) (args : ℕ → ν) :
    ℕ → List IRArgument → Option (List (Event ν ε))
  | _, [] => some []
  | argNo, arg :: rest =>
      (getArgumentSymbolName arg.type).bind fun symbol =>
        (argumentEvents wrap args (argNo + 1) rest).map fun events =>
          .hook symbol
            [.string arg.name, .constInt 8 (wrap 8 argNo), .value arg.type (args argNo)] :: events

/-- What is reported at the entry of a function: the number of its arguments, each argument with its
number, and the end. -/
def IRFunction.signatureEvents (F : IRFunction σ ν ε) (wrap : ℕ → ℕ → ℕ) (args : ℕ → ν) :
    Option (List (Event ν ε)) :=
  (argumentEvents wrap args 0 F.args).map fun events =>
    .hook beginFunctionSignature [.string F.name, .constInt 16 (wrap 16 F.args.length)] :: events ++
      [.hook endFunctionSignature [.string F.name, .constInt 16 (wrap 16 F.args.length)]]

/-- What is reported at a return. -/
def IRFunction.resultEvent (F : IRFunction σ ν ε) (value : Option ν) : Option (Event ν ε) :=
  (getReturnSymbolName F.returnType).bind fun symbol =>
    value.map fun v => .hook symbol [.value F.returnType v]

/-- The instrumented function does what the function does and reports it faithfully: the numbers in
the reports are the numbers themselves. -/
def IRFunction.InstrumentedRight (F : IRFunction σ ν ε) : Prop :=
  ∃ F', runOnFunction F = some F' ∧ ∀ args s events t value,
    F'.Runs args s (events, t, value) ↔ ∃ signature body result,
      F.signatureEvents (fun _ n => n) args = some signature ∧
        F.Runs args s (body, t, value) ∧
        F.resultEvent value = some result ∧ events = signature ++ body ++ [result]

/-- What can be reported of a function: the types of its arguments have names, its result has a type
with a name unless there is no return, and its arguments have numbers below 256 unless it never
returns. -/
structure IRFunction.Reportable (F : IRFunction σ ν ε) : Prop where
  args_named : ∀ arg ∈ F.args, arg.type.getTypeName.isSome = true
  result_named : (∃ b ∈ F.blocks, ∃ value, .ret value ∈ b.insts) →
    F.returnType.getTypeName.isSome = true
  args_numbered : F.MayReturn → F.args.length ≤ 256

/-! ## When the pass completes -/

/-- The arguments are named when the pass completes, and only then. -/
theorem exists_buildArguments_iff (argNo : ℕ) (as : List IRArgument) :
    (∃ calls : List (IRInst σ ν ε), buildArguments argNo as = some calls) ↔
      ∀ arg ∈ as, arg.type.getTypeName.isSome = true := by
  induction as generalizing argNo with
  | nil => simp [buildArguments]
  | cons arg rest ih =>
      rw [List.forall_mem_cons, ← ih (argNo + 1)]
      cases hname : arg.type.getTypeName <;>
        simp [buildArguments, buildArgument, getArgumentSymbolName, hname]

/-- The hooks of a list of instructions can be built when each return has a value with a named
type. -/
theorem exists_buildInstHooks_iff (is : List (IRInst σ ν ε)) :
    (∃ is', buildInstHooks is = some is') ↔
      ∀ value, .ret value ∈ is → ∃ v, value = some v ∧ v.type.getTypeName.isSome = true := by
  induction is with
  | nil => simp [buildInstHooks]
  | cons i rest ih =>
      have hrest : (∃ is', buildInstHooks (i :: rest) = some is') ↔
          (∃ js, buildExitHook i = some js) ∧ ∃ js, buildInstHooks rest = some js := by
        rw [buildInstHooks]
        cases buildExitHook i <;> cases buildInstHooks rest <;> simp
      rw [hrest, ih]
      cases i with
      | ret value =>
          cases value with
          | none => simp [buildExitHook]
          | some v =>
              cases hname : v.type.getTypeName <;>
                simp [buildExitHook, getReturnSymbolName, hname]
      | other effect => simp [buildExitHook]
      | call symbol operands => simp [buildExitHook]
      | terminator next => simp [buildExitHook]

/-- The hooks of blocks. -/
theorem exists_buildBlocksHooks_iff (bs : List (IRBlock σ ν ε)) :
    (∃ bs', buildBlocksHooks bs = some bs') ↔ ∀ b ∈ bs, ∃ is, buildInstHooks b.insts = some is := by
  induction bs with
  | nil => simp [buildBlocksHooks]
  | cons b rest ih =>
      rw [List.forall_mem_cons, ← ih, buildBlocksHooks, buildBlockHooks]
      cases buildInstHooks b.insts <;> cases buildBlocksHooks rest <;> simp

/-- Without a return nothing is built. -/
theorem buildInstHooks_of_no_ret {is : List (IRInst σ ν ε)} (h : ∀ value, .ret value ∉ is) :
    buildInstHooks is = some is := by
  induction is with
  | nil => rfl
  | cons i rest ih =>
      rw [buildInstHooks, ih fun value hmem => h value (List.mem_cons_of_mem _ hmem)]
      cases i with
      | ret value => exact absurd List.mem_cons_self (h value)
      | other effect => rfl
      | call symbol operands => rfl
      | terminator next => rfl

/-- What is built for the arguments are calls. -/
theorem eq_call_of_mem_buildArguments {argNo : ℕ} {as : List IRArgument}
    {calls : List (IRInst σ ν ε)} (h : buildArguments argNo as = some calls) {i : IRInst σ ν ε}
    (hi : i ∈ calls) : ∃ symbol operands, i = .call symbol operands := by
  induction as generalizing argNo calls with
  | nil =>
      obtain rfl := Option.some.inj h
      cases hi
  | cons arg rest ih =>
      obtain ⟨call, hcall, h⟩ := Option.bind_eq_some_iff.mp h
      obtain ⟨calls', hcalls', rfl⟩ := Option.map_eq_some_iff.mp h
      obtain ⟨symbol, -, rfl⟩ := Option.map_eq_some_iff.mp hcall
      rcases List.mem_cons.mp hi with rfl | hi
      · exact ⟨symbol, _, rfl⟩
      · exact ih hcalls' hi

/-- The calls that report a signature are calls. -/
theorem eq_call_of_mem_signature {F : IRFunction σ ν ε} {calls : List (IRInst σ ν ε)}
    (h : buildArguments 0 F.args = some calls) {i : IRInst σ ν ε}
    (hi : i ∈ buildSignatureCall beginFunctionSignature F :: calls ++
      [buildSignatureCall endFunctionSignature F]) :
    ∃ symbol operands, i = .call symbol operands := by
  rcases List.mem_append.mp hi with hi | hi
  · rcases List.mem_cons.mp hi with rfl | hi
    · exact ⟨_, _, rfl⟩
    · exact eq_call_of_mem_buildArguments h hi
  · exact ⟨_, _, List.mem_singleton.mp hi⟩

/-- **What the pass makes of a function**: an entry block with the signature, and the hooks in every
block. -/
theorem runOnFunction_eq_some_iff {F F' : IRFunction σ ν ε} (hvoid : F.returnType ≠ .void) :
    runOnFunction F = some F' ↔ ∃ calls bs, buildArguments 0 F.args = some calls ∧
      buildBlocksHooks F.blocks = some bs ∧
      F' = ⟨F.name, F.args, F.returnType,
        ⟨F.newLabel, none, (buildSignatureCall beginFunctionSignature F :: calls ++
          [buildSignatureCall endFunctionSignature F]) ++
            [.terminator fun _ _ => some F.entryBlock.label]⟩, bs⟩ := by
  have hshould : shouldInstrument F = true := decide_eq_true hvoid
  rw [runOnFunction, if_pos hshould, buildEntryBlock, buildSignature]
  cases hcalls : (buildArguments 0 F.args : Option (List (IRInst σ ν ε))) with
  | none => simp
  | some calls =>
      have hentry : ∀ value, .ret value ∉ (buildSignatureCall beginFunctionSignature F :: calls ++
          [buildSignatureCall endFunctionSignature F]) ++
            [.terminator fun _ _ => some F.entryBlock.label] := by
        intro value hmem
        rcases List.mem_append.mp hmem with hmem | hmem
        · obtain ⟨_, _, hcall⟩ := eq_call_of_mem_signature hcalls hmem
          cases hcall
        · cases List.mem_singleton.mp hmem
      simp only [Option.map_some, Option.bind_some, buildExitHooks, buildBlockHooks,
        buildInstHooks_of_no_ret hentry]
      cases hbs : buildBlocksHooks F.blocks with
      | none => simp
      | some bs => simp [eq_comm]

/-- **When the pass completes.** -/
theorem exists_runOnFunction_iff {F : IRFunction σ ν ε} (h : F.Verified)
    (hvoid : F.returnType ≠ .void) :
    (∃ F', runOnFunction F = some F') ↔ (∀ arg ∈ F.args, arg.type.getTypeName.isSome = true) ∧
      ((∃ b ∈ F.blocks, ∃ value, .ret value ∈ b.insts) →
        F.returnType.getTypeName.isSome = true) := by
  have hblocks : (∃ bs, buildBlocksHooks F.blocks = some bs) ↔
      ((∃ b ∈ F.blocks, ∃ value, .ret value ∈ b.insts) →
        F.returnType.getTypeName.isSome = true) := by
    simp only [exists_buildBlocksHooks_iff, exists_buildInstHooks_iff]
    constructor
    · rintro hnamed ⟨b, hb, value, hmem⟩
      obtain ⟨v, rfl, hname⟩ := hnamed b hb value hmem
      obtain ⟨w, hw, htype⟩ := h.rets_typed hvoid b hb _ hmem
      rwa [← htype, ← Option.some.inj hw]
    · intro hnamed b hb value hmem
      obtain ⟨v, rfl, htype⟩ := h.rets_typed hvoid b hb value hmem
      exact ⟨v, rfl, htype ▸ hnamed ⟨b, hb, _, hmem⟩⟩
  have hargs : (∃ calls : List (IRInst σ ν ε), buildArguments 0 F.args = some calls) ↔
      ∀ arg ∈ F.args, arg.type.getTypeName.isSome = true :=
    exists_buildArguments_iff 0 F.args
  rw [← hargs, ← hblocks]
  simp only [runOnFunction_eq_some_iff hvoid]
  constructor
  · rintro ⟨F', calls, bs, hcalls, hbs, -⟩
    exact ⟨⟨calls, hcalls⟩, ⟨bs, hbs⟩⟩
  · rintro ⟨⟨calls, hcalls⟩, ⟨bs, hbs⟩⟩
    exact ⟨_, calls, bs, hcalls, hbs, rfl⟩

/-! ## What is observed -/

/-- What becomes of a number in a constant of a given width. -/
def constantWrap (bitWidth value : ℕ) : ℕ :=
  value % 2 ^ bitWidth

/-- Events in front of those of a run. -/
def prependEvents (before : List (Event ν ε)) (x : List (Event ν ε) × σ × BlockEnd ν) :
    List (Event ν ε) × σ × BlockEnd ν :=
  (before ++ x.1, x.2)

/-- The calls for the arguments report them. -/
theorem runInsts_buildArguments (args : ℕ → ν) {argNo : ℕ} {as : List IRArgument}
    {calls : List (IRInst σ ν ε)} (h : buildArguments argNo as = some calls) :
    ∃ events : List (Event ν ε), argumentEvents constantWrap args argNo as = some events ∧
      ∀ rest s, runInsts args (calls ++ rest) s =
        (runInsts args rest s).map (prependEvents events) := by
  induction as generalizing argNo calls with
  | nil =>
      obtain rfl := Option.some.inj h
      have hid : (prependEvents [] : List (Event ν ε) × σ × BlockEnd ν → _) = id := by
        funext x
        rfl
      exact ⟨[], rfl, fun rest s => by rw [hid, Option.map_id]; rfl⟩
  | cons arg as ih =>
      obtain ⟨call, hcall, h⟩ := Option.bind_eq_some_iff.mp h
      obtain ⟨calls', hcalls', rfl⟩ := Option.map_eq_some_iff.mp h
      obtain ⟨symbol, hsymbol, rfl⟩ := Option.map_eq_some_iff.mp hcall
      obtain ⟨events, hevents, hrun⟩ := ih hcalls'
      refine ⟨_, by rw [argumentEvents, hsymbol, hevents]; rfl, fun rest s => ?_⟩
      rw [List.cons_append, runInsts, hrun, Option.map_map]
      rfl

/-- **The entry block reports the signature** and goes on with the actual entry block. -/
theorem runInsts_signature (F : IRFunction σ ν ε) (args : ℕ → ν) {calls : List (IRInst σ ν ε)}
    (h : buildArguments 0 F.args = some calls) :
    ∃ signature, F.signatureEvents constantWrap args = some signature ∧
      ∀ s, runInsts args ((buildSignatureCall beginFunctionSignature F :: calls ++
          [buildSignatureCall endFunctionSignature F]) ++
            [.terminator fun _ _ => some F.entryBlock.label]) s =
        some (signature, s, .jump F.entryBlock.label) := by
  obtain ⟨events, hevents, hrun⟩ := runInsts_buildArguments args h
  refine ⟨_, by rw [IRFunction.signatureEvents, hevents]; rfl, fun s => ?_⟩
  rw [List.cons_append, List.cons_append, List.append_assoc, buildSignatureCall, runInsts, hrun]
  simp [runInsts, buildSignatureCall, prependEvents, CallOperand.eval, constantInt, constantWrap]

/-- What a return adds to the events of a block. -/
def IRFunction.withResult (F : IRFunction σ ν ε) (x : List (Event ν ε) × σ × BlockEnd ν) :
    List (Event ν ε) × σ × BlockEnd ν :=
  match x with
  | (events, s, .returned value) => (events ++ (F.resultEvent value).toList, s, .returned value)
  | (events, s, .jump target) => (events, s, .jump target)

/-- **The hooks of a block report the result** right before a return and nothing else. -/
theorem runInsts_buildInstHooks (F : IRFunction σ ν ε) (args : ℕ → ν)
    {is js : List (IRInst σ ν ε)} (h : buildInstHooks is = some js)
    (htyped : ∀ value, .ret value ∈ is → ∃ v, value = some v ∧ v.type = F.returnType) (s : σ) :
    runInsts args js s = (runInsts args is s).map F.withResult := by
  induction is generalizing js s with
  | nil =>
      obtain rfl := Option.some.inj h
      rfl
  | cons i is ih =>
      obtain ⟨hook, hhook, h⟩ := Option.bind_eq_some_iff.mp h
      obtain ⟨js', hjs', rfl⟩ := Option.map_eq_some_iff.mp h
      have ih' := ih hjs' fun value hmem => htyped value (List.mem_cons_of_mem _ hmem)
      cases i with
      | ret value =>
          obtain ⟨v, rfl, htype⟩ := htyped value List.mem_cons_self
          obtain ⟨symbol, hsymbol, rfl⟩ := Option.map_eq_some_iff.mp hhook
          rw [htype] at hsymbol
          simp [runInsts, IRFunction.withResult, IRFunction.resultEvent, hsymbol, CallOperand.eval,
            htype]
      | other effect =>
          obtain rfl := Option.some.inj hhook
          rw [List.cons_append, List.nil_append, runInsts, runInsts, Option.map_bind]
          congr 1
          funext ⟨t, effects⟩
          simp only [Function.comp_apply, ih' t]
          cases runInsts args is t with
          | none => rfl
          | some x =>
              obtain ⟨events, t', last⟩ := x
              cases last <;> simp [IRFunction.withResult]
      | call symbol operands =>
          obtain rfl := Option.some.inj hhook
          rw [List.cons_append, List.nil_append, runInsts, runInsts, ih' s]
          cases runInsts args is s with
          | none => rfl
          | some x =>
              obtain ⟨events, t', last⟩ := x
              cases last <;> simp [IRFunction.withResult]
      | terminator next =>
          obtain rfl := Option.some.inj hhook
          rw [List.cons_append, List.nil_append, runInsts, runInsts]
          cases next args s <;> rfl

/-! ## Instrumented runs -/

/-- The new label is not in use. -/
theorem IRFunction.newLabel_notMem (F : IRFunction σ ν ε) :
    F.newLabel ∉ F.blocks.map IRBlock.label := by
  intro hmem
  have hle := List.le_max_of_le' 0 hmem le_rfl
  exact absurd hle (Nat.not_succ_le_self _)

/-- Blocks are found with their hooks. -/
theorem find?_of_buildBlocksHooks {bs bs' : List (IRBlock σ ν ε)}
    (h : buildBlocksHooks bs = some bs') (label : ℕ) :
    bs'.find? (fun b => b.label = label) =
      (bs.find? fun b => b.label = label).bind buildBlockHooks := by
  induction bs generalizing bs' with
  | nil =>
      obtain rfl := Option.some.inj h
      rfl
  | cons b bs ih =>
      obtain ⟨b', hb', h⟩ := Option.bind_eq_some_iff.mp h
      obtain ⟨bs'', hbs'', rfl⟩ := Option.map_eq_some_iff.mp h
      have hlabel' : b'.label = b.label := by
        obtain ⟨is, -, rfl⟩ := Option.map_eq_some_iff.mp hb'
        rfl
      by_cases hlabel : b.label = label
      · simp [hlabel, hlabel', hb']
      · simpa [hlabel, hlabel'] using ih hbs''

/-- The block of a label takes the step. -/
theorem IRFunction.step_of_find? {F : IRFunction σ ν ε} {c : IRConfig σ ν ε} {b : IRBlock σ ν ε}
    (h : F.blocks.find? (fun b => b.label = c.label) = some b) (args : ℕ → ν) :
    F.step args c = b.step args c := by
  rw [step, h]

/-- Without a block a run is stuck. -/
theorem IRFunction.step_of_find?_none {F : IRFunction σ ν ε} {c : IRConfig σ ν ε}
    (h : F.blocks.find? (fun b => b.label = c.label) = none) (args : ℕ → ν) :
    F.step args c = .inr none := by
  rw [step, h]

section

variable {F : IRFunction σ ν ε}

/-- Where a run can be: at a block of the function, and at the entry block when it comes from
none. -/
structure IRConfig.At (F : IRFunction σ ν ε) (c : IRConfig σ ν ε) : Prop where
  mem : c.label ∈ F.blocks.map IRBlock.label
  entry : c.pred = none → c.label = F.entryBlock.label

/-- A block is left by one of its instructions. -/
theorem exists_last_of_runInsts {args : ℕ → ν} {is : List (IRInst σ ν ε)} {s t : σ}
    {events : List (Event ν ε)} {last : BlockEnd ν}
    (h : runInsts args is s = some (events, t, last)) :
    ∃ i ∈ is, runInsts args [i] t = some ([], t, last) := by
  induction is generalizing s events with
  | nil => cases h
  | cons i is ih =>
      cases i with
      | ret value =>
          simp only [runInsts, Option.some.injEq, Prod.mk.injEq] at h
          obtain ⟨-, rfl, rfl⟩ := h
          exact ⟨_, List.mem_cons_self, rfl⟩
      | other effect =>
          obtain ⟨⟨u, effects⟩, -, h⟩ := Option.bind_eq_some_iff.mp h
          obtain ⟨⟨events', end'⟩, hrun, heq⟩ := Option.map_eq_some_iff.mp h
          obtain ⟨-, rfl⟩ := Prod.mk.inj heq
          obtain ⟨j, hj, hlast⟩ := ih hrun
          exact ⟨j, List.mem_cons_of_mem _ hj, hlast⟩
      | call symbol operands =>
          obtain ⟨⟨events', end'⟩, hrun, heq⟩ := Option.map_eq_some_iff.mp h
          obtain ⟨-, rfl⟩ := Prod.mk.inj heq
          obtain ⟨j, hj, hlast⟩ := ih hrun
          exact ⟨j, List.mem_cons_of_mem _ hj, hlast⟩
      | terminator next =>
          obtain ⟨target, hnext, heq⟩ := Option.map_eq_some_iff.mp h
          simp only [Prod.mk.injEq] at heq
          obtain ⟨-, rfl, rfl⟩ := heq
          exact ⟨_, List.mem_cons_self, by rw [runInsts, hnext]; rfl⟩

/-- A returned value is that of a return. -/
theorem exists_ret_of_runInsts {args : ℕ → ν} {is : List (IRInst σ ν ε)} {s t : σ}
    {events : List (Event ν ε)} {value : Option ν}
    (h : runInsts args is s = some (events, t, .returned value)) :
    ∃ v, .ret v ∈ is ∧ value = v.map fun v => v.eval args t := by
  obtain ⟨i, hi, hlast⟩ := exists_last_of_runInsts h
  cases i with
  | ret v =>
      simp only [runInsts, Option.some.injEq, Prod.mk.injEq, BlockEnd.returned.injEq, true_and]
        at hlast
      exact ⟨v, hi, hlast.symm⟩
  | other effect => simp [runInsts] at hlast
  | call symbol operands => cases hlast
  | terminator next => simp [runInsts] at hlast

/-- A run stays in the function. -/
theorem IRConfig.At.next {args : ℕ → ν} {c d : IRConfig σ ν ε} (hF : F.Verified)
    (hstep : F.step args c = .inl d) : d.At F := by
  cases hb : F.blocks.find? fun b => b.label = c.label with
  | none =>
      rw [IRFunction.step_of_find?_none hb] at hstep
      cases hstep
  | some b =>
      rw [IRFunction.step_of_find? hb, IRBlock.step] at hstep
      split at hstep
      · cases hstep
      · rename_i events t target hrun
        obtain rfl := Sum.inl.inj hstep
        obtain ⟨i, hi, hlast⟩ := exists_last_of_runInsts hrun
        cases i with
        | ret v => simp [runInsts] at hlast
        | other effect => simp [runInsts] at hlast
        | call symbol operands => cases hlast
        | terminator next =>
            have hnext : next args t = some target := by simpa [runInsts] using hlast
            exact ⟨List.mem_cons_of_mem _ (hF.targets_mem b (List.mem_of_find?_eq_some hb) next hi
              args t target hnext), nofun⟩
      · cases hstep

/-- Where the instrumented function is when the function itself is somewhere. -/
def IRFunction.followed (F : IRFunction σ ν ε) (signature : List (Event ν ε))
    (c : IRConfig σ ν ε) : IRConfig σ ν ε :=
  { c with
    pred := some (c.pred.getD F.newLabel)
    events := signature ++ c.events }

/-- What the instrumented function leaves when the function itself leaves something. -/
def IRFunction.reported (F : IRFunction σ ν ε) (signature : List (Event ν ε)) :
    Option (IRResult σ ν ε) → Option (IRResult σ ν ε) :=
  Option.map fun (events, t, value) =>
    (signature ++ events ++ (F.resultEvent value).toList, t, value)

/-- **A block with its hooks** does what the block does, when the block has no phi nodes or is
entered from another one. -/
theorem IRBlock.step_hooks {b : IRBlock σ ν ε} {is : List (IRInst σ ν ε)}
    (his : buildInstHooks b.insts = some is) (args : ℕ → ν)
    (htyped : ∀ value, .ret value ∈ b.insts → ∃ v, value = some v ∧ v.type = F.returnType)
    (signature : List (Event ν ε)) {c : IRConfig σ ν ε} (hc : c.pred = none → b.phis = none) :
    IRBlock.step { b with insts := is } args (F.followed signature c) =
      (b.step args c).map (F.followed signature) (F.reported signature) := by
  have hphis : IRBlock.enter { b with insts := is } (some (c.pred.getD F.newLabel)) c.state =
      b.enter c.pred c.state := by
    cases hpred : c.pred with
    | some pred => rfl
    | none => simp [enter, hc hpred]
  have hrun := runInsts_buildInstHooks F args his htyped (b.enter c.pred c.state)
  simp only [step, IRFunction.followed, hphis, hrun]
  cases runInsts args b.insts (b.enter c.pred c.state) with
  | none => rfl
  | some x =>
      obtain ⟨events, t, last⟩ := x
      cases last <;> simp [IRFunction.withResult, IRFunction.followed, IRFunction.reported]

/-- **One block of the instrumented function** does what the block does. -/
theorem step_instrumented {F' : IRFunction σ ν ε} (hF : F.Verified) (hvoid : F.returnType ≠ .void)
    (hentry : F'.entryBlock.label = F.newLabel)
    (hbs : buildBlocksHooks F.blocks = some F'.otherBlocks) (args : ℕ → ν)
    (signature : List (Event ν ε)) {c : IRConfig σ ν ε} (hc : c.At F) :
    F'.step args (F.followed signature c) =
      (F.step args c).map (F.followed signature) (F.reported signature) := by
  have hnew : F'.entryBlock.label ≠ (F.followed signature c).label := by
    rw [hentry]
    exact fun heq => F.newLabel_notMem (heq ▸ hc.mem)
  have hfind : F'.blocks.find? (fun b => b.label = (F.followed signature c).label) =
      (F.blocks.find? fun b => b.label = c.label).bind buildBlockHooks := by
    rw [IRFunction.blocks, List.find?_cons_of_neg (by simpa using hnew)]
    exact find?_of_buildBlocksHooks hbs c.label
  cases hb : F.blocks.find? fun b => b.label = c.label with
  | none =>
      rw [hb] at hfind
      rw [IRFunction.step_of_find?_none hb, IRFunction.step_of_find?_none hfind]
      rfl
  | some b =>
      have hmem := List.mem_of_find?_eq_some hb
      obtain ⟨is, his⟩ := (exists_buildBlocksHooks_iff F.blocks).mp ⟨_, hbs⟩ b hmem
      rw [hb, Option.bind_some, buildBlockHooks, his, Option.map_some] at hfind
      rw [IRFunction.step_of_find? hb, IRFunction.step_of_find? hfind]
      refine IRBlock.step_hooks his args (hF.rets_typed hvoid b hmem) signature fun hpred => ?_
      -- only the entry block is entered from nowhere
      rw [IRFunction.blocks, List.find?_cons_of_pos (by simp [hc.entry hpred])] at hb
      obtain rfl := Option.some.inj hb
      exact hF.entry_phis

/-- **Runs of the instrumented function** are the runs of the function, with the signature in front
and the result at the end. -/
theorem runs_instrumented_iff {F' : IRFunction σ ν ε} (hF : F.Verified)
    (hvoid : F.returnType ≠ .void) (h : runOnFunction F = some F') (args : ℕ → ν) :
    ∃ signature, F.signatureEvents constantWrap args = some signature ∧
      ∀ s events t value, F'.Runs args s (events, t, value) ↔
        ∃ body, F.Runs args s (body, t, value) ∧
          events = signature ++ body ++ (F.resultEvent value).toList := by
  obtain ⟨calls, bs, hcalls, hbs, hF'⟩ := (runOnFunction_eq_some_iff hvoid).mp h
  obtain ⟨signature, hsignature, hrun⟩ := runInsts_signature F args hcalls
  refine ⟨signature, hsignature, fun s events t value => ?_⟩
  have hlabel : F'.entryBlock.label = F.newLabel := by rw [hF']
  have hbs' : buildBlocksHooks F.blocks = some F'.otherBlocks := by rw [hF', hbs]
  -- the new entry block reports the signature
  have hfirst : F'.step args ⟨none, F'.entryBlock.label, s, []⟩ =
      .inl (F.followed signature ⟨none, F.entryBlock.label, s, []⟩) := by
    rw [IRFunction.step_of_find? (List.find?_cons_of_pos (by simp)), IRBlock.step, hF']
    simp only [IRBlock.enter, hrun s]
    simp [IRFunction.followed]
  rw [IRFunction.Runs, returns_iff_of_next hfirst,
    returns_map_iff (fun _ _ _ hstep => IRConfig.At.next hF hstep)
      (fun _ hc => step_instrumented hF hvoid hlabel hbs' args signature hc)
      ⟨List.mem_cons_self, fun _ => rfl⟩]
  constructor
  · rintro ⟨x, hx, hreported⟩
    obtain ⟨⟨body, t', value'⟩, rfl, heq⟩ := Option.map_eq_some_iff.mp hreported
    simp only [Prod.mk.injEq] at heq
    obtain ⟨rfl, rfl, rfl⟩ := heq
    exact ⟨body, hx, rfl⟩
  · rintro ⟨body, hbody, rfl⟩
    exact ⟨_, hbody, rfl⟩

/-! ## Faithful reports -/

/-- What is reported of arguments is the same when their numbers are. -/
theorem argumentEvents_eq_iff {wrap wrap' : ℕ → ℕ → ℕ} {args : ℕ → ν} {argNo : ℕ}
    {as : List IRArgument} {events events' : List (Event ν ε)}
    (h : argumentEvents wrap args argNo as = some events)
    (h' : argumentEvents wrap' args argNo as = some events') :
    events.length = as.length ∧ events'.length = as.length ∧
      (events = events' ↔ ∀ n, argNo ≤ n → n < argNo + as.length → wrap 8 n = wrap' 8 n) := by
  induction as generalizing argNo events events' with
  | nil =>
      obtain rfl := Option.some.inj h
      obtain rfl := Option.some.inj h'
      refine ⟨rfl, rfl, iff_of_true rfl ?_⟩
      intro n hle hlt
      simp at hlt
      omega
  | cons arg as ih =>
      obtain ⟨symbol, hsymbol, h⟩ := Option.bind_eq_some_iff.mp h
      obtain ⟨symbol', hsymbol', h'⟩ := Option.bind_eq_some_iff.mp h'
      obtain ⟨rest, hrest, rfl⟩ := Option.map_eq_some_iff.mp h
      obtain ⟨rest', hrest', rfl⟩ := Option.map_eq_some_iff.mp h'
      obtain rfl : symbol = symbol' := Option.some.inj (hsymbol.symm.trans hsymbol')
      obtain ⟨hlength, hlength', heq⟩ := ih hrest hrest'
      refine ⟨by simp [hlength], by simp [hlength'], ?_⟩
      rw [List.cons.injEq, heq]
      simp only [Event.hook.injEq, List.cons.injEq, HookArg.constInt.injEq, true_and, and_true,
        List.length_cons]
      constructor
      · rintro ⟨hhead, htail⟩ n hle hlt
        rcases Nat.eq_or_lt_of_le hle with rfl | hlt'
        · exact hhead
        · exact htail n hlt' (by omega)
      · intro hall
        exact ⟨hall argNo le_rfl (by omega), fun n hle hlt => hall n (by omega) (by omega)⟩

/-- **The signature is reported faithfully** when there are at most 256 arguments. -/
theorem signatureEvents_eq_iff {args : ℕ → ν} {signature signature' : List (Event ν ε)}
    (h : F.signatureEvents constantWrap args = some signature)
    (h' : F.signatureEvents (fun _ n => n) args = some signature') :
    signature.length = signature'.length ∧ (signature = signature' ↔ F.args.length ≤ 256) := by
  obtain ⟨events, hevents, rfl⟩ := Option.map_eq_some_iff.mp h
  obtain ⟨events', hevents', rfl⟩ := Option.map_eq_some_iff.mp h'
  obtain ⟨hlength, hlength', heq⟩ := argumentEvents_eq_iff hevents hevents'
  refine ⟨by simp [hlength, hlength'], ?_⟩
  have hwrap : events = events' ↔ F.args.length ≤ 256 := by
    rw [heq, Nat.zero_add]
    constructor
    · intro hall
      by_contra hlt
      have hlast := hall 256 (Nat.zero_le _) (by omega)
      simp [constantWrap] at hlast
    · intro hle n _ hlt
      exact Nat.mod_eq_of_lt (by omega)
  rw [← hwrap]
  constructor
  · intro hcons
    obtain ⟨-, htail⟩ := List.cons.inj hcons
    exact (List.append_inj' htail rfl).1
  · rintro rfl
    have hcount : constantWrap 16 F.args.length = F.args.length :=
      Nat.mod_eq_of_lt (by have := hwrap.mp rfl; omega)
    rw [hcount]

/-- A function that returns has a return, and a value. -/
theorem exists_ret_of_runs (hF : F.Verified) (hvoid : F.returnType ≠ .void) {args : ℕ → ν} {s : σ}
    {result : IRResult σ ν ε} (h : F.Runs args s result) :
    (∃ b ∈ F.blocks, ∃ value, .ret value ∈ b.insts) ∧ ∃ v, result.2.2 = some v := by
  obtain ⟨c, hc⟩ := Returns.exists_done h
  cases hb : F.blocks.find? fun b => b.label = c.label with
  | none =>
      rw [IRFunction.step_of_find?_none hb] at hc
      cases hc
  | some b =>
      have hmem := List.mem_of_find?_eq_some hb
      rw [IRFunction.step_of_find? hb, IRBlock.step] at hc
      split at hc
      · cases hc
      · cases hc
      · rename_i events t value hrun
        obtain rfl := Option.some.inj (Sum.inr.inj hc)
        obtain ⟨v, hv, rfl⟩ := exists_ret_of_runInsts hrun
        obtain ⟨w, rfl, -⟩ := hF.rets_typed hvoid b hmem v hv
        exact ⟨⟨b, hmem, _, hv⟩, _, rfl⟩

/-- The true reports exist when the arguments are named. -/
theorem exists_signatureEvents (wrap : ℕ → ℕ → ℕ) (args : ℕ → ν)
    (h : ∀ arg ∈ F.args, arg.type.getTypeName.isSome = true) :
    ∃ signature, F.signatureEvents wrap args = some signature := by
  have hargs : ∀ (as : List IRArgument) argNo, (∀ arg ∈ as, arg.type.getTypeName.isSome = true) →
      ∃ events : List (Event ν ε), argumentEvents wrap args argNo as = some events := by
    intro as
    induction as with
    | nil => exact fun _ _ => ⟨[], rfl⟩
    | cons arg as ih =>
        intro argNo hnamed
        rw [List.forall_mem_cons] at hnamed
        obtain ⟨name, hname⟩ := Option.isSome_iff_exists.mp hnamed.1
        obtain ⟨events, hevents⟩ := ih (argNo + 1) hnamed.2
        exact ⟨_, by rw [argumentEvents, getArgumentSymbolName, hname, hevents]; rfl⟩
  obtain ⟨events, hevents⟩ := hargs F.args 0 h
  exact ⟨_, by rw [IRFunction.signatureEvents, hevents]; rfl⟩

/-- **When instrumentation is right**: for a function with a result, exactly when the types of its
arguments and of a returned result have names, and a function that returns has at most 256
arguments. -/
theorem instrumentedRight_iff (hF : F.Verified) (hvoid : F.returnType ≠ .void) :
    F.InstrumentedRight ↔ F.Reportable := by
  constructor
  · rintro ⟨F', hrun, hright⟩
    obtain ⟨hargs, hresult⟩ := (exists_runOnFunction_iff hF hvoid).mp ⟨F', hrun⟩
    refine ⟨hargs, hresult, ?_⟩
    rintro ⟨args, s, ⟨body, t, value⟩, hruns⟩
    obtain ⟨signature, hsignature, hiff⟩ := runs_instrumented_iff hF hvoid hrun args
    have hF' := (hiff s _ t value).mpr ⟨body, hruns, rfl⟩
    obtain ⟨signature', body', result, hsignature', -, -, heq⟩ := (hright args s _ t value).mp hF'
    obtain ⟨hlength, hfaithful⟩ := signatureEvents_eq_iff hsignature hsignature'
    rw [List.append_assoc, List.append_assoc] at heq
    exact hfaithful.mp (List.append_inj heq hlength).1
  · intro h
    obtain ⟨F', hrun⟩ := (exists_runOnFunction_iff hF hvoid).mpr ⟨h.args_named, h.result_named⟩
    refine ⟨F', hrun, fun args s events t value => ?_⟩
    obtain ⟨signature, hsignature, hiff⟩ := runs_instrumented_iff hF hvoid hrun args
    obtain ⟨signature', hsignature'⟩ := exists_signatureEvents (fun _ n => n) args h.args_named
    have hfaithful := (signatureEvents_eq_iff hsignature hsignature').2
    have hresult {body : List (Event ν ε)} (hruns : F.Runs args s (body, t, value)) :
        ∃ result, F.resultEvent value = some result := by
      obtain ⟨hret, v, rfl⟩ := exists_ret_of_runs hF hvoid hruns
      obtain ⟨name, hname⟩ := Option.isSome_iff_exists.mp (h.result_named hret)
      exact ⟨_, by rw [IRFunction.resultEvent, getReturnSymbolName, hname]; rfl⟩
    rw [hiff]
    constructor
    · rintro ⟨body, hruns, rfl⟩
      obtain rfl := hfaithful.mpr (h.args_numbered ⟨args, s, _, hruns⟩)
      obtain ⟨result, hsome⟩ := hresult hruns
      exact ⟨signature, body, result, hsignature', hruns, hsome, by rw [hsome]; rfl⟩
    · rintro ⟨signature'', body, result, hsignature'', hruns, hsome, rfl⟩
      obtain rfl := Option.some.inj (hsignature'.symm.trans hsignature'')
      obtain rfl := hfaithful.mpr (h.args_numbered ⟨args, s, _, hruns⟩)
      exact ⟨body, hruns, by rw [hsome]; rfl⟩

end

/-! ## The pass keeps functions well formed -/

/-- The hooks are calls. -/
theorem mem_buildInstHooks {is js : List (IRInst σ ν ε)} (h : buildInstHooks is = some js)
    {i : IRInst σ ν ε} (hi : i ∈ js) : (∃ symbol operands, i = .call symbol operands) ∨ i ∈ is := by
  induction is generalizing js with
  | nil =>
      obtain rfl := Option.some.inj h
      cases hi
  | cons j is ih =>
      obtain ⟨hook, hhook, h⟩ := Option.bind_eq_some_iff.mp h
      obtain ⟨js', hjs', rfl⟩ := Option.map_eq_some_iff.mp h
      rcases List.mem_append.mp hi with hmem | hmem
      · cases j with
        | ret value =>
            cases value with
            | none => cases hhook
            | some v =>
                obtain ⟨symbol, -, rfl⟩ := Option.map_eq_some_iff.mp hhook
                rcases List.mem_cons.mp hmem with rfl | hmem
                · exact .inl ⟨symbol, _, rfl⟩
                · exact .inr (List.mem_cons.mpr (.inl (List.mem_singleton.mp hmem)))
        | other effect =>
            obtain rfl := Option.some.inj hhook
            exact .inr (List.mem_cons.mpr (.inl (List.mem_singleton.mp hmem)))
        | call symbol operands =>
            obtain rfl := Option.some.inj hhook
            exact .inr (List.mem_cons.mpr (.inl (List.mem_singleton.mp hmem)))
        | terminator next =>
            obtain rfl := Option.some.inj hhook
            exact .inr (List.mem_cons.mpr (.inl (List.mem_singleton.mp hmem)))
      · rcases ih hjs' hmem with hcall | hold
        · exact .inl hcall
        · exact .inr (List.mem_cons_of_mem _ hold)

/-- Blocks with hooks come from the blocks. -/
theorem mem_buildBlocksHooks {bs bs' : List (IRBlock σ ν ε)} (h : buildBlocksHooks bs = some bs') :
    bs'.map IRBlock.label = bs.map IRBlock.label ∧
      ∀ b' ∈ bs', ∃ b ∈ bs, buildInstHooks b.insts = some b'.insts := by
  induction bs generalizing bs' with
  | nil =>
      obtain rfl := Option.some.inj h
      exact ⟨rfl, nofun⟩
  | cons b bs ih =>
      obtain ⟨b', hb', h⟩ := Option.bind_eq_some_iff.mp h
      obtain ⟨bs'', hbs'', rfl⟩ := Option.map_eq_some_iff.mp h
      obtain ⟨is, his, rfl⟩ := Option.map_eq_some_iff.mp hb'
      obtain ⟨hlabels, hmem⟩ := ih hbs''
      refine ⟨by rw [List.map_cons, List.map_cons, hlabels], ?_⟩
      rintro c (_ | ⟨_, hc⟩)
      · exact ⟨b, List.mem_cons_self, his⟩
      · obtain ⟨b₀, hb₀, hinsts⟩ := hmem c hc
        exact ⟨b₀, List.mem_cons_of_mem _ hb₀, hinsts⟩

/-- **The instrumented function is verified** when the function is. -/
theorem verified_of_runOnFunction {F F' : IRFunction σ ν ε} (hF : F.Verified)
    (hvoid : F.returnType ≠ .void) (h : runOnFunction F = some F') : F'.Verified := by
  obtain ⟨calls, bs, hcalls, hbs, rfl⟩ := (runOnFunction_eq_some_iff hvoid).mp h
  obtain ⟨hlabels, hblocks⟩ := mem_buildBlocksHooks hbs
  refine ⟨rfl, ?_, ?_⟩
  · rintro b (_ | ⟨_, hb⟩) next hnext args s target htarget
    · have hjump : next = fun _ _ => some F.entryBlock.label := by
        rcases List.mem_append.mp hnext with hcall | hjump
        · obtain ⟨_, _, hcall⟩ := eq_call_of_mem_signature hcalls hcall
          cases hcall
        · simpa using hjump
      subst hjump
      obtain rfl := Option.some.inj htarget
      show F.entryBlock.label ∈ bs.map IRBlock.label
      rw [hlabels]
      exact List.mem_cons_self
    · obtain ⟨b₀, hb₀, hinsts⟩ := hblocks b hb
      rcases mem_buildInstHooks hinsts hnext with ⟨_, _, hcall⟩ | hold
      · cases hcall
      · show target ∈ bs.map IRBlock.label
        rw [hlabels]
        exact List.mem_cons_of_mem _ (hF.targets_mem b₀ hb₀ next hold args s target htarget)
  · rintro _ b (_ | ⟨_, hb⟩) value hvalue
    · rcases List.mem_append.mp hvalue with hcall | hjump
      · obtain ⟨_, _, hcall⟩ := eq_call_of_mem_signature hcalls hcall
        cases hcall
      · cases List.mem_singleton.mp hjump
    · obtain ⟨b₀, hb₀, hinsts⟩ := hblocks b hb
      rcases mem_buildInstHooks hinsts hvalue with ⟨_, _, hcall⟩ | hold
      · cases hcall
      · exact hF.rets_typed hvoid b₀ hb₀ value hold

/-! ## Faithful reports of single functions -/

/-- The function that returns its only argument. -/
def returnsArgument (type : LLVMType) : IRFunction Unit ℕ Unit :=
  ⟨"f", [⟨"x", type⟩], .integer 16, ⟨0, none, [.ret (some ⟨.integer 16, fun args _ => args 0⟩)]⟩, []⟩

/-- It is verified. -/
theorem verified_returnsArgument (type : LLVMType) : (returnsArgument type).Verified where
  entry_phis := rfl
  targets_mem := by simp [returnsArgument, IRFunction.blocks]
  rets_typed _ := by simp [returnsArgument, IRFunction.blocks]

/-- An integer argument is reported. -/
theorem instrumentedRight_integer : (returnsArgument (.integer 16)).InstrumentedRight :=
  (instrumentedRight_iff (verified_returnsArgument (.integer 16)) (by decide)).mpr
    ⟨by decide, fun _ => rfl, fun _ => by decide⟩

/-- For a pointer argument the pass reaches `unknown return type`. -/
theorem not_instrumentedRight_pointer : ¬ (returnsArgument .pointer).InstrumentedRight := by
  rintro ⟨F', hrun, -⟩
  cases hrun

/-- Argument number 256 is reported as number 0. -/
example : (buildArgument ⟨"x", .integer 8⟩ 256 : Option (IRInst Unit ℕ Unit)) =
    some (.call "snes_instrumentation_argument_i8"
      [.string "x", .constInt 8 0, .value ⟨.integer 8, fun args _ => args 256⟩]) :=
  rfl

end Snes
