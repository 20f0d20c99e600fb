/-
# Call Sequences

What `LowerCall` emits for a call with stack arguments, how
`eliminateCallFramePseudoInstr` and `fixStackStores` rewrite it, and what the
result does.

Between the stores of a call sequence other instructions bring the arguments into
registers; `code` stands for them and gives the registers that they leave.
-/
import SnesBackend.MachineState

namespace Snes

open WordArith

/-! ## Stack arguments -/

/-- A stack argument at its store: its type, the register that holds it, and all registers then. -/
structure StackArg where
  type : ValueType
  src : WordReg
  regs : ByteReg → BitVec 8

/-- The bytes of an argument, low byte first. -/
def StackArg.bytes (a : StackArg) : List (BitVec 8) :=
  match a.type with
  | .i8 => [a.regs a.src.subLo]
  | .i16 => [a.regs a.src.subLo, a.regs a.src.subHi]

/-- What is in A at the store of an argument. -/
def StackArg.accumulator (a : StackArg) : BitVec 16 :=
  a.regs .AH ++ a.regs .AL

/-- The arguments with their `LocMemOffset`: `AllocateStack` without padding. -/
def locMemOffsets : ℕ → List StackArg → List (ℕ × StackArg)
  | _, [] => []
  | o, a :: as => (o, a) :: locMemOffsets (o + a.type.bytes) as

/-- The bytes of all stack arguments, `getNextStackOffset`. -/
def nextStackOffset (as : List StackArg) : ℕ :=
  (as.map fun a => a.type.bytes).sum

/-! ## Instructions -/

/-- The instructions of a call sequence. -/
inductive CallInst where
  | code (regs : ByteReg → BitVec 8)
  | STDSPQRr (q : ℕ) (src : WordReg)
  | STDWSPQRr (q : ℕ) (src : WordReg)
  | PHAstk (src : WordReg)
  | STDPtrQRr (ptr : WordReg) (q : ℕ) (src : WordReg)
  | STDWPtrQRr (ptr : WordReg) (q : ℕ) (src : WordReg)
  | SPREAD (dst : WordReg)
  | SUBIWRdK (rd src : WordReg) (k : BitVec 16)
  | SPWRITE (src : WordReg)
  | CALL

/-- The effect of an instruction up to the call.  `PHA` pushes A, whatever its operand. -/
def CallInst.exec (i : CallInst) (s : MachineState) : MachineState :=
  match i with
  | code regs => { s with regs := regs }
  | STDSPQRr q src => s.storeByte (s.sp + BitVec.ofNat 16 q) (s.regs src.subLo)
  | STDWSPQRr q src => s.storeWord (s.sp + BitVec.ofNat 16 q) (s.word src)
  | PHAstk _ => s.pushWord (s.word .A)
  | STDPtrQRr ptr q src => s.storeByte (s.word ptr + BitVec.ofNat 16 q) (s.regs src.subLo)
  | STDWPtrQRr ptr q src => s.storeWord (s.word ptr + BitVec.ofNat 16 q) (s.word src)
  | SPREAD dst => s.setWord dst s.sp
  | SUBIWRdK rd src k =>
      (s.setWord rd (s.word src - k)).setFlags (subFlags (s.word src) k false)
  | SPWRITE src => { s with sp := s.word src }
  | CALL => s

/-- The effect of a list of instructions. -/
def execCall (is : List CallInst) (s : MachineState) : MachineState :=
  is.foldl (fun s i => i.exec s) s

/-- Instructions in sequence. -/
theorem execCall_append (is js : List CallInst) (s : MachineState) :
    execCall (is ++ js) s = execCall js (execCall is s) :=
  List.foldl_append

/-! ## `LowerCall`, `fixStackStores` and `eliminateCallFramePseudoInstr` -/

/-- The stores of `LowerCall`, as `select<ISD::STORE>` selects them: the last argument first, each
one byte above its offset, because SP points to one stack slot further. -/
def lowerStores : ℕ → List StackArg → List CallInst
  | _, [] => []
  | o, a :: as =>
      lowerStores (o + a.type.bytes) as ++
        [.code a.regs,
          match a.type with
          | .i8 => .STDSPQRr (o + 1) a.src
          | .i16 => .STDWSPQRr (o + 1) a.src]

/-- What `fixStackStores` makes of one instruction. -/
def fixStackStore (insertPushes : Bool) : CallInst → CallInst
  | .STDSPQRr q src => if insertPushes then .PHAstk src else .STDPtrQRr .A q src
  | .STDWSPQRr q src => if insertPushes then .PHAstk src else .STDWPtrQRr .A q src
  | i => i

/-- `fixStackStores`, up to the call. -/
def fixStackStores (insertPushes : Bool) : List CallInst → List CallInst
  | [] => []
  | .CALL :: is => .CALL :: is
  | i :: is => fixStackStore insertPushes i :: fixStackStores insertPushes is

/-- `eliminateCallFramePseudoInstr` at the setup: what becomes of the instructions behind it. -/
def eliminateSetup (hasReservedCallFrame : Bool) (amount : ℕ) (is : List CallInst) :
    List CallInst :=
  if hasReservedCallFrame then fixStackStores false is
  else if amount ≠ 0 then fixStackStores true is
  else is

/-- `eliminateCallFramePseudoInstr` at the end of the sequence: the instructions that replace the
pseudo. -/
def eliminateDestroy (hasReservedCallFrame : Bool) (amount : ℕ) : List CallInst :=
  if hasReservedCallFrame then []
  else if amount ≠ 0 then
    [.SPREAD .A, .SUBIWRdK .A .A (-BitVec.ofNat 16 amount), .SPWRITE .A]
  else []

/-- A call: whether the call frame is reserved, the types and registers of its stack arguments, and
the type that the callee returns. -/
structure CallShape where
  hasReservedCallFrame : Bool
  stackArgs : List (ValueType × WordReg)
  ret : Option ValueType

/-- What happens at run time: the state at the start, the registers at each store, the registers at
the call, and the registers and the memory that the callee leaves. -/
structure CallRun (shape : CallShape) where
  start : MachineState
  args : List StackArg
  args_eq : args.map (fun a => (a.type, a.src)) = shape.stackArgs
  callRegs : ByteReg → BitVec 8
  returned : ByteReg → BitVec 8
  returnedMem : BitVec 16 → BitVec 8

namespace CallRun

variable {shape : CallShape} (run : CallRun shape)

/-- The state at the call instruction. -/
def atCall : MachineState :=
  execCall (eliminateSetup shape.hasReservedCallFrame (nextStackOffset run.args)
    (lowerStores 0 run.args ++ [.code run.callRegs, .CALL])) run.start

/-- The state at the end of the sequence; the callee gives SP back as it was at the call. -/
def final : MachineState :=
  execCall (eliminateDestroy shape.hasReservedCallFrame (nextStackOffset run.args))
    { run.atCall with regs := run.returned, mem := run.returnedMem }

end CallRun

/-- Bytes in memory from an address on. -/
def StoredAt (mem : BitVec 16 → BitVec 8) : BitVec 16 → List (BitVec 8) → Prop
  | _, [] => True
  | address, b :: bs => mem address = b ∧ StoredAt mem (address + 1) bs

/-- The returned value is where the callee left it. -/
def ReturnKept (ret : Option ValueType) (returned final : ByteReg → BitVec 8) : Prop :=
  match ret with
  | none => True
  | some .i8 => final .AL = returned .AL
  | some .i16 => final .AL = returned .AL ∧ final .AH = returned .AH

/-- A call sequence is right: in every run, each stack argument is stored at its offset above SP at
the call, SP comes back, and so does the returned value. -/
def CallSequenceRight (shape : CallShape) : Prop :=
  ∀ run : CallRun shape,
    (∀ x ∈ locMemOffsets 0 run.args,
      StoredAt run.atCall.mem (run.atCall.sp + BitVec.ofNat 16 x.1 + 1) x.2.bytes) ∧
    run.final.sp = run.start.sp ∧
    ReturnKept shape.ret run.returned run.final.regs

/-! ## The rewritten sequences -/

/-- The stores of a call sequence contain no call. -/
theorem call_not_mem_lowerStores (as : List StackArg) (o : ℕ) :
    CallInst.CALL ∉ lowerStores o as := by
  induction as generalizing o with
  | nil => exact List.not_mem_nil
  | cons a as ih =>
      rw [lowerStores, List.mem_append, not_or]
      refine ⟨ih _, ?_⟩
      cases a.type <;> simp

/-- `fixStackStores` rewrites every instruction before the call. -/
theorem fixStackStores_append (insertPushes : Bool) {is : List CallInst}
    (h : CallInst.CALL ∉ is) (js : List CallInst) :
    fixStackStores insertPushes (is ++ js) =
      is.map (fixStackStore insertPushes) ++ fixStackStores insertPushes js := by
  induction is with
  | nil => rfl
  | cons i is ih =>
      rw [List.mem_cons, not_or] at h
      rw [List.cons_append, List.map_cons, List.cons_append, ← ih h.2]
      cases i <;> first | rfl | exact absurd rfl h.1

/-- The stores as pushes: the last argument is pushed first. -/
def pushArgs : List StackArg → MachineState → MachineState
  | [], s => s
  | a :: as, s => { pushArgs as s with regs := a.regs }.pushWord a.accumulator

/-- The stores through A: the last argument is stored first. -/
def storeArgs : ℕ → List StackArg → MachineState → MachineState
  | _, [], s => s
  | o, a :: as, s =>
      (match a.type with
      | .i8 => CallInst.STDPtrQRr .A (o + 1) a.src
      | .i16 => CallInst.STDWPtrQRr .A (o + 1) a.src).exec
        { storeArgs (o + a.type.bytes) as s with regs := a.regs }

/-- The rewritten stores push. -/
theorem execCall_fix_true (as : List StackArg) (o : ℕ) (s : MachineState) :
    execCall ((lowerStores o as).map (fixStackStore true)) s = pushArgs as s := by
  induction as generalizing o with
  | nil => rfl
  | cons a as ih =>
      rw [lowerStores, List.map_append, execCall_append, ih, pushArgs]
      cases htype : a.type <;> rfl

/-- The rewritten stores go through A. -/
theorem execCall_fix_false (as : List StackArg) (o : ℕ) (s : MachineState) :
    execCall ((lowerStores o as).map (fixStackStore false)) s = storeArgs o as s := by
  induction as generalizing o with
  | nil => rfl
  | cons a as ih =>
      rw [lowerStores, List.map_append, execCall_append, ih, storeArgs]
      cases htype : a.type <;> rfl

/-- A call without stack arguments has nothing to store. -/
theorem nextStackOffset_eq_zero {as : List StackArg} : nextStackOffset as = 0 ↔ as = [] := by
  cases as with
  | nil => simp [nextStackOffset]
  | cons a as => cases h : a.type <;> simp [nextStackOffset, h, ValueType.bytes]

namespace CallRun

variable {shape : CallShape} (run : CallRun shape)

/-- Without a reserved call frame, the state at the call is the one after the pushes. -/
theorem atCall_of_not_reserved (h : shape.hasReservedCallFrame = false) :
    run.atCall = { pushArgs run.args run.start with regs := run.callRegs } := by
  unfold atCall eliminateSetup
  rw [h, if_neg Bool.false_ne_true]
  by_cases hargs : run.args = []
  · rw [hargs, if_neg (by simp [nextStackOffset])]
    rfl
  · rw [if_pos (mt nextStackOffset_eq_zero.mp hargs),
      fixStackStores_append _ (call_not_mem_lowerStores _ _), execCall_append, execCall_fix_true]
    rfl

/-- With a reserved call frame, it is the one after the stores through A. -/
theorem atCall_of_reserved (h : shape.hasReservedCallFrame = true) :
    run.atCall = { storeArgs 0 run.args run.start with regs := run.callRegs } := by
  unfold atCall eliminateSetup
  rw [h, if_pos rfl, fixStackStores_append _ (call_not_mem_lowerStores _ _), execCall_append,
    execCall_fix_false]
  rfl

/-- Without a reserved call frame, the end of a call with stack arguments adds their size to SP,
through A. -/
theorem final_of_not_reserved (h : shape.hasReservedCallFrame = false) (hargs : run.args ≠ []) :
    run.final.sp = run.atCall.sp + BitVec.ofNat 16 (nextStackOffset run.args) ∧
      run.final.word .A = run.atCall.sp + BitVec.ofNat 16 (nextStackOffset run.args) := by
  unfold final eliminateDestroy
  rw [h, if_neg Bool.false_ne_true, if_pos (mt nextStackOffset_eq_zero.mp hargs)]
  generalize run.atCall = t
  set amount := BitVec.ofNat 16 (nextStackOffset run.args)
  set u : MachineState := { t with regs := run.returned, mem := run.returnedMem }
  have read : (u.setWord .A u.sp).word .A = t.sp := MachineState.setWord_word_self u .A u.sp
  have added : ((u.setWord .A u.sp).setWord .A (t.sp - -amount)).word .A = t.sp + amount := by
    rw [MachineState.setWord_word_self, sub_neg_eq_add]
  simp only [execCall, List.foldl_cons, List.foldl_nil, CallInst.exec, read]
  exact ⟨added, added⟩

/-- In all other calls nothing is added. -/
theorem final_of_reserved_or_nil (h : shape.hasReservedCallFrame = true ∨ run.args = []) :
    run.final = { run.atCall with regs := run.returned, mem := run.returnedMem } := by
  unfold final eliminateDestroy
  rcases h with h | h
  · rw [h, if_pos rfl]
    rfl
  · have zero : nextStackOffset run.args = 0 := nextStackOffset_eq_zero.mpr h
    rw [if_neg (not_not.mpr zero), ite_self]
    rfl

end CallRun

/-! ## Pushed arguments -/

/-- Every push moves SP by two bytes. -/
theorem pushArgs_sp (as : List StackArg) (s : MachineState) :
    (pushArgs as s).sp = s.sp - BitVec.ofNat 16 (2 * as.length) := by
  induction as with
  | nil => simp [pushArgs]
  | cons a as ih =>
      rw [pushArgs, MachineState.pushWord_sp, List.length_cons, Nat.mul_add, BitVec.ofNat_add]
      show (pushArgs as s).sp - 2 = _
      rw [ih, sub_sub]
      rfl

/-- The memory after a push. -/
theorem pushWord_mem (s : MachineState) (v : BitVec 16) (x : BitVec 16) :
    (s.pushWord v).mem x =
      if x = s.sp - 1 then v.setWidth 8
      else if x = s.sp then (v >>> 8).setWidth 8
      else s.mem x := by
  simp only [MachineState.pushWord, MachineState.push, Function.update_apply]

/-- **Zeros all over**: pushing zero into a memory of zeros. -/
theorem pushArgs_mem_of_zero {as : List StackArg} (has : ∀ a ∈ as, a.accumulator = 0)
    {s : MachineState} (hs : ∀ x, s.mem x = 0) : ∀ x, (pushArgs as s).mem x = 0 := by
  induction as with
  | nil => exact hs
  | cons a as ih =>
      rw [List.forall_mem_cons] at has
      intro x
      have before := ih has.2 x
      rw [pushArgs, has.1, pushWord_mem]
      split_ifs
      · rfl
      · rfl
      · exact before

/-- **Zeros over the last pushes**: pushing zero makes as many bytes zero as are pushed. -/
theorem pushArgs_mem_of_pushed {as : List StackArg} (has : ∀ a ∈ as, a.accumulator = 0)
    (s : MachineState) : ∀ j < 2 * as.length,
      (pushArgs as s).mem (s.sp - BitVec.ofNat 16 j) = 0 := by
  induction as with
  | nil => simp
  | cons a as ih =>
      rw [List.forall_mem_cons] at has
      intro j hj
      have hsp : ({ pushArgs as s with regs := a.regs } : MachineState).sp =
          s.sp - BitVec.ofNat 16 (2 * as.length) := pushArgs_sp as s
      rw [pushArgs, has.1, pushWord_mem]
      split_ifs with low high
      · rfl
      · rfl
      · rw [hsp] at low high
        have earlier : j < 2 * as.length := by
          by_contra h
          have cases_j : j = 2 * as.length ∨ j = 2 * as.length + 1 := by
            rw [List.length_cons] at hj
            omega
          rcases cases_j with rfl | rfl
          · exact high rfl
          · apply low
            rw [BitVec.ofNat_add, ← sub_sub]
            rfl
        exact ih has.2 j earlier

/-- When the memory is pushed full of zeros nothing else is left. -/
theorem pushArgs_mem_of_full {as : List StackArg} (has : ∀ a ∈ as, a.accumulator = 0)
    (s : MachineState) (hfull : 2 ^ 16 ≤ 2 * as.length) : ∀ x, (pushArgs as s).mem x = 0 := by
  intro x
  have key := pushArgs_mem_of_pushed has s (s.sp - x).toNat (lt_of_lt_of_le (s.sp - x).isLt hfull)
  rwa [BitVec.ofNat_toNat, BitVec.setWidth_eq, sub_sub_cancel] at key

/-- The arguments one after another from an address on. -/
def StoredArgs (mem : BitVec 16 → BitVec 8) : BitVec 16 → List StackArg → Prop
  | _, [] => True
  | address, a :: as =>
      StoredAt mem address a.bytes ∧ StoredArgs mem (address + BitVec.ofNat 16 a.type.bytes) as

/-- Arguments at their offsets are arguments one after another. -/
theorem storedArgs_iff (mem : BitVec 16 → BitVec 8) (as : List StackArg) (base : BitVec 16)
    (o : ℕ) :
    (∀ x ∈ locMemOffsets o as, StoredAt mem (base + BitVec.ofNat 16 x.1 + 1) x.2.bytes) ↔
      StoredArgs mem (base + BitVec.ofNat 16 o + 1) as := by
  induction as generalizing o with
  | nil => simp [locMemOffsets, StoredArgs]
  | cons a as ih =>
      have next : base + BitVec.ofNat 16 (o + a.type.bytes) + 1 =
          base + BitVec.ofNat 16 o + 1 + BitVec.ofNat 16 a.type.bytes := by
        rw [BitVec.ofNat_add]
        ring
      rw [locMemOffsets, List.forall_mem_cons, ih, StoredArgs, next]

/-- An argument of 16 bits keeps its place when no byte near it changes. -/
theorem storedArgs_congr {mem mem' : BitVec 16 → BitVec 8} {as : List StackArg}
    (has : ∀ a ∈ as, a.type = .i16) {base : BitVec 16}
    (h : ∀ j < 2 * as.length, mem' (base + BitVec.ofNat 16 j) = mem (base + BitVec.ofNat 16 j))
    (hstored : StoredArgs mem base as) : StoredArgs mem' base as := by
  induction as generalizing base with
  | nil => trivial
  | cons a as ih =>
      rw [List.forall_mem_cons] at has
      obtain ⟨⟨low, high, -⟩, rest⟩ : (mem base = a.regs a.src.subLo ∧
          mem (base + 1) = a.regs a.src.subHi ∧ True) ∧
          StoredArgs mem (base + 2#16) as := by
        simpa only [StoredArgs, StackArg.bytes, has.1, StoredAt, ValueType.bytes] using hstored
      have at_low := h 0 (by simp)
      have at_high := h 1 (by rw [List.length_cons]; omega)
      rw [BitVec.add_zero] at at_low
      have later : ∀ j < 2 * as.length,
          mem' (base + 2 + BitVec.ofNat 16 j) = mem (base + 2 + BitVec.ofNat 16 j) := by
        intro j hj
        have := h (j + 2) (by rw [List.length_cons]; omega)
        rwa [BitVec.ofNat_add, add_comm (BitVec.ofNat 16 j), ← add_assoc] at this
      simp only [StoredArgs, StackArg.bytes, has.1, StoredAt, ValueType.bytes]
      exact ⟨⟨at_low.trans low, at_high.trans high, trivial⟩, ih has.2 later rest⟩

/-- **Pushed words are in place**: arguments of 16 bits from A, pushed last one first, stand one
after another above SP, as long as they fit in the address space. -/
theorem storedArgs_pushArgs {as : List StackArg} (has : ∀ a ∈ as, a.type = .i16 ∧ a.src = .A)
    (s : MachineState) (hfits : 2 * as.length ≤ 2 ^ 16) :
    StoredArgs (pushArgs as s).mem ((pushArgs as s).sp + 1) as := by
  induction as with
  | nil => trivial
  | cons a as ih =>
      rw [List.forall_mem_cons] at has
      rw [List.length_cons] at hfits
      have rest := ih has.2 (by omega)
      set t := pushArgs as s with ht
      have hsp : (pushArgs (a :: as) s).sp = t.sp - 2 := MachineState.pushWord_sp _ _
      have hmem : ∀ x, (pushArgs (a :: as) s).mem x =
          if x = t.sp - 1 then a.accumulator.setWidth 8
          else if x = t.sp then (a.accumulator >>> 8).setWidth 8
          else t.mem x := pushWord_mem _ _
      have kept : StoredArgs (pushArgs (a :: as) s).mem (t.sp + 1) as := by
        refine storedArgs_congr (fun a ha => (has.2 a ha).1) (fun j hj => ?_) rest
        rw [hmem, if_neg (by bv_omega), if_neg (by bv_omega)]
      have place : t.sp - 2 + 1 + BitVec.ofNat 16 2 = t.sp + 1 := by bv_omega
      have low : (pushArgs (a :: as) s).mem (t.sp - 2 + 1) = a.regs .AL := by
        rw [hmem, if_pos (by bv_omega)]
        exact BitVec.setWidth_append_eq_right
      have high : (pushArgs (a :: as) s).mem (t.sp - 2 + 1 + 1) = a.regs .AH := by
        rw [hmem, if_neg (by bv_omega), if_pos (by bv_omega)]
        exact MachineState.high_of_append _ _
      rw [hsp]
      simp only [StoredArgs, StackArg.bytes, has.1.1, has.1.2, StoredAt, ValueType.bytes]
      rw [place]
      exact ⟨⟨low, high, trivial⟩, kept⟩

/-! ## When a call sequence is right -/

/-- The size of the arguments: one or two bytes each, and two bytes for all only when all have 16
bits. -/
theorem nextStackOffset_bounds (as : List StackArg) :
    as.length ≤ nextStackOffset as ∧ nextStackOffset as ≤ 2 * as.length ∧
      (nextStackOffset as = 2 * as.length ↔ ∀ a ∈ as, a.type = .i16) := by
  induction as with
  | nil => simp [nextStackOffset]
  | cons a as ih =>
      obtain ⟨low, high, all⟩ := ih
      have sum : nextStackOffset (a :: as) = a.type.bytes + nextStackOffset as := rfl
      rw [sum, List.length_cons, List.forall_mem_cons, ← all]
      cases htype : a.type with
      | i8 =>
          simp only [ValueType.bytes, reduceCtorEq, false_and, iff_false]
          omega
      | i16 =>
          simp only [ValueType.bytes, true_and]
          omega

/-- The calls whose sequences are right: those without stack arguments, and those that push words
from A, return nothing and fit in the address space. -/
def CallCondition (shape : CallShape) : Prop :=
  shape.stackArgs = [] ∨
    (shape.hasReservedCallFrame = false ∧ (∀ x ∈ shape.stackArgs, x = (.i16, .A)) ∧
      2 * shape.stackArgs.length ≤ 2 ^ 16 ∧ shape.ret = none)

/-- A run has as many arguments as its shape. -/
theorem CallRun.length_args {shape : CallShape} (run : CallRun shape) :
    run.args.length = shape.stackArgs.length := by
  rw [← run.args_eq, List.length_map]

/-- Every returned value is kept where nothing is written. -/
theorem returnKept_self (ret : Option ValueType) (regs : ByteReg → BitVec 8) :
    ReturnKept ret regs regs := by
  rcases ret with _ | type
  · trivial
  · cases type
    · rfl
    · exact ⟨rfl, rfl⟩

/-- Under the condition every run is right. -/
theorem callSequenceRight_of_condition {shape : CallShape} (h : CallCondition shape) :
    CallSequenceRight shape := by
  intro run
  rcases h with hnil | ⟨hreserved, hwords, hfits, hret⟩
  · have hargs : run.args = [] := by
      rw [← List.map_eq_nil_iff, run.args_eq, hnil]
    have hcall : run.atCall.sp = run.start.sp := by
      cases hreserved : shape.hasReservedCallFrame with
      | false => rw [run.atCall_of_not_reserved hreserved, hargs, pushArgs]
      | true => rw [run.atCall_of_reserved hreserved, hargs, storeArgs]
    rw [run.final_of_reserved_or_nil (Or.inr hargs), hargs]
    refine ⟨?_, hcall, returnKept_self _ _⟩
    simp [locMemOffsets]
  · have hall : ∀ a ∈ run.args, a.type = .i16 ∧ a.src = .A := by
      intro a ha
      have mem := hwords (a.type, a.src) (run.args_eq ▸ List.mem_map_of_mem ha)
      exact Prod.mk.inj mem
    have hsize : nextStackOffset run.args = 2 * run.args.length :=
      (nextStackOffset_bounds run.args).2.2.mpr fun a ha => (hall a ha).1
    have hcall := run.atCall_of_not_reserved hreserved
    have hsp : run.atCall.sp = run.start.sp - BitVec.ofNat 16 (2 * run.args.length) := by
      rw [hcall]
      exact pushArgs_sp _ _
    refine ⟨?_, ?_, ?_⟩
    · rw [storedArgs_iff, BitVec.add_zero, hcall]
      exact storedArgs_pushArgs hall run.start (by rwa [run.length_args])
    · by_cases hargs : run.args = []
      · rw [run.final_of_reserved_or_nil (Or.inr hargs)]
        show run.atCall.sp = run.start.sp
        rw [hsp, hargs]
        exact sub_zero _
      · rw [(run.final_of_not_reserved hreserved hargs).1, hsp, hsize, sub_add_cancel]
    · rw [hret]
      trivial

/-! ## When it is not -/

/-- An argument at its store. -/
def placed (regs : ByteReg → BitVec 8) (x : ValueType × WordReg) : StackArg :=
  ⟨x.1, x.2, regs⟩

/-- Registers of zeros with a one in the low half of a main register. -/
def oneIn (r : WordReg) : ByteReg → BitVec 8 :=
  Function.update (fun _ => 0) r.subLo 1

/-- A state of zeros with a given SP. -/
def zeroState (sp : BitVec 16) : MachineState :=
  ⟨fun _ => 0, ⟨⟨false, false, false, false⟩, 0⟩, sp, fun _ => 0⟩

/-- Every argument has an offset. -/
theorem exists_mem_locMemOffsets {a : StackArg} {as : List StackArg} (ha : a ∈ as) (o : ℕ) :
    ∃ o', (o', a) ∈ locMemOffsets o as := by
  induction as generalizing o with
  | nil => cases ha
  | cons b as ih =>
      rcases List.mem_cons.mp ha with rfl | ha
      · exact ⟨o, List.mem_cons_self⟩
      · obtain ⟨o', ho'⟩ := ih ha (o + b.type.bytes)
        exact ⟨o', List.mem_cons_of_mem _ ho'⟩

/-- The first byte of an argument with a one in its register. -/
theorem storedAt_placed_oneIn {mem : BitVec 16 → BitVec 8} {address : BitVec 16}
    {x : ValueType × WordReg} (h : StoredAt mem address (placed (oneIn x.2) x).bytes) :
    mem address = 1 := by
  have one : oneIn x.2 x.2.subLo = 1 := Function.update_self ..
  obtain ⟨type, src⟩ := x
  cases type <;> exact h.1.trans one

/-- **Memory of zeros** does not hold a one. -/
theorem not_right_of_zero {shape : CallShape} (run : CallRun shape) {x : ValueType × WordReg}
    (hx : placed (oneIn x.2) x ∈ run.args) (hzero : ∀ y, run.atCall.mem y = 0) :
    ¬ CallSequenceRight shape := by
  intro h
  obtain ⟨o, ho⟩ := exists_mem_locMemOffsets hx 0
  have stored := storedAt_placed_oneIn ((h run).1 _ ho)
  rw [hzero] at stored
  exact absurd stored (by decide)

/-- Pushes in sequence. -/
theorem pushArgs_append (as bs : List StackArg) (s : MachineState) :
    pushArgs (as ++ bs) s = pushArgs as (pushArgs bs s) := by
  induction as with
  | nil => rfl
  | cons a as ih => rw [List.cons_append, pushArgs, pushArgs, ih]

/-- With zeros in all registers there is zero in A. -/
theorem accumulator_placed_zero (x : ValueType × WordReg) :
    (placed (fun _ => 0) x).accumulator = 0 := by
  simp only [StackArg.accumulator, placed]
  decide

/-- With a one in another register there is zero in A. -/
theorem accumulator_placed_oneIn {x : ValueType × WordReg} (h : x.2 ≠ .A) :
    (placed (oneIn x.2) x).accumulator = 0 := by
  obtain ⟨type, src⟩ := x
  simp only [StackArg.accumulator, placed]
  cases src with
  | A => exact absurd rfl h
  | X => decide
  | Y => decide

/-- An argument that is not in A is not pushed. -/
theorem not_right_of_src {shape : CallShape} (hreserved : shape.hasReservedCallFrame = false)
    {x : ValueType × WordReg} (hx : x ∈ shape.stackArgs) (hsrc : x.2 ≠ .A) :
    ¬ CallSequenceRight shape := by
  obtain ⟨pre, post, hargs⟩ := List.append_of_mem hx
  let run : CallRun shape :=
    { start := zeroState 0
      args := pre.map (placed fun _ => 0) ++ placed (oneIn x.2) x :: post.map (placed fun _ => 0)
      args_eq := by
        rw [hargs]
        simp [placed, Function.comp_def]
      callRegs := fun _ => 0
      returned := fun _ => 0
      returnedMem := fun _ => 0 }
  refine not_right_of_zero run (List.mem_append_cons_self) ?_
  rw [run.atCall_of_not_reserved hreserved]
  refine pushArgs_mem_of_zero ?_ fun _ => rfl
  intro a ha
  simp only [run, List.mem_append, List.mem_cons, List.mem_map] at ha
  rcases ha with ⟨y, -, rfl⟩ | rfl | ⟨y, -, rfl⟩
  · exact accumulator_placed_zero y
  · exact accumulator_placed_oneIn hsrc
  · exact accumulator_placed_zero y

/-- The argument that is pushed first is overwritten when the pushes go round the address space. -/
theorem not_right_of_length {shape : CallShape} (hreserved : shape.hasReservedCallFrame = false)
    (hlength : 2 ^ 16 < 2 * shape.stackArgs.length) : ¬ CallSequenceRight shape := by
  rcases List.eq_nil_or_concat shape.stackArgs with hargs | ⟨init, x, hargs⟩
  · rw [hargs] at hlength
    exact absurd hlength (by decide)
  let run : CallRun shape :=
    { start := zeroState 0
      args := init.map (placed fun _ => 0) ++ [placed (oneIn x.2) x]
      args_eq := by
        rw [hargs]
        simp [placed, Function.comp_def]
      callRegs := fun _ => 0
      returned := fun _ => 0
      returnedMem := fun _ => 0 }
  refine not_right_of_zero run (List.mem_append_right _ List.mem_cons_self) ?_
  rw [run.atCall_of_not_reserved hreserved]
  show ∀ y, (pushArgs run.args run.start).mem y = 0
  rw [show run.args = init.map (placed fun _ => 0) ++ [placed (oneIn x.2) x] from rfl,
    pushArgs_append]
  refine pushArgs_mem_of_full ?_ _ ?_
  · intro a ha
    obtain ⟨y, -, rfl⟩ := List.mem_map.mp ha
    exact accumulator_placed_zero y
  · rw [hargs, List.length_concat] at hlength
    rw [List.length_map]
    omega

/-- Pushes are words: with a byte among the arguments SP does not come back. -/
theorem not_right_of_byte {shape : CallShape} (hreserved : shape.hasReservedCallFrame = false)
    {x : ValueType × WordReg} (hx : x ∈ shape.stackArgs) (htype : x.1 = .i8)
    (hfits : 2 * shape.stackArgs.length ≤ 2 ^ 16) : ¬ CallSequenceRight shape := by
  intro h
  let run : CallRun shape :=
    { start := zeroState 0
      args := shape.stackArgs.map (placed fun _ => 0)
      args_eq := by simp [placed, Function.comp_def]
      callRegs := fun _ => 0
      returned := fun _ => 0
      returnedMem := fun _ => 0 }
  have mem : placed (fun _ => 0) x ∈ run.args := List.mem_map_of_mem hx
  have hargs : run.args ≠ [] := List.ne_nil_of_mem mem
  have sp := (h run).2.1
  rw [(run.final_of_not_reserved hreserved hargs).1, run.atCall_of_not_reserved hreserved] at sp
  obtain ⟨low, high, all⟩ := nextStackOffset_bounds run.args
  have hne : nextStackOffset run.args ≠ 2 * run.args.length := by
    intro heq
    have := all.mp heq _ mem
    rw [show (placed (fun _ => 0) x).type = x.1 from rfl, htype] at this
    cases this
  have hlen := run.length_args
  have moved : (pushArgs run.args run.start).sp + BitVec.ofNat 16 (nextStackOffset run.args) =
      run.start.sp := sp
  rw [pushArgs_sp] at moved
  bv_omega

/-- The clean-up goes through A: a returned value is lost. -/
theorem not_right_of_ret {shape : CallShape} (hreserved : shape.hasReservedCallFrame = false)
    (hargs : shape.stackArgs ≠ []) (hret : shape.ret ≠ none) : ¬ CallSequenceRight shape := by
  intro h
  let run : CallRun shape :=
    { start := zeroState 0
      args := shape.stackArgs.map (placed fun _ => 0)
      args_eq := by simp [placed, Function.comp_def]
      callRegs := fun _ => 0
      returned := oneIn .A
      returnedMem := fun _ => 0 }
  have hargs' : run.args ≠ [] := by simpa [run] using hargs
  obtain ⟨-, hsp, hkept⟩ := h run
  obtain ⟨final_sp, final_A⟩ := run.final_of_not_reserved hreserved hargs'
  rw [final_sp] at hsp
  have zero : run.final.word .A = 0 := final_A.trans hsp
  have low : run.final.regs .AL = 0 := by
    have := congrArg (BitVec.setWidth 8) zero
    rwa [MachineState.word, BitVec.setWidth_append_eq_right] at this
  have one : run.final.regs .AL = 1 := by
    cases hret' : shape.ret with
    | none => exact absurd hret' hret
    | some type =>
        rw [hret'] at hkept
        cases type with
        | i8 => exact hkept
        | i16 => exact hkept.1
  rw [low] at one
  exact absurd one (by decide)

/-- Stores of zeros into a memory of zeros. -/
theorem storeArgs_mem_of_zero (xs : List (ValueType × WordReg)) (o : ℕ) {s : MachineState}
    (hs : ∀ y, s.mem y = 0) :
    ∀ y, (storeArgs o (xs.map (placed fun _ => 0)) s).mem y = 0 := by
  induction xs generalizing o with
  | nil => exact hs
  | cons x xs ih =>
      intro y
      have before := ih (o + x.1.bytes) y
      obtain ⟨type, src⟩ := x
      cases type with
      | i8 =>
          simp only [List.map_cons, placed, storeArgs, CallInst.exec, MachineState.storeByte,
            Function.update_apply]
          split_ifs
          · rfl
          · exact before
      | i16 =>
          simp only [List.map_cons, placed, storeArgs, CallInst.exec, MachineState.storeWord,
            MachineState.storeByte, MachineState.word, Function.update_apply]
          split_ifs
          · decide
          · decide
          · exact before

/-- Stores do not move SP. -/
theorem storeArgs_sp (as : List StackArg) (o : ℕ) (s : MachineState) :
    (storeArgs o as s).sp = s.sp := by
  induction as generalizing o with
  | nil => rfl
  | cons a as ih =>
      rw [storeArgs, ← ih (o + a.type.bytes)]
      cases a.type <;> rfl

/-- A store of one byte or of two bytes changes no other byte. -/
theorem exec_store_mem (ptr src : WordReg) (q : ℕ) (s : MachineState) {y : BitVec 16}
    (low : y ≠ s.word ptr + BitVec.ofNat 16 q) (high : y ≠ s.word ptr + BitVec.ofNat 16 q + 1) :
    ((CallInst.STDPtrQRr ptr q src).exec s).mem y = s.mem y ∧
      ((CallInst.STDWPtrQRr ptr q src).exec s).mem y = s.mem y := by
  constructor
  · exact Function.update_of_ne low _ _
  · exact (Function.update_of_ne high _ _).trans (Function.update_of_ne low _ _)

/-- With a reserved call frame the stores go through A, which does not hold SP. -/
theorem not_right_of_reserved {shape : CallShape} (hreserved : shape.hasReservedCallFrame = true)
    (hargs : shape.stackArgs ≠ []) : ¬ CallSequenceRight shape := by
  obtain ⟨x, xs, hcons⟩ := List.exists_cons_of_ne_nil hargs
  let run : CallRun shape :=
    { start := zeroState 5
      args := placed (oneIn x.2) x :: xs.map (placed fun _ => 0)
      args_eq := by
        rw [hcons]
        simp [placed, Function.comp_def]
      callRegs := fun _ => 0
      returned := fun _ => 0
      returnedMem := fun _ => 0 }
  intro h
  have stored := (h run).1 (0, placed (oneIn x.2) x) List.mem_cons_self
  rw [run.atCall_of_reserved hreserved] at stored
  have one := storedAt_placed_oneIn stored
  -- the one is stored at 1 or 2, but SP is 5
  have address : (storeArgs 0 run.args run.start).sp + BitVec.ofNat 16 0 + 1 = 6 := by
    rw [storeArgs_sp]
    show (5 : BitVec 16) + BitVec.ofNat 16 0 + 1 = 6
    decide
  have before := storeArgs_mem_of_zero xs (0 + x.1.bytes) (s := run.start) (fun _ => rfl) 6
  have kept : (storeArgs 0 run.args run.start).mem 6 = 0 := by
    obtain ⟨type, src⟩ := x
    have place : (6 : BitVec 16) ≠ (oneIn src .AH ++ oneIn src .AL) + BitVec.ofNat 16 1 ∧
        (6 : BitVec 16) ≠ (oneIn src .AH ++ oneIn src .AL) + BitVec.ofNat 16 1 + 1 := by
      cases src <;> decide
    have step := exec_store_mem .A src (0 + 1)
      { storeArgs (0 + type.bytes) (xs.map (placed fun _ => 0)) run.start with
        regs := oneIn src } place.1 place.2
    cases type with
    | i8 => exact step.1.trans before
    | i16 => exact step.2.trans before
  rw [address] at one
  exact absurd (kept.symm.trans one) (by decide)

/-- **When a call sequence is right.** -/
theorem callSequenceRight_iff (shape : CallShape) :
    CallSequenceRight shape ↔ CallCondition shape := by
  constructor
  · intro h
    by_cases hargs : shape.stackArgs = []
    · exact Or.inl hargs
    · cases hreserved : shape.hasReservedCallFrame with
      | true => exact absurd h (not_right_of_reserved hreserved hargs)
      | false =>
          have hfits : 2 * shape.stackArgs.length ≤ 2 ^ 16 :=
            not_lt.mp fun hlength => not_right_of_length hreserved hlength h
          refine Or.inr ⟨hreserved, ?_, hfits, ?_⟩
          · intro x hx
            have hsrc : x.2 = .A := by
              by_contra hsrc
              exact not_right_of_src hreserved hx hsrc h
            have htype : x.1 = .i16 := by
              cases htype : x.1 with
              | i8 => exact absurd h (not_right_of_byte hreserved hx htype hfits)
              | i16 => rfl
            exact Prod.ext htype hsrc
          · by_contra hret
            exact not_right_of_ret hreserved hargs hret h
  · exact callSequenceRight_of_condition

/-- **A reserved call frame with one stack argument goes wrong**: the argument is stored relative
to A. -/
theorem not_callSequenceRight_reserved : ¬ CallSequenceRight ⟨true, [(.i16, .X)], none⟩ :=
  not_right_of_reserved rfl (List.cons_ne_nil _ _)

end Snes
