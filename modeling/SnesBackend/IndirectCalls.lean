/-
# Indirect Calls

How the arguments of a call through a pointer get into their registers: the nodes that
`LowerCall` makes of the locations of the arguments, the nodes that
`select<SNESISD::CALL>` makes of the call, and the registers at the `ICALL`.

The token chain leads from node to node, so every order of issue is the same.  The last
copy ahead of the `ICALL` is that of the callee's address, to `A`: the first register that
`analyzeStandardArguments` assigns.  The glue of the copies before it goes to no node.
-/
import SnesBackend.ArgumentLocations

namespace Snes

open ListTiling

/-! ## Nodes -/

/-- An operand of a node: the chain or the glue of another node, a value, or what is named. -/
inductive DagOperand where
  | chain (node : ℕ)
  | glue (node : ℕ)
  | outVal (index : ℕ) (vt : ValueType)
  | calleeAddress
  | targetGlobalAddress
  | targetExternalSymbol
  | stackSlot (offset : ℕ)
  | register (reg : Option Reg)
  | registerMask (regs : List Reg)
deriving DecidableEq

/-- The nodes of a call up to the call itself.  What is chained ahead of `CALLSEQ_START` is left
out. -/
inductive DagOpcode where
  | CALLSEQ_START | STORE | CopyToReg | ICALL
deriving DecidableEq

/-- A node; it is named by its position. -/
structure DagNode where
  opcode : DagOpcode
  operands : List DagOperand
deriving DecidableEq

/-- `getCopyToReg`: the glue is the last operand, if there is glue. -/
def getCopyToReg (chain : ℕ) (reg : Option Reg) (value : DagOperand) (glue : Option ℕ) : DagNode :=
  ⟨.CopyToReg, [.chain chain, .register reg, value] ++ (glue.map DagOperand.glue).toList⟩

/-- `getStore`. -/
def getStore (chain : ℕ) (value address : DagOperand) : DagNode :=
  ⟨.STORE, [.chain chain, value, address]⟩

/-! ## `LowerCall` -/

/-- A value that is passed in a register, an element of `RegsToPass`. -/
structure RegArg where
  reg : Option Reg
  index : ℕ
  vt : ValueType
deriving DecidableEq

/-- A value that is passed on the stack. -/
structure MemArg where
  offset : ℕ
  index : ℕ
  vt : ValueType
deriving DecidableEq

/-- `RegsToPass`: the values up to the first location on the stack. -/
def regsToPass : ℕ → List CCValAssign → List RegArg
  | _, [] => []
  | index, loc :: locs =>
      match loc.loc with
      | .reg reg => ⟨reg, index, loc.locVT⟩ :: regsToPass (index + 1) locs
      | .mem _ => []

/-- The values on the stack, the last one first.  All locations from the first one on the stack on
are on the stack. -/
def memsToPass : ℕ → List CCValAssign → List MemArg
  | _, [] => []
  | index, loc :: locs =>
      match loc.loc with
      | .reg _ => memsToPass (index + 1) locs
      | .mem offset => memsToPass (index + 1) locs ++ [⟨offset, index, loc.locVT⟩]

/-- The nodes that `LowerCall` has made, and its variables `Chain` and `InFlag`. -/
structure CallDag where
  nodes : List DagNode
  chain : ℕ
  inFlag : Option ℕ

namespace CallDag

/-- Behind `CALLSEQ_START`. -/
def callseqStart : CallDag :=
  ⟨[⟨.CALLSEQ_START, []⟩], 0, none⟩

/-- A round of the loop over the stack arguments.  SP points to one stack slot further. -/
def storeArg (d : CallDag) (arg : MemArg) : CallDag :=
  { d with
    nodes := d.nodes ++
      [getStore d.chain (.outVal arg.index arg.vt) (.stackSlot (arg.offset + 1))]
    chain := d.nodes.length }

/-- A round of the loop over `RegsToPass`. -/
def copyArg (d : CallDag) (arg : RegArg) : CallDag :=
  { nodes := d.nodes ++ [getCopyToReg d.chain arg.reg (.outVal arg.index arg.vt) d.inFlag]
    chain := d.nodes.length
    inFlag := some d.nodes.length }

end CallDag

/-- The nodes that `LowerCall` makes ahead of the call. -/
def lowerCallNodes (locs : List CCValAssign) : CallDag :=
  (regsToPass 0 locs).foldl CallDag.copyArg
    ((memsToPass 0 locs).foldl CallDag.storeArg CallDag.callseqStart)

/-- The operands of the `SNESISD::CALL`. -/
def callOperands (callee : DagOperand) (locs : List CCValAssign) : List DagOperand :=
  [.chain (lowerCallNodes locs).chain, callee] ++
    (regsToPass 0 locs).map (fun arg => .register arg.reg) ++
    [.registerMask Reg.getCallPreservedMask] ++
    ((lowerCallNodes locs).inFlag.map DagOperand.glue).toList

/-! ## `select<SNESISD::CALL>` -/

/-- The nodes after the selection, with the position of `ResNode`. -/
structure SelectedCall where
  nodes : List DagNode
  resNode : ℕ

/-- Skip the incoming flag if present. -/
def skipFlag (operands : List DagOperand) : List DagOperand :=
  match operands.getLast? with
  | some (.glue _) => operands.dropLast
  | _ => operands

/-- `select<SNESISD::CALL>`, of the operands of the node.  Direct calls are autogenerated. -/
def selectCALL (nodes : List DagNode) : List DagOperand → Option SelectedCall
  | .chain chain :: callee :: operands =>
      if callee = .targetGlobalAddress ∨ callee = .targetExternalSymbol then none
      else some
        { nodes := nodes ++
            [getCopyToReg chain (some .A) callee none,
              ⟨.ICALL, [.register (some .A)] ++ skipFlag operands ++
                [.chain nodes.length, .glue nodes.length]⟩]
          resNode := nodes.length + 1 }
  | _ => none

/-! ## Calls -/

/-- A call through a pointer: whether the function is variadic, the widths of the values that are
passed, and what `OutVals` and the callee's address are at run time.  Of a piece of 8 bits the low
byte counts. -/
structure IndirectCall where
  isVarArg : Bool
  valueWidths : List ℕ
  outVals : ℕ → BitVec 16
  callee : BitVec 16

/-- `AnalyzeCallOperands` with `ArgCC_SNES_Vararg`: all pieces go to the stack, each to two
bytes. -/
def analyzeCallOperands (cc : CCState) (valNo : ℕ) : List OutputArg → List CCValAssign
  | [] => []
  | out :: outs =>
      ⟨valNo, out.vt, .mem (cc.allocateStack 2 1).1⟩ ::
        analyzeCallOperands (cc.allocateStack 2 1).2 (valNo + 1) outs

namespace IndirectCall

variable (c : IndirectCall)

/-- `Outs`. -/
def outs : List OutputArg :=
  c.valueWidths.flatMap outputArgs

/-- `ArgLocs`. -/
def argLocs : Option (List CCValAssign) :=
  if c.isVarArg then some (analyzeCallOperands {} 0 c.outs)
  else analyzeStandardArguments [] c.outs [] true

end IndirectCall

/-- A call through a pointer, lowered and selected. -/
def selectedCall (locs : List CCValAssign) : Option SelectedCall :=
  selectCALL (lowerCallNodes locs).nodes (callOperands .calleeAddress locs)

/-! ## Issuing the nodes -/

namespace MachineState

instance : Nonempty MachineState :=
  ⟨⟨fun _ => 0, ⟨⟨false, false, false, false⟩, 0⟩, 0, fun _ => 0⟩⟩

/-- Copy a value to a register; a half takes the low byte. -/
def copyToReg (s : MachineState) (v : BitVec 16) : Option Reg → MachineState
  | some (.byte r) => s.setByte r (v.setWidth 8)
  | some (.word r) => s.setWord r v
  | _ => s

/-- A register holds a value; a half holds the low byte. -/
def HoldsIn (s : MachineState) (v : BitVec 16) : Option Reg → Prop
  | some (.byte r) => s.regs r = v.setWidth 8
  | some (.word r) => s.word r = v
  | _ => False

/-- Store a value of a type. -/
def storeValue (s : MachineState) (address v : BitVec 16) : ValueType → MachineState
  | .i8 => s.storeByte address (v.setWidth 8)
  | .i16 => s.storeWord address v

end MachineState

/-- The node that an operand is a result of. -/
def DagOperand.node? : DagOperand → Option ℕ
  | chain node => some node
  | glue node => some node
  | _ => none

namespace DagOperand

@[simp] theorem node?_chain (node : ℕ) : (chain node).node? = some node := rfl

@[simp] theorem node?_glue (node : ℕ) : (glue node).node? = some node := rfl

@[simp] theorem node?_register (reg : Option Reg) : (register reg).node? = none := rfl

@[simp] theorem node?_registerMask (regs : List Reg) : (registerMask regs).node? = none := rfl

@[simp] theorem node?_outVal (index : ℕ) (vt : ValueType) : (outVal index vt).node? = none := rfl

@[simp] theorem node?_stackSlot (offset : ℕ) : (stackSlot offset).node? = none := rfl

end DagOperand

namespace DagNode

/-- The nodes that a node uses. -/
def uses (node : DagNode) : List ℕ :=
  node.operands.filterMap DagOperand.node?

/-- The effect of a node on the registers and the memory. -/
def exec (c : IndirectCall) (node : DagNode) (s : MachineState) : MachineState :=
  match node with
  | ⟨.CopyToReg, _ :: .register reg :: .outVal index _ :: _⟩ => s.copyToReg (c.outVals index) reg
  | ⟨.CopyToReg, _ :: .register reg :: .calleeAddress :: _⟩ => s.copyToReg c.callee reg
  | ⟨.STORE, [_, .outVal index vt, .stackSlot offset]⟩ =>
      s.storeValue (s.sp + BitVec.ofNat 16 offset) (c.outVals index) vt
  | _ => s

end DagNode

/-- An order of issue after the nodes that are already issued: each node once, behind all nodes that
it uses, and directly behind the node whose glue it takes. -/
def IssueOrder (nodes : List DagNode) : List ℕ → List ℕ → Prop
  | _, [] => True
  | issued, id :: order =>
      (id ∉ issued ∧ ∃ node, nodes[id]? = some node ∧ (∀ n ∈ node.uses, n ∈ issued) ∧
        ∀ n, .glue n ∈ node.operands → issued.getLast? = some n) ∧
      IssueOrder nodes (issued ++ [id]) order

/-- The state after the nodes of an order. -/
def issue (c : IndirectCall) (nodes : List DagNode) (order : List ℕ) (s : MachineState) :
    MachineState :=
  order.foldl (fun s id => (nodes[id]?.map fun node => node.exec c s).getD s) s

/-- The state after a list of nodes. -/
def execNodes (c : IndirectCall) (nodes : List DagNode) (s : MachineState) : MachineState :=
  nodes.foldl (fun s node => node.exec c s) s

/-- The state after the copies of arguments. -/
def copyArgs (c : IndirectCall) (args : List RegArg) (s : MachineState) : MachineState :=
  args.foldl (fun s arg => s.copyToReg (c.outVals arg.index) arg.reg) s

/-- A node takes the glue of another one. -/
def GluedTo (nodes : List DagNode) (id user : ℕ) : Prop :=
  ∃ node, nodes[user]? = some node ∧ .glue id ∈ node.operands

/-- A node is the copy of an argument. -/
def DagNode.IsCopyOf (node : DagNode) (arg : RegArg) : Prop :=
  ∃ chain glue, node = getCopyToReg chain arg.reg (.outVal arg.index arg.vt) glue

/-- The code of an indirect call is right.  The nodes can be issued up to the call; in every order
of issue, at the call, every register that is assigned holds its argument, and `A` holds the address
of the callee; and every copy of an argument is glued to the call, directly or by nodes between. -/
structure CallRight (c : IndirectCall) (args : List RegArg) (code : SelectedCall) : Prop where
  issued : ∃ order, IssueOrder code.nodes [] (order ++ [code.resNode])
  registers : ∀ order, IssueOrder code.nodes [] (order ++ [code.resNode]) → ∀ s, ∀ arg ∈ args,
    (issue c code.nodes order s).HoldsIn (c.outVals arg.index) arg.reg
  callee : ∀ order, IssueOrder code.nodes [] (order ++ [code.resNode]) → ∀ s,
    (issue c code.nodes order s).word .A = c.callee
  glued : ∀ arg ∈ args, ∃ id node, code.nodes[id]? = some node ∧ node.IsCopyOf arg ∧
    Relation.TransGen (GluedTo code.nodes) id code.resNode

/-- An indirect call is lowered and selected, to code that is right. -/
def IndirectCall.PassesArguments (c : IndirectCall) : Prop :=
  ∃ locs code, c.argLocs = some locs ∧ selectedCall locs = some code ∧
    CallRight c (regsToPass 0 locs) code

/-- A call that has no register for any argument: it is variadic, no value that is passed has a
piece, or the first one that has has more pieces than there are registers. -/
def IndirectCall.NoRegisterArguments (c : IndirectCall) : Prop :=
  c.isVarArg = true ∨
    ∀ size ∈ ((c.valueWidths.map getNumRegisters).filter (· ≠ 0)).head?, 3 < size

/-! ## The nodes in a row -/

/-- Each node uses the node before it, and no other. -/
def UsesPrevious (nodes : List DagNode) : Prop :=
  ∀ id node, nodes[id]? = some node → ∀ n, n ∈ node.uses ↔ n + 1 = id

/-- One more node. -/
theorem UsesPrevious.concat {nodes : List DagNode} {node : DagNode} (h : UsesPrevious nodes)
    (hnode : ∀ n, n ∈ node.uses ↔ n + 1 = nodes.length) : UsesPrevious (nodes ++ [node]) := by
  intro id other hid
  rcases Nat.lt_or_ge id nodes.length with hlt | hge
  · rw [List.getElem?_append_left hlt] at hid
    exact h id other hid
  · rw [List.getElem?_append_right hge, List.getElem?_singleton] at hid
    split_ifs at hid with hzero
    obtain rfl := Option.some.inj hid
    have hid : id = nodes.length := by omega
    rw [hid]
    exact hnode

/-- **Only one order**: the next node is issued next. -/
theorem IssueOrder.eq_range' {nodes : List DagNode} (h : UsesPrevious nodes) {order : List ℕ} :
    ∀ {k}, IssueOrder nodes (List.range k) order → order = List.range' k order.length := by
  induction order with
  | nil => intro _ _; rfl
  | cons id order ih =>
      rintro k ⟨⟨hnew, node, hnode, huses, -⟩, hrest⟩
      rw [List.mem_range, Nat.not_lt] at hnew
      obtain rfl : id = k := by
        rcases Nat.lt_or_eq_of_le hnew with hlt | heq
        · -- the node before `id` is not issued yet
          have hprevious := (h id node hnode (id - 1)).mpr (by omega)
          have hissued := List.mem_range.mp (huses _ hprevious)
          omega
        · exact heq.symm
      rw [← List.range_succ] at hrest
      rw [List.length_cons, List.range'_succ, ← ih hrest]

/-- The nodes can be issued one after the other. -/
theorem issueOrder_range' {nodes : List DagNode} (h : UsesPrevious nodes) (m : ℕ) :
    ∀ {k}, k + m ≤ nodes.length → IssueOrder nodes (List.range k) (List.range' k m) := by
  induction m with
  | zero => intro _ _; trivial
  | succ m ih =>
      intro k hk
      rw [List.range'_succ]
      refine ⟨⟨by simp, nodes[k], List.getElem?_eq_getElem (by omega), ?_, ?_⟩, ?_⟩
      · intro n hn
        have hprevious := (h k _ (List.getElem?_eq_getElem (by omega)) n).mp hn
        exact List.mem_range.mpr (by omega)
      · intro n hn
        have huse : n ∈ nodes[k].uses := List.mem_filterMap.mpr ⟨_, hn, rfl⟩
        obtain rfl := (h k _ (List.getElem?_eq_getElem (by omega)) n).mp huse
        rw [List.range_succ, List.getLast?_concat]
      · rw [← List.range_succ]
        exact ih (by omega)

/-- Nodes in sequence. -/
theorem execNodes_append (c : IndirectCall) (nodes nodes' : List DagNode) (s : MachineState) :
    execNodes c (nodes ++ nodes') s = execNodes c nodes' (execNodes c nodes s) :=
  List.foldl_append

/-- The state after the first nodes. -/
theorem issue_range (c : IndirectCall) (nodes : List DagNode) (s : MachineState) {k : ℕ}
    (hk : k ≤ nodes.length) :
    issue c nodes (List.range k) s = execNodes c (nodes.take k) s := by
  induction k with
  | zero => rfl
  | succ k ih =>
      have hnode := List.getElem?_eq_getElem (show k < nodes.length by omega)
      unfold issue at ih ⊢
      rw [List.range_succ, List.foldl_append, ih (by omega), List.take_add_one, execNodes_append,
        List.foldl_cons, List.foldl_nil, hnode]
      rfl

/-- **What holds at a node in every order**: what holds after the nodes before it. -/
theorem forall_issueOrder_iff {nodes : List DagNode} (h : UsesPrevious nodes) {last : ℕ}
    (hlast : last < nodes.length) (c : IndirectCall) (P : MachineState → Prop) :
    (∀ order, IssueOrder nodes [] (order ++ [last]) → ∀ s, P (issue c nodes order s)) ↔
      ∀ s, P (execNodes c (nodes.take last) s) := by
  have hrange : IssueOrder nodes [] (List.range last ++ [last]) := by
    have hall := issueOrder_range' h (last + 1) (k := 0) (by omega)
    rwa [← List.range_eq_range', List.range_succ] at hall
  constructor
  · intro hall s
    rw [← issue_range c nodes s hlast.le]
    exact hall _ hrange s
  · intro hall order horder s
    have heq := IssueOrder.eq_range' h (k := 0) horder
    rw [← List.range_eq_range', List.length_append, List.length_singleton,
      List.range_succ] at heq
    obtain ⟨hfront, hback⟩ := List.append_inj' heq rfl
    rw [hfront, ← (List.cons.inj hback).1, issue_range c nodes s hlast.le]
    exact hall s

/-! ## The nodes of a call -/

/-- The node of a copy uses the chain, and the glue if there is glue. -/
theorem mem_uses_getCopyToReg (chain : ℕ) (reg : Option Reg) {value : DagOperand}
    (hvalue : value.node? = none) (glue : Option ℕ) (n : ℕ) :
    n ∈ (getCopyToReg chain reg value glue).uses ↔ n = chain ∨ glue = some n := by
  cases glue with
  | none => simp [DagNode.uses, getCopyToReg, hvalue, eq_comm]
  | some glue => simp [DagNode.uses, getCopyToReg, hvalue, eq_comm]

namespace CallDag

/-- The nodes are in a row, `Chain` is the last one, and so is `InFlag` if it is set. -/
structure Linear (d : CallDag) : Prop where
  usesPrevious : UsesPrevious d.nodes
  chain : d.chain + 1 = d.nodes.length
  inFlag : ∀ id, d.inFlag = some id → id = d.chain

/-- `CALLSEQ_START` uses no node that is modelled. -/
theorem linear_callseqStart : Linear callseqStart := by
  refine ⟨?_, rfl, by rintro _ ⟨⟩⟩
  intro id node hid n
  rcases id with _ | id
  · obtain rfl := Option.some.inj hid
    simp [DagNode.uses]
  · cases hid

/-- A store is chained to the node before it. -/
theorem Linear.storeArg {d : CallDag} (h : Linear d) (hglue : d.inFlag = none) (arg : MemArg) :
    Linear (d.storeArg arg) ∧ (d.storeArg arg).inFlag = none := by
  refine ⟨⟨h.usesPrevious.concat ?_, ?_, ?_⟩, hglue⟩
  · intro n
    rw [← h.chain]
    simp [DagNode.uses, getStore, eq_comm]
  · simp [CallDag.storeArg]
  · intro id hid
    rw [show (d.storeArg arg).inFlag = d.inFlag from rfl, hglue] at hid
    cases hid

/-- A copy is chained to the node before it, and glued to no other. -/
theorem Linear.copyArg {d : CallDag} (h : Linear d) (arg : RegArg) : Linear (d.copyArg arg) := by
  refine ⟨h.usesPrevious.concat ?_, ?_, ?_⟩
  · intro n
    rw [mem_uses_getCopyToReg _ _ rfl, ← h.chain, Nat.add_right_cancel_iff]
    exact or_iff_left_of_imp (h.inFlag n)
  · simp [CallDag.copyArg]
  · rintro id ⟨⟩
    rfl

/-- All stores. -/
theorem Linear.foldl_storeArg {d : CallDag} (h : Linear d) (hglue : d.inFlag = none)
    (args : List MemArg) :
    Linear (args.foldl CallDag.storeArg d) ∧ (args.foldl CallDag.storeArg d).inFlag = none := by
  induction args generalizing d with
  | nil => exact ⟨h, hglue⟩
  | cons arg args ih =>
      obtain ⟨hone, hnone⟩ := h.storeArg hglue arg
      exact ih hone hnone

/-- All copies. -/
theorem Linear.foldl_copyArg {d : CallDag} (h : Linear d) (args : List RegArg) :
    Linear (args.foldl CallDag.copyArg d) := by
  induction args generalizing d with
  | nil => exact h
  | cons arg args ih => exact ih (h.copyArg arg)

/-- Only the copies change the registers further. -/
theorem execNodes_foldl_copyArg (c : IndirectCall) (args : List RegArg) (d : CallDag)
    (s : MachineState) :
    execNodes c (args.foldl CallDag.copyArg d).nodes s =
      copyArgs c args (execNodes c d.nodes s) := by
  induction args generalizing d with
  | nil => rfl
  | cons arg args ih =>
      rw [List.foldl_cons, ih, copyArg, execNodes_append]
      rfl

end CallDag

/-- The nodes of `LowerCall` are in a row. -/
theorem linear_lowerCallNodes (locs : List CCValAssign) : (lowerCallNodes locs).Linear :=
  (CallDag.linear_callseqStart.foldl_storeArg rfl (memsToPass 0 locs)).1.foldl_copyArg _

/-- The flag is skipped, the registers and the mask stay. -/
theorem skipFlag_append (operands : List DagOperand) (regs : List Reg) (glue : Option ℕ) :
    skipFlag (operands ++ [DagOperand.registerMask regs] ++ (glue.map DagOperand.glue).toList) =
      operands ++ [DagOperand.registerMask regs] := by
  cases glue with
  | none => simp [skipFlag]
  | some glue => simp [skipFlag]

/-- The copy of the callee's address, which takes no glue. -/
def calleeCopy (locs : List CCValAssign) : DagNode :=
  getCopyToReg (lowerCallNodes locs).chain (some .A) .calleeAddress none

/-- The `ICALL`, with the glue of the copy of the callee's address. -/
def icall (locs : List CCValAssign) : DagNode :=
  ⟨.ICALL, [.register (some .A)] ++
    ((regsToPass 0 locs).map (fun arg => .register arg.reg) ++
      [.registerMask Reg.getCallPreservedMask]) ++
    [.chain (lowerCallNodes locs).nodes.length, .glue (lowerCallNodes locs).nodes.length]⟩

/-- **The code of an indirect call.** -/
theorem selectedCall_eq (locs : List CCValAssign) :
    selectedCall locs = some
      { nodes := (lowerCallNodes locs).nodes ++ [calleeCopy locs, icall locs]
        resNode := (lowerCallNodes locs).nodes.length + 1 } := by
  have hskip := skipFlag_append ((regsToPass 0 locs).map fun arg => .register arg.reg)
    Reg.getCallPreservedMask (lowerCallNodes locs).inFlag
  unfold selectedCall callOperands
  rw [List.append_assoc, List.append_assoc, List.cons_append, List.cons_append, List.nil_append,
    selectCALL, if_neg (by decide), ← List.append_assoc, hskip]
  rfl

/-- The `ICALL` uses the copy of the callee's address, for the chain and for the glue. -/
theorem uses_icall (locs : List CCValAssign) :
    (icall locs).uses =
      [(lowerCallNodes locs).nodes.length, (lowerCallNodes locs).nodes.length] := by
  have hregs : ((regsToPass 0 locs).map fun arg => DagOperand.register arg.reg).filterMap
      DagOperand.node? = [] := by
    rw [List.filterMap_eq_nil_iff]
    intro operand hoperand
    obtain ⟨arg, -, rfl⟩ := List.mem_map.mp hoperand
    rfl
  rw [DagNode.uses, icall, List.filterMap_append, List.filterMap_append, List.filterMap_append,
    hregs]
  rfl

/-- The nodes up to the `ICALL` are in a row. -/
theorem usesPrevious_selected (locs : List CCValAssign) :
    UsesPrevious ((lowerCallNodes locs).nodes ++ [calleeCopy locs, icall locs]) := by
  obtain ⟨hrow, hchain, -⟩ := linear_lowerCallNodes locs
  have hcopy : UsesPrevious ((lowerCallNodes locs).nodes ++ [calleeCopy locs]) := by
    apply hrow.concat
    intro n
    rw [calleeCopy, mem_uses_getCopyToReg _ _ rfl, ← hchain, Nat.add_right_cancel_iff]
    exact or_iff_left (by rintro ⟨⟩)
  rw [← List.singleton_append, ← List.append_assoc]
  apply hcopy.concat
  intro n
  rw [List.length_append, List.length_singleton, Nat.add_right_cancel_iff]
  simp [uses_icall]

/-- **The registers at the `ICALL`**, in every order of issue: the copies of the arguments are done,
and after them that of the callee's address. -/
theorem forall_atCall_iff (c : IndirectCall) (locs : List CCValAssign) {code : SelectedCall}
    (hcode : selectedCall locs = some code) (P : MachineState → Prop) :
    (∀ order, IssueOrder code.nodes [] (order ++ [code.resNode]) →
        ∀ s, P (issue c code.nodes order s)) ↔
      ∀ s, P ((copyArgs c (regsToPass 0 locs) (execNodes c
        ((memsToPass 0 locs).foldl CallDag.storeArg CallDag.callseqStart).nodes s)).copyToReg
          c.callee (some .A)) := by
  rw [selectedCall_eq] at hcode
  obtain rfl := Option.some.inj hcode
  have htake : ((lowerCallNodes locs).nodes ++ [calleeCopy locs, icall locs]).take
      ((lowerCallNodes locs).nodes.length + 1) = (lowerCallNodes locs).nodes ++ [calleeCopy locs] :=
    List.take_length_add_append 1
  refine (forall_issueOrder_iff (usesPrevious_selected locs) (by simp) c P).trans
    (forall_congr' fun s => ?_)
  rw [htake, execNodes_append, lowerCallNodes, CallDag.execNodes_foldl_copyArg]
  rfl

/-! ## The registers of the arguments -/

/-- The halves of a register. -/
def Reg.halves : Reg → List ByteReg
  | byte r => [r]
  | word r => [r.subLo, r.subHi]
  | _ => []

/-- Registers that do not overlap have no common half. -/
theorem Reg.notMem_halves {r q : Reg} (h : q ∉ r.aliases) : ∀ b ∈ q.halves, b ∉ r.halves := by
  rcases r with (_ | _ | _ | _ | _ | _) | (_ | _ | _) | _ | _ | _ | _ | _ | _ <;>
    rcases q with (_ | _ | _ | _ | _ | _) | (_ | _ | _) | _ | _ | _ | _ | _ | _ <;>
      revert h <;> decide

namespace MachineState

/-- The halves of the other registers stay. -/
theorem copyToReg_regs (s : MachineState) (v : BitVec 16) {r : Reg} {b : ByteReg}
    (hb : b ∉ r.halves) : (s.copyToReg v (some r)).regs b = s.regs b := by
  cases r with
  | byte q => exact setByte_regs_of_ne s _ (by simpa [Reg.halves] using hb)
  | word q =>
      rw [Reg.halves, List.mem_pair, not_or] at hb
      show ((s.setByte q.subLo _).setByte q.subHi _).regs b = s.regs b
      rw [setByte_regs_of_ne _ _ hb.2, setByte_regs_of_ne _ _ hb.1]
  | _ => rfl

/-- What a register holds depends on its halves. -/
theorem holdsIn_congr {s t : MachineState} {r : Reg} (h : ∀ b ∈ r.halves, s.regs b = t.regs b)
    (v : BitVec 16) : s.HoldsIn v (some r) ↔ t.HoldsIn v (some r) := by
  cases r with
  | byte q =>
      show s.regs q = _ ↔ t.regs q = _
      rw [h q List.mem_cons_self]
  | word q =>
      show s.regs q.subHi ++ s.regs q.subLo = v ↔ t.regs q.subHi ++ t.regs q.subLo = v
      rw [h q.subLo (by simp [Reg.halves]), h q.subHi (by simp [Reg.halves])]
  | _ => rfl

/-- A copy does not change what the registers hold that do not overlap. -/
theorem holdsIn_copyToReg_of_apart (s : MachineState) (v w : BitVec 16) {r q : Reg}
    (h : q ∉ r.aliases) : (s.copyToReg w (some r)).HoldsIn v (some q) ↔ s.HoldsIn v (some q) :=
  holdsIn_congr (fun b hb => copyToReg_regs s w (Reg.notMem_halves h b hb)) v

/-- The register of an argument holds what is copied to it. -/
theorem holdsIn_copyToReg_self (s : MachineState) (v : BitVec 16) {vt : ValueType} {r : Reg}
    (h : r ∈ regList vt) : (s.copyToReg v (some r)).HoldsIn v (some r) := by
  cases r with
  | byte q => exact setByte_regs_self s q _
  | word q => exact setWord_word_self s q v
  | _ => cases vt <;> simp [regList] at h

end MachineState

/-- The registers of arguments: each is from its list, and no two overlap. -/
structure RegArgsApart (args : List RegArg) : Prop where
  fromList : ∀ arg ∈ args, ∃ r ∈ regList arg.vt, arg.reg = some r
  apart : args.Pairwise fun arg arg' =>
    ∀ r r', arg.reg = some r → arg'.reg = some r' → r' ∉ r.aliases

/-- The first copy, and the others. -/
theorem copyArgs_cons (c : IndirectCall) (arg : RegArg) (args : List RegArg) (s : MachineState) :
    copyArgs c (arg :: args) s = copyArgs c args (s.copyToReg (c.outVals arg.index) arg.reg) := rfl

/-- The copies that follow do not change what an earlier register holds. -/
theorem holdsIn_copyArgs_of_apart (c : IndirectCall) {args : List RegArg} {q : Reg}
    (hregs : ∀ arg ∈ args, ∃ r, arg.reg = some r ∧ q ∉ r.aliases) (v : BitVec 16)
    (s : MachineState) :
    (copyArgs c args s).HoldsIn v (some q) ↔ s.HoldsIn v (some q) := by
  induction args generalizing s with
  | nil => rfl
  | cons arg args ih =>
      obtain ⟨r, hr, hq⟩ := hregs arg List.mem_cons_self
      rw [copyArgs_cons, ih fun arg' harg' => hregs arg' (List.mem_cons_of_mem _ harg'), hr]
      exact s.holdsIn_copyToReg_of_apart v (c.outVals arg.index) hq

/-- **After the copies** every register holds its argument. -/
theorem RegArgsApart.holdsIn_copyArgs (c : IndirectCall) {args : List RegArg}
    (h : RegArgsApart args) (s : MachineState) :
    ∀ arg ∈ args, (copyArgs c args s).HoldsIn (c.outVals arg.index) arg.reg := by
  induction args generalizing s with
  | nil => simp
  | cons first args ih =>
      obtain ⟨hfirst, hrest⟩ := List.pairwise_cons.mp h.apart
      intro arg harg
      rcases List.mem_cons.mp harg with rfl | harg
      · obtain ⟨q, hq, hreg⟩ := h.fromList arg List.mem_cons_self
        have hlater : ∀ arg' ∈ args, ∃ r, arg'.reg = some r ∧ q ∉ r.aliases := by
          intro arg' harg'
          obtain ⟨r, -, hr⟩ := h.fromList arg' (List.mem_cons_of_mem _ harg')
          refine ⟨r, hr, ?_⟩
          rw [Reg.mem_aliases_comm]
          exact hfirst arg' harg' q r hreg hr
        rw [copyArgs_cons, hreg, holdsIn_copyArgs_of_apart c hlater]
        exact s.holdsIn_copyToReg_self _ hq
      · have htail : RegArgsApart args :=
          ⟨fun arg' harg' => h.fromList arg' (List.mem_cons_of_mem _ harg'), hrest⟩
        exact ih htail _ arg harg

/-! ## The locations -/

/-- Locations in registers, and behind them locations on the stack. -/
theorem regsToPass_append {front stack : List CCValAssign}
    (hstack : ∀ loc ∈ stack, loc.isMemLoc = true) (index : ℕ) :
    regsToPass index (front ++ stack) = regsToPass index front := by
  induction front generalizing index with
  | nil =>
      cases stack with
      | nil => rfl
      | cons loc stack =>
          obtain ⟨valNo, locVT, reg | offset⟩ := loc
          · cases hstack _ List.mem_cons_self
          · rfl
  | cons loc front ih =>
      rw [List.cons_append, regsToPass, regsToPass, ih]

/-- The registers and types of `RegsToPass` are those of the locations. -/
theorem regsToPass_map {front : List CCValAssign} (hfront : ∀ loc ∈ front, loc.isRegLoc = true)
    (index : ℕ) :
    (regsToPass index front).map (fun arg => (arg.vt, ArgLoc.reg arg.reg)) =
      front.map fun loc => (loc.locVT, loc.loc) := by
  induction front generalizing index with
  | nil => rfl
  | cons loc front ih =>
      have hrest := ih (fun loc' hloc' => hfront loc' (List.mem_cons_of_mem _ hloc')) (index + 1)
      obtain ⟨valNo, locVT, reg | offset⟩ := loc
      · rw [regsToPass, List.map_cons, List.map_cons, hrest]
      · cases hfront _ List.mem_cons_self

/-- The registers that are passed do not overlap. -/
theorem RegPart.regArgsApart {n : ℕ} (hn : n ≤ 3) {front : List CCValAssign}
    (h : RegPart 0 n front) (index : ℕ) : RegArgsApart (regsToPass index front) := by
  have hmap := regsToPass_map h.isRegLoc index
  constructor
  · intro arg harg
    have hmem := hmap ▸ List.mem_map_of_mem 
      (f := fun arg : RegArg => (arg.vt, ArgLoc.reg arg.reg)) harg
    obtain ⟨loc, hloc, heq⟩ := List.mem_map.mp hmem
    obtain ⟨hvt, hreg⟩ := Prod.mk.inj heq
    obtain ⟨r, hr⟩ := Option.isSome_iff_exists.mp (h.isSome hn loc hloc _ hreg)
    rw [h.registers loc hloc, ArgLoc.reg.injEq, hr, hvt] at hreg
    exact ⟨r, List.mem_of_getElem? hreg, hr⟩
  · have hapart := h.apart
    have hlocs : (front.map fun loc => (loc.locVT, loc.loc)).Pairwise fun loc loc' =>
        ∀ reg reg', loc.2 = .reg (some reg) → loc'.2 = .reg (some reg') → reg' ∉ reg.aliases :=
      List.pairwise_map.mpr hapart
    rw [← hmap, List.pairwise_map] at hlocs
    refine hlocs.imp fun hregs r r' hr hr' => ?_
    exact hregs r r' (congrArg ArgLoc.reg hr) (congrArg ArgLoc.reg hr')

/-- A variadic function has all its arguments on the stack. -/
theorem isMemLoc_analyzeCallOperands (cc : CCState) (valNo : ℕ) (outs : List OutputArg) :
    ∀ loc ∈ analyzeCallOperands cc valNo outs, loc.isMemLoc = true := by
  induction outs generalizing cc valNo with
  | nil => simp [analyzeCallOperands]
  | cons out outs ih =>
      rw [analyzeCallOperands]
      exact List.forall_mem_cons.mpr ⟨rfl, ih _ _⟩

namespace IndirectCall

variable (c : IndirectCall)

/-- The numbers of pieces of the values that are passed, as far as they have pieces. -/
def pieces : List ℕ :=
  (c.valueWidths.map getNumRegisters).filter (· ≠ 0)

/-- The values tile the pieces. -/
theorem tiles_pieces : Tiles (c.outs.map OutputArg.vt) c.pieces := by
  have htiles := tiles_flatMap_replicate getNumRegisters getRegisterType c.valueWidths
  have htypes : c.outs.map OutputArg.vt = c.valueWidths.flatMap fun width =>
      List.replicate (getNumRegisters width) (getRegisterType width) := by
    rw [outs, List.map_flatMap]
    exact congrArg (List.flatMap · _) (funext outputArgs_map_vt)
  rw [htypes]
  exact (tiles_filter_iff _ .i8 _).mpr htiles

/-- The locations, if the function is not variadic. -/
theorem argLocs_eq (h : c.isVarArg = false) :
    c.argLocs = places 0 (c.outs.map OutputArg.vt) c.pieces := by
  have hgroups : parseExternFuncCallArgs c.outs = some c.pieces :=
    parseParts_flatMap_outputArgs c.valueWidths _ le_rfl
  rw [argLocs, h, if_neg Bool.false_ne_true, analyzeStandardArguments, if_pos rfl, hgroups,
    Option.bind_some, assignArgs_eq_places, pieces, List.filter_filter]
  simp

/-- **The locations of a call**: first those in registers, then those on the stack. -/
theorem exists_argLocs :
    ∃ n front stack, c.argLocs = some (front ++ stack) ∧ n ≤ 3 ∧ RegPart 0 n front ∧
      ∀ loc ∈ stack, loc.isMemLoc = true := by
  cases h : c.isVarArg with
  | true =>
      refine ⟨0, [], analyzeCallOperands {} 0 c.outs, ?_, by omega, regPart_nil 0,
        isMemLoc_analyzeCallOperands _ _ _⟩
      rw [argLocs, h]
      rfl
  | false =>
      have hsizes : ∀ size ∈ c.pieces, size ≠ 0 := by
        intro size hsize
        simpa using (List.mem_filter.mp hsize).2
      obtain ⟨n, front, rest, -, hn, hplaces, hpart, -⟩ :=
        exists_places hsizes (Nat.zero_le 3) c.tiles_pieces
      refine ⟨n, front, stackLocs n 0 rest, ?_, hn, hpart,
        fun loc hloc => isMemLoc_of_mem_stackLocs hloc⟩
      rw [c.argLocs_eq h, hplaces]

/-- The registers of a call. -/
theorem regArgsApart {locs : List CCValAssign} (h : c.argLocs = some locs) :
    RegArgsApart (regsToPass 0 locs) := by
  obtain ⟨n, front, stack, hlocs, hn, hpart, hstack⟩ := c.exists_argLocs
  obtain rfl := Option.some.inj (h.symm.trans hlocs)
  rw [regsToPass_append hstack]
  exact hpart.regArgsApart hn 0

/-- **When no argument is passed in a register.** -/
theorem regsToPass_eq_nil_iff {locs : List CCValAssign} (h : c.argLocs = some locs) :
    regsToPass 0 locs = [] ↔ c.NoRegisterArguments := by
  unfold NoRegisterArguments
  cases hvar : c.isVarArg with
  | true =>
      rw [argLocs, hvar, if_pos rfl] at h
      obtain rfl := Option.some.inj h
      refine iff_of_true ?_ (.inl rfl)
      exact @regsToPass_append [] _ (isMemLoc_analyzeCallOperands _ _ _) 0
  | false =>
      have htiles := c.tiles_pieces
      have hsize : ∀ size ∈ c.pieces.head?, size ≠ 0 := by
        intro size hsize
        simpa using (List.mem_filter.mp (List.mem_of_mem_head? hsize)).2
      rw [c.argLocs_eq hvar] at h
      rw [← pieces]
      cases hpieces : c.pieces with
      | nil =>
          rw [hpieces, places] at h
          obtain rfl := Option.some.inj h
          simp [regsToPass]
      | cons size sizes =>
          rw [hpieces] at h htiles hsize
          have hne := hsize size rfl
          rcases hvts : c.outs.map OutputArg.vt with _ | ⟨vt, vts⟩
          · rw [hvts] at htiles
            exact absurd htiles (not_tiles_nil_cons hne sizes)
          rw [hvts] at h
          -- the first location decides
          have hfirst := places_head? hne h
          rcases locs with _ | ⟨loc, locs⟩
          · cases hfirst
          obtain rfl := Option.some.inj hfirst
          rw [Nat.zero_add]
          split_ifs with hfit
          · refine iff_of_false (List.cons_ne_nil _ _) ?_
            rintro (⟨⟨⟩⟩ | hmore)
            exact absurd (hmore size rfl) (by omega)
          · refine iff_of_true rfl (.inr ?_)
            rintro _ ⟨⟩
            omega

end IndirectCall

/-! ## The code of an indirect call -/

/-- The registers of arguments that overlap `A`. -/
theorem eq_A_or_AL {vt : ValueType} {r : Reg} (hr : r ∈ regList vt) (h : r ∈ Reg.A.aliases) :
    r = .A ∨ r = .AL := by
  have hcommon : ∀ r ∈ regList vt, r ∈ Reg.A.aliases → r = .A ∨ r = .AL := by
    cases vt <;> decide
  exact hcommon r hr h

/-- **Which arguments arrive**: at the `ICALL`, a register holds its argument unless it is `A` or
`AL`; these hold the address of the callee, or its low byte. -/
theorem registers_iff (c : IndirectCall) {locs : List CCValAssign} (hlocs : c.argLocs = some locs)
    {code : SelectedCall} (hcode : selectedCall locs = some code) {arg : RegArg}
    (harg : arg ∈ regsToPass 0 locs) :
    (∀ order, IssueOrder code.nodes [] (order ++ [code.resNode]) → ∀ s,
        (issue c code.nodes order s).HoldsIn (c.outVals arg.index) arg.reg) ↔
      (arg.reg = some .A → c.callee = c.outVals arg.index) ∧
        (arg.reg = some .AL → c.callee.setWidth 8 = (c.outVals arg.index).setWidth 8) := by
  rw [forall_atCall_iff c locs hcode fun t => t.HoldsIn (c.outVals arg.index) arg.reg]
  obtain ⟨r, hr, hreg⟩ := (c.regArgsApart hlocs).fromList arg harg
  have hcopied (s : MachineState) := (c.regArgsApart hlocs).holdsIn_copyArgs c s arg harg
  rw [hreg] at hcopied ⊢
  by_cases hoverlap : r ∈ Reg.A.aliases
  · rcases eq_A_or_AL hr hoverlap with rfl | rfl
    · have hheld (s : MachineState) : (s.copyToReg c.callee (some .A)).HoldsIn
          (c.outVals arg.index) (some .A) ↔ c.callee = c.outVals arg.index := by
        show (s.setWord .A c.callee).word .A = _ ↔ _
        rw [MachineState.setWord_word_self]
      simp [hheld]
    · have hheld (s : MachineState) : (s.copyToReg c.callee (some .A)).HoldsIn
          (c.outVals arg.index) (some .AL) ↔
            c.callee.setWidth 8 = (c.outVals arg.index).setWidth 8 := by
        rfl
      simp [hheld]
  · refine iff_of_true ?_ ⟨?_, ?_⟩
    · intro s
      exact (MachineState.holdsIn_copyToReg_of_apart _ _ _ hoverlap).mpr (hcopied _)
    · rintro ⟨⟩
      exact absurd (by decide) hoverlap
    · rintro ⟨⟩
      exact absurd (by decide) hoverlap

/-- The address of the callee is in `A`. -/
theorem callee_atCall (c : IndirectCall) {locs : List CCValAssign} {code : SelectedCall}
    (hcode : selectedCall locs = some code) :
    ∀ order, IssueOrder code.nodes [] (order ++ [code.resNode]) → ∀ s,
      (issue c code.nodes order s).word .A = c.callee := by
  rw [forall_atCall_iff c locs hcode fun t => t.word .A = c.callee]
  intro s
  exact MachineState.setWord_word_self _ .A c.callee

/-- Only the copy of the callee's address is glued to the `ICALL`. -/
theorem eq_of_gluedTo {locs : List CCValAssign} {code : SelectedCall}
    (hcode : selectedCall locs = some code) {id : ℕ}
    (h : Relation.TransGen (GluedTo code.nodes) id code.resNode) :
    code.nodes[id]? = some (calleeCopy locs) := by
  rw [selectedCall_eq] at hcode
  obtain rfl := Option.some.inj hcode
  have hcopy : ((lowerCallNodes locs).nodes ++ [calleeCopy locs, icall locs])[
      (lowerCallNodes locs).nodes.length]? = some (calleeCopy locs) := by
    simp
  have hcall : ((lowerCallNodes locs).nodes ++ [calleeCopy locs, icall locs])[
      (lowerCallNodes locs).nodes.length + 1]? = some (icall locs) := by
    simp
  -- the glue of the `ICALL` is that of the copy
  have hlast : ∀ {n}, GluedTo ((lowerCallNodes locs).nodes ++ [calleeCopy locs, icall locs]) n
      ((lowerCallNodes locs).nodes.length + 1) → n = (lowerCallNodes locs).nodes.length := by
    rintro n ⟨node, hnode, hglue⟩
    obtain rfl := Option.some.inj (hcall.symm.trans hnode)
    simpa [icall] using hglue
  rcases Relation.TransGen.tail'_iff.mp h with ⟨n, hpath, hstep⟩
  obtain rfl := hlast hstep
  rcases Relation.ReflTransGen.cases_tail hpath with heq | ⟨m, -, node, hnode, hglue⟩
  · rw [← heq]
    exact hcopy
  · -- the copy itself has no glue
    obtain rfl := Option.some.inj (hcopy.symm.trans hnode)
    simp [calleeCopy, getCopyToReg] at hglue

/-- The copy of an argument is not glued to the `ICALL`. -/
theorem not_glued {locs : List CCValAssign} {code : SelectedCall}
    (hcode : selectedCall locs = some code) (arg : RegArg) :
    ¬ ∃ id node, code.nodes[id]? = some node ∧ node.IsCopyOf arg ∧
      Relation.TransGen (GluedTo code.nodes) id code.resNode := by
  rintro ⟨id, node, hnode, ⟨chain, glue, rfl⟩, hpath⟩
  have heq := Option.some.inj (hnode.symm.trans (eq_of_gluedTo hcode hpath))
  simp [calleeCopy, getCopyToReg] at heq

/-- The nodes of a call can be issued up to the `ICALL`. -/
theorem exists_issueOrder {locs : List CCValAssign} {code : SelectedCall}
    (hcode : selectedCall locs = some code) :
    ∃ order, IssueOrder code.nodes [] (order ++ [code.resNode]) := by
  rw [selectedCall_eq] at hcode
  obtain rfl := Option.some.inj hcode
  have hall := issueOrder_range' (usesPrevious_selected locs)
    ((lowerCallNodes locs).nodes.length + 2) (k := 0) (by simp)
  rw [← List.range_eq_range', List.range_succ] at hall
  exact ⟨_, hall⟩

/-- **When the code of an indirect call is right**: exactly when no argument is passed in a
register. -/
theorem passesArguments_iff (c : IndirectCall) : c.PassesArguments ↔ c.NoRegisterArguments := by
  constructor
  · rintro ⟨locs, code, hlocs, hcode, hright⟩
    rw [← c.regsToPass_eq_nil_iff hlocs, List.eq_nil_iff_forall_not_mem]
    intro arg harg
    exact not_glued hcode arg (hright.glued arg harg)
  · intro hnone
    obtain ⟨_, front, stack, hlocs, -⟩ := c.exists_argLocs
    have hcode := selectedCall_eq (front ++ stack)
    refine ⟨_, _, hlocs, hcode, ?_⟩
    rw [(c.regsToPass_eq_nil_iff hlocs).mpr hnone]
    refine ⟨exists_issueOrder hcode, ?_, callee_atCall c hcode, ?_⟩
    · intro order _ s arg harg
      cases harg
    · intro arg harg
      cases harg

/-- A word is passed to a function through a pointer: at the `ICALL`, `A` holds the pointer. -/
theorem not_passesArguments_word :
    ¬ IndirectCall.PassesArguments ⟨false, [16], fun _ => 7, 0x8000⟩ := by
  rintro ⟨locs, code, hlocs, hcode, hright⟩
  have hA : (⟨some .A, 0, .i16⟩ : RegArg) ∈ regsToPass 0 locs := by
    obtain rfl : [⟨0, .i16, .reg (some .A)⟩] = locs := Option.some.inj (hlocs.symm.trans rfl).symm
    exact List.mem_cons_self
  have hheld := (registers_iff _ hlocs hcode hA).mp fun order horder s =>
    hright.registers order horder s _ hA
  exact absurd (hheld.1 rfl) (by decide)

end Snes
