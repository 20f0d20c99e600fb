/-
# Selection Patterns of 16-Bit Nodes

The nodes of type `i16` that compute on registers, compare or access memory, the
patterns of `SNESInstrInfo.td` that match them, and what the selected instructions
do once their pseudos are expanded.  Most nodes have one pattern twice, at a
byte-wide instruction and at a pseudo.
-/
import SnesBackend.CompareChain
import SnesBackend.OperandClasses
import SnesBackend.WordTransfers

namespace Snes

open WordArith ExpandPseudo

/-! ## Nodes -/

/-- The nodes with two registers for operands. -/
inductive BinaryNode where
  | add | adde | addc | sub | sube | subc | and | or | xor
deriving DecidableEq, Repr

/-- The nodes with one register for operand; `shl` is a shift by the constant 1. -/
inductive UnaryNode where
  | not | ineg | SNESlsl | SNESlsr | SNESasr | shl
deriving DecidableEq, Repr

/-- The comparisons. -/
inductive CompareNode where
  | SNEScmp | SNEScmpc
deriving DecidableEq, Repr

/-- The address of an unindexed access: a sum or a difference with a constant, a constant, the
address of a symbol, or another value.  A disjunction of disjoint bits, which
`isBaseWithConstantOffset` takes for a sum, is an `ADD` here too. -/
inductive AccessAddress where
  | value (ptr : WordReg)
  | ADD (base : WordReg) (c : BitVec 16)
  | SUB (base : WordReg) (c : BitVec 16)
  | constant (k : BitVec 16)
  | SNESWrapper (gv : ℕ) (offs : BitVec 64) (flags : BitVec 8)
deriving DecidableEq, Repr

/-- The modes of indexed accesses. -/
inductive IndexedMode where
  | POST_INC | PRE_DEC
deriving DecidableEq, Repr

/-- A node with the registers that are assigned to it.  The result of a computation is in the
register of its first operand.  The address of an unindexed access is also `held` in a register, for
the patterns that take any value for an address. -/
inductive SelectionNode where
  | binary (op : BinaryNode) (dst src : WordReg)
  | unary (op : UnaryNode) (dst : WordReg)
  | compare (op : CompareNode) (lhs rhs : WordReg)
  | load (dst : WordReg) (address : AccessAddress) (held : WordReg)
  | store (src : WordReg) (address : AccessAddress) (held : WordReg)
  | indexedLoad (mode : IndexedMode) (dst ptr : WordReg)
  | indexedStore (mode : IndexedMode) (src ptr : WordReg)
deriving DecidableEq, Repr

/-! ## Patterns -/

/-- The instructions with the pattern of a binary node. -/
def BinaryNode.outputs : BinaryNode → List Opcode
  | add | addc => [.ADDRdRr, .ADDWRdRr]
  | adde => [.ADCRdRr, .ADCWRdRr]
  | sub | subc => [.SUBRdRr, .SUBWRdRr]
  | sube => [.SBCRdRr, .SBCWRdRr]
  | and => [.ANDRdRr, .ANDWRdRr]
  | or => [.ORRdRr, .ORWRdRr]
  | xor => [.EORRdRr, .EORWRdRr]

/-- The instructions with the pattern of a unary node. -/
def UnaryNode.outputs : UnaryNode → List Opcode
  | not => [.COMRd, .COMWRd]
  | ineg => [.NEGRd]
  | SNESlsl => [.LSLRd, .LSLWRd]
  | SNESlsr => [.LSRRd, .LSRWRd]
  | SNESasr => [.ASRRd, .ASRWRd]
  | shl => [.LSLWRd]

/-- The instructions with the pattern of a comparison. -/
def CompareNode.outputs : CompareNode → List Opcode
  | SNEScmp => [.CPRdRr, .CPWRdRr]
  | SNEScmpc => [.CPCRdRr, .CPCWRdRr]

/-- The leaves that stand for addresses in patterns. -/
inductive AddressLeaf where
  | i16 | imm | addr | ioaddr8 | ioaddr16 | tglobaladdr
deriving DecidableEq, Repr

/-- The patterns with root `load`. -/
def loadPatterns : List (Opcode × AddressLeaf) :=
  [(.LDAimm16, .imm), (.LDSRdK, .imm), (.LDSWRdK, .imm), (.LDRdPtr, .i16), (.LDWRdPtr, .i16),
    (.LDDRdPtrQ, .addr), (.LDDWRdPtrQ, .addr), (.INRdA, .ioaddr8), (.INWRdA, .ioaddr16),
    (.LDSRdK, .tglobaladdr), (.LDSWRdK, .tglobaladdr)]

/-- The patterns with root `store` and a register to store. -/
def storePatterns : List (Opcode × AddressLeaf) :=
  [(.STSKRr, .imm), (.STSWKRr, .imm), (.STPtrRr, .i16), (.STWPtrRr, .i16), (.STDPtrQRr, .addr),
    (.STDWPtrQRr, .addr), (.OUTARr, .ioaddr8), (.OUTWARr, .ioaddr16), (.STDSPQRr, .addr),
    (.STDWSPQRr, .addr), (.STSKRr, .tglobaladdr), (.STSWKRr, .tglobaladdr)]

/-- The patterns with root `post_store` or `pre_store`. -/
def IndexedMode.storeOutputs : IndexedMode → List Opcode
  | POST_INC => [.STPtrPiRr, .STWPtrPiRr]
  | PRE_DEC => [.STPtrPdRr, .STWPtrPdRr]

/-- The mode of the node. -/
def IndexedMode.mode : IndexedMode → MemIndexedMode
  | POST_INC => .POST_INC
  | PRE_DEC => .PRE_DEC

/-- The offset of an indexed access of a word. -/
def IndexedMode.offset : IndexedMode → ℤ
  | POST_INC => postStep .i16
  | PRE_DEC => preStep .i16

/-! ### Matching addresses -/

namespace AccessAddress

/-- The base and `RHSC` of `SelectAddr`. -/
def baseAndRHSC : AccessAddress → Option (WordReg × ℤ)
  | ADD base c => some (base, c.toNat)
  | SUB base c => some (base, -c.toNat)
  | _ => none

/-- `SelectAddr` of an address that is no frame index: offsets of six bits. -/
def selectAddr (address : AccessAddress) : Option (List MachineOperand) := do
  let (base, rhsc) ← address.baseAndRHSC
  if 0 ≤ rhsc ∧ rhsc < 64 then some [.reg (.word base), .imm (BitVec.ofInt 64 rhsc)] else none

end AccessAddress

/-- `ioaddr_XFORM`: the port of an address. -/
def ioaddr_XFORM (k : BitVec 16) : BitVec 64 :=
  (k.setWidth 8).setWidth 64 - 0x20

/-- The operands of an instruction for an address that matches a leaf. -/
def AddressLeaf.bind (leaf : AddressLeaf) (address : AccessAddress) (held : WordReg) :
    Option (List MachineOperand) :=
  match leaf, address with
  | i16, _ => some [.reg (.word held)]
  | imm, .constant k => some [.imm (k.signExtend 64)]
  | addr, address => address.selectAddr
  | ioaddr8, .constant k =>
      if 0x20 ≤ k.toNat ∧ k.toNat < 0x60 then some [.imm (ioaddr_XFORM k)] else none
  | ioaddr16, .constant k =>
      if 0x20 ≤ k.toNat ∧ k.toNat < 0x5f then some [.imm (ioaddr_XFORM k)] else none
  | tglobaladdr, .SNESWrapper gv offs flags => some [.globalAddress gv offs flags]
  | _, _ => none

/-! ### Selectable instructions -/

/-- `@earlyclobber`: a result that is written before the operands are read is in another
register. -/
def MachineInstr.clobbersApart (mi : MachineInstr) : Bool :=
  match mi.opcode with
  | .LDWRdPtr | .LDDRdPtrQ | .LDDWRdPtrQ | .LDWRdPtrPi | .LDWRdPtrPd => mi.getReg 0 != mi.getReg 1
  | .STPtrPiRr | .STWPtrPiRr | .STPtrPdRr | .STWPtrPdRr => mi.getReg 0 != mi.getReg 2
  | _ => true

namespace SelectionNode

/-- The instructions whose patterns match a node, with its registers and constants.  A complement is
an exclusive or with a constant, which `EORimm16` takes too. -/
def matchingInstrs : SelectionNode → List MachineInstr
  | binary op dst src =>
      op.outputs.map fun out => ⟨out, [.reg (.word dst), .reg (.word dst), .reg (.word src)]⟩
  | unary op dst =>
      (op.outputs.map fun out => ⟨out, [.reg (.word dst), .reg (.word dst)]⟩) ++
        if op = .not then [⟨.EORimm16, [.reg (.word dst), .reg (.word dst), .imm (-1)]⟩] else []
  | compare op lhs rhs => op.outputs.map fun out => ⟨out, [.reg (.word lhs), .reg (.word rhs)]⟩
  | load dst address held =>
      loadPatterns.filterMap fun pattern =>
        (pattern.2.bind address held).map fun operands => ⟨pattern.1, .reg (.word dst) :: operands⟩
  | store src address held =>
      storePatterns.filterMap fun pattern =>
        (pattern.2.bind address held).map fun operands =>
          ⟨pattern.1, operands ++ [.reg (.word src)]⟩
  | indexedLoad mode dst ptr =>
      (selectIndexedLoad true mode.mode .i16 mode.offset).toList.map fun out =>
        ⟨out, [.reg (.word dst), .reg (.word ptr), .reg (.word ptr)]⟩
  | indexedStore mode src ptr =>
      mode.storeOutputs.map fun out => ⟨out, [.reg (.word ptr), .reg (.word ptr),
        .reg (.word src), .imm (BitVec.ofInt 64 mode.offset)]⟩

/-- The matching instructions that admit the registers. -/
def selectable (node : SelectionNode) : List MachineInstr :=
  node.matchingInstrs.filter fun mi => mi.ClassesHold ∧ mi.clobbersApart = true

end SelectionNode

/-! ## Execution -/

/-- The address of an I/O location: `ioaddr_XFORM` subtracts `0x20`. -/
def portAddress (port : BitVec 64) : BitVec 16 :=
  port.setWidth 16 + 0x20

/-- Write a word and its flags. -/
def MachineState.setWordResult (s : MachineState) (r : WordReg) (v : BitVec 16) : MachineState :=
  (s.setWord r v).setFlags { s.p.toFlags with zero := v == 0, negative := v.msb }

/-- Execute a selected instruction that is no pseudo: comparisons, `neg`, accesses of I/O locations,
the accumulator with a constant, and what `execTransfer` executes. -/
def execSelected (symbols : ℕ → BitVec 16) (mi : MachineInstr) (s : MachineState) :
    Option MachineState :=
  match mi.opcode, mi.operands with
  | .CPRdRr, _ | .CPCRdRr, _ => execCompare ⟨mi.opcode, mi.operands.map lowOperand⟩ s
  | .NEGRd, [.reg d, .reg r] =>
      d.lowByte.bind fun d => r.lowByte.map fun r =>
        s.setResult d (subBorrow 0 (s.regs r) false, subFlags 0 (s.regs r) false)
  | .INRdA, [.reg d, .imm port] => d.lowByte.map fun d => s.setByte d (s.mem (portAddress port))
  | .OUTARr, [.imm port, .reg r] =>
      r.lowByte.map fun r => s.storeByte (portAddress port) (s.regs r)
  | .LDAimm16, [.reg (.word d), .imm k] => some (s.setWordResult d (k.setWidth 16))
  | .EORimm16, [.reg (.word d), .reg (.word r), .imm k] =>
      some (s.setWordResult d (s.word r ^^^ k.setWidth 16))
  | _, _ => execTransfer symbols mi s

/-- Execute selected instructions one after the other. -/
def execSelectedBlock (symbols : ℕ → BitVec 16) : List MachineInstr → MachineState →
    Option MachineState
  | [], s => some s
  | mi :: rest, s => (execSelected symbols mi s).bind (execSelectedBlock symbols rest)

/-- Execute a selected instruction after `SNESExpandPseudo`. -/
def execExpanded (scavenge : Scavenger) (symbols : ℕ → BitVec 16) (mi : MachineInstr)
    (s : MachineState) : Option MachineState :=
  (runOnMachineFunction scavenge [[mi]]).bind fun mf => execSelectedBlock symbols mf.flatten s

/-! ## What a node does -/

/-- The value of a binary node. -/
def BinaryNode.result (op : BinaryNode) (a b : BitVec 16) (c : Bool) : BitVec 16 :=
  match op with
  | add | addc => a + b
  | adde => a + b + BitVec.ofNat 16 c.toNat
  | sub | subc => a - b
  | sube => a - b - BitVec.ofNat 16 c.toNat
  | and => a &&& b
  | or => a ||| b
  | xor => a ^^^ b

/-- The carry or borrow of the nodes that have one for a second result. -/
def BinaryNode.carry (op : BinaryNode) (a b : BitVec 16) (c : Bool) : Option Bool :=
  match op with
  | addc => some (decide (2 ^ 16 ≤ a.toNat + b.toNat))
  | adde => some (decide (2 ^ 16 ≤ a.toNat + b.toNat + c.toNat))
  | subc => some (decide (a.toNat < b.toNat))
  | sube => some (decide (a.toNat < b.toNat + c.toNat))
  | add | sub | and | or | xor => none

/-- The value of a unary node. -/
def UnaryNode.result (op : UnaryNode) (a : BitVec 16) : BitVec 16 :=
  match op with
  | not => ~~~a
  | ineg => -a
  | SNESlsl | shl => a <<< 1
  | SNESlsr => a >>> 1
  | SNESasr => a.sshiftRight 1

/-- The flags of a comparison; `SNEScmpc` continues a comparison of lower words. -/
def CompareNode.flags {w : ℕ} (op : CompareNode) (a b : BitVec w) (f : Flags) : Flags :=
  match op with
  | SNEScmp => cmpFlags a b
  | SNEScmpc => cmpcFlags a b f

/-- The value of an address. -/
def AccessAddress.eval (symbols : ℕ → BitVec 16) (s : MachineState) : AccessAddress → BitVec 16
  | value ptr => s.word ptr
  | ADD base c => s.word base + c
  | SUB base c => s.word base - c
  | constant k => k
  | SNESWrapper gv offs _ => symbols gv + offs.setWidth 16

/-- The address of an indexed access of a word. -/
def IndexedMode.address (mode : IndexedMode) (ptr : BitVec 16) : BitVec 16 :=
  match mode with
  | POST_INC => ptr
  | PRE_DEC => ptr + BitVec.ofInt 16 mode.offset

/-- Two states are the same up to the arithmetic flags. -/
structure SameButFlags (s t : MachineState) : Prop where
  regs : s.regs = t.regs
  upper : s.p.upper = t.p.upper
  sp : s.sp = t.sp
  mem : s.mem = t.mem

namespace SelectionNode

/-- The values of the operands are in the assigned registers. -/
def Holds (symbols : ℕ → BitVec 16) (s : MachineState) : SelectionNode → Prop
  | load _ address held | store _ address held => s.word held = address.eval symbols s
  | _ => True

/-- The effect of a node: its value in the register of the result, the flags of the comparison, or
the word at the address loaded or stored and the pointer moved; nothing else but flags is
changed. -/
def Effect (symbols : ℕ → BitVec 16) (s s' : MachineState) : SelectionNode → Prop
  | binary op dst src =>
      WordEffect s s' dst (op.result (s.word dst) (s.word src) s.p.carry)
        (op.carry (s.word dst) (s.word src) s.p.carry)
  | unary op dst => WordEffect s s' dst (op.result (s.word dst)) none
  | compare op lhs rhs => s' = s.setFlags (op.flags (s.word lhs) (s.word rhs) s.p.toFlags)
  | load dst address _ => SameButFlags s' (s.setWord dst (s.load .i16 (address.eval symbols s)))
  | store src address _ =>
      SameButFlags s' (s.storeWord (address.eval symbols s) (s.word src))
  | indexedLoad mode dst ptr =>
      SameButFlags s' ((s.setWord dst (s.load .i16 (mode.address (s.word ptr)))).setWord ptr
        (s.word ptr + BitVec.ofInt 16 mode.offset))
  | indexedStore mode src ptr =>
      SameButFlags s' ((s.storeWord (mode.address (s.word ptr)) (s.word src)).setWord ptr
        (s.word ptr + BitVec.ofInt 16 mode.offset))

/-- A selected instruction does what the node does. -/
def SelectedRight (scavenge : Scavenger) (symbols : ℕ → BitVec 16) (node : SelectionNode)
    (s : MachineState) (mi : MachineInstr) : Prop :=
  ∃ s', execExpanded scavenge symbols mi s = some s' ∧ node.Effect symbols s s'

/-- All instructions that can be selected for a node do what it does, and so the same. -/
def Coherent (scavenge : Scavenger) (symbols : ℕ → BitVec 16) (node : SelectionNode)
    (s : MachineState) : Prop :=
  ∀ mi ∈ node.selectable, node.SelectedRight scavenge symbols s mi

end SelectionNode

end Snes
