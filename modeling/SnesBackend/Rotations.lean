/-
# Rotations

`ROTL` and `ROTR` are lowered as shifts are, to `ROL` and `ROR`, which rotate through the carry.
Nested nodes bring the carry on entry into the value; in a loop every round starts with the carry
clear, so the loop shifts.  The pseudos for words have no expansion.
-/
import SnesBackend.CarryRotation
import SnesBackend.ShiftLoops

namespace Snes

open WordArith BlockLayout

/-! ## Selection -/

/-- The instructions with the pattern of a node for a single bit: one for bytes, and a pseudo for
words. -/
def StepNode.outputs (type : ValueType) (op : StepNode) : List Opcode :=
  match type with
  | .i8 => [op.opcode .i8]
  | .i16 => [op.opcode .i8, op.opcode .i16]

/-- The pseudos with the pattern of a loop node. -/
def LoopNode.outputs (type : ValueType) (op : LoopNode) : List ShiftPseudo :=
  match type with
  | .i8 => [op.pseudo .i8]
  | .i16 => [op.pseudo .i8, op.pseudo .i16]

/-! ## A function with one pseudo -/

/-- A function with one shift pseudo and nothing else. -/
def oneShift (p : ShiftPseudo) : MachineFunction Unit where
  blocks := [⟨0, [], [.shiftPseudo p 2 0 1], [.RET], []⟩]
  numBlockIDs := 1
  numVirtRegs := 3

/-- It is well formed. -/
theorem oneShift_wellFormed (p : ShiftPseudo) : (oneShift p).WellFormed where
  nodup := List.nodup_singleton 0
  ids_lt := by simp [oneShift]
  successors_mem := by simp [oneShift]
  targets_mem := by simp [oneShift, Terminator.targets]
  falls := by
    simp [MachineFunction.FallsToSuccessor, oneShift, MachineBasicBlock.canFallThrough,
      Terminator.isBarrier]
  phis_below := by simp [oneShift]
  phis_pred := by simp [oneShift]
  insts_below := by simp [oneShift, VInst.Below]

/-- Its pseudo. -/
def oneShiftSite (p : ShiftPseudo) : PseudoSite (oneShift p) (.shiftPseudo p 2 0 1) where
  pre := []
  bb := ⟨0, [], [.shiftPseudo p 2 0 1], [.RET], []⟩
  post := []
  before := []
  after := []
  blocks_eq := rfl
  insts_eq := rfl

/-- Its entry, with a value, an amount and a carry. -/
def oneShiftEntry {w : ℕ} (x : BitVec w) (k : ℕ) (carry : Bool) : Config ℕ (RegState Unit) :=
  ⟨none, .block 0, ⟨fun v => if v = 0 then x.setWidth 16 else BitVec.ofNat 16 k,
    ⟨carry, false, false, false⟩, ()⟩⟩

/-- The pseudo is reached in the state of the entry. -/
theorem atPseudo_oneShiftEntry {w : ℕ} (p : ShiftPseudo) (shift : SingleStep) (x : BitVec w)
    (k : ℕ) (carry : Bool) : (oneShiftSite p).atPseudo shift (oneShiftEntry x k carry) =
      (oneShiftEntry x k carry).state := rfl

/-- The value and the amount are there. -/
theorem oneShiftEntry_vregs {type : ValueType} (x : BitVec type.width) {k : ℕ} (hk : k < 2 ^ 16)
    (carry : Bool) :
    ((oneShiftEntry x k carry).state.vregs 0).setWidth type.width = x ∧
      ((oneShiftEntry x k carry).state.vregs 1).toNat = k := by
  constructor
  · have hvalue := BitVec.setWidth_setWidth_of_le x (show type.width ≤ 16 by cases type <;> decide)
    exact hvalue.trans (BitVec.setWidth_eq x)
  · exact (BitVec.toNat_ofNat k 16).trans (Nat.mod_eq_of_lt hk)

/-! ## The property -/

/-- The rotations. -/
inductive RotateOp where
  | ROTL | ROTR
deriving DecidableEq, Repr

namespace RotateOp

/-- The node. -/
def node : RotateOp → ShiftNode
  | ROTL => .ROTL
  | ROTR => .ROTR

/-- The rotated value. -/
def result {w : ℕ} (op : RotateOp) (x : BitVec w) (k : ℕ) : BitVec w :=
  match op with
  | ROTL => x.rotateLeft k
  | ROTR => x.rotateRight k

/-- The nested nodes rotate, whatever instruction is selected for them. -/
def NodesRotate (op : RotateOp) (type : ValueType) (scavenge : MachineInstr → Option Reg)
    (x : BitVec type.width) (k : ℕ) (carry : Bool) : Prop :=
  ∀ opcode : StepNode → Opcode, opcode op.node.opc8 ∈ op.node.opc8.outputs type →
    ∀ (r : WordReg) (s : MachineState), s.get type r = x → s.p.carry = carry →
      NodesLeave scavenge op.node opcode k type r s (op.result x k)

/-- The loop rotates, whatever pseudo is selected for it, in every function that comes to it with
the value, the amount and the carry. -/
def LoopRotates (op : RotateOp) (type : ValueType) (scavenge : MachineInstr → Option Reg)
    (x : BitVec type.width) (k : ℕ) (carry : Bool) : Prop :=
  ∀ p ∈ op.node.loopNode.outputs type, ∀ (μ : Type) (F : MachineFunction μ) (dst src cnt : ℕ)
    (site : PseudoSite F (.shiftPseudo p dst src cnt)) (r : WordReg) (s : MachineState)
    (c : Config ℕ (RegState μ)), F.WellFormed → c.place = .block site.bb.number →
    ((site.atPseudo (machineStep scavenge r s) c).vregs src).setWidth type.width = x →
    ((site.atPseudo (machineStep scavenge r s) c).vregs cnt).toNat = k →
    (site.atPseudo (machineStep scavenge r s) c).flags.carry = carry →
    LoopLeaves scavenge site r s c type (op.result x k)

/-- What `LowerShifts` and the patterns make of a rotation, by a constant or by another value,
rotates the value. -/
def Rotates (op : RotateOp) (type : ValueType) (isConstant : Bool)
    (scavenge : MachineInstr → Option Reg) (x : BitVec type.width) (k : ℕ) (carry : Bool) : Prop :=
  if isConstant then op.NodesRotate type scavenge x k carry
  else op.LoopRotates type scavenge x k carry

/-- All the bits that leave the value are like a given one: the `k` highest of a rotation to the
left, the `k` lowest of one to the right. -/
def LeavingBits {w : ℕ} (op : RotateOp) (x : BitVec w) (k : ℕ) (bit : Bool) : Prop :=
  match op with
  | ROTL => ∀ i < k, x.getLsbD (w - k + i) = bit
  | ROTR => ∀ i < k, x.getLsbD i = bit

/-- When the value is rotated. -/
def RightWhen (op : RotateOp) (type : ValueType) (isConstant : Bool) (x : BitVec type.width)
    (k : ℕ) (carry : Bool) : Prop :=
  match type, isConstant with
  | .i8, true => op.LeavingBits x k carry
  | .i8, false => op.LeavingBits x k false
  | .i16, true => k = 0
  | .i16, false => False

/-! ## Nested nodes -/

/-- One step on the carry and the value. -/
def once {w : ℕ} (op : RotateOp) : Bool × BitVec w → Bool × BitVec w :=
  match op with
  | ROTL => rolCarry
  | ROTR => rorCarry

/-- **When single steps rotate** a byte. -/
theorem iterate_once_eq_result_iff (op : RotateOp) (c : Bool) (x : BitVec 8) {k : ℕ} (hk : k < 8) :
    (op.once^[k] (c, x)).2 = op.result x k ↔ op.LeavingBits x k c := by
  cases op with
  | ROTL => exact iterate_rolCarry_eq_rotateLeft_iff c x hk
  | ROTR => exact iterate_rorCarry_eq_rotateRight_iff c x hk

/-- **One step** of the machine rotates the byte through the carry. -/
theorem exists_execStep (op : RotateOp) (scavenge : MachineInstr → Option Reg) (r : WordReg)
    (s : MachineState) :
    ∃ s', execStep scavenge (stepInstr (op.node.opc8.opcode .i8) r) s = some s' ∧
      (s'.p.carry, s'.regs r.subLo) = op.once (s.p.carry, s.regs r.subLo) := by
  cases op with
  | ROTL =>
      refine ⟨_, rfl, Prod.ext rfl ?_⟩
      exact MachineState.setResult_regs_self s r.subLo _
  | ROTR =>
      refine ⟨_, rfl, Prod.ext rfl ?_⟩
      exact MachineState.setResult_regs_self s r.subLo _

/-- What nested nodes of a byte leave. -/
theorem nodesLeave_i8_iff (op : RotateOp) (scavenge : MachineInstr → Option Reg)
    {opcode : StepNode → Opcode} (hopcode : opcode op.node.opc8 = op.node.opc8.opcode .i8) (k : ℕ)
    (r : WordReg) (s : MachineState) (y : BitVec ValueType.i8.width) :
    NodesLeave scavenge op.node opcode k .i8 r s y ↔
      (op.once^[k] (s.p.carry, s.regs r.subLo)).2 = y := by
  refine nodesLeave_iff (fun t => (t.p.carry, t.regs r.subLo)) op.once Prod.snd (fun _ => rfl) ?_
    k s y
  rw [hopcode]
  exact op.exists_execStep scavenge r

/-- **Nested nodes of a byte** rotate it when the bits that leave it are like the carry. -/
theorem nodesRotate_i8_iff (op : RotateOp) (scavenge : MachineInstr → Option Reg) (x : BitVec 8)
    {k : ℕ} (hk : k < 8) (carry : Bool) :
    op.NodesRotate .i8 scavenge x k carry ↔ op.LeavingBits x k carry := by
  rw [← op.iterate_once_eq_result_iff carry x hk]
  constructor
  · intro h
    have hnest := h (StepNode.opcode .i8) List.mem_cons_self .A
      ⟨fun _ => x, ⟨⟨carry, false, false, false⟩, 0⟩, 0, fun _ => 0⟩ rfl rfl
    exact (op.nodesLeave_i8_iff scavenge rfl k _ _ _).mp hnest
  · rintro h opcode hopcode r s rfl rfl
    exact (op.nodesLeave_i8_iff scavenge (List.mem_singleton.mp hopcode) k r s _).mpr h

/-- The pseudo for words has no expansion. -/
theorem execStep_i16 (op : RotateOp) (scavenge : MachineInstr → Option Reg) (r : WordReg)
    (s : MachineState) : execStep scavenge (stepInstr (op.node.opc8.opcode .i16) r) s = none := by
  cases op <;> rfl

/-- Rotating by nothing. -/
theorem result_zero {w : ℕ} (op : RotateOp) (x : BitVec (w + 1)) : op.result x 0 = x := by
  cases op with
  | ROTL =>
      have hshift := (shiftLeft_eq_rotateLeft_iff x (Nat.succ_pos w)).mpr fun i hi => by omega
      exact hshift.symm.trans (BitVec.shiftLeft_zero x)
  | ROTR =>
      have hshift := (ushiftRight_eq_rotateRight_iff x (Nat.succ_pos w)).mpr fun i hi => by omega
      exact hshift.symm.trans (BitVec.ushiftRight_zero x)

/-- **Nested nodes of a word**: there must be none. -/
theorem nodesRotate_i16_iff (op : RotateOp) (scavenge : MachineInstr → Option Reg)
    (x : BitVec 16) (k : ℕ) (carry : Bool) : op.NodesRotate .i16 scavenge x k carry ↔ k = 0 := by
  constructor
  · intro h
    obtain ⟨mis, s', hmis, hexec, -⟩ := h (StepNode.opcode .i16)
      (List.mem_cons_of_mem _ List.mem_cons_self) .A
      ((MachineState.mk (fun _ => 0) ⟨⟨carry, false, false, false⟩, 0⟩ 0 fun _ => 0).setWord .A x)
      (MachineState.setWord_word_self _ .A x) rfl
    obtain rfl := Option.some.inj ((instrs_lowerShifts _ _ _ k).symm.trans hmis)
    cases k with
    | zero => rfl
    | succ k =>
        rw [List.replicate_succ, execSteps, op.execStep_i16] at hexec
        cases hexec
  · rintro rfl opcode - r s rfl -
    exact ⟨[], s, rfl, rfl, (op.result_zero _).symm⟩

/-! ## Loops -/

/-- A loop that rotates does so in the function with one pseudo. -/
theorem LoopRotates.oneShift {op : RotateOp} {type : ValueType}
    {scavenge : MachineInstr → Option Reg} {x : BitVec type.width} {k : ℕ} {carry : Bool}
    (h : op.LoopRotates type scavenge x k carry) (hk : k < 2 ^ 16) {p : ShiftPseudo}
    (hp : p ∈ op.node.loopNode.outputs type) (r : WordReg) (s : MachineState) :
    LoopLeaves scavenge (oneShiftSite p) r s (oneShiftEntry x k carry) type (op.result x k) := by
  obtain ⟨hvalue, hamount⟩ := oneShiftEntry_vregs x hk carry
  exact h p hp Unit _ 2 0 1 (oneShiftSite p) r s (oneShiftEntry x k carry) (oneShift_wellFormed p)
    rfl hvalue hamount rfl

/-- The shift that a rotation is when the carry is clear. -/
def shiftOp : RotateOp → ShiftOp
  | ROTL => .SHL
  | ROTR => .SRL

/-- **One round** of the loop of a byte shifts a zero in. -/
theorem setWidth_once (op : RotateOp) (scavenge : MachineInstr → Option Reg) (r : WordReg)
    (s : MachineState) (x : BitVec 16) :
    ((op.node.loopNode.pseudo .i8).once (machineStep scavenge r s) x).setWidth 8 =
      op.shiftOp.result (x.setWidth 8) 1 := by
  obtain ⟨t, hexec, hview⟩ := op.exists_execStep scavenge r
    ((s.setWord r x).setFlags { s.p.toFlags with carry := false })
  have hstart : ((s.setWord r x).setFlags { s.p.toFlags with carry := false }).regs r.subLo =
      x.setWidth 8 := by
    refine (MachineState.get_eq_setWidth _ .i8 r).trans ?_
    exact congrArg (BitVec.setWidth 8) (s.setWord_word_self r x)
  have hbyte := congrArg Prod.snd hview
  rw [hstart] at hbyte
  rw [ShiftPseudo.once, opc_pseudo_loopNode, machineStep, hexec]
  refine (MachineState.get_eq_setWidth t .i8 r).symm.trans (hbyte.trans ?_)
  cases op with
  | ROTL => exact shiftLeftIn_false _
  | ROTR => exact shiftRightIn_false _

/-- What the loop of a byte leaves: the shifted value. -/
theorem loopLeaves_i8_iff {μ : Type} {F : MachineFunction μ} (hF : F.WellFormed) (op : RotateOp)
    (scavenge : MachineInstr → Option Reg) {dst src cnt : ℕ}
    (site : PseudoSite F (.shiftPseudo (op.node.loopNode.pseudo .i8) dst src cnt)) (r : WordReg)
    (s : MachineState) {c : Config ℕ (RegState μ)} (hplace : c.place = .block site.bb.number)
    (y : BitVec ValueType.i8.width) :
    LoopLeaves scavenge site r s c .i8 y ↔
      op.shiftOp.result
        (((site.atPseudo (machineStep scavenge r s) c).vregs src).setWidth 8)
        ((site.atPseudo (machineStep scavenge r s) c).vregs cnt).toNat = y := by
  have hsteps : ∀ t, (execStep scavenge (stepInstr (op.node.loopNode.pseudo .i8).opc r) t).isSome =
      true := by
    intro t
    obtain ⟨t', hexec, -⟩ := op.exists_execStep scavenge r t
    rw [opc_pseudo_loopNode, hexec]
    rfl
  have hround : Function.Semiconj (fun x : BitVec 16 => x.setWidth 8)
      ((op.node.loopNode.pseudo .i8).once (machineStep scavenge r s))
      (fun z => op.shiftOp.result z 1) := op.setWidth_once scavenge r s
  rw [loopLeaves_iff hF scavenge site r s hplace, ← op.shiftOp.iterate_result,
    ← hround.iterate_right]
  exact and_iff_right hsteps

/-- When the shift is the rotation. -/
theorem shiftOp_result_eq_result_iff {w : ℕ} (op : RotateOp) (x : BitVec w) {k : ℕ} (hk : k < w) :
    op.shiftOp.result x k = op.result x k ↔ op.LeavingBits x k false := by
  cases op with
  | ROTL => exact shiftLeft_eq_rotateLeft_iff x hk
  | ROTR => exact ushiftRight_eq_rotateRight_iff x hk

/-- **The loop of a byte** rotates it when the bits that leave it are zeros. -/
theorem loopRotates_i8_iff (op : RotateOp) (scavenge : MachineInstr → Option Reg)
    (x : BitVec ValueType.i8.width) {k : ℕ} (hk : k < ValueType.i8.width) (carry : Bool) :
    op.LoopRotates .i8 scavenge x k carry ↔ op.LeavingBits x k false := by
  rw [← op.shiftOp_result_eq_result_iff x hk]
  constructor
  · intro h
    have hlarge : k < 2 ^ 16 := hk.trans (by decide)
    have hleaves := h.oneShift hlarge List.mem_cons_self .A
      ⟨fun _ => 0, ⟨⟨false, false, false, false⟩, 0⟩, 0, fun _ => 0⟩
    have hshift := (op.loopLeaves_i8_iff (oneShift_wellFormed _) scavenge _ .A _ rfl _).mp hleaves
    obtain ⟨hvalue, hamount⟩ := oneShiftEntry_vregs x hlarge carry
    rw [atPseudo_oneShiftEntry, hamount] at hshift
    rw [← hshift]
    exact congrArg (op.shiftOp.result · k) hvalue.symm
  · rintro h p hp μ F dst src cnt site r s c hF hplace rfl rfl -
    obtain rfl := List.mem_singleton.mp hp
    exact (op.loopLeaves_i8_iff hF scavenge site r s hplace _).mpr h

/-- **The loop of a word** never rotates it: its step has no expansion. -/
theorem not_loopRotates_i16 (op : RotateOp) (scavenge : MachineInstr → Option Reg) (x : BitVec 16)
    {k : ℕ} (hk : k < 16) (carry : Bool) : ¬ op.LoopRotates .i16 scavenge x k carry := by
  intro h
  have hleaves := h.oneShift (by omega) (List.mem_cons_of_mem _ List.mem_cons_self) .A
    ⟨fun _ => 0, ⟨⟨false, false, false, false⟩, 0⟩, 0, fun _ => 0⟩
  have hstep := hleaves.1 ⟨fun _ => 0, ⟨⟨false, false, false, false⟩, 0⟩, 0, fun _ => 0⟩
  rw [opc_pseudo_loopNode, op.execStep_i16] at hstep
  cases hstep

/-- **When a rotation is right**, for both types, every value, every amount below the width, every
carry on entry, and both lowerings. -/
theorem rotates_iff (op : RotateOp) (type : ValueType) (isConstant : Bool)
    (scavenge : MachineInstr → Option Reg) (x : BitVec type.width) {k : ℕ} (hk : k < type.width)
    (carry : Bool) :
    op.Rotates type isConstant scavenge x k carry ↔ op.RightWhen type isConstant x k carry := by
  cases type <;> cases isConstant
  case i8.true => exact op.nodesRotate_i8_iff scavenge x hk carry
  case i8.false => exact op.loopRotates_i8_iff scavenge x hk carry
  case i16.true => exact op.nodesRotate_i16_iff scavenge x k carry
  case i16.false => exact iff_of_false (op.not_loopRotates_i16 scavenge x hk carry) id

/-- `0xb8` rotated to the right by three bits in a loop. -/
theorem rotates_ROTR_three :
    (Rotates .ROTR .i8 false (fun _ => none) 0xb8 3 true) ↔
      RightWhen .ROTR .i8 false 0xb8 3 true :=
  rotates_iff .ROTR .i8 false (fun _ => none) 0xb8 (by decide) true

/-- `1` rotated to the left by one bit with the carry set is `3`. -/
theorem not_rotates_ROTL_one : ¬ Rotates .ROTL .i8 true (fun _ => none) 1 1 true := by
  intro h
  have hbit := (nodesRotate_i8_iff .ROTL (fun _ => none) 1 (by decide) true).mp h 0 (by decide)
  revert hbit
  decide

end RotateOp

end Snes
