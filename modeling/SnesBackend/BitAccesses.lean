/-
# Bit Accesses of I/O Locations

The patterns of `SBIAb` and `CBIAb`: a word at an I/O location is read, or-ed or and-ed
with a constant, and stored back.  The instructions change one bit of one byte; the leaf
predicates look at the low byte of the constant.
-/
import SnesBackend.SelectionCoherence

namespace Snes

/-! ## The leaf predicates -/

/-- `isPowerOf2_32`. -/
def isPowerOf2_32 (value : BitVec 32) : Bool :=
  value != 0 && value &&& (value - 1) == 0

/-- `Log2_32`. -/
def log2_32 (value : BitVec 32) : BitVec 32 :=
  31 - value.clz

/-- `lowioaddr8`. -/
def lowioaddr8 (k : BitVec 16) : Bool :=
  decide (0x20 ≤ k.toNat) && decide (k.toNat < 0x40)

/-- The two read-modify-write nodes: `or` with the pattern of `SBIAb`, `and` with that of
`CBIAb`. -/
inductive BitNode where
  | or | and
deriving DecidableEq, Repr

namespace BitNode

/-- The value that is stored. -/
def eval {w : ℕ} : BitNode → BitVec w → BitVec w → BitVec w
  | or, old, m => old ||| m
  | and, old, m => old &&& m

/-- The byte of the constant that the leaf looks at: `iobitposn8` complements it. -/
def leafByte : BitNode → BitVec 16 → BitVec 8
  | or, m => m.setWidth 8
  | and, m => (~~~m).setWidth 8

/-- `iobitpos8` and `iobitposn8`. -/
def leaf (node : BitNode) (m : BitVec 16) : Bool :=
  isPowerOf2_32 ((node.leafByte m).setWidth 32)

/-- `iobitpos8_XFORM` and `iobitposn8_XFORM`. -/
def leafXForm (node : BitNode) (m : BitVec 16) : BitVec 64 :=
  (log2_32 ((node.leafByte m).setWidth 32)).setWidth 64

/-- The instruction. -/
def opcode : BitNode → Opcode
  | or => .SBIAb
  | and => .CBIAb

/-- The instruction that the pattern gives for the node of an address and a constant. -/
def select (node : BitNode) (a m : BitVec 16) : Option MachineInstr :=
  if lowioaddr8 a && node.leaf m then
    some ⟨node.opcode, [.imm (ioaddr_XFORM a), .imm (node.leafXForm m)]⟩
  else none

end BitNode

/-- Execute `sbi` or `cbi`. -/
def execBitAccess (mi : MachineInstr) (s : MachineState) : Option MachineState :=
  match mi.opcode, mi.operands with
  | .SBIAb, [.imm port, .imm bit] =>
      some (s.storeByte (portAddress port)
        (s.mem (portAddress port) ||| (1 : BitVec 8) <<< bit.toNat))
  | .CBIAb, [.imm port, .imm bit] =>
      some (s.storeByte (portAddress port)
        (s.mem (portAddress port) &&& ~~~((1 : BitVec 8) <<< bit.toNat)))
  | _, _ => none

/-- The word in memory at an address, low byte first. -/
def MachineState.loadWord (s : MachineState) (address : BitVec 16) : BitVec 16 :=
  s.mem (address + 1) ++ s.mem address

/-- The instruction leaves the word in memory that the node stores. -/
def StoresWord (node : BitNode) (a m : BitVec 16) (mi : MachineInstr) (s : MachineState) : Prop :=
  ∃ t, execBitAccess mi s = some t ∧ t.loadWord a = node.eval (s.loadWord a) m

/-! ## The selected bit -/

/-- A byte with one bit is that bit. -/
theorem bit_log2_32 (b : BitVec 8) (h : isPowerOf2_32 (b.setWidth 32) = true) :
    (1 : BitVec 8) <<< ((log2_32 (b.setWidth 32)).setWidth 64 : BitVec 64).toNat = b := by
  have hall : ∀ b : BitVec 8, isPowerOf2_32 (b.setWidth 32) = true →
      (1 : BitVec 8) <<< ((log2_32 (b.setWidth 32)).setWidth 64 : BitVec 64).toNat = b := by
    decide
  exact hall b h

/-- The port of a low I/O address is that of the address. -/
theorem portAddress_of_lowioaddr8 {a : BitVec 16} (h : lowioaddr8 a = true) :
    portAddress (ioaddr_XFORM a) = a := by
  obtain ⟨hlow, hhigh⟩ : 0x20 ≤ a.toNat ∧ a.toNat < 0x40 := by simpa [lowioaddr8] using h
  have hport : (ioaddr_XFORM a).toNat = a.toNat - 0x20 := by
    have hbase : (0x20 : BitVec 64).toNat = 0x20 := rfl
    rw [ioaddr_XFORM, BitVec.toNat_sub, BitVec.toNat_setWidth, BitVec.toNat_setWidth, hbase]
    omega
  have hbase : (0x20 : BitVec 16).toNat = 0x20 := rfl
  apply BitVec.eq_of_toNat_eq
  rw [portAddress, BitVec.toNat_add, BitVec.toNat_setWidth, hport, hbase]
  omega

namespace BitNode

variable {node : BitNode} {a m : BitVec 16} {mi : MachineInstr}

/-- **What the selected instruction does**: the node on the low bytes. -/
theorem execBitAccess_select (h : node.select a m = some mi) (s : MachineState) :
    execBitAccess mi s = some (s.storeByte a (node.eval (s.mem a) (m.setWidth 8))) := by
  unfold select at h
  split_ifs at h with hmatch
  obtain rfl := Option.some.inj h
  obtain ⟨haddr, hleaf⟩ := Bool.and_eq_true_iff.mp hmatch
  have hbit : (1 : BitVec 8) <<< (node.leafXForm m).toNat = node.leafByte m :=
    bit_log2_32 _ hleaf
  cases node with
  | or =>
      show some (s.storeByte _ (_ ||| (1 : BitVec 8) <<< (leafXForm .or m).toNat)) = _
      rw [portAddress_of_lowioaddr8 haddr, hbit]
      rfl
  | and =>
      show some (s.storeByte _ (_ &&& ~~~((1 : BitVec 8) <<< (leafXForm .and m).toNat))) = _
      rw [portAddress_of_lowioaddr8 haddr, hbit]
      simp [eval, leafByte]

/-- The node on a word is the node on its bytes. -/
theorem eval_append (node : BitNode) (h l h' l' : BitVec 8) :
    node.eval (h ++ l) (h' ++ l') = node.eval h h' ++ node.eval l l' := by
  cases node with
  | or => exact BitVec.or_append
  | and => exact BitVec.and_append

/-- **When the instruction stores what the node stores**: when the high byte of the constant changes
nothing in the byte behind the location. -/
theorem storesWord_iff (h : node.select a m = some mi) (s : MachineState) :
    StoresWord node a m mi s ↔
      node.eval (s.mem (a + 1)) ((m >>> 8).setWidth 8) = s.mem (a + 1) := by
  have hexec := execBitAccess_select h s
  have hne : a + 1 ≠ a := by simp
  have hload : (s.storeByte a (node.eval (s.mem a) (m.setWidth 8))).loadWord a =
      s.mem (a + 1) ++ node.eval (s.mem a) (m.setWidth 8) := by
    simp only [MachineState.loadWord, MachineState.storeByte, Function.update_of_ne hne,
      Function.update_self]
  have hword : node.eval (s.loadWord a) m =
      node.eval (s.mem (a + 1)) ((m >>> 8).setWidth 8) ++
        node.eval (s.mem a) (m.setWidth 8) := by
    rw [← eval_append, MachineState.high_append_low]
    rfl
  have hstored : StoresWord node a m mi s ↔
      (s.storeByte a (node.eval (s.mem a) (m.setWidth 8))).loadWord a =
        node.eval (s.loadWord a) m := by
    unfold StoresWord
    rw [hexec]
    simp
  rw [hstored, hload, hword, append_bytes_inj, and_iff_left rfl]
  exact eq_comm

/-- A bit of the low byte, at the address 0x20. -/
theorem storesWord_bit :
    StoresWord .or 0x20 0x0004 ⟨.SBIAb, [.imm 0, .imm 2]⟩
      ⟨fun _ => 0, ⟨⟨false, false, false, false⟩, 0⟩, 0, fun _ => 0⟩ :=
  (storesWord_iff (by decide) _).mpr (by decide)

/-- A constant with a bit in each byte is taken for the bit of the low byte. -/
theorem not_storesWord_twoBits :
    select .or 0x20 0x0104 = some ⟨.SBIAb, [.imm 0, .imm 2]⟩ ∧
      ¬ StoresWord .or 0x20 0x0104 ⟨.SBIAb, [.imm 0, .imm 2]⟩
        ⟨fun _ => 0, ⟨⟨false, false, false, false⟩, 0⟩, 0, fun _ => 0⟩ := by
  refine ⟨by decide, ?_⟩
  rintro ⟨t, ht, hload⟩
  obtain rfl := Option.some.inj ht
  revert hload
  decide

end BitNode

end Snes
