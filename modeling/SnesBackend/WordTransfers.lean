/-
# Word Loads and Stores

The word accesses that `SNESExpandPseudoInsts.cpp` takes apart into two byte
accesses: through a pointer, with a displacement, at a constant address, and
with the pointer moved behind or in front of the access.  The indexed forms
come from DAG nodes whose offset `getPreIndexedAddressParts`,
`getPostIndexedAddressParts` and `selectIndexedLoad` check.
-/
import SnesBackend.AtomicRuns

namespace Snes

open RoundRewriting ExpandPseudo

/-! ## Byte accesses -/

/-- The address that an operand stands for, with the addresses of the symbols. -/
def operandAddress (symbols : ℕ → BitVec 16) : MachineOperand → Option (BitVec 16)
  | .imm k => some (k.setWidth 16)
  | .globalAddress gv offs _ => some (symbols gv + offs.setWidth 16)
  | _ => none

/-- Execute an instruction, byte accesses at constant addresses and with a moving pointer
included.  The offset operand of a store with a moving pointer is not part of the instruction. -/
def execTransfer (symbols : ℕ → BitVec 16) (mi : MachineInstr) (s : MachineState) :
    Option MachineState :=
  match mi.opcode, mi.operands with
  | .LDSRdK, [.reg d, k] =>
      (operandAddress symbols k).bind fun a => d.lowByte.map fun d => s.setByte d (s.mem a)
  | .STSKRr, [k, .reg r] =>
      (operandAddress symbols k).bind fun a => r.lowByte.map fun r => s.storeByte a (s.regs r)
  | .LDRdPtrPi, [.reg d, .reg (.word p), .reg _] =>
      d.lowByte.map fun d => (s.setByte d (s.mem (s.word p))).setWord p (s.word p + 1)
  | .LDRdPtrPd, [.reg d, .reg (.word p), .reg _] =>
      d.lowByte.map fun d => (s.setByte d (s.mem (s.word p - 1))).setWord p (s.word p - 1)
  | .STPtrPiRr, [.reg (.word p), .reg _, .reg r, .imm _] =>
      r.lowByte.map fun r => (s.storeByte (s.word p) (s.regs r)).setWord p (s.word p + 1)
  | .STPtrPdRr, [.reg (.word p), .reg _, .reg r, .imm _] =>
      r.lowByte.map fun r => (s.storeByte (s.word p - 1) (s.regs r)).setWord p (s.word p - 1)
  | _, _ => execInstr mi s

/-- Execute instructions one after the other. -/
def execTransferBlock (symbols : ℕ → BitVec 16) : List MachineInstr → MachineState →
    Option MachineState
  | [], s => some s
  | mi :: rest, s => (execTransfer symbols mi s).bind (execTransferBlock symbols rest)

/-! ## Word accesses -/

/-- Where a word access finds its address. -/
inductive AddressForm where
  | pointer (ptr : WordReg)
  | postInc (ptr : WordReg)
  | preDec (ptr : WordReg)
  | displaced (ptr : WordReg) (q : BitVec 64)
  | constant (k : BitVec 64)
  | global (gv : ℕ) (offs : BitVec 64) (flags : BitVec 8)
deriving DecidableEq, Repr

namespace AddressForm

/-- The pointer register. -/
def ptr : AddressForm → Option WordReg
  | pointer ptr | postInc ptr | preDec ptr | displaced ptr _ => some ptr
  | constant _ | global _ _ _ => none

/-- The address of the low byte. -/
def address (symbols : ℕ → BitVec 16) (s : MachineState) : AddressForm → BitVec 16
  | pointer ptr => s.word ptr
  | postInc ptr => s.word ptr
  | preDec ptr => s.word ptr - 2
  | displaced ptr q => s.word ptr + q.setWidth 16
  | constant k => k.setWidth 16
  | global gv offs _ => symbols gv + offs.setWidth 16

/-- The register that an access moves, and by how much. -/
def step : AddressForm → Option (WordReg × BitVec 16)
  | postInc ptr => some (ptr, 2)
  | preDec ptr => some (ptr, -2)
  | _ => none

/-- The forms with which a word access of a register can be expanded: a pointer apart from the
register, and a displacement that fits for both bytes. -/
def Admitted (data : WordReg) (form : AddressForm) : Prop :=
  (∀ ptr, form.ptr = some ptr → data ≠ ptr) ∧
    ∀ ptr q, form = displaced ptr q → q.toNat ≤ 62

end AddressForm

/-- A word access: loads of the register, and stores.  The indexed stores have the offset of their
node for an operand. -/
inductive WordAccess where
  | load (dst : WordReg) (form : AddressForm)
  | store (src : WordReg) (form : AddressForm) (offs : BitVec 64)
deriving DecidableEq, Repr

namespace WordAccess

/-- The register with the data. -/
def data : WordAccess → WordReg
  | load dst _ => dst
  | store src _ _ => src

/-- The form of the address. -/
def form : WordAccess → AddressForm
  | load _ form => form
  | store _ form _ => form

/-- The pseudo instruction of an access. -/
def instr : WordAccess → MachineInstr
  | load dst (.pointer ptr) => ⟨.LDWRdPtr, [.reg (.word dst), .reg (.word ptr)]⟩
  | load dst (.postInc ptr) =>
      ⟨.LDWRdPtrPi, [.reg (.word dst), .reg (.word ptr), .reg (.word ptr)]⟩
  | load dst (.preDec ptr) =>
      ⟨.LDWRdPtrPd, [.reg (.word dst), .reg (.word ptr), .reg (.word ptr)]⟩
  | load dst (.displaced ptr q) => ⟨.LDDWRdPtrQ, [.reg (.word dst), .reg (.word ptr), .imm q]⟩
  | load dst (.constant k) => ⟨.LDSWRdK, [.reg (.word dst), .imm k]⟩
  | load dst (.global gv offs flags) =>
      ⟨.LDSWRdK, [.reg (.word dst), .globalAddress gv offs flags]⟩
  | store src (.pointer ptr) _ => ⟨.STWPtrRr, [.reg (.word ptr), .reg (.word src)]⟩
  | store src (.postInc ptr) offs =>
      ⟨.STWPtrPiRr, [.reg (.word ptr), .reg (.word ptr), .reg (.word src), .imm offs]⟩
  | store src (.preDec ptr) offs =>
      ⟨.STWPtrPdRr, [.reg (.word ptr), .reg (.word ptr), .reg (.word src), .imm offs]⟩
  | store src (.displaced ptr q) _ =>
      ⟨.STDWPtrQRr, [.reg (.word ptr), .imm q, .reg (.word src)]⟩
  | store src (.constant k) _ => ⟨.STSWKRr, [.imm k, .reg (.word src)]⟩
  | store src (.global gv offs flags) _ =>
      ⟨.STSWKRr, [.globalAddress gv offs flags, .reg (.word src)]⟩

/-- The word at the address goes into the register, or the other way. -/
def transfer (symbols : ℕ → BitVec 16) (s : MachineState) : WordAccess → MachineState
  | load dst form => s.setWord dst (s.load .i16 (form.address symbols s))
  | store src form _ => s.storeWord (form.address symbols s) (s.word src)

/-- The effect of an access: the word, low byte at the address, is transferred and the pointer of an
indexed form is moved; nothing else changes. -/
def effect (symbols : ℕ → BitVec 16) (s : MachineState) (i : WordAccess) : MachineState :=
  match i.form.step with
  | some (ptr, step) => (i.transfer symbols s).setWord ptr (s.word ptr + step)
  | none => i.transfer symbols s

end WordAccess

/-! ## Writes to different registers -/

namespace MachineState

/-- Writes to different halves commute. -/
theorem setByte_comm (s : MachineState) {r q : ByteReg} (h : r ≠ q) (v w : BitVec 8) :
    (s.setByte r v).setByte q w = (s.setByte q w).setByte r v := by
  simp only [setByte, Function.update_comm h]

/-- A later write to the same half wins. -/
theorem setByte_setByte (s : MachineState) (r : ByteReg) (v w : BitVec 8) :
    (s.setByte r v).setByte r w = s.setByte r w := by
  simp only [setByte, Function.update_idem]

/-- A later write to the same main register wins. -/
theorem setWord_setWord (s : MachineState) (r : WordReg) (v w : BitVec 16) :
    (s.setWord r v).setWord r w = s.setWord r w := by
  unfold setWord
  rw [setByte_comm _ (WordReg.subHi_ne_subLo r r), setByte_setByte,
    setByte_setByte, setByte_comm s (WordReg.subLo_ne_subHi r r)]

/-- A write to a half of another register commutes with a write to a main register. -/
theorem setByte_setWord_comm (s : MachineState) {r : ByteReg} {q : WordReg}
    (hlo : r ≠ q.subLo) (hhi : r ≠ q.subHi) (v : BitVec 8) (w : BitVec 16) :
    (s.setByte r v).setWord q w = (s.setWord q w).setByte r v := by
  unfold setWord
  rw [setByte_comm s hlo, setByte_comm _ hhi]

/-- A write to a half of another register leaves a main register alone. -/
theorem setByte_word (s : MachineState) {r : ByteReg} {q : WordReg} (hlo : r ≠ q.subLo)
    (hhi : r ≠ q.subHi) (v : BitVec 8) : (s.setByte r v).word q = s.word q :=
  word_congr (setByte_regs_of_ne s v hlo.symm) (setByte_regs_of_ne s v hhi.symm)

/-- A write to another main register leaves a half alone. -/
theorem setWord_regs_of_ne (s : MachineState) {r : ByteReg} {q : WordReg} (hlo : r ≠ q.subLo)
    (hhi : r ≠ q.subHi) (v : BitVec 16) : (s.setWord q v).regs r = s.regs r := by
  unfold setWord
  rw [setByte_regs_of_ne _ _ hhi, setByte_regs_of_ne _ _ hlo]

/-- A word is written half by half, in either order. -/
theorem setWord_append (s : MachineState) (r : WordReg) (h l : BitVec 8) :
    s.setWord r (h ++ l) = (s.setByte r.subLo l).setByte r.subHi h := by
  rw [setWord, low_of_append, high_of_append]

/-- Stores at different addresses commute. -/
theorem storeByte_comm (s : MachineState) {a b : BitVec 16} (h : a ≠ b) (v w : BitVec 8) :
    (s.storeByte a v).storeByte b w = (s.storeByte b w).storeByte a v := by
  simp only [storeByte, Function.update_comm h]

/-- A word in a register is stored half by half. -/
theorem storeWord_word (s : MachineState) (a : BitVec 16) (r : WordReg) :
    s.storeWord a (s.word r) =
      (s.storeByte a (s.regs r.subLo)).storeByte (a + 1) (s.regs r.subHi) := by
  rw [storeWord, word, low_of_append, high_of_append]

end MachineState

/-! ## The expansions -/

/-- The pass on one instruction that is expanded in one round. -/
theorem runOnMachineFunction_of_expanded {scavenge : Scavenger} {mi : MachineInstr}
    {mis : List MachineInstr} (h : expandMI (scavenge []) mi = .expanded mis)
    (hmis : NoPseudos mis) : runOnMachineFunction scavenge [[mi]] = some [mis] := by
  have hfirst := rewriteRound_of_expanded scavenge [] h
  have hlast := rewriteRound_of_noPseudos scavenge [] hmis
  rw [runOnMachineFunction_singleton, expandBlock, rewriteRounds_of_changed hfirst,
    rewriteRounds_of_unchanged hlast]

/-- The immediate of the low byte is the displacement modulo `2 ^ 16`. -/
theorem setWidth_ofUnsigned (k : BitVec 64) :
    ((toUnsigned k).setWidth 64).setWidth 16 = k.setWidth 16 := by
  unfold toUnsigned
  ext i hi
  simp [show i < 64 by omega]

/-- The immediate of the high byte is one more. -/
theorem setWidth_ofUnsigned_add_one (k : BitVec 64) :
    ((toUnsigned k + 1).setWidth 64).setWidth 16 = k.setWidth 16 + 1 := by
  unfold toUnsigned
  apply BitVec.eq_of_toNat_eq
  have one (w : ℕ) (hw : 0 < w) : (1 : BitVec w).toNat = 1 := BitVec.toNat_one hw
  simp only [BitVec.toNat_setWidth, BitVec.toNat_add, one _ (by decide : 0 < 32),
    one _ (by decide : 0 < 16)]
  omega

/-- A displacement of six bits meets the assertion. -/
theorem toUnsigned_le {q : BitVec 64} (h : q.toNat ≤ 63) : toUnsigned q ≤ 63 := by
  rw [BitVec.le_def, toUnsigned, BitVec.toNat_setWidth]
  exact (Nat.mod_le _ _).trans h

/-- An expansion whose assertion holds. -/
theorem ofOption_guard {p : Prop} [Decidable p] (hp : p) (mis : List MachineInstr) :
    ExpandResult.ofOption ((guard p : Option Unit).bind fun _ => some mis) = .expanded mis := by
  rw [guard_of_pos hp]
  rfl

/-- The byte accesses of a word access, in the order of the expansion. -/
def WordAccess.bytes : WordAccess → List MachineInstr
  | .load dst (.pointer ptr) =>
      [⟨.LDRdPtr, [.reg (.byte dst.subLo), .reg (.word ptr)]⟩,
        ⟨.LDDRdPtrQ, [.reg (.byte dst.subHi), .reg (.word ptr), .imm 1]⟩]
  | .load dst (.postInc ptr) =>
      [⟨.LDRdPtrPi, [.reg (.byte dst.subLo), .reg (.word ptr), .reg (.word ptr)]⟩,
        ⟨.LDRdPtrPi, [.reg (.byte dst.subHi), .reg (.word ptr), .reg (.word ptr)]⟩]
  | .load dst (.preDec ptr) =>
      [⟨.LDRdPtrPd, [.reg (.byte dst.subHi), .reg (.word ptr), .reg (.word ptr)]⟩,
        ⟨.LDRdPtrPd, [.reg (.byte dst.subLo), .reg (.word ptr), .reg (.word ptr)]⟩]
  | .load dst (.displaced ptr q) =>
      [⟨.LDDRdPtrQ, [.reg (.byte dst.subLo), .reg (.word ptr), ofUnsigned (toUnsigned q)]⟩,
        ⟨.LDDRdPtrQ, [.reg (.byte dst.subHi), .reg (.word ptr), ofUnsigned (toUnsigned q + 1)]⟩]
  | .load dst (.constant k) =>
      [⟨.LDSRdK, [.reg (.byte dst.subLo), ofUnsigned (toUnsigned k)]⟩,
        ⟨.LDSRdK, [.reg (.byte dst.subHi), ofUnsigned (toUnsigned k + 1)]⟩]
  | .load dst (.global gv offs flags) =>
      [⟨.LDSRdK, [.reg (.byte dst.subLo), .globalAddress gv offs flags]⟩,
        ⟨.LDSRdK, [.reg (.byte dst.subHi), .globalAddress gv (offs + 1) flags]⟩]
  | .store src (.pointer ptr) _ =>
      [⟨.STPtrRr, [.reg (.word ptr), .reg (.byte src.subLo)]⟩,
        ⟨.STDPtrQRr, [.reg (.word ptr), .imm 1, .reg (.byte src.subHi)]⟩]
  | .store src (.postInc ptr) offs =>
      [⟨.STPtrPiRr, [.reg (.word ptr), .reg (.word ptr), .reg (.byte src.subLo),
          ofUnsigned (toUnsigned offs)]⟩,
        ⟨.STPtrPiRr, [.reg (.word ptr), .reg (.word ptr), .reg (.byte src.subHi),
          ofUnsigned (toUnsigned offs)]⟩]
  | .store src (.preDec ptr) offs =>
      [⟨.STPtrPdRr, [.reg (.word ptr), .reg (.word ptr), .reg (.byte src.subHi),
          ofUnsigned (toUnsigned offs)]⟩,
        ⟨.STPtrPdRr, [.reg (.word ptr), .reg (.word ptr), .reg (.byte src.subLo),
          ofUnsigned (toUnsigned offs)]⟩]
  | .store src (.displaced ptr q) _ =>
      [⟨.STDPtrQRr, [.reg (.word ptr), ofUnsigned (toUnsigned q), .reg (.byte src.subLo)]⟩,
        ⟨.STDPtrQRr, [.reg (.word ptr), ofUnsigned (toUnsigned q + 1), .reg (.byte src.subHi)]⟩]
  | .store src (.constant k) _ =>
      [⟨.STSKRr, [ofUnsigned (toUnsigned k + 1), .reg (.byte src.subHi)]⟩,
        ⟨.STSKRr, [ofUnsigned (toUnsigned k), .reg (.byte src.subLo)]⟩]
  | .store src (.global gv offs flags) _ =>
      [⟨.STSKRr, [.globalAddress gv (offs + 1) flags, .reg (.byte src.subHi)]⟩,
        ⟨.STSKRr, [.globalAddress gv offs flags, .reg (.byte src.subLo)]⟩]

/-- The byte accesses are no pseudos. -/
theorem WordAccess.noPseudos_bytes (i : WordAccess) : NoPseudos i.bytes := by
  rcases i with ⟨dst, form⟩ | ⟨src, form, offs⟩ <;> cases form <;> exact noPseudos_pair rfl rfl

/-- What the expansion of an access needs: a pointer apart from the register of a load or of a store
that moves it, and a displacement within the assertion. -/
structure WordAccess.Expandable (i : WordAccess) : Prop where
  load_apart : ∀ dst form ptr, i = load dst form → form.ptr = some ptr → dst ≠ ptr
  step_apart : ∀ ptr step, i.form.step = some (ptr, step) → i.data ≠ ptr
  fits : ∀ ptr q, i.form = .displaced ptr q → toUnsigned q ≤ 63

/-- An admitted form can be expanded. -/
theorem AddressForm.Admitted.expandable {i : WordAccess} (h : i.form.Admitted i.data) :
    i.Expandable where
  load_apart := by
    rintro dst form ptr rfl hptr
    exact h.1 ptr hptr
  step_apart ptr step hstep := by
    refine h.1 ptr ?_
    revert hstep
    cases i.form <;> simp +contextual [AddressForm.step, AddressForm.ptr]
  fits ptr q hform := toUnsigned_le ((h.2 ptr q hform).trans (by decide))

/-- **The expansion of a word access** is its two byte accesses. -/
theorem WordAccess.expandMI_instr (scavengeMainRegs : MachineInstr → Option Reg)
    {i : WordAccess} (h : i.Expandable) : expandMI scavengeMainRegs i.instr = .expanded i.bytes := by
  rcases i with ⟨dst, form⟩ | ⟨src, form, offs⟩ <;> cases form
  case load.pointer ptr =>
    exact congrArg ExpandResult.ofOption (expandLDWRdPtr_of_ne (h.load_apart dst _ ptr rfl rfl) _)
  case load.postInc ptr | load.preDec ptr =>
    have hne : Reg.word dst ≠ Reg.word ptr := fun heq =>
      h.step_apart ptr _ rfl (Reg.word.inj heq)
    exact ofOption_guard hne _
  case load.displaced ptr q =>
    exact congrArg ExpandResult.ofOption
      (expandLDDWRdPtrQ_of_ne (h.load_apart dst _ ptr rfl rfl) (h.fits ptr q rfl) _)
  case store.postInc ptr | store.preDec ptr =>
    have hne : Reg.word ptr ≠ Reg.word src := fun heq =>
      h.step_apart ptr _ rfl (Reg.word.inj heq).symm
    exact ofOption_guard hne _
  case store.displaced ptr q =>
    exact ofOption_guard (h.fits ptr q rfl) _
  all_goals rfl

/-! ## Execution -/

section

variable (symbols : ℕ → BitVec 16) (s : MachineState)

/-- The low half of a main register is not a half of another one. -/
theorem subLo_apart {r q : WordReg} (h : r ≠ q) : r.subLo ≠ q.subLo ∧ r.subLo ≠ q.subHi :=
  ⟨fun heq => h (WordReg.subLo_inj.mp heq), WordReg.subLo_ne_subHi r q⟩

/-- Nor is its high half. -/
theorem subHi_apart {r q : WordReg} (h : r ≠ q) : r.subHi ≠ q.subLo ∧ r.subHi ≠ q.subHi :=
  ⟨WordReg.subHi_ne_subLo r q, fun heq => h (WordReg.subHi_inj.mp heq)⟩

/-- Two byte loads, low byte first, load the word. -/
theorem load_lo_hi (dst : WordReg) (a : BitVec 16) :
    (s.setByte dst.subLo (s.mem a)).setByte dst.subHi (s.mem (a + 1)) =
      s.setWord dst (s.load .i16 a) :=
  (s.setWord_append dst _ _).symm

/-- Two byte stores, high byte first, store the word. -/
theorem store_hi_lo (src : WordReg) (a : BitVec 16) :
    (s.storeByte (a + 1) (s.regs src.subHi)).storeByte a (s.regs src.subLo) =
      s.storeWord a (s.word src) := by
  rw [s.storeWord_word, s.storeByte_comm (show a + 1 ≠ a by simp)]

/-- A load with a displacement loads the word at the pointer and the displacement. -/
theorem execTransferBlock_load_displaced {dst ptr : WordReg} (h : dst ≠ ptr) (q : BitVec 64) :
    execTransferBlock symbols (WordAccess.load dst (.displaced ptr q)).bytes s =
      some (s.setWord dst (s.load .i16 (s.word ptr + q.setWidth 16))) := by
  have hptr := s.setByte_word (subLo_apart h).1 (subLo_apart h).2
    (s.mem (s.word ptr + q.setWidth 16))
  have hexec : execTransferBlock symbols (WordAccess.load dst (.displaced ptr q)).bytes s =
      some ((s.setByte dst.subLo (s.mem (s.word ptr +
          ((toUnsigned q).setWidth 64).setWidth 16))).setByte dst.subHi
        (s.mem ((s.setByte dst.subLo (s.mem (s.word ptr +
          ((toUnsigned q).setWidth 64).setWidth 16))).word ptr +
            ((toUnsigned q + 1).setWidth 64).setWidth 16))) := rfl
  rw [hexec, setWidth_ofUnsigned, setWidth_ofUnsigned_add_one, hptr, ← add_assoc, load_lo_hi]

/-- A store with a displacement stores the word at the pointer and the displacement. -/
theorem execTransferBlock_store_displaced (src ptr : WordReg) (q offs : BitVec 64) :
    execTransferBlock symbols (WordAccess.store src (.displaced ptr q) offs).bytes s =
      some (s.storeWord (s.word ptr + q.setWidth 16) (s.word src)) := by
  have hexec : execTransferBlock symbols (WordAccess.store src (.displaced ptr q) offs).bytes s =
      some ((s.storeByte (s.word ptr + ((toUnsigned q).setWidth 64).setWidth 16)
          (s.regs src.subLo)).storeByte
        (s.word ptr + ((toUnsigned q + 1).setWidth 64).setWidth 16) (s.regs src.subHi)) := rfl
  rw [hexec, setWidth_ofUnsigned, setWidth_ofUnsigned_add_one, s.storeWord_word, add_assoc]

/-- A load at a constant address. -/
theorem execTransferBlock_load_constant (dst : WordReg) (k : BitVec 64) :
    execTransferBlock symbols (WordAccess.load dst (.constant k)).bytes s =
      some (s.setWord dst (s.load .i16 (k.setWidth 16))) := by
  have hexec : execTransferBlock symbols (WordAccess.load dst (.constant k)).bytes s =
      some ((s.setByte dst.subLo (s.mem (((toUnsigned k).setWidth 64).setWidth 16))).setByte
        dst.subHi (s.mem (((toUnsigned k + 1).setWidth 64).setWidth 16))) := rfl
  rw [hexec, setWidth_ofUnsigned, setWidth_ofUnsigned_add_one, load_lo_hi]

/-- A store at a constant address, high byte first. -/
theorem execTransferBlock_store_constant (src : WordReg) (k offs : BitVec 64) :
    execTransferBlock symbols (WordAccess.store src (.constant k) offs).bytes s =
      some (s.storeWord (k.setWidth 16) (s.word src)) := by
  have hexec : execTransferBlock symbols (WordAccess.store src (.constant k) offs).bytes s =
      some ((s.storeByte (((toUnsigned k + 1).setWidth 64).setWidth 16)
          (s.regs src.subHi)).storeByte (((toUnsigned k).setWidth 64).setWidth 16)
        (s.regs src.subLo)) := rfl
  rw [hexec, setWidth_ofUnsigned, setWidth_ofUnsigned_add_one, store_hi_lo]

/-- The address of the second byte of a symbol. -/
theorem symbol_add_one (gv : ℕ) (offs : BitVec 64) :
    symbols gv + (offs + 1).setWidth 16 = symbols gv + offs.setWidth 16 + 1 := by
  rw [BitVec.setWidth_add _ _ (by decide), add_assoc]
  rfl

/-- A load at the address of a symbol. -/
theorem execTransferBlock_load_global (dst : WordReg) (gv : ℕ) (offs : BitVec 64)
    (flags : BitVec 8) :
    execTransferBlock symbols (WordAccess.load dst (.global gv offs flags)).bytes s =
      some (s.setWord dst (s.load .i16 (symbols gv + offs.setWidth 16))) := by
  have hexec : execTransferBlock symbols (WordAccess.load dst (.global gv offs flags)).bytes s =
      some ((s.setByte dst.subLo (s.mem (symbols gv + offs.setWidth 16))).setByte
        dst.subHi (s.mem (symbols gv + (offs + 1).setWidth 16))) := rfl
  rw [hexec, symbol_add_one, load_lo_hi]

/-- A store at the address of a symbol, high byte first. -/
theorem execTransferBlock_store_global (src : WordReg) (gv : ℕ) (offs : BitVec 64)
    (flags : BitVec 8) (imm : BitVec 64) :
    execTransferBlock symbols (WordAccess.store src (.global gv offs flags) imm).bytes s =
      some (s.storeWord (symbols gv + offs.setWidth 16) (s.word src)) := by
  have hexec : execTransferBlock symbols
        (WordAccess.store src (.global gv offs flags) imm).bytes s =
      some ((s.storeByte (symbols gv + (offs + 1).setWidth 16)
          (s.regs src.subHi)).storeByte (symbols gv + offs.setWidth 16)
        (s.regs src.subLo)) := rfl
  rw [hexec, symbol_add_one, store_hi_lo]

/-! ## Moving pointers -/

/-- Only the last position of a pointer counts, with a write to another register in between. -/
theorem setWord_setByte_setWord {r : ByteReg} {ptr : WordReg} (hlo : r ≠ ptr.subLo)
    (hhi : r ≠ ptr.subHi) (v w : BitVec 16) (b : BitVec 8) :
    ((s.setWord ptr v).setByte r b).setWord ptr w = (s.setByte r b).setWord ptr w := by
  rw [MachineState.setByte_setWord_comm _ hlo hhi, MachineState.setWord_setWord,
    ← MachineState.setByte_setWord_comm _ hlo hhi]

/-- And with a store in between. -/
theorem setWord_storeByte_setWord (ptr : WordReg) (a v w : BitVec 16) (b : BitVec 8) :
    ((s.setWord ptr v).storeByte a b).setWord ptr w = (s.storeByte a b).setWord ptr w := by
  have hcomm : (s.setWord ptr v).storeByte a b = (s.storeByte a b).setWord ptr v := rfl
  rw [hcomm, MachineState.setWord_setWord]

/-- The byte loads with a moving pointer. -/
theorem execTransfer_load_moving (d : ByteReg) (ptr : WordReg) :
    execTransfer symbols ⟨.LDRdPtrPi, [.reg (.byte d), .reg (.word ptr), .reg (.word ptr)]⟩ s =
        some ((s.setByte d (s.mem (s.word ptr))).setWord ptr (s.word ptr + 1)) ∧
      execTransfer symbols ⟨.LDRdPtrPd, [.reg (.byte d), .reg (.word ptr), .reg (.word ptr)]⟩ s =
        some ((s.setByte d (s.mem (s.word ptr - 1))).setWord ptr (s.word ptr - 1)) :=
  ⟨rfl, rfl⟩

/-- The byte stores with a moving pointer. -/
theorem execTransfer_store_moving (r : ByteReg) (ptr : WordReg) (offs : BitVec 64) :
    execTransfer symbols
        ⟨.STPtrPiRr, [.reg (.word ptr), .reg (.word ptr), .reg (.byte r), .imm offs]⟩ s =
        some ((s.storeByte (s.word ptr) (s.regs r)).setWord ptr (s.word ptr + 1)) ∧
      execTransfer symbols
        ⟨.STPtrPdRr, [.reg (.word ptr), .reg (.word ptr), .reg (.byte r), .imm offs]⟩ s =
        some ((s.storeByte (s.word ptr - 1) (s.regs r)).setWord ptr (s.word ptr - 1)) :=
  ⟨rfl, rfl⟩

/-- A load with the pointer moved behind each byte. -/
theorem execTransferBlock_load_postInc {dst ptr : WordReg} (h : dst ≠ ptr) :
    execTransferBlock symbols (WordAccess.load dst (.postInc ptr)).bytes s =
      some ((s.setWord dst (s.load .i16 (s.word ptr))).setWord ptr (s.word ptr + 2)) := by
  have htwo : s.word ptr + 1 + 1 = s.word ptr + 2 := by ring
  simp only [WordAccess.bytes, execTransferBlock, execTransfer_load_moving, Option.bind_some,
    MachineState.setWord_word_self, MachineState.setWord_mem, MachineState.setByte_mem]
  rw [setWord_setByte_setWord _ (subHi_apart h).1 (subHi_apart h).2, load_lo_hi, htwo]

/-- A load with the pointer moved in front of each byte, high byte first. -/
theorem execTransferBlock_load_preDec {dst ptr : WordReg} (h : dst ≠ ptr) :
    execTransferBlock symbols (WordAccess.load dst (.preDec ptr)).bytes s =
      some ((s.setWord dst (s.load .i16 (s.word ptr - 2))).setWord ptr (s.word ptr + -2)) := by
  have htwo : s.word ptr - 1 - 1 = s.word ptr - 2 := by ring
  have hhigh : s.word ptr - 1 = s.word ptr - 2 + 1 := by ring
  simp only [WordAccess.bytes, execTransferBlock, execTransfer_load_moving, Option.bind_some,
    MachineState.setWord_word_self, MachineState.setWord_mem, MachineState.setByte_mem]
  rw [setWord_setByte_setWord _ (subLo_apart h).1 (subLo_apart h).2, htwo, hhigh,
    s.setByte_comm (WordReg.subHi_ne_subLo dst dst), load_lo_hi, sub_eq_add_neg _ (2 : BitVec 16)]

/-- A store with the pointer moved behind each byte. -/
theorem execTransferBlock_store_postInc {src ptr : WordReg} (h : src ≠ ptr) (offs : BitVec 64) :
    execTransferBlock symbols (WordAccess.store src (.postInc ptr) offs).bytes s =
      some ((s.storeWord (s.word ptr) (s.word src)).setWord ptr (s.word ptr + 2)) := by
  have htwo : s.word ptr + 1 + 1 = s.word ptr + 2 := by ring
  have hsrc (t : MachineState) (v : BitVec 16) :
      (t.setWord ptr v).regs src.subHi = t.regs src.subHi :=
    t.setWord_regs_of_ne (subHi_apart h).1 (subHi_apart h).2 v
  simp only [WordAccess.bytes, ofUnsigned, execTransferBlock, execTransfer_store_moving,
    Option.bind_some, MachineState.setWord_word_self, hsrc]
  rw [setWord_storeByte_setWord, htwo, s.storeWord_word]
  rfl

/-- A store with the pointer moved in front of each byte, high byte first. -/
theorem execTransferBlock_store_preDec {src ptr : WordReg} (h : src ≠ ptr) (offs : BitVec 64) :
    execTransferBlock symbols (WordAccess.store src (.preDec ptr) offs).bytes s =
      some ((s.storeWord (s.word ptr - 2) (s.word src)).setWord ptr (s.word ptr + -2)) := by
  have htwo : s.word ptr - 1 - 1 = s.word ptr - 2 := by ring
  have hhigh : s.word ptr - 1 = s.word ptr - 2 + 1 := by ring
  have hsrc (t : MachineState) (v : BitVec 16) :
      (t.setWord ptr v).regs src.subLo = t.regs src.subLo :=
    t.setWord_regs_of_ne (subLo_apart h).1 (subLo_apart h).2 v
  simp only [WordAccess.bytes, ofUnsigned, execTransferBlock, execTransfer_store_moving,
    Option.bind_some, MachineState.setWord_word_self, hsrc]
  rw [setWord_storeByte_setWord, htwo, hhigh, ← store_hi_lo, sub_eq_add_neg _ (2 : BitVec 16)]
  rfl

/-- **The byte accesses have the effect of the word access.** -/
theorem execTransferBlock_bytes {i : WordAccess} (h : i.Expandable) :
    execTransferBlock symbols i.bytes s = some (i.effect symbols s) := by
  rcases i with ⟨dst, form⟩ | ⟨src, form, offs⟩ <;> cases form
  case load.pointer ptr =>
    have hne : dst ≠ ptr := h.load_apart dst _ ptr rfl rfl
    have hblock : execTransferBlock symbols (WordAccess.load dst (.pointer ptr)).bytes s =
        execBlock (loadBody .i16 dst ptr) s := rfl
    rw [hblock, execBlock_loadBody fun _ => hne]
    rfl
  case load.postInc ptr =>
    exact execTransferBlock_load_postInc symbols s (h.step_apart ptr _ rfl)
  case load.preDec ptr =>
    exact execTransferBlock_load_preDec symbols s (h.step_apart ptr _ rfl)
  case load.displaced ptr q =>
    exact execTransferBlock_load_displaced symbols s (h.load_apart dst _ ptr rfl rfl) q
  case load.constant k => exact execTransferBlock_load_constant symbols s dst k
  case load.global gv offs flags =>
    exact execTransferBlock_load_global symbols s dst gv offs flags
  case store.pointer ptr =>
    have hblock : execTransferBlock symbols (WordAccess.store src (.pointer ptr) offs).bytes s =
        execBlock (storeBody .i16 ptr src) s := rfl
    rw [hblock, execBlock_storeBody]
    rfl
  case store.postInc ptr =>
    exact execTransferBlock_store_postInc symbols s (h.step_apart ptr _ rfl) offs
  case store.preDec ptr =>
    exact execTransferBlock_store_preDec symbols s (h.step_apart ptr _ rfl) offs
  case store.displaced ptr q => exact execTransferBlock_store_displaced symbols s src ptr q offs
  case store.constant k => exact execTransferBlock_store_constant symbols s src k offs
  case store.global gv offset flags =>
    exact execTransferBlock_store_global symbols s src gv offset flags offs

end

/-! ## Indexed nodes of the DAG -/

/-- The addressing modes of memory nodes. -/
inductive MemIndexedMode where
  | UNINDEXED | PRE_INC | PRE_DEC | POST_INC | POST_DEC
deriving DecidableEq, Repr

/-- The node of an address: a sum or a difference with a right operand that is a constant or not, or
something else. -/
inductive AddressNode where
  | ADD (base : ℕ) (rhs : Option (BitVec 16))
  | SUB (base : ℕ) (rhs : Option (BitVec 16))
  | other
deriving DecidableEq, Repr

/-- A node, with its type in memory, where that is `i8` or `i16`, and its address. -/
inductive MemNode where
  | load (memoryVT : Option ValueType) (nonExtLoad programMemory : Bool) (basePtr : AddressNode)
  | store (memoryVT : Option ValueType) (programMemory : Bool) (basePtr : AddressNode)
  | other
deriving DecidableEq, Repr

/-- The type in memory. -/
def MemNode.memoryVT : MemNode → Option ValueType
  | load vt _ _ _ => vt
  | store vt _ _ => vt
  | other => none

/-- The base, and `RHSC`: the constant that is added to it. -/
def AddressNode.baseAndRHSC : AddressNode → Option (ℕ × ℤ)
  | ADD base (some c) => some (base, c.toInt)
  | SUB base (some c) => some (base, -c.toInt)
  | _ => none

/-- The offset that an indexed access of a type must have. -/
def offsetFits (vt : ValueType) (bytes : ValueType → ℤ) (offs : ℤ) : Bool :=
  match vt with
  | .i16 => offs == bytes .i16
  | .i8 => offs == bytes .i8

/-- The offset of an access that moves the pointer in front. -/
def preStep : ValueType → ℤ
  | .i16 => -2
  | .i8 => -1

/-- The offset of an access that moves the pointer behind. -/
def postStep : ValueType → ℤ
  | .i16 => 2
  | .i8 => 1

/-- The address of a plain load or a store that does not access program memory. -/
def MemNode.preIndexedAddress : MemNode → Option AddressNode
  | load _ nonExtLoad programMemory basePtr =>
      if nonExtLoad && !programMemory then some basePtr else none
  | store _ programMemory basePtr => if programMemory then none else some basePtr
  | other => none

/-- `getPreIndexedAddressParts`: the base, the offset and the mode. -/
def getPreIndexedAddressParts (n : MemNode) : Option (ℕ × ℤ × MemIndexedMode) := do
  let op ← n.preIndexedAddress
  let vt ← n.memoryVT
  let (base, rhsc) ← op.baseAndRHSC
  if offsetFits vt preStep rhsc then some (base, rhsc, .PRE_DEC) else none

/-- A plain load, of program memory too, or a store that does not access program memory. -/
def MemNode.postIndexed : MemNode → Bool
  | load _ nonExtLoad _ _ => nonExtLoad
  | store _ programMemory _ => !programMemory
  | other => false

/-- `getPostIndexedAddressParts`, with the node of the moved pointer. -/
def getPostIndexedAddressParts (n : MemNode) (op : AddressNode) :
    Option (ℕ × ℤ × MemIndexedMode) := do
  guard n.postIndexed
  let vt ← n.memoryVT
  let (base, rhsc) ← op.baseAndRHSC
  if offsetFits vt postStep rhsc then some (base, rhsc, .POST_INC) else none

/-- `selectIndexedLoad`: the opcode for a load with an offset. -/
def selectIndexedLoad (nonExtLoad : Bool) (am : MemIndexedMode) (vt : ValueType) (offs : ℤ) :
    Option Opcode :=
  if !nonExtLoad then none
  else
    match am, vt with
    | .PRE_DEC, .i8 => if offsetFits .i8 preStep offs then some .LDRdPtrPd else none
    | .PRE_DEC, .i16 => if offsetFits .i16 preStep offs then some .LDWRdPtrPd else none
    | .POST_INC, .i8 => if offsetFits .i8 postStep offs then some .LDRdPtrPi else none
    | .POST_INC, .i16 => if offsetFits .i16 postStep offs then some .LDWRdPtrPi else none
    | _, _ => none

/-- An offset that the DAG accepts for a word access with a mode. -/
def AcceptedOffset (am : MemIndexedMode) (offs : ℤ) : Prop :=
  (∃ n base, n.memoryVT = some .i16 ∧ getPreIndexedAddressParts n = some (base, offs, am)) ∨
    (∃ n op base, n.memoryVT = some .i16 ∧
      getPostIndexedAddressParts n op = some (base, offs, am)) ∨
    ∃ opcode, selectIndexedLoad true am .i16 offs = some opcode

/-- The mode of the nodes that a form is selected for. -/
def AddressForm.mode : AddressForm → MemIndexedMode
  | postInc _ => .POST_INC
  | preDec _ => .PRE_DEC
  | _ => .UNINDEXED

/-- The DAG accepts two bytes in front with one mode and two bytes behind with the other. -/
theorem eq_of_acceptedOffset {am : MemIndexedMode} {offs : ℤ} (h : AcceptedOffset am offs) :
    am = .PRE_DEC ∧ offs = -2 ∨ am = .POST_INC ∧ offs = 2 := by
  rcases h with ⟨n, base, hvt, hparts⟩ | ⟨n, op, base, hvt, hparts⟩ | ⟨opcode, hselect⟩
  · simp only [getPreIndexedAddressParts, hvt, Option.bind_eq_bind, Option.bind_eq_some_iff,
      Option.some.injEq, Option.ite_none_right_eq_some, Prod.mk.injEq, Prod.exists] at hparts
    obtain ⟨-, -, _, rfl, _, _, -, hfits, -, rfl, rfl⟩ := hparts
    exact .inl ⟨rfl, by simpa [offsetFits, preStep] using hfits⟩
  · simp only [getPostIndexedAddressParts, hvt, Option.bind_eq_bind, Option.bind_eq_some_iff,
      Option.some.injEq, Option.ite_none_right_eq_some, Prod.mk.injEq, Prod.exists] at hparts
    obtain ⟨-, -, _, rfl, _, _, -, hfits, -, rfl, rfl⟩ := hparts
    exact .inr ⟨rfl, by simpa [offsetFits, postStep] using hfits⟩
  · cases am <;> simp only [selectIndexedLoad, Bool.not_true, Bool.false_eq_true, if_false,
      Option.ite_none_right_eq_some, reduceCtorEq] at hselect
    case PRE_DEC => exact .inl ⟨rfl, by simpa [offsetFits, preStep] using hselect.1⟩
    case POST_INC => exact .inr ⟨rfl, by simpa [offsetFits, postStep] using hselect.1⟩

/-- The pointer of a form moves by the offset of its node. -/
theorem AddressForm.step_of_acceptedOffset (form : AddressForm) {offs : ℤ}
    (h : AcceptedOffset form.mode offs) :
    ∃ ptr, form.ptr = some ptr ∧ form.step = some (ptr, BitVec.ofInt 16 offs) := by
  obtain ⟨hmode, rfl⟩ | ⟨hmode, rfl⟩ := eq_of_acceptedOffset h <;>
    cases form <;> simp only [mode, reduceCtorEq] at hmode
  case inl.preDec ptr => exact ⟨ptr, rfl, rfl⟩
  case inr.postInc ptr => exact ⟨ptr, rfl, rfl⟩

/-- **A word access transfers the word**: the instructions that the pass leaves transfer the
little-endian word at the address, move the pointer of an indexed form by the offset that the DAG
requires, and change nothing else. -/
theorem wordAccess_transfers (scavenge : Scavenger) (symbols : ℕ → BitVec 16) (s : MachineState)
    {i : WordAccess} (h : i.form.Admitted i.data) :
    (∃ mis, runOnMachineFunction scavenge [[i.instr]] = some [mis] ∧
      execTransferBlock symbols mis s = some (i.effect symbols s)) ∧
      ∀ offs, AcceptedOffset i.form.mode offs →
        ∃ ptr, i.form.ptr = some ptr ∧ i.form.step = some (ptr, BitVec.ofInt 16 offs) :=
  ⟨⟨i.bytes, runOnMachineFunction_of_expanded (i.expandMI_instr (scavenge []) h.expandable)
        i.noPseudos_bytes,
      execTransferBlock_bytes symbols s h.expandable⟩,
    fun _ => i.form.step_of_acceptedOffset⟩

/-- A load of `A` with `X` moved in front, from the wrapped address `0xffff`. -/
theorem wordAccess_transfers_LDWRdPtrPd :
    (∃ mis, runOnMachineFunction (fun _ _ => none)
        [[(WordAccess.load .A (.preDec .X)).instr]] = some [mis] ∧
      execTransferBlock (fun _ => 0) mis ⟨fun _ => 0, ⟨⟨false, false, false, false⟩, 0⟩, 0,
          fun a => a.setWidth 8⟩ =
        some ((WordAccess.load .A (.preDec .X)).effect (fun _ => 0)
          ⟨fun _ => 0, ⟨⟨false, false, false, false⟩, 0⟩, 0, fun a => a.setWidth 8⟩)) ∧
      ∀ offs, AcceptedOffset (AddressForm.preDec .X).mode offs →
        ∃ ptr, (AddressForm.preDec .X).ptr = some ptr ∧
          (AddressForm.preDec .X).step = some (ptr, BitVec.ofInt 16 offs) :=
  wordAccess_transfers (fun _ _ => none) (fun _ => 0) _ ⟨by simp [WordAccess.form,
    WordAccess.data, AddressForm.ptr], by simp [WordAccess.form]⟩

end Snes
