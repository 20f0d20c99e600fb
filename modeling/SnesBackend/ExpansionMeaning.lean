/-
# The Expansion Keeps the Meaning of Functions

What the pseudo instructions stand for, as 16-bit operations, comparisons,
accesses and addresses, and what the byte-wide instructions of their expansions
do.  The pass puts the second in the place of the first all over a function,
and every run of the function that it leaves is one that the function before it
allows; the remaining instructions may do anything.
-/
import SnesBackend.RunGuarantees
import SnesBackend.SelectedAccesses

namespace Snes

open WordArith RoundRewriting RunGuarantees ExpandPseudo

/-! ## The byte-wide instructions -/

/-- The final addresses of the data symbols and of the blocks. -/
structure SymbolTable where
  globals : ℕ → BitVec 16
  blocks : ℕ → BitVec 16

/-- The half of an address that target flags ask for; `MO_NEG` negates the address first. -/
def flaggedByte (tf : BitVec 8) (address : BitVec 16) : Option (BitVec 8) :=
  let value := if tf &&& moNeg ≠ 0 then -address else address
  if tf &&& moLo ≠ 0 then some (value.setWidth 8)
  else if tf &&& moHi ≠ 0 then some ((value >>> 8).setWidth 8)
  else none

/-- The byte that an operand stands for. -/
def byteOperand (table : SymbolTable) : MachineOperand → Option (BitVec 8)
  | .imm k => some (k.setWidth 8)
  | .globalAddress gv offs tf => flaggedByte tf (table.globals gv + offs.setWidth 16)
  | .blockAddress ba tf => flaggedByte tf (table.blocks ba)
  | _ => none

/-- Execute an instruction that the expansions consist of, halves of addresses included. -/
def execReal (table : SymbolTable) (mi : MachineInstr) (s : MachineState) : Option MachineState :=
  match mi.opcode, mi.operands with
  | .LDIRdK, [.reg d, k] =>
      (byteOperand table k).bind fun v => d.lowByte.map fun d => s.setByte d v
  | op, [.reg d, .reg a, .globalAddress gv offs tf] =>
      (byteOperand table (.globalAddress gv offs tf)).bind fun v =>
        execAlu ⟨op, [.reg d, .reg a, .imm (v.setWidth 64)]⟩ s
  | _, _ => execSelected table.globals mi s

/-- Execute instructions one after the other. -/
def execRealBlock (table : SymbolTable) : List MachineInstr → MachineState → Option MachineState
  | [], s => some s
  | mi :: rest, s => (execReal table mi s).bind (execRealBlock table rest)

/-! ## The pseudos and what they stand for -/

/-- The constants that `LDIWRdK` takes. -/
inductive WordConstant where
  | imm (k : BitVec 64)
  | globalAddress (gv : ℕ) (offs : BitVec 64)
  | blockAddress (ba : ℕ)
deriving DecidableEq, Repr

namespace WordConstant

/-- The operand; `LowerGlobalAddress` and `LowerBlockAddress` set no target flags. -/
def operand : WordConstant → MachineOperand
  | imm k => .imm k
  | globalAddress gv offs => .globalAddress gv offs 0
  | blockAddress ba => .blockAddress ba 0

/-- The value. -/
def value (table : SymbolTable) : WordConstant → BitVec 16
  | imm k => k.setWidth 16
  | globalAddress gv offs => table.globals gv + offs.setWidth 16
  | blockAddress ba => table.blocks ba

end WordConstant

/-- The pseudos with the operands that their definitions admit.  A comparison is the first of a
chain or a later one. -/
inductive DefinedPseudo where
  | word (i : WordPseudo)
  | access (i : WordAccess)
  | frameLoad (dst base : WordReg) (q : BitVec 64)
  | compare (later : Bool) (dst src : WordReg)
  | constant (dst : WordReg) (k : WordConstant)
  | addAddress (dst : WordReg) (gv : ℕ) (offs : BitVec 64)
  | portLoad (dst : WordReg) (port : BitVec 64)
  | portStore (src : WordReg) (port : BitVec 64)
  | pushA
  | fence

namespace DefinedPseudo

/-- The machine instruction. -/
def instr : DefinedPseudo → MachineInstr
  | word i => i.instr
  | access i => i.instr
  | frameLoad dst base q => ⟨.LDDWRdYQ, [.reg (.word dst), .reg (.word base), .imm q]⟩
  | compare false dst src => ⟨.CPWRdRr, [.reg (.word dst), .reg (.word src)]⟩
  | compare true dst src => ⟨.CPCWRdRr, [.reg (.word dst), .reg (.word src)]⟩
  | constant dst k => ⟨.LDIWRdK, [.reg (.word dst), k.operand]⟩
  | addAddress dst gv offs =>
      ⟨.SUBIWRdK, [.reg (.word dst), .reg (.word dst), .globalAddress gv offs 0]⟩
  | portLoad dst port => ⟨.INWRdA, [.reg (.word dst), .imm port]⟩
  | portStore src port => ⟨.OUTWARr, [.imm port, .reg (.word src)]⟩
  | pushA => ⟨.PUSHWRr, [.reg (.word .A)]⟩
  | fence => ⟨.AtomicFence, []⟩

/-- What the assertions of the expansions admit, and loads whose pointer is another register. -/
def Admitted : DefinedPseudo → Prop
  | access i => i.Expandable
  | frameLoad dst base q => (WordAccess.load dst (.displaced base q)).Expandable
  | portLoad _ port | portStore _ port => toUnsigned port ≤ 63
  | _ => True

/-- What a pseudo does.  Only the carry of the flags is said where the operation has one. -/
def Effect (table : SymbolTable) (i : DefinedPseudo) (s s' : MachineState) : Prop :=
  match i with
  | word i => WordEffect s s' i.dst (i.result s) (i.carry s)
  | access i => s' = i.effect table.globals s
  | frameLoad dst base q => s' = s.setWord dst (s.load .i16 (s.word base + q.setWidth 16))
  | compare false dst src => s' = s.setFlags (cmpFlags (s.word dst) (s.word src))
  | compare true dst src => s' = s.setFlags (cmpcFlags (s.word dst) (s.word src) s.p.toFlags)
  | constant dst k => s' = s.setWord dst (k.value table)
  | addAddress dst gv offs =>
      WordEffect s s' dst (s.word dst + (table.globals gv + offs.setWidth 16)) none
  | portLoad dst port => s' = s.setWord dst (s.load .i16 (portAddress port))
  | portStore src port => s' = s.storeWord (portAddress port) (s.word src)
  | pushA => s' = s.pushWord (s.word .A)
  | fence => s' = s

end DefinedPseudo

/-! ## The expansions -/

/-- The instructions that `SNESInstrInfo.td` defines with `isTerminator`. -/
def Opcode.isTerminator : Opcode → Bool
  | RJMPk | IJMP | EIJMP | JMPk | RET | RETI | CPSE | SBRCRrB | SBRSRrB | SBICAb | SBISAb | BRBSsk
  | BRBCsk | BREQk | BRNEk | BRSHk | BRLOk | BRMIk | BRPLk | BRGEk | BRLTk => true
  | _ => false

/-- No pseudo is a terminator. -/
theorem isTerminator_of_isPseudo {op : Opcode} (h : op.isPseudo = true) :
    op.isTerminator = false := by
  cases op <;> first | rfl | exact absurd h (by decide)

/-- Instructions that are neither pseudos nor terminators. -/
def StraightLine (mis : List MachineInstr) : Prop :=
  ∀ mi ∈ mis, mi.opcode.isPseudo = false ∧ mi.opcode.isTerminator = false

theorem straightLine_pair {mi mi' : MachineInstr}
    (hmi : mi.opcode.isPseudo = false ∧ mi.opcode.isTerminator = false)
    (hmi' : mi'.opcode.isPseudo = false ∧ mi'.opcode.isTerminator = false) :
    StraightLine [mi, mi'] :=
  List.forall_mem_cons.mpr ⟨hmi, List.forall_mem_singleton.mpr hmi'⟩

/-- A pseudo is expanded into byte-wide instructions, and these do in every state what the pseudo
does. -/
def DefinedPseudo.ExpandsRight (table : SymbolTable) (i : DefinedPseudo) : Prop :=
  ∀ scavengeMainRegs, ∃ mis, expandMI scavengeMainRegs i.instr = .expanded mis ∧ StraightLine mis ∧
    ∀ s, ∃ s', execRealBlock table mis s = some s' ∧ i.Effect table s s'

section

variable {table : SymbolTable}

/-- The expansion of a word pseudo. -/
theorem expandsRight_word (i : WordPseudo) : (DefinedPseudo.word i).ExpandsRight table := by
  intro scavengeMainRegs
  have expanded : ∃ mis, expandMI scavengeMainRegs i.instr = .expanded mis ∧ StraightLine mis ∧
      ∀ s, execRealBlock table mis s = execAluBlock mis s := by
    rcases i with ⟨op, dst, src⟩ | ⟨op, dst, k⟩ | ⟨op, dst⟩ <;> cases op <;>
      exact ⟨_, rfl, straightLine_pair ⟨rfl, rfl⟩ ⟨rfl, rfl⟩, fun _ => rfl⟩
  obtain ⟨mis, hexpand, hmis, hexec⟩ := expanded
  refine ⟨mis, hexpand, hmis, fun s => ?_⟩
  obtain ⟨mis', s', hexpand', hexec', effect⟩ := expandMI_wordPseudo scavengeMainRegs i s
  obtain rfl := ExpandResult.expanded.inj (hexpand.symm.trans hexpand')
  exact ⟨s', (hexec s).trans hexec', effect⟩

/-- The expansion of a word access. -/
theorem expandsRight_access {i : WordAccess} (h : i.Expandable) :
    (DefinedPseudo.access i).ExpandsRight table := by
  have straight : StraightLine i.bytes := by
    rcases i with ⟨dst, form⟩ | ⟨src, form, offs⟩ <;> cases form <;>
      exact straightLine_pair ⟨rfl, rfl⟩ ⟨rfl, rfl⟩
  refine fun scavengeMainRegs => ⟨i.bytes, i.expandMI_instr _ h, straight, fun s => ⟨_, ?_, rfl⟩⟩
  rw [← execTransferBlock_bytes table.globals s h]
  rcases i with ⟨dst, form⟩ | ⟨src, form, offs⟩ <;> cases form <;> rfl

/-- The expansion of the load of a spilled word is that of a load with a displacement. -/
theorem expandsRight_frameLoad {dst base : WordReg} {q : BitVec 64}
    (h : (WordAccess.load dst (.displaced base q)).Expandable) :
    (DefinedPseudo.frameLoad dst base q).ExpandsRight table := by
  refine fun scavengeMainRegs => ⟨_, congrArg ExpandResult.ofOption (expandLDDWRdPtrQ_of_ne
    (h.load_apart dst _ base rfl rfl) (h.fits base q rfl) _),
    straightLine_pair ⟨rfl, rfl⟩ ⟨rfl, rfl⟩, fun s => ?_⟩
  exact ⟨_, execTransferBlock_bytes table.globals s h, rfl⟩

/-- The expansion of a comparison. -/
theorem expandsRight_compare (later : Bool) (dst src : WordReg) :
    (DefinedPseudo.compare later dst src).ExpandsRight table := by
  intro scavengeMainRegs
  cases later with
  | false =>
      exact ⟨_, rfl, straightLine_pair ⟨rfl, rfl⟩ ⟨rfl, rfl⟩, fun s =>
        ⟨_, execCompareBlock_first ⟨dst, src, s.regs⟩ s, rfl⟩⟩
  | true =>
      exact ⟨_, rfl, straightLine_pair ⟨rfl, rfl⟩ ⟨rfl, rfl⟩, fun s =>
        ⟨_, execCompareBlock_later ⟨dst, src, s.regs⟩ s, rfl⟩⟩

/-- The second byte of the low 16 bits of an immediate. -/
theorem setWidth_shift_setWidth (k : BitVec 64) :
    ((k >>> 8).setWidth 8 : BitVec 8) = (k.setWidth 16 >>> 8).setWidth 8 := by
  ext i hi
  simp [show 8 + i < 16 by omega]

/-- The expansion of a constant. -/
theorem expandsRight_constant (dst : WordReg) (k : WordConstant) :
    (DefinedPseudo.constant dst k).ExpandsRight table := by
  intro scavengeMainRegs
  have halves : ∃ lo hi, byteOperands k.operand = some (lo, hi) ∧
      byteOperand table lo = some ((k.value table).setWidth 8) ∧
      byteOperand table hi = some ((k.value table >>> 8).setWidth 8) := by
    cases k with
    | imm k =>
        refine ⟨_, _, rfl, ?_, ?_⟩
        · rw [ofUnsigned, byteOperand, setWidth_lo8]
          simp [WordConstant.value]
        · rw [ofUnsigned, byteOperand, setWidth_hi8, setWidth_shift_setWidth]
          rfl
    | globalAddress gv offs => exact ⟨_, _, rfl, rfl, rfl⟩
    | blockAddress ba => exact ⟨_, _, rfl, rfl, rfl⟩
  obtain ⟨lo, hi, hbytes, hlo, hhi⟩ := halves
  have hexpand : expandMI scavengeMainRegs (DefinedPseudo.constant dst k).instr = .expanded
      [⟨.LDIRdK, [.reg (.byte dst.subLo), lo]⟩, ⟨.LDIRdK, [.reg (.byte dst.subHi), hi]⟩] := by
    change ExpandResult.ofOption ((byteOperands k.operand).bind _) = _
    rw [hbytes]
    rfl
  refine ⟨_, hexpand, straightLine_pair ⟨rfl, rfl⟩ ⟨rfl, rfl⟩,
    fun s => ⟨s.setWord dst (k.value table), ?_, rfl⟩⟩
  simp only [execRealBlock, execReal, hlo, hhi, Option.bind_some]
  rfl

/-- The expansion of a sum with an address: its negation is subtracted. -/
theorem expandsRight_addAddress (dst : WordReg) (gv : ℕ) (offs : BitVec 64) :
    (DefinedPseudo.addAddress dst gv offs).ExpandsRight table := by
  refine fun scavengeMainRegs => ⟨_, rfl, straightLine_pair ⟨rfl, rfl⟩ ⟨rfl, rfl⟩, fun s => ?_⟩
  let address := table.globals gv + offs.setWidth 16
  obtain ⟨hresult, -⟩ := RegRegPseudo.SUBW.chain rfl rfl (s.regs dst.subHi) (s.regs dst.subLo)
    (((-address) >>> 8).setWidth 8) ((-address).setWidth 8) s.p.toFlags
  rw [MachineState.high_append_low] at hresult
  refine ⟨_, ?_, wordEffect_lo_hi s dst (hresult.trans ?_) nofun⟩
  · have bytes : ∀ b : BitVec 8, (b.setWidth 64).setWidth 8 = b := by
      intro b
      simp
    have hexec := @execAluBlock_regImm s .SUBIRdK .SBCIRdK _ _ rfl rfl dst
      (((-address).setWidth 8 : BitVec 8).setWidth 64)
      ((((-address) >>> 8).setWidth 8 : BitVec 8).setWidth 64)
    rw [bytes, bytes] at hexec
    exact hexec
  · exact sub_neg_eq_add _ _

/-- The expansions of word accesses to ports. -/
theorem expandsRight_ports {port : BitVec 64} (hport : toUnsigned port ≤ 63) (r : WordReg) :
    (DefinedPseudo.portLoad r port).ExpandsRight table ∧
      (DefinedPseudo.portStore r port).ExpandsRight table := by
  obtain ⟨hlow, hhigh⟩ := portAddress_ofUnsigned port
  refine ⟨fun scavengeMainRegs => ⟨_, ofOption_guard hport _,
      straightLine_pair ⟨rfl, rfl⟩ ⟨rfl, rfl⟩, fun s =>
      ⟨(s.setByte r.subLo (s.mem (portAddress ((toUnsigned port).setWidth 64)))).setByte r.subHi
        (s.mem (portAddress ((toUnsigned port + 1).setWidth 64))), rfl, ?_⟩⟩,
    fun scavengeMainRegs => ⟨_, ofOption_guard hport _,
      straightLine_pair ⟨rfl, rfl⟩ ⟨rfl, rfl⟩, fun s =>
      ⟨(s.storeByte (portAddress ((toUnsigned port + 1).setWidth 64))
        (s.regs r.subHi)).storeByte (portAddress ((toUnsigned port).setWidth 64))
          (s.regs r.subLo), rfl, ?_⟩⟩⟩
  · rw [hlow, hhigh, load_lo_hi]
    rfl
  · rw [hlow, hhigh, store_hi_lo]
    rfl

/-- **The expansion of every pseudo that is defined** does what the pseudo does. -/
theorem DefinedPseudo.expandsRight {i : DefinedPseudo} (h : i.Admitted) : i.ExpandsRight table := by
  cases i with
  | word i => exact expandsRight_word i
  | access i => exact expandsRight_access h
  | frameLoad dst base q => exact expandsRight_frameLoad h
  | compare later dst src => exact expandsRight_compare later dst src
  | constant dst k => exact expandsRight_constant dst k
  | addAddress dst gv offs => exact expandsRight_addAddress dst gv offs
  | portLoad dst port => exact (expandsRight_ports h dst).1
  | portStore src port => exact (expandsRight_ports h src).2
  | pushA =>
      exact fun _ => ⟨_, rfl, List.forall_mem_singleton.mpr ⟨rfl, rfl⟩, fun s => ⟨_, rfl, rfl⟩⟩
  | fence => exact fun _ => ⟨_, rfl, List.forall_mem_nil _, fun s => ⟨_, rfl, rfl⟩⟩

end

/-! ## The meaning of instructions -/

/-- What the instructions that are no pseudos do.  One instruction may take a state to several
others, as a call does of whose callee nothing is known. -/
abbrev InstrMeaning := MachineInstr → MachineState → MachineState → Prop

/-- The instructions that are executed do what their execution says. -/
def InstrMeaning.Executes (real : InstrMeaning) (table : SymbolTable) : Prop :=
  ∀ mi s t, execReal table mi s = some t → ∀ t', real mi s t' ↔ t' = t

/-- What an instruction does, a pseudo or not. -/
def Meaning (table : SymbolTable) (real : InstrMeaning) : InstrMeaning := fun mi s t =>
  (∃ i : DefinedPseudo, mi = i.instr ∧ i.Effect table s t) ∨
    mi.opcode.isPseudo = false ∧ real mi s t

/-- A pseudo that is defined, or no pseudo. -/
def MachineInstr.Defined (mi : MachineInstr) : Prop :=
  (∃ i : DefinedPseudo, i.Admitted ∧ mi = i.instr) ∨ mi.opcode.isPseudo = false

/-- The instruction of a pseudo is defined. -/
theorem DefinedPseudo.defined {i : DefinedPseudo} (h : i.Admitted) : i.instr.Defined :=
  .inl ⟨i, h, rfl⟩

/-- The pseudos are pseudos. -/
theorem DefinedPseudo.isPseudo_instr (i : DefinedPseudo) : i.instr.opcode.isPseudo = true := by
  cases i with
  | word i => rcases i with ⟨op, _, _⟩ | ⟨op, _, _⟩ | ⟨op, _⟩ <;> cases op <;> rfl
  | access i => rcases i with ⟨_, form⟩ | ⟨_, form, _⟩ <;> cases form <;> rfl
  | compare later _ _ => cases later <;> rfl
  | _ => rfl

section

variable {table : SymbolTable} {real : InstrMeaning}

/-- An instruction that is no pseudo has its own meaning. -/
theorem meaning_of_real {mi : MachineInstr} (h : mi.opcode.isPseudo = false) (s t : MachineState) :
    Meaning table real mi s t ↔ real mi s t := by
  refine ⟨?_, fun hreal => .inr ⟨h, hreal⟩⟩
  rintro (⟨i, rfl, -⟩ | ⟨-, hreal⟩)
  · rw [i.isPseudo_instr] at h
    cases h
  · exact hreal

/-- Instructions that are executed run through. -/
theorem guarantees_of_execRealBlock (hreal : real.Executes table) {mis : List MachineInstr}
    (hmis : NoPseudos mis) {s t : MachineState} (hexec : execRealBlock table mis s = some t) :
    Guarantees (Meaning table real) mis (fun t' => t' = t) s := by
  induction mis generalizing s with
  | nil => exact Option.some.inj hexec
  | cons mi rest ih =>
      rw [NoPseudos, List.forall_mem_cons] at hmis
      obtain ⟨u, hu, hrest⟩ := Option.bind_eq_some_iff.mp hexec
      have meaning : ∀ t', Meaning table real mi s t' ↔ t' = u := fun t' =>
        (meaning_of_real hmis.1 s t').trans (hreal mi s u hu t')
      refine ⟨⟨u, (meaning u).mpr rfl⟩, fun t' ht' => ?_⟩
      obtain rfl := (meaning t').mp ht'
      exact ih hmis.2 hrest

/-- What the pass does with a defined instruction that it replaces. -/
theorem replaced_of_defined (hreal : real.Executes table) (scavenge : Scavenger)
    {before new : List MachineInstr} {mi : MachineInstr} (hmi : mi.Defined)
    (hstep : expandStep scavenge before mi = .replaced new) :
    StraightLine new ∧ Implements (Meaning table real) mi new := by
  rcases hmi with ⟨i, hi, rfl⟩ | hmi
  · obtain ⟨mis, hexpand, hmis, hexec⟩ := i.expandsRight hi (scavenge before)
    rw [expandStep, hexpand] at hstep
    cases hstep
    refine ⟨hmis, fun s _ => ?_⟩
    obtain ⟨s', hs', effect⟩ := hexec s
    refine (guarantees_of_execRealBlock hreal (fun mi h => (hmis mi h).1) hs').mono fun t ht => ?_
    exact .inl ⟨i, rfl, ht ▸ effect⟩
  · rw [expandStep, expandMI_of_isPseudo_eq_false _ hmi] at hstep
    cases hstep

/-- **The expansions implement the pseudos.** -/
theorem sound_expandStep (hreal : real.Executes table) (scavenge : Scavenger) :
    Sound (Meaning table real) MachineInstr.Defined (expandStep scavenge) where
  implements _ _ _ hmi hstep := (replaced_of_defined hreal scavenge hmi hstep).2
  good _ _ _ hmi hstep mi' hmi' :=
    .inr ((replaced_of_defined hreal scavenge hmi hstep).1 mi' hmi').1

/-- The pseudos are taken off in one round. -/
theorem ranked_defined (scavenge : Scavenger) :
    Ranked (expandStep scavenge) MachineInstr.Defined fun mi => mi.opcode.isPseudo.toNat where
  stop before mi _ hrank := by
    have hmi : mi.opcode.isPseudo = false := by simpa using hrank
    rw [expandStep, expandMI_of_isPseudo_eq_false _ hmi]
    rfl
  down before mi hmi hrank := by
    rcases hmi with ⟨i, hi, rfl⟩ | hmi
    · have expands : i.ExpandsRight ⟨fun _ => 0, fun _ => 0⟩ := i.expandsRight hi
      obtain ⟨mis, hexpand, hmis, -⟩ := expands (scavenge before)
      refine ⟨mis, by rw [expandStep, hexpand]; rfl, fun mi' hmi' => ⟨.inr (hmis mi' hmi').1, ?_⟩⟩
      rw [(hmis mi' hmi').1]
      exact hrank
    · rw [hmi] at hrank
      cases hrank

end

/-! ## Functions -/

/-- The terminators of a block. -/
def terminators (block : List MachineInstr) : List MachineInstr :=
  block.filter fun mi => mi.opcode.isTerminator

/-- Where control goes after a block, which its terminators decide. -/
abbrev Successor := ℕ → List MachineInstr → MachineState → Option ℕ

/-- The next block of a function. -/
def Successor.next (successor : Successor) (n : ℕ) (block : List MachineInstr) (s : MachineState) :
    Option ℕ :=
  successor n (terminators block) s

section

variable {table : SymbolTable} {real : InstrMeaning}

/-- The pass leaves the terminators where they are. -/
theorem terminators_expandBlock (hreal : real.Executes table) (scavenge : Scavenger)
    {block block' : List MachineInstr} (hblock : ∀ mi ∈ block, mi.Defined)
    (h : expandBlock scavenge block = some block') : terminators block' = terminators block := by
  refine filter_of_rounds (fun before mi new hmi hstep => ?_) hblock h
  obtain ⟨straight, -⟩ := replaced_of_defined hreal scavenge hmi hstep
  refine ⟨?_, fun mi' hmi' => ⟨.inr (straight mi' hmi').1, (straight mi' hmi').2⟩⟩
  rcases hmi with ⟨i, -, rfl⟩ | hmi
  · exact isTerminator_of_isPseudo i.isPseudo_instr
  · rw [expandStep, expandMI_of_isPseudo_eq_false _ hmi] at hstep
    cases hstep

/-- **A block that is expanded**: the pass succeeds, leaves no pseudo and the same terminators, and
keeps everything that the block guarantees. -/
theorem expandBlock_keeps (hreal : real.Executes table) (scavenge : Scavenger)
    {block : List MachineInstr} (hblock : ∀ mi ∈ block, mi.Defined) :
    ∃ block', expandBlock scavenge block = some block' ∧ NoPseudos block' ∧
      terminators block' = terminators block ∧
      KeepsGuarantees (Meaning table real) block block' := by
  obtain ⟨block', hexpand, hblock'⟩ := (ranked_defined scavenge).rounds_end 9 block fun mi hmi =>
    ⟨hblock mi hmi, (Bool.toNat_le _).trans (by decide)⟩
  refine ⟨block', hexpand, fun mi hmi => by simpa using (hblock' mi hmi).2,
    terminators_expandBlock hreal scavenge hblock hexpand,
    (sound_expandStep hreal scavenge).rounds hblock hexpand⟩

/-- A function is expanded block by block. -/
theorem runOnMachineFunction_replaces (hreal : real.Executes table) (scavenge : Scavenger)
    (successor : Successor) {mf : MachineBlocks} (hmf : ∀ block ∈ mf, ∀ mi ∈ block, mi.Defined) :
    ∃ mf', runOnMachineFunction scavenge mf = some mf' ∧ (∀ block ∈ mf', NoPseudos block) ∧
      List.Forall₂ (Replaces (Meaning table real) successor.next) mf mf' := by
  induction mf with
  | nil => exact ⟨[], rfl, by simp, .nil⟩
  | cons block mf ih =>
      rw [List.forall_mem_cons] at hmf
      obtain ⟨block', hexpand, hblock', hterminators, keeps⟩ :=
        expandBlock_keeps hreal scavenge hmf.1
      obtain ⟨rest, hrest, noPseudos, replaces⟩ := ih hmf.2
      refine ⟨block' :: rest, ?_, List.forall_mem_cons.mpr ⟨hblock', noPseudos⟩, .cons ?_ replaces⟩
      · unfold runOnMachineFunction at hrest ⊢
        simp [List.mapM_cons, hexpand, hrest]
      · exact ⟨keeps, fun n t => by rw [Successor.next, hterminators, Successor.next]⟩

/-- **The pass keeps the meaning of functions** whose pseudos are defined: it succeeds and leaves no
pseudo; from a place from which no run of the function gets stuck, none of the expanded function
does, and each of these runs is one of the function. -/
theorem runOnMachineFunction_sound (table : SymbolTable) {real : InstrMeaning}
    (hreal : real.Executes table) (scavenge : Scavenger) (successor : Successor)
    {mf : MachineBlocks} (hmf : ∀ block ∈ mf, ∀ mi ∈ block, mi.Defined) :
    ∃ mf', runOnMachineFunction scavenge mf = some mf' ∧ (∀ block ∈ mf', NoPseudos block) ∧
      ∀ c, Safe (Meaning table real) successor.next mf c →
        Safe real successor.next mf' c ∧
          ∀ c', Relation.ReflTransGen (BlockStep real successor.next mf') c c' →
            Relation.ReflTransGen (BlockStep (Meaning table real) successor.next mf) c c' := by
  obtain ⟨mf', hrun, noPseudos, replaces⟩ :=
    runOnMachineFunction_replaces hreal scavenge successor hmf
  have same : ∀ block ∈ mf', ∀ mi ∈ block, ∀ s t, Meaning table real mi s t ↔ real mi s t :=
    fun block hblock mi hmi => meaning_of_real (noPseudos block hblock mi hmi)
  refine ⟨mf', hrun, noPseudos, fun c hsafe => ?_⟩
  obtain ⟨safe, runs⟩ := runs_of_replaces replaces hsafe
  refine ⟨(safe_congr same).mp safe, fun c' hreach => runs c' ?_⟩
  exact Relation.ReflTransGen.mono (fun _ _ => (blockStep_congr same).mpr) _ _ hreach

/-- A function is safe at the start of its blocks where no instruction gets stuck and control stays
in the function. -/
theorem safe_of_forall_exists (htotal : ∀ mi s, ∃ t, real mi s t) {successor : Successor}
    {mf : MachineBlocks} (hmf : ∀ block ∈ mf, ∀ mi ∈ block, mi.Defined)
    (hsuccessor : ∀ n mis s m, successor n mis s = some m → m < mf.length) {n : ℕ}
    (hn : n < mf.length) (s : MachineState) :
    Safe (Meaning table real) successor.next mf (some n, s) := by
  have guarantees : ∀ block : List MachineInstr, (∀ mi ∈ block, mi.Defined) → ∀ s,
      Guarantees (Meaning table real) block (fun _ => True) s := by
    intro block hblock
    induction block with
    | nil => exact fun _ => trivial
    | cons mi rest ih =>
        rw [List.forall_mem_cons] at hblock
        refine fun s => ⟨?_, fun t _ => ih hblock.2 t⟩
        rcases hblock.1 with ⟨i, hi, rfl⟩ | hmi
        · have expands : i.ExpandsRight table := i.expandsRight hi
          obtain ⟨mis, -, -, hexec⟩ := expands fun _ => none
          obtain ⟨t, -, effect⟩ := hexec s
          exact ⟨t, .inl ⟨i, rfl, effect⟩⟩
        · obtain ⟨t, ht⟩ := htotal mi s
          exact ⟨t, .inr ⟨hmi, ht⟩⟩
  intro c hreach m hm
  have inside : m < mf.length := by
    rcases Relation.ReflTransGen.cases_tail hreach with rfl | ⟨d, -, n', block, -, -, -, hnext⟩
    · obtain rfl := Option.some.inj hm
      exact hn
    · exact hsuccessor _ _ _ m (hnext.trans hm)
  exact ⟨mf[m], List.getElem?_eq_getElem inside, guarantees _ (hmf _ (List.getElem_mem inside)) _⟩

end

/-- A function whose first block adds the address of a symbol and compares, and whose second one
stores a word. -/
def addAndStore : MachineBlocks :=
  [[(DefinedPseudo.constant .X (.globalAddress 0 2)).instr,
      (DefinedPseudo.word (.regReg .ADDW .A .X)).instr,
      (DefinedPseudo.compare false .A .Y).instr, ⟨.BREQk, [.imm 0]⟩],
    [(DefinedPseudo.access (.store .A (.displaced .Y 4) 0)).instr, ⟨.RET, []⟩]]

/-- A table with the symbols at 8192. -/
def addAndStoreTable : SymbolTable :=
  ⟨fun _ => 8192, fun _ => 0⟩

/-- The expanded function runs through from its start, in every state. -/
theorem runOnMachineFunction_sound_addAndStore :
    ∃ mf', runOnMachineFunction (fun _ _ => none) addAndStore = some mf' ∧
      ∀ s, Safe (fun mi s t => t = (execReal addAndStoreTable mi s).getD s)
        (Successor.next fun _ _ s => if s.p.zero then some 1 else none) mf' (some 0, s) := by
  have hreal : InstrMeaning.Executes
      (fun mi s t => t = (execReal addAndStoreTable mi s).getD s) addAndStoreTable := by
    intro mi s t h t'
    change t' = (execReal addAndStoreTable mi s).getD s ↔ t' = t
    rw [h]
    rfl
  have fits : (WordAccess.store .A (.displaced .Y 4) 0).Expandable :=
    AddressForm.Admitted.expandable ⟨fun ptr hptr => by cases hptr; decide,
      fun ptr q hq => by cases hq; decide⟩
  have hmf : ∀ block ∈ addAndStore, ∀ mi ∈ block, mi.Defined := by
    rw [addAndStore, List.forall_mem_cons, List.forall_mem_singleton, List.forall_mem_cons,
      List.forall_mem_cons, List.forall_mem_cons, List.forall_mem_singleton, List.forall_mem_cons,
      List.forall_mem_singleton]
    exact ⟨⟨DefinedPseudo.defined trivial, DefinedPseudo.defined trivial,
      DefinedPseudo.defined trivial, .inr rfl⟩, DefinedPseudo.defined fits, .inr rfl⟩
  obtain ⟨mf', hrun, -, sound⟩ := runOnMachineFunction_sound addAndStoreTable hreal
    (fun _ _ => none) (fun _ _ s => if s.p.zero then some 1 else none) hmf
  have htotal : ∀ mi s, ∃ t, t = (execReal addAndStoreTable mi s).getD s := fun _ _ => ⟨_, rfl⟩
  refine ⟨mf', hrun, fun s => (sound _ (safe_of_forall_exists htotal hmf ?_ (by decide) s)).1⟩
  intro _ _ s m h
  obtain ⟨-, hm⟩ := Option.ite_none_right_eq_some.mp h
  obtain rfl := Option.some.inj hm
  decide

end Snes
