/-
# Selected Loads and Stores

The loads and stores of words: which instructions can be selected for an address, and
that those that access two bytes do what the node does.  With the computations on
registers this says when the selection patterns are coherent.
-/
import SnesBackend.SelectionCoherence

namespace Snes

open WordArith ExpandPseudo

/-! ## Addresses -/

namespace AccessAddress

variable {address : AccessAddress} {operands : List MachineOperand} {held : WordReg}

/-- What `SelectAddr` finds: a base and a displacement of six bits that add up to the address. -/
theorem of_selectAddr (h : address.selectAddr = some operands) :
    ∃ base q, operands = [.reg (.word base), .imm q] ∧ q.toNat ≤ 63 ∧
      ∀ symbols s, address.eval symbols s = s.word base + q.setWidth 16 := by
  cases address with
  | ADD base c =>
      simp only [selectAddr, baseAndRHSC, Option.bind_eq_bind, Option.bind_some,
        Option.ite_none_right_eq_some, Option.some.injEq] at h
      obtain ⟨hc, rfl⟩ := h
      have hq : BitVec.ofInt 64 (c.toNat : ℤ) = c.setWidth 64 := by
        apply BitVec.eq_of_toNat_eq
        simp
      refine ⟨base, _, rfl, ?_, fun symbols s => ?_⟩
      · rw [hq, BitVec.toNat_setWidth]
        omega
      · rw [hq, eval, BitVec.setWidth_setWidth_of_le _ (by decide), BitVec.setWidth_eq]
  | SUB base c =>
      simp only [selectAddr, baseAndRHSC, Option.bind_eq_bind, Option.bind_some,
        Option.ite_none_right_eq_some, Option.some.injEq] at h
      obtain ⟨hc, rfl⟩ := h
      obtain rfl : c = 0 := BitVec.eq_of_toNat_eq (by simp; omega)
      exact ⟨base, 0, rfl, by decide, fun symbols s => by simp [eval]⟩
  | value | constant | SNESWrapper => simp [selectAddr, baseAndRHSC] at h

/-- A difference has an unsigned displacement when nothing is subtracted. -/
theorem negated_fits_iff (c : BitVec 16) :
    (c.toNat = 0 ∧ -(c.toNat : ℤ) < 64) ↔ c = 0#16 := by
  rw [← BitVec.toNat_inj, BitVec.toNat_ofNat]
  omega

/-- A fixed address. -/
def Fixed : AccessAddress → Prop
  | constant _ | SNESWrapper _ _ _ => True
  | _ => False

/-- When a byte-wide load can be selected, by the patterns. -/
theorem byteLoad_iff (dst : WordReg) : address.ByteLoad dst held ↔ address.Fixed ∨ held ≠ .A ∨
    ∃ base q, address.selectAddr = some [.reg (.word base), .imm q] ∧ dst ≠ base := by
  cases address with
  | ADD base c => simp [ByteLoad, Fixed, selectAddr, baseAndRHSC]
  | SUB base c => simp [ByteLoad, Fixed, selectAddr, baseAndRHSC, negated_fits_iff]
  | value | constant | SNESWrapper => simp [ByteLoad, Fixed, selectAddr, baseAndRHSC]

/-- When a byte-wide store can be selected without a displacement. -/
theorem byteStore_iff : address.ByteStore held ↔ address.Fixed ∨ held ≠ .A := by
  cases address with
  | value | ADD | SUB => exact (or_iff_right id).symm
  | constant | SNESWrapper => exact iff_of_true trivial (.inl trivial)

/-- `SelectAddr` finds a displacement where there is one of six bits. -/
theorem displaced_iff : address.Displaced ↔
    ∃ base q, address.selectAddr = some [.reg (.word base), .imm q] := by
  cases address with
  | ADD base c => simp [Displaced, selectAddr, baseAndRHSC]
  | SUB base c => simp [Displaced, selectAddr, baseAndRHSC, negated_fits_iff]
  | value | constant | SNESWrapper => simp [Displaced, selectAddr, baseAndRHSC]

/-- What matches `SelectAddr` is displaced. -/
theorem displaced_of_selectAddr (h : address.selectAddr = some operands) : address.Displaced := by
  obtain ⟨base, q, rfl, -⟩ := of_selectAddr h
  exact displaced_iff.mpr ⟨base, q, h⟩

/-- A fixed address has the same operand for loads and stores: its number or its symbol. -/
theorem Fixed.exists_bind (h : address.Fixed) (held : WordReg) :
    ∃ leaf k, (Opcode.LDSRdK, leaf) ∈ loadPatterns ∧ (Opcode.STSKRr, leaf) ∈ storePatterns ∧
      AddressLeaf.bind leaf address held = some [k] := by
  cases address with
  | constant k => exact ⟨.imm, .imm (k.signExtend 64), by decide, by decide, rfl⟩
  | SNESWrapper gv offs flags =>
      exact ⟨.tglobaladdr, .globalAddress gv offs flags, by decide, by decide, rfl⟩
  | value | ADD | SUB => exact h.elim

end AccessAddress

/-- A constant that is sign-extended for the operand. -/
theorem setWidth_signExtend (k : BitVec 16) : (k.signExtend 64).setWidth 16 = k := by
  ext i hi
  simp [BitVec.getElem_signExtend, hi, show i < 64 by omega]

/-- What the leaves for fixed addresses bind. -/
theorem AddressLeaf.bind_fixed {leaf : AddressLeaf} {address : AccessAddress} {held : WordReg}
    {operands : List MachineOperand} (hleaf : leaf = .imm ∨ leaf = .tglobaladdr)
    (h : leaf.bind address held = some operands) :
    address.Fixed ∧ ∃ k, operands = [k] ∧ (∀ r, k ≠ .reg r) ∧
      ∀ symbols s, operandAddress symbols k = some (address.eval symbols s) := by
  rcases hleaf with rfl | rfl
  · cases address with
    | constant k =>
        obtain rfl := Option.some.inj h
        refine ⟨trivial, _, rfl, nofun, fun symbols s => ?_⟩
        rw [operandAddress, setWidth_signExtend]
        rfl
    | value | ADD | SUB | SNESWrapper => cases h
  · cases address with
    | SNESWrapper gv offs flags =>
        obtain rfl := Option.some.inj h
        exact ⟨trivial, _, rfl, nofun, fun symbols s => rfl⟩
    | value | ADD | SUB | constant => cases h

/-- What the leaves for ports bind: the port of the address and, for a word, of the next one. -/
theorem AddressLeaf.bind_port {leaf : AddressLeaf} {address : AccessAddress} {held : WordReg}
    {operands : List MachineOperand} (hleaf : leaf = .ioaddr8 ∨ leaf = .ioaddr16)
    (h : leaf.bind address held = some operands) :
    address.Fixed ∧ ∃ port, operands = [.imm port] ∧ toUnsigned port ≤ 63 ∧
      ∀ symbols s, address.eval symbols s = portAddress port := by
  have hport (k : BitVec 16) (hlow : 0x20 ≤ k.toNat) (hhigh : k.toNat < 0x60) :
      toUnsigned (ioaddr_XFORM k) ≤ 63 ∧ k = portAddress (ioaddr_XFORM k) := by
    have hxform : (ioaddr_XFORM k).toNat = k.toNat - 0x20 := by
      have hbase : (0x20 : BitVec 64).toNat = 0x20 := rfl
      rw [ioaddr_XFORM, BitVec.toNat_sub, BitVec.toNat_setWidth, BitVec.toNat_setWidth, hbase]
      omega
    constructor
    · have hlimit : (63 : BitVec 32).toNat = 63 := rfl
      rw [BitVec.le_def, toUnsigned, BitVec.toNat_setWidth, hxform, hlimit]
      omega
    · have hbase : (0x20 : BitVec 16).toNat = 0x20 := rfl
      apply BitVec.eq_of_toNat_eq
      rw [portAddress, BitVec.toNat_add, BitVec.toNat_setWidth, hxform, hbase]
      omega
  rcases hleaf with rfl | rfl <;> cases address <;>
    simp only [bind, reduceCtorEq, Option.ite_none_right_eq_some, Option.some.injEq] at h
  case inl.constant k =>
    obtain ⟨⟨hlow, hhigh⟩, rfl⟩ := h
    exact ⟨trivial, _, rfl, (hport k hlow hhigh).1, fun _ _ => (hport k hlow hhigh).2⟩
  case inr.constant k =>
    obtain ⟨⟨hlow, hhigh⟩, rfl⟩ := h
    have hfits := hport k hlow (hhigh.trans (by decide))
    exact ⟨trivial, _, rfl, hfits.1, fun _ _ => hfits.2⟩

/-! ## Accesses of words -/

section

variable {scavenge : Scavenger} {symbols : ℕ → BitVec 16} {s : MachineState}

/-- A word access that can be expanded has its effect. -/
theorem execExpanded_wordAccess {i : WordAccess} (h : i.Expandable) :
    execExpanded scavenge symbols i.instr s = some (i.effect symbols s) := by
  rw [execExpanded_of_expanded _ _ _ (i.expandMI_instr _ h) i.noPseudos_bytes,
    ← execTransferBlock_bytes symbols s h]
  rcases i with ⟨dst, form⟩ | ⟨src, form, offs⟩ <;> cases form <;> rfl

/-- An access at a fixed address can be expanded. -/
theorem expandable_of_ptr_eq_none {i : WordAccess} (h : i.form.ptr = none) : i.Expandable := by
  rcases i with ⟨dst, form⟩ | ⟨src, form, offs⟩ <;> cases form <;> cases h <;>
    exact ⟨nofun, nofun, nofun⟩

/-- A byte loaded to the low half is the whole load when the high byte is there. -/
theorem sameButFlags_load_iff (dst : WordReg) (a : BitVec 16) :
    SameButFlags (s.setByte dst.subLo (s.mem a)) (s.setWord dst (s.load .i16 a)) ↔
      s.regs dst.subHi = s.mem (a + 1) := by
  have hload : s.setWord dst (s.load .i16 a) =
      (s.setByte dst.subLo (s.mem a)).setByte dst.subHi (s.mem (a + 1)) := s.setWord_append dst _ _
  rw [hload]
  constructor
  · intro h
    have hhigh := congrFun h.regs dst.subHi
    rwa [MachineState.setByte_regs_self,
      MachineState.setByte_regs_of_ne _ _ (WordReg.subHi_ne_subLo dst dst)] at hhigh
  · intro h
    refine ⟨?_, rfl, rfl, rfl⟩
    funext r
    by_cases hr : r = dst.subHi
    · subst hr
      rw [MachineState.setByte_regs_self,
        MachineState.setByte_regs_of_ne _ _ (WordReg.subHi_ne_subLo dst dst), h]
    · rw [MachineState.setByte_regs_of_ne _ _ hr]

/-- A stored low byte is the whole store when the high byte is there. -/
theorem sameButFlags_store_iff (src : WordReg) (a : BitVec 16) :
    SameButFlags (s.storeByte a (s.regs src.subLo)) (s.storeWord a (s.word src)) ↔
      s.mem (a + 1) = s.regs src.subHi := by
  have hne : a + 1 ≠ a := by simp
  rw [s.storeWord_word]
  constructor
  · intro h
    have hhigh := congrFun h.mem (a + 1)
    simpa only [MachineState.storeByte, Function.update_self, Function.update_of_ne hne]
      using hhigh
  · intro h
    refine ⟨rfl, rfl, rfl, ?_⟩
    funext b
    by_cases hb : b = a + 1
    · subst hb
      simp only [MachineState.storeByte, Function.update_self, Function.update_of_ne hne]
      exact h
    · simp only [MachineState.storeByte, Function.update_of_ne hb]

/-- The same state has the same registers, flags and memory. -/
theorem SameButFlags.rfl' {t : MachineState} : SameButFlags t t :=
  ⟨rfl, rfl, rfl, rfl⟩

/-! ## Loads -/

variable {dst held : WordReg} {address : AccessAddress}

/-- A load of one byte at the address is right when the high byte is there. -/
theorem selectedRight_byteLoad {mi : MachineInstr}
    (h : execExpanded scavenge symbols mi s =
      some (s.setByte dst.subLo (s.mem (address.eval symbols s)))) :
    (SelectionNode.load dst address held).SelectedRight scavenge symbols s mi ↔
      s.regs dst.subHi = s.mem (address.eval symbols s + 1) := by
  rw [SelectionNode.SelectedRight, h]
  simp only [Option.some.injEq, exists_eq_left', SelectionNode.Effect, sameButFlags_load_iff]

/-- A load of the word at the address is right. -/
theorem selectedRight_wordLoad (form : AddressForm) (h : (WordAccess.load dst form).Expandable)
    (hstep : form.step = none) (haddress : form.address symbols s = address.eval symbols s) :
    (SelectionNode.load dst address held).SelectedRight scavenge symbols s
      (WordAccess.load dst form).instr := by
  refine ⟨_, execExpanded_wordAccess h, ?_⟩
  rw [SelectionNode.Effect, WordAccess.effect, WordAccess.form, hstep, ← haddress]
  exact .rfl'

/-- The instructions that the patterns of accesses build, as far as they are admitted. -/
theorem exists_bind_iff {patterns : List (Opcode × AddressLeaf)}
    {build : Opcode × AddressLeaf → List MachineOperand → MachineInstr} {admitted : Prop}
    {mi : MachineInstr} :
    ((∃ pattern ∈ patterns, (pattern.2.bind address held).map (build pattern) = some mi) ∧
        admitted) ↔
      ∃ pattern ∈ patterns, ∃ operands, pattern.2.bind address held = some operands ∧
        mi = build pattern operands ∧ admitted := by
  constructor
  · rintro ⟨⟨pattern, hpattern, hbind⟩, hadmitted⟩
    obtain ⟨operands, hoperands, rfl⟩ := Option.map_eq_some_iff.mp hbind
    exact ⟨pattern, hpattern, operands, hoperands, rfl, hadmitted⟩
  · rintro ⟨pattern, hpattern, operands, hoperands, rfl, hadmitted⟩
    exact ⟨⟨pattern, hpattern, Option.map_eq_some_iff.mpr ⟨operands, hoperands, rfl⟩⟩, hadmitted⟩

/-- What can be selected for a load. -/
theorem mem_selectable_load {mi : MachineInstr} :
    mi ∈ (SelectionNode.load dst address held).selectable ↔
      ∃ pattern ∈ loadPatterns, ∃ operands, pattern.2.bind address held = some operands ∧
        mi = ⟨pattern.1, .reg (.word dst) :: operands⟩ ∧ mi.ClassesHold ∧
        mi.clobbersApart = true := by
  rw [SelectionNode.selectable, List.mem_filter, SelectionNode.matchingInstrs, List.mem_filterMap,
    decide_eq_true_iff]
  exact exists_bind_iff

/-- The instructions that load one byte at the address. -/
theorem execExpanded_LDSRdK {k : MachineOperand} {a : BitVec 16}
    (ha : operandAddress symbols k = some a) :
    execExpanded scavenge symbols ⟨.LDSRdK, [.reg (.word dst), k]⟩ s =
      some (s.setByte dst.subLo (s.mem a)) := by
  have hexec : execSelected symbols ⟨.LDSRdK, [.reg (.word dst), k]⟩ s =
      (operandAddress symbols k).bind fun a => some (s.setByte dst.subLo (s.mem a)) := rfl
  rw [execExpanded_of_real _ _ _ rfl, hexec, ha]
  rfl

theorem execExpanded_LDRdPtr :
    execExpanded scavenge symbols ⟨.LDRdPtr, [.reg (.word dst), .reg (.word held)]⟩ s =
      some (s.setByte dst.subLo (s.mem (s.word held))) :=
  execExpanded_of_real _ _ _ rfl

theorem execExpanded_LDDRdPtrQ (base : WordReg) (q : BitVec 64) :
    execExpanded scavenge symbols ⟨.LDDRdPtrQ, [.reg (.word dst), .reg (.word base), .imm q]⟩ s =
      some (s.setByte dst.subLo (s.mem (s.word base + q.setWidth 16))) :=
  execExpanded_of_real _ _ _ rfl

theorem execExpanded_INRdA (port : BitVec 64) :
    execExpanded scavenge symbols ⟨.INRdA, [.reg (.word dst), .imm port]⟩ s =
      some (s.setByte dst.subLo (s.mem (portAddress port))) :=
  execExpanded_of_real _ _ _ rfl

/-- The ports of the two bytes of a word. -/
theorem portAddress_ofUnsigned (port : BitVec 64) :
    portAddress ((toUnsigned port).setWidth 64) = portAddress port ∧
      portAddress ((toUnsigned port + 1).setWidth 64) = portAddress port + 1 := by
  rw [portAddress, portAddress, portAddress, setWidth_ofUnsigned, setWidth_ofUnsigned_add_one]
  exact ⟨rfl, add_right_comm _ _ _⟩

/-- A word is read from its ports. -/
theorem execExpanded_INWRdA {port : BitVec 64} (hport : toUnsigned port ≤ 63) :
    execExpanded scavenge symbols ⟨.INWRdA, [.reg (.word dst), .imm port]⟩ s =
      some (s.setWord dst (s.load .i16 (portAddress port))) := by
  obtain ⟨hlow, hhigh⟩ := portAddress_ofUnsigned port
  have hexpand : expandMI (scavenge []) ⟨.INWRdA, [.reg (.word dst), .imm port]⟩ =
      .expanded [⟨.INRdA, [.reg (.byte dst.subLo), ofUnsigned (toUnsigned port)]⟩,
        ⟨.INRdA, [.reg (.byte dst.subHi), ofUnsigned (toUnsigned port + 1)]⟩] :=
    ofOption_guard hport _
  rw [execExpanded_of_expanded _ _ _ hexpand (noPseudos_pair rfl rfl)]
  have hexec : execSelectedBlock symbols
      [⟨.INRdA, [.reg (.byte dst.subLo), ofUnsigned (toUnsigned port)]⟩,
        ⟨.INRdA, [.reg (.byte dst.subHi), ofUnsigned (toUnsigned port + 1)]⟩] s =
      some ((s.setByte dst.subLo (s.mem (portAddress ((toUnsigned port).setWidth 64)))).setByte
        dst.subHi (s.mem (portAddress ((toUnsigned port + 1).setWidth 64)))) := rfl
  rw [hexec, hlow, hhigh, load_lo_hi]

/-- What the loads of a byte admit. -/
theorem classesHold_LDSRdK {k : MachineOperand} (hk : ∀ r, k ≠ .reg r) :
    MachineInstr.ClassesHold ⟨.LDSRdK, [.reg (.word dst), k]⟩ :=
  typed_mainReg_iff.mpr ⟨dst, _, rfl, typed_imm_iff.mpr ⟨k, _, rfl, hk, .nil⟩⟩

theorem classesHold_LDRdPtr_iff :
    MachineInstr.ClassesHold ⟨.LDRdPtr, [.reg (.word dst), .reg (.word held)]⟩ ↔ held ≠ .A := by
  change Typed [.reg .mainRegs, .reg .indexRegs] [.reg (.word dst), .reg (.word held)] ↔ _
  simp [hasType_reg_iff, mem_mainRegs_iff, mem_indexRegs_iff]

theorem classesHold_LDDRdPtrQ (base : WordReg) (q : BitVec 64) :
    MachineInstr.ClassesHold ⟨.LDDRdPtrQ, [.reg (.word dst), .reg (.word base), .imm q]⟩ :=
  typed_mainReg_iff.mpr ⟨dst, _, rfl, typed_mainReg_iff.mpr ⟨base, _, rfl,
    typed_imm_iff.mpr ⟨_, _, rfl, nofun, .nil⟩⟩⟩

theorem classesHold_LDAimm16_iff (k : BitVec 64) :
    MachineInstr.ClassesHold ⟨.LDAimm16, [.reg (.word dst), .imm k]⟩ ↔ dst = .A := by
  change Typed [.reg .accRegs, .imm] [.reg (.word dst), .imm k] ↔ _
  simp [RegClass.members, MachineOperand.hasType]

/-- A constant loaded for the word at its address. -/
theorem selectedRight_LDAimm16_iff (k : BitVec 16) :
    (SelectionNode.load .A (.constant k) held).SelectedRight scavenge symbols s
        ⟨.LDAimm16, [.reg .A, .imm (k.signExtend 64)]⟩ ↔ s.load .i16 k = k := by
  have hexec : execExpanded scavenge symbols ⟨.LDAimm16, [.reg .A, .imm (k.signExtend 64)]⟩ s =
      some (s.setWordResult .A k) := by
    rw [execExpanded_of_real _ _ _ rfl]
    exact congrArg (fun v => some (s.setWordResult .A v)) (setWidth_signExtend k)
  rw [SelectionNode.SelectedRight, hexec]
  simp only [Option.some.injEq, exists_eq_left', SelectionNode.Effect, AccessAddress.eval]
  constructor
  · intro h
    have hword : (s.setWordResult .A k).word .A = (s.setWord .A (s.load .i16 k)).word .A :=
      MachineState.word_congr (congrFun h.regs _) (congrFun h.regs _)
    have hloaded : (s.setWord .A (s.load .i16 k)).word .A = s.load .i16 k :=
      s.setWord_word_self .A _
    exact hloaded.symm.trans (hword.symm.trans (s.setWord_word_self .A k))
  · intro h
    rw [h]
    exact ⟨rfl, rfl, rfl, rfl⟩

/-- A load that is selected coherently meets the condition. -/
theorem highKept_of_coherent_load (hheld : s.word held = address.eval symbols s)
    (h : (SelectionNode.load dst address held).Coherent scavenge symbols s) :
    (SelectionNode.load dst address held).HighKept symbols s := by
  have hright (pattern : Opcode × AddressLeaf) {operands : List MachineOperand}
      (hpattern : pattern ∈ loadPatterns) (hbind : pattern.2.bind address held = some operands)
      (hclasses : MachineInstr.ClassesHold ⟨pattern.1, .reg (.word dst) :: operands⟩)
      (hclobbers : MachineInstr.clobbersApart ⟨pattern.1, .reg (.word dst) :: operands⟩ = true) :=
    h _ (mem_selectable_load.mpr ⟨pattern, hpattern, operands, hbind, rfl, hclasses, hclobbers⟩)
  refine ⟨fun hbyte => ?_, ?_⟩
  · rcases (AccessAddress.byteLoad_iff dst).mp hbyte with hfixed | hA | ⟨base, q, hselect, hne⟩
    · obtain ⟨leaf, k, hpattern, -, hbind⟩ := hfixed.exists_bind held
      have hleaf : leaf = .imm ∨ leaf = .tglobaladdr := by
        simpa [loadPatterns] using hpattern
      obtain ⟨-, k', hk, hreg, haddress⟩ := AddressLeaf.bind_fixed hleaf hbind
      obtain rfl : k = k' := by simpa using hk
      exact (selectedRight_byteLoad (execExpanded_LDSRdK (haddress symbols s))).mp
        (hright _ hpattern hbind (classesHold_LDSRdK hreg) rfl)
    · refine (selectedRight_byteLoad ?_).mp (hright (.LDRdPtr, .i16) (by decide) rfl
        (classesHold_LDRdPtr_iff.mpr hA) rfl)
      rw [execExpanded_LDRdPtr, hheld]
    · obtain ⟨base', q', hoperands, -, heval⟩ := AccessAddress.of_selectAddr hselect
      obtain ⟨rfl, rfl⟩ : base = base' ∧ q = q' := by simpa using hoperands
      refine (selectedRight_byteLoad ?_).mp (hright (.LDDRdPtrQ, .addr) (by decide)
        hselect (classesHold_LDDRdPtrQ base q) ?_)
      · rw [execExpanded_LDDRdPtrQ, heval]
      · simp [MachineInstr.clobbersApart, MachineInstr.getReg, hne]
  · rintro k rfl rfl
    exact (selectedRight_LDAimm16_iff k).mp (hright (.LDAimm16, .imm) (by decide) rfl
      ((classesHold_LDAimm16_iff _).mpr rfl) rfl)

/-- A word load with a pointer apart from its register can be expanded. -/
theorem expandable_load {form : AddressForm} (hne : ∀ ptr, form.ptr = some ptr → dst ≠ ptr)
    (hfits : ∀ ptr q, form = .displaced ptr q → q.toNat ≤ 63) :
    (WordAccess.load dst form).Expandable where
  load_apart := by
    rintro _ _ ptr ⟨⟩ hptr
    exact hne ptr hptr
  step_apart ptr step hstep := by
    refine hne ptr ?_
    revert hstep
    cases form <;> simp +contextual [WordAccess.form, AddressForm.step, AddressForm.ptr]
  fits ptr q hform := toUnsigned_le (hfits ptr q hform)

/-- A load that meets the condition is selected coherently. -/
theorem coherent_load_of_highKept (hheld : s.word held = address.eval symbols s)
    (h : (SelectionNode.load dst address held).HighKept symbols s) :
    (SelectionNode.load dst address held).Coherent scavenge symbols s := by
  obtain ⟨hhigh, hconstant⟩ := h
  rw [AccessAddress.byteLoad_iff] at hhigh
  intro mi hmi
  obtain ⟨pattern, hpattern, operands, hbind, rfl, hclasses, hclobbers⟩ :=
    mem_selectable_load.mp hmi
  -- the instruction for a byte at a fixed address has two patterns
  have hbyte (hleaf : pattern.2 = .imm ∨ pattern.2 = .tglobaladdr) :
      (SelectionNode.load dst address held).SelectedRight scavenge symbols s
        ⟨.LDSRdK, .reg (.word dst) :: operands⟩ := by
    obtain ⟨hfixed, k, rfl, -, haddress⟩ := AddressLeaf.bind_fixed hleaf hbind
    exact (selectedRight_byteLoad (execExpanded_LDSRdK (haddress symbols s))).mpr
      (hhigh (.inl hfixed))
  simp only [loadPatterns, List.mem_cons, List.not_mem_nil, or_false] at hpattern
  rcases hpattern with rfl | rfl | rfl | rfl | rfl | rfl | rfl | rfl | rfl | rfl | rfl
  · cases address with
    | constant k =>
        obtain rfl := Option.some.inj hbind
        obtain rfl := (classesHold_LDAimm16_iff _).mp hclasses
        exact (selectedRight_LDAimm16_iff k).mpr (hconstant k rfl rfl)
    | value | ADD | SUB | SNESWrapper => cases hbind
  · exact hbyte (.inl rfl)
  · cases address with
    | constant k =>
        obtain rfl := Option.some.inj hbind
        exact selectedRight_wordLoad (.constant (k.signExtend 64))
          (expandable_of_ptr_eq_none rfl) rfl (setWidth_signExtend k)
    | value | ADD | SUB | SNESWrapper => cases hbind
  -- through a pointer
  · obtain rfl := Option.some.inj hbind
    refine (selectedRight_byteLoad ?_).mpr
      (hhigh (.inr (.inl (classesHold_LDRdPtr_iff.mp hclasses))))
    rw [execExpanded_LDRdPtr, hheld]
  · obtain rfl := Option.some.inj hbind
    have hne : dst ≠ held := by
      simpa [MachineInstr.clobbersApart, MachineInstr.getReg] using hclobbers
    refine selectedRight_wordLoad (.pointer held) (expandable_load ?_ ?_) rfl hheld
    · rintro _ ⟨⟩
      exact hne
    · rintro _ _ ⟨⟩
  -- with a displacement
  · obtain ⟨base, q, rfl, -, heval⟩ := AccessAddress.of_selectAddr hbind
    have hne : dst ≠ base := by
      simpa [MachineInstr.clobbersApart, MachineInstr.getReg] using hclobbers
    refine (selectedRight_byteLoad ?_).mpr (hhigh (.inr (.inr ⟨base, q, hbind, hne⟩)))
    rw [execExpanded_LDDRdPtrQ, heval]
  · obtain ⟨base, q, rfl, hq, heval⟩ := AccessAddress.of_selectAddr hbind
    have hne : dst ≠ base := by
      simpa [MachineInstr.clobbersApart, MachineInstr.getReg] using hclobbers
    refine selectedRight_wordLoad (.displaced base q) (expandable_load ?_ ?_) rfl
      (heval symbols s).symm
    · rintro _ ⟨⟩
      exact hne
    · rintro _ _ ⟨⟩
      exact hq
  -- from ports
  · obtain ⟨hfixed, port, rfl, -, heval⟩ := AddressLeaf.bind_port (.inl rfl) hbind
    refine (selectedRight_byteLoad ?_).mpr (hhigh (.inl hfixed))
    rw [execExpanded_INRdA, heval]
  · obtain ⟨-, port, rfl, hport, heval⟩ := AddressLeaf.bind_port (.inr rfl) hbind
    refine ⟨_, execExpanded_INWRdA hport, ?_⟩
    rw [SelectionNode.Effect, heval]
    exact .rfl'
  -- at a symbol
  · exact hbyte (.inr rfl)
  · cases address with
    | SNESWrapper gv offs flags =>
        obtain rfl := Option.some.inj hbind
        exact selectedRight_wordLoad (.global gv offs flags)
          (expandable_of_ptr_eq_none rfl) rfl rfl
    | value | ADD | SUB | constant => cases hbind

/-! ## Stores -/

variable {src : WordReg}

/-- A store of one byte at the address is right when the high byte is there. -/
theorem selectedRight_byteStore {mi : MachineInstr}
    (h : execExpanded scavenge symbols mi s =
      some (s.storeByte (address.eval symbols s) (s.regs src.subLo))) :
    (SelectionNode.store src address held).SelectedRight scavenge symbols s mi ↔
      s.mem (address.eval symbols s + 1) = s.regs src.subHi := by
  rw [SelectionNode.SelectedRight, h]
  simp only [Option.some.injEq, exists_eq_left', SelectionNode.Effect, sameButFlags_store_iff]

/-- A store of the word at the address is right. -/
theorem selectedRight_wordStore (form : AddressForm) (hstep : form.step = none)
    (hfits : ∀ ptr q, form = .displaced ptr q → q.toNat ≤ 63)
    (haddress : form.address symbols s = address.eval symbols s) :
    (SelectionNode.store src address held).SelectedRight scavenge symbols s
      (WordAccess.store src form 0).instr := by
  have hexpandable : (WordAccess.store src form 0).Expandable := {
    load_apart := nofun
    step_apart := fun ptr step h => by
      rw [WordAccess.form, hstep] at h
      cases h
    fits := fun ptr q h => toUnsigned_le (hfits ptr q h) }
  refine ⟨_, execExpanded_wordAccess hexpandable, ?_⟩
  rw [SelectionNode.Effect, WordAccess.effect, WordAccess.form, hstep, ← haddress]
  exact .rfl'

/-- What can be selected for a store. -/
theorem mem_selectable_store {mi : MachineInstr} :
    mi ∈ (SelectionNode.store src address held).selectable ↔
      ∃ pattern ∈ storePatterns, ∃ operands, pattern.2.bind address held = some operands ∧
        mi = ⟨pattern.1, operands ++ [MachineOperand.reg (.word src)]⟩ ∧ mi.ClassesHold ∧
        mi.clobbersApart = true := by
  rw [SelectionNode.selectable, List.mem_filter, SelectionNode.matchingInstrs, List.mem_filterMap,
    decide_eq_true_iff]
  exact exists_bind_iff

/-- The instructions that store one byte at the address. -/
theorem execExpanded_STSKRr {k : MachineOperand} {a : BitVec 16}
    (ha : operandAddress symbols k = some a) :
    execExpanded scavenge symbols ⟨.STSKRr, [k, .reg (.word src)]⟩ s =
      some (s.storeByte a (s.regs src.subLo)) := by
  have hexec : execSelected symbols ⟨.STSKRr, [k, .reg (.word src)]⟩ s =
      (operandAddress symbols k).bind fun a => some (s.storeByte a (s.regs src.subLo)) := rfl
  rw [execExpanded_of_real _ _ _ rfl, hexec, ha]
  rfl

theorem execExpanded_STPtrRr :
    execExpanded scavenge symbols ⟨.STPtrRr, [.reg (.word held), .reg (.word src)]⟩ s =
      some (s.storeByte (s.word held) (s.regs src.subLo)) :=
  execExpanded_of_real _ _ _ rfl

theorem execExpanded_OUTARr (port : BitVec 64) :
    execExpanded scavenge symbols ⟨.OUTARr, [.imm port, .reg (.word src)]⟩ s =
      some (s.storeByte (portAddress port) (s.regs src.subLo)) :=
  execExpanded_of_real _ _ _ rfl

/-- A word is written to its ports, high byte first. -/
theorem execExpanded_OUTWARr {port : BitVec 64} (hport : toUnsigned port ≤ 63) :
    execExpanded scavenge symbols ⟨.OUTWARr, [.imm port, .reg (.word src)]⟩ s =
      some (s.storeWord (portAddress port) (s.word src)) := by
  obtain ⟨hlow, hhigh⟩ := portAddress_ofUnsigned port
  have hexpand : expandMI (scavenge []) ⟨.OUTWARr, [.imm port, .reg (.word src)]⟩ =
      .expanded [⟨.OUTARr, [ofUnsigned (toUnsigned port + 1), .reg (.byte src.subHi)]⟩,
        ⟨.OUTARr, [ofUnsigned (toUnsigned port), .reg (.byte src.subLo)]⟩] :=
    ofOption_guard hport _
  rw [execExpanded_of_expanded _ _ _ hexpand (noPseudos_pair rfl rfl)]
  have hexec : execSelectedBlock symbols
      [⟨.OUTARr, [ofUnsigned (toUnsigned port + 1), .reg (.byte src.subHi)]⟩,
        ⟨.OUTARr, [ofUnsigned (toUnsigned port), .reg (.byte src.subLo)]⟩] s =
      some ((s.storeByte (portAddress ((toUnsigned port + 1).setWidth 64))
        (s.regs src.subHi)).storeByte (portAddress ((toUnsigned port).setWidth 64))
          (s.regs src.subLo)) := rfl
  rw [hexec, hlow, hhigh, store_hi_lo]

/-- What the stores of a byte admit. -/
theorem classesHold_STSKRr {k : MachineOperand} (hk : ∀ r, k ≠ .reg r) :
    MachineInstr.ClassesHold ⟨.STSKRr, [k, .reg (.word src)]⟩ :=
  typed_imm_iff.mpr ⟨k, _, rfl, hk, typed_mainReg_iff.mpr ⟨src, _, rfl, .nil⟩⟩

theorem classesHold_STPtrRr_iff :
    MachineInstr.ClassesHold ⟨.STPtrRr, [.reg (.word held), .reg (.word src)]⟩ ↔ held ≠ .A := by
  change Typed [.reg .indexRegs, .reg .mainRegs] [.reg (.word held), .reg (.word src)] ↔ _
  simp [hasType_reg_iff, mem_mainRegs_iff, mem_indexRegs_iff]

/-- The stores to the stack take any register for a base. -/
theorem classesHold_STDWSPQRr (base : Reg) (q : BitVec 64) :
    MachineInstr.ClassesHold ⟨.STDWSPQRr, [.reg base, .imm q, .reg (.word src)]⟩ :=
  typed_anyReg_iff.mpr ⟨base, _, rfl, typed_imm_iff.mpr ⟨_, _, rfl, nofun,
    typed_mainReg_iff.mpr ⟨src, _, rfl, .nil⟩⟩⟩

/-- A store to the stack is not right. -/
theorem not_selectedRight_stackStore {node : SelectionNode} (base : WordReg) (q : BitVec 64) :
    ¬ node.SelectedRight scavenge symbols s
      ⟨.STDWSPQRr, [.reg (.word base), .imm q, .reg (.word src)]⟩ := by
  rintro ⟨s', hexec, -⟩
  rw [execExpanded_stackStore] at hexec
  cases hexec

/-- A store that is selected coherently meets the condition. -/
theorem highKept_of_coherent_store (hheld : s.word held = address.eval symbols s)
    (h : (SelectionNode.store src address held).Coherent scavenge symbols s) :
    (SelectionNode.store src address held).HighKept symbols s := by
  have hright (pattern : Opcode × AddressLeaf) {operands : List MachineOperand}
      (hpattern : pattern ∈ storePatterns) (hbind : pattern.2.bind address held = some operands)
      (hclasses : MachineInstr.ClassesHold
        ⟨pattern.1, operands ++ [MachineOperand.reg (.word src)]⟩)
      (hclobbers : MachineInstr.clobbersApart
        ⟨pattern.1, operands ++ [MachineOperand.reg (.word src)]⟩ = true) :=
    h _ (mem_selectable_store.mpr ⟨pattern, hpattern, operands, hbind, rfl, hclasses, hclobbers⟩)
  refine ⟨fun hdisplaced => ?_, fun hbyte => ?_⟩
  · obtain ⟨base, q, hselect⟩ := AccessAddress.displaced_iff.mp hdisplaced
    exact not_selectedRight_stackStore _ q
      (hright (.STDWSPQRr, .addr) (by decide) hselect (classesHold_STDWSPQRr _ q) rfl)
  rcases AccessAddress.byteStore_iff.mp hbyte with hfixed | hA
  · obtain ⟨leaf, k, -, hpattern, hbind⟩ := hfixed.exists_bind held
    have hleaf : leaf = .imm ∨ leaf = .tglobaladdr := by
      simpa [storePatterns] using hpattern
    obtain ⟨-, k', hk, hreg, haddress⟩ := AddressLeaf.bind_fixed hleaf hbind
    obtain rfl : k = k' := by simpa using hk
    exact (selectedRight_byteStore (execExpanded_STSKRr (haddress symbols s))).mp
      (hright _ hpattern hbind (classesHold_STSKRr hreg) rfl)
  · refine (selectedRight_byteStore ?_).mp (hright (.STPtrRr, .i16) (by decide) rfl
      (classesHold_STPtrRr_iff.mpr hA) rfl)
    rw [List.singleton_append, execExpanded_STPtrRr, hheld]

/-- A store that meets the condition is selected coherently. -/
theorem coherent_store_of_highKept (hheld : s.word held = address.eval symbols s)
    (h : (SelectionNode.store src address held).HighKept symbols s) :
    (SelectionNode.store src address held).Coherent scavenge symbols s := by
  obtain ⟨hplain, hhigh⟩ := h
  rw [AccessAddress.byteStore_iff] at hhigh
  intro mi hmi
  obtain ⟨pattern, hpattern, operands, hbind, rfl, hclasses, -⟩ := mem_selectable_store.mp hmi
  -- the instruction for a byte at a fixed address has two patterns
  have hbyte (hleaf : pattern.2 = .imm ∨ pattern.2 = .tglobaladdr) :
      (SelectionNode.store src address held).SelectedRight scavenge symbols s
        ⟨.STSKRr, operands ++ [MachineOperand.reg (.word src)]⟩ := by
    obtain ⟨hfixed, k, rfl, -, haddress⟩ := AddressLeaf.bind_fixed hleaf hbind
    exact (selectedRight_byteStore (execExpanded_STSKRr (haddress symbols s))).mpr
      (hhigh (.inl hfixed))
  simp only [storePatterns, List.mem_cons, List.not_mem_nil, or_false] at hpattern
  rcases hpattern with rfl | rfl | rfl | rfl | rfl | rfl | rfl | rfl | rfl | rfl | rfl | rfl
  · exact hbyte (.inl rfl)
  · cases address with
    | constant k =>
        obtain rfl := Option.some.inj hbind
        refine selectedRight_wordStore (.constant (k.signExtend 64)) rfl ?_
          (setWidth_signExtend k)
        rintro _ _ ⟨⟩
    | value | ADD | SUB | SNESWrapper => cases hbind
  -- through a pointer
  · obtain rfl := Option.some.inj hbind
    refine (selectedRight_byteStore ?_).mpr (hhigh (.inr (classesHold_STPtrRr_iff.mp hclasses)))
    rw [List.singleton_append, execExpanded_STPtrRr, hheld]
  · obtain rfl := Option.some.inj hbind
    refine selectedRight_wordStore (.pointer held) rfl ?_ hheld
    rintro _ _ ⟨⟩
  -- with a displacement
  · exact absurd (AccessAddress.displaced_of_selectAddr hbind) hplain
  · exact absurd (AccessAddress.displaced_of_selectAddr hbind) hplain
  -- to ports
  · obtain ⟨hfixed, port, rfl, -, heval⟩ := AddressLeaf.bind_port (.inl rfl) hbind
    refine (selectedRight_byteStore ?_).mpr (hhigh (.inl hfixed))
    rw [heval]
    exact execExpanded_OUTARr port
  · obtain ⟨-, port, rfl, hport, heval⟩ := AddressLeaf.bind_port (.inr rfl) hbind
    refine ⟨_, execExpanded_OUTWARr hport, ?_⟩
    rw [SelectionNode.Effect, heval]
    exact .rfl'
  -- to the stack
  · exact absurd (AccessAddress.displaced_of_selectAddr hbind) hplain
  · exact absurd (AccessAddress.displaced_of_selectAddr hbind) hplain
  -- at a symbol
  · exact hbyte (.inr rfl)
  · cases address with
    | SNESWrapper gv offs flags =>
        obtain rfl := Option.some.inj hbind
        refine selectedRight_wordStore (.global gv offs flags) rfl ?_ rfl
        rintro _ _ ⟨⟩
    | value | ADD | SUB | constant => cases hbind

/-! ## Accesses with a moving pointer -/

/-- The form of the address of an indexed access. -/
def IndexedMode.form : IndexedMode → WordReg → AddressForm
  | POST_INC, ptr => .postInc ptr
  | PRE_DEC, ptr => .preDec ptr

/-- The form has the pointer, the address and the step of the node. -/
theorem IndexedMode.form_spec (mode : IndexedMode) (symbols : ℕ → BitVec 16) (s : MachineState)
    (ptr : WordReg) :
    (mode.form ptr).ptr = some ptr ∧
      (mode.form ptr).address symbols s = mode.address (s.word ptr) ∧
      (mode.form ptr).step = some (ptr, BitVec.ofInt 16 mode.offset) := by
  cases mode with
  | POST_INC => exact ⟨rfl, rfl, rfl⟩
  | PRE_DEC => exact ⟨rfl, sub_eq_add_neg _ _, rfl⟩

/-- **A load with a moving pointer** has one instruction, a pseudo, which is right. -/
theorem coherent_indexedLoad (mode : IndexedMode) (dst ptr : WordReg) :
    (SelectionNode.indexedLoad mode dst ptr).Coherent scavenge symbols s := by
  obtain ⟨hptr, haddress, hstep⟩ := mode.form_spec symbols s ptr
  intro mi hmi
  obtain ⟨hmem, hadmits⟩ := List.mem_filter.mp hmi
  obtain ⟨-, hclobbers⟩ := of_decide_eq_true hadmits
  obtain rfl : mi = (WordAccess.load dst (mode.form ptr)).instr := by
    cases mode <;> exact List.mem_singleton.mp hmem
  have hne : dst ≠ ptr := by
    cases mode <;>
      simpa [MachineInstr.clobbersApart, MachineInstr.getReg, IndexedMode.form, WordAccess.instr]
        using hclobbers
  have hexpandable : (WordAccess.load dst (mode.form ptr)).Expandable := by
    refine expandable_load (fun p hp => ?_) (fun p q hform => ?_)
    · rw [hptr] at hp
      exact Option.some.inj hp ▸ hne
    · rw [hform] at hstep
      cases hstep
  refine ⟨_, execExpanded_wordAccess hexpandable, ?_⟩
  rw [SelectionNode.Effect, WordAccess.effect, WordAccess.form, hstep, ← haddress]
  exact .rfl'

/-- What can be selected for a store with a moving pointer: the instructions for a byte and for a
word take the same registers. -/
theorem mem_selectable_indexedStore {mode : IndexedMode} {src ptr : WordReg} {mi : MachineInstr} :
    mi ∈ (SelectionNode.indexedStore mode src ptr).selectable ↔
      ∃ out ∈ mode.storeOutputs, mi = ⟨out, [.reg (.word ptr), .reg (.word ptr), .reg (.word src),
        .imm (BitVec.ofInt 64 mode.offset)]⟩ ∧ ptr ≠ .A ∧ ptr ≠ src := by
  have hadmits (out : Opcode) (hout : out ∈ mode.storeOutputs) :
      MachineInstr.ClassesHold ⟨out, [.reg (.word ptr), .reg (.word ptr), .reg (.word src),
          .imm (BitVec.ofInt 64 mode.offset)]⟩ ∧
        MachineInstr.clobbersApart ⟨out, [.reg (.word ptr), .reg (.word ptr), .reg (.word src),
          .imm (BitVec.ofInt 64 mode.offset)]⟩ = true ↔ ptr ≠ .A ∧ ptr ≠ src := by
    have htypes : MachineInstr.operandTypes out =
        [.reg .indexRegs, .reg .indexRegs, .reg .mainRegs, .imm] := by
      revert out
      cases mode <;> decide
    refine and_congr ?_ ?_
    · rw [MachineInstr.ClassesHold, htypes]
      simp [mem_mainRegs_iff, mem_indexRegs_iff, MachineOperand.hasType]
    · cases mode <;> simp only [IndexedMode.storeOutputs, List.mem_cons, List.not_mem_nil,
        or_false] at hout <;>
        rcases hout with rfl | rfl <;> simp [MachineInstr.clobbersApart, MachineInstr.getReg]
  rw [SelectionNode.selectable, List.mem_filter, SelectionNode.matchingInstrs, List.mem_map,
    decide_eq_true_iff]
  constructor
  · rintro ⟨⟨out, hout, rfl⟩, h⟩
    exact ⟨out, hout, rfl, (hadmits out hout).mp h⟩
  · rintro ⟨out, hout, rfl, h⟩
    exact ⟨⟨out, hout, rfl⟩, (hadmits out hout).mpr h⟩

/-- A store of a byte moves the pointer by 1 and not by 2. -/
theorem not_selectedRight_indexedByteStore (mode : IndexedMode) (src ptr : WordReg)
    {a : BitVec 16} {b : BitVec 8} {mi : MachineInstr} (step : BitVec 16)
    (hstep : step ≠ BitVec.ofInt 16 mode.offset)
    (h : execExpanded scavenge symbols mi s =
      some ((s.storeByte a b).setWord ptr (s.word ptr + step))) :
    ¬ (SelectionNode.indexedStore mode src ptr).SelectedRight scavenge symbols s mi := by
  rintro ⟨s', hs', heffect⟩
  obtain rfl := Option.some.inj (h.symm.trans hs')
  have hword : s.word ptr + step = s.word ptr + BitVec.ofInt 16 mode.offset := by
    rw [← MachineState.setWord_word_self (s.storeByte a b) ptr (s.word ptr + step),
      MachineState.word, heffect.regs]
    exact MachineState.setWord_word_self _ ptr _
  exact hstep (add_left_cancel hword)

/-- **A store with a moving pointer** is selected coherently only where no instruction takes its
registers. -/
theorem coherent_indexedStore_iff (mode : IndexedMode) (src ptr : WordReg) :
    (SelectionNode.indexedStore mode src ptr).Coherent scavenge symbols s ↔
      (SelectionNode.indexedStore mode src ptr).HighKept symbols s := by
  constructor
  · intro h
    by_contra hregs
    obtain ⟨hsrc, hptr⟩ := not_or.mp hregs
    cases mode with
    | POST_INC =>
        refine not_selectedRight_indexedByteStore .POST_INC src ptr 1 (by decide)
          (execExpanded_of_real _ _ _ rfl) (h _ (mem_selectable_indexedStore.mpr
            ⟨.STPtrPiRr, List.mem_cons_self, rfl, hptr, Ne.symm hsrc⟩))
    | PRE_DEC =>
        have hexec : execExpanded scavenge symbols ⟨.STPtrPdRr, [.reg (.word ptr), .reg (.word ptr),
            .reg (.word src), .imm (BitVec.ofInt 64 (IndexedMode.offset .PRE_DEC))]⟩ s =
            some ((s.storeByte (s.word ptr - 1) (s.regs src.subLo)).setWord ptr
              (s.word ptr + -1)) := by
          rw [← sub_eq_add_neg]
          exact execExpanded_of_real _ _ _ rfl
        exact not_selectedRight_indexedByteStore .PRE_DEC src ptr (-1) (by decide) hexec
          (h _ (mem_selectable_indexedStore.mpr
            ⟨.STPtrPdRr, List.mem_cons_self, rfl, hptr, Ne.symm hsrc⟩))
  · intro h mi hmi
    obtain ⟨out, -, -, hptr, hne⟩ := mem_selectable_indexedStore.mp hmi
    rcases h with rfl | rfl
    · exact absurd rfl hne
    · exact absurd rfl hptr

end

/-! ## Coherence -/

/-- **The selection patterns are coherent** exactly where the half that the byte-wide instructions
leave alone is right as it is. -/
theorem selection_coherent_iff (scavenge : Scavenger) (symbols : ℕ → BitVec 16)
    (node : SelectionNode) (s : MachineState) (h : node.Holds symbols s) :
    node.Coherent scavenge symbols s ↔ node.HighKept symbols s := by
  cases node with
  | binary op dst src => exact coherent_binary_iff op dst src
  | unary op dst => exact coherent_unary_iff op dst
  | compare op lhs rhs => exact coherent_compare_iff op lhs rhs
  | load dst address held =>
      exact ⟨highKept_of_coherent_load h, coherent_load_of_highKept h⟩
  | store src address held =>
      exact ⟨highKept_of_coherent_store h, coherent_store_of_highKept h⟩
  | indexedLoad mode dst ptr => exact iff_of_true (coherent_indexedLoad mode dst ptr) trivial
  | indexedStore mode src ptr => exact coherent_indexedStore_iff mode src ptr

/-- A load to `Y` of the word at `0x40`, with the address in `X` too. -/
theorem selection_coherent_iff_load_Y :
    (SelectionNode.load .Y (.constant 0x40) .X).Holds (fun _ => 0)
        ⟨Function.update (fun _ => 0) .XL 0x40, ⟨⟨false, false, false, false⟩, 0⟩, 0, fun _ => 1⟩ ∧
      ((SelectionNode.load .Y (.constant 0x40) .X).Coherent (fun _ _ => none) (fun _ => 0)
          ⟨Function.update (fun _ => 0) .XL 0x40, ⟨⟨false, false, false, false⟩, 0⟩, 0, fun _ => 1⟩ ↔
        (SelectionNode.load .Y (.constant 0x40) .X).HighKept (fun _ => 0)
          ⟨Function.update (fun _ => 0) .XL 0x40, ⟨⟨false, false, false, false⟩, 0⟩, 0,
            fun _ => 1⟩) := by
  have hheld : (SelectionNode.load .Y (.constant 0x40) .X).Holds (fun _ => 0)
      ⟨Function.update (fun _ => 0) .XL 0x40, ⟨⟨false, false, false, false⟩, 0⟩, 0,
        fun _ => 1⟩ := by
    rw [SelectionNode.Holds]
    decide
  exact ⟨hheld, selection_coherent_iff _ _ _ _ hheld⟩

/-- The sum of `0x01ff` in `A` and `0x0002` in `X`: `ADDRdRr`, which has the pattern too, leaves
`0x0101`. -/
theorem addition_of_low_halves :
    ¬ (SelectionNode.binary .add .A .X).Coherent (fun _ _ => none) (fun _ => 0)
      ⟨Function.update (Function.update (Function.update (fun _ => 0) .AH 1) .AL 0xff) .XL 2,
        ⟨⟨false, false, false, false⟩, 0⟩, 0, fun _ => 0⟩ := by
  rw [coherent_binary_iff]
  change ¬ Cancels 0 (carryOut 0xff 0x02 false)
  decide

end Snes
