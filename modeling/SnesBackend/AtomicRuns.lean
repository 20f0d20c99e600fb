/-
# Executing Expanded Atomic Pseudos

The state after the instructions that the pass leaves of an atomic pseudo, and
when it is the state after the atomic node: `A` must lose nothing by holding the
status register, and an operation must leave the old value unchanged.
-/
import SnesBackend.AtomicPseudos

namespace Snes

open WordArith ExpandPseudo

/-! ## Execution of the bodies -/

namespace MachineState

/-- Write a value of a type to a main register. -/
def put (s : MachineState) (type : ValueType) (r : WordReg) (v : BitVec type.width) :
    MachineState :=
  match type, v with
  | .i8, v => s.setByte r.subLo v
  | .i16, v => s.setWord r v

theorem get_put_self (s : MachineState) (type : ValueType) (r : WordReg)
    (v : BitVec type.width) : (s.put type r v).get type r = v := by
  cases type
  · exact setByte_regs_self s r.subLo v
  · exact setWord_word_self s r v

theorem put_regs_of_ne (s : MachineState) (type : ValueType) {r : WordReg}
    (v : BitVec type.width) {q : ByteReg} (hlo : q ≠ r.subLo) (hhi : type = .i16 → q ≠ r.subHi) :
    (s.put type r v).regs q = s.regs q := by
  cases type
  · exact setByte_regs_of_ne s v hlo
  · exact (setByte_regs_of_ne _ _ (hhi rfl)).trans (setByte_regs_of_ne s _ hlo)

/-- Reading a main register after a write. -/
theorem get_put (s : MachineState) (type : ValueType) (r q : WordReg) (v : BitVec type.width) :
    (s.put type r v).get type q = if r = q then v else s.get type q := by
  split_ifs with h
  · rw [← h, get_put_self]
  · cases type
    · exact put_regs_of_ne s .i8 v (by simpa using Ne.symm h) (by simp)
    · exact setWord_word_of_ne s v (Ne.symm h)

@[simp]
theorem put_mem (s : MachineState) (type : ValueType) (r : WordReg) (v : BitVec type.width) :
    (s.put type r v).mem = s.mem := by
  cases type <;> rfl

@[simp]
theorem put_sp (s : MachineState) (type : ValueType) (r : WordReg) (v : BitVec type.width) :
    (s.put type r v).sp = s.sp := by
  cases type <;> rfl

@[simp]
theorem store_regs (s : MachineState) (type : ValueType) (address : BitVec 16)
    (v : BitVec type.width) : (s.store type address v).regs = s.regs := by
  cases type <;> rfl

@[simp]
theorem store_sp (s : MachineState) (type : ValueType) (address : BitVec 16)
    (v : BitVec type.width) : (s.store type address v).sp = s.sp := by
  cases type <;> rfl

/-- A load looks at the memory only. -/
theorem load_congr {s t : MachineState} (h : s.mem = t.mem) (type : ValueType)
    (address : BitVec 16) : s.load type address = t.load type address := by
  cases type <;> simp only [load, h] <;> rfl

/-- Stores to one address differ where their values do. -/
theorem store_mem_inj {s : MachineState} {type : ValueType} {address : BitVec 16}
    {v w : BitVec type.width} :
    (s.store type address v).mem = (s.store type address w).mem ↔ v = w := by
  constructor
  · intro h
    cases type with
    | i8 => exact Function.update_injective s.mem address h
    | i16 =>
        have hne : address ≠ address + 1 := by simp
        have hlo := congrFun h address
        have hhi := congrFun h (address + 1)
        simp only [store, storeWord, storeByte, Function.update_self,
          Function.update_of_ne hne] at hlo hhi
        rw [← high_append_low v, ← high_append_low w, hlo, hhi]
  · rintro rfl
    rfl

/-- The byte at one address is stored to another: that is as if a byte were stored to the first
exactly when all three are the same. -/
theorem storeByte_mem_eq_iff {s : MachineState} {a b : BitVec 16} {v : BitVec 8} :
    (s.storeByte b (s.mem a)).mem = (s.storeByte a v).mem ↔ v = s.mem a ∧ s.mem b = s.mem a := by
  constructor
  · intro h
    have hv : s.mem a = v := by
      have ha := congrFun h a
      simp only [storeByte, Function.update_self] at ha
      by_cases hab : a = b
      · rwa [hab, Function.update_self, ← hab] at ha
      · rwa [Function.update_of_ne hab] at ha
    have hb := congrFun h b
    simp only [storeByte, Function.update_self, ← hv, Function.update_eq_self] at hb
    exact ⟨hv.symm, hb.symm⟩
  · rintro ⟨rfl, hb⟩
    change Function.update s.mem b (s.mem a) = Function.update s.mem a (s.mem a)
    rw [← hb, Function.update_eq_self, hb, Function.update_eq_self]

/-- The memory after a store depends on the memory before only. -/
theorem store_mem_congr {s t : MachineState} (h : s.mem = t.mem) (type : ValueType)
    (address : BitVec 16) (v : BitVec type.width) :
    (s.store type address v).mem = (t.store type address v).mem := by
  cases type <;> simp only [store, storeByte, storeWord, h]

/-- A value of a type depends on the register's halves only. -/
theorem get_congr {s t : MachineState} {type : ValueType} {r : WordReg}
    (hlo : s.regs r.subLo = t.regs r.subLo) (hhi : s.regs r.subHi = t.regs r.subHi) :
    s.get type r = t.get type r := by
  cases type <;> simp only [get, word, hlo, hhi] <;> rfl

/-- A word depends on the register's halves only. -/
theorem word_congr {s t : MachineState} {r : WordReg} (hlo : s.regs r.subLo = t.regs r.subLo)
    (hhi : s.regs r.subHi = t.regs r.subHi) : s.word r = t.word r := by
  simp only [word, hlo, hhi]

end MachineState

/-- The low byte of a word of two bytes. -/
theorem low_of_append (h l : BitVec 8) : (h ++ l).setWidth 8 = l := by
  have hl := l.isLt
  apply BitVec.eq_of_toNat_eq
  rw [BitVec.toNat_setWidth, toNat_append_eq]
  omega

/-- The load loads. -/
theorem execBlock_loadBody {type : ValueType} {rd rr : WordReg} (h : type = .i16 → rd ≠ rr)
    (s : MachineState) :
    execBlock (loadBody type rd rr) s = some (s.put type rd (s.load type (s.word rr))) := by
  cases type with
  | i8 => rfl
  | i16 =>
      have hword : (s.setByte rd.subLo (s.mem (s.word rr))).word rr = s.word rr :=
        MachineState.word_congr (by simp [(h rfl).symm]) (by simp)
      have hexec : execBlock (loadBody .i16 rd rr) s =
          some ((s.setByte rd.subLo (s.mem (s.word rr))).setByte rd.subHi
            (s.mem ((s.setByte rd.subLo (s.mem (s.word rr))).word rr + 1))) := rfl
      rw [hexec, hword]
      simp only [MachineState.put, MachineState.setWord, MachineState.load, low_of_append,
        MachineState.high_of_append]

/-- The store stores. -/
theorem execBlock_storeBody (type : ValueType) (rd rr : WordReg) (s : MachineState) :
    execBlock (storeBody type rd rr) s = some (s.store type (s.word rd) (s.get type rr)) := by
  cases type with
  | i8 => rfl
  | i16 =>
      have hexec : execBlock (storeBody .i16 rd rr) s =
          some ((s.storeByte (s.word rd) (s.regs rr.subLo)).storeByte (s.word rd + 1)
            (s.regs rr.subHi)) := rfl
      rw [hexec]
      simp only [MachineState.store, MachineState.storeWord, MachineState.get, MachineState.word,
        low_of_append, MachineState.high_of_append]

/-- The effect of an operation: its result in the destination, and flags. -/
structure ArithEffect (type : ValueType) (op : AtomicOp) (rd rr : WordReg)
    (s s' : MachineState) : Prop where
  result : s'.get type rd = op.eval (s.get type rd) (s.get type rr)
  regs : ∀ r, r ≠ rd.subLo → (type = .i16 → r ≠ rd.subHi) → s'.regs r = s.regs r
  mem : s'.mem = s.mem
  sp : s'.sp = s.sp

/-- The operation operates. -/
theorem exists_execBlock_arithBody (type : ValueType) (op : AtomicOp) (rd rr : WordReg)
    (s : MachineState) :
    ∃ s', execBlock (arithBody type op rd rr) s = some s' ∧ ArithEffect type op rd rr s s' := by
  cases type with
  | i8 =>
      obtain ⟨f, hf, hresult⟩ : ∃ f, regRegOp op.arith.byteOps.1 = some f ∧
          ∀ a b flags, (f a b flags).1 = op.eval a b := by
        cases op <;> exact ⟨_, rfl, by simp [addCarry, subBorrow, AtomicOp.eval]⟩
      refine ⟨s.setResult rd.subLo (f (s.regs rd.subLo) (s.regs rr.subLo) s.p.toFlags), ?_, ?_⟩
      · cases op <;> obtain rfl := Option.some.inj hf <;> rfl
      · refine ⟨?_, fun r hlo _ => MachineState.setResult_regs_of_ne s _ hlo, rfl, rfl⟩
        exact (MachineState.setResult_regs_self s rd.subLo _).trans (hresult _ _ _)
  | i16 =>
      obtain ⟨mis, s', hexpand, hexec, heffect⟩ :=
        expandMI_wordPseudo (fun _ => none) (.regReg op.arith rd rr) s
      have hmis : mis = arithBody .i16 op rd rr := by
        cases op <;> exact (ExpandResult.expanded.inj hexpand).symm
      refine ⟨s', ?_, ?_, fun r hlo hhi => heffect.regs r hlo (hhi rfl), heffect.mem, heffect.sp⟩
      · rw [← hexec, hmis]
        cases op <;> rfl
      · have hresult := heffect.result
        cases op <;> exact hresult

/-! ## Saving and restoring the status register -/

namespace MachineState

/-- The state in which a body starts: `P` is in the low half of `A`, interrupts are disabled. -/
def enterAtomic (s : MachineState) : MachineState :=
  (s.setByte .AL s.p.toByte).setStatus (s.p.clearBit 7)

/-- The state after the last instruction: `P` comes from the low half of `A`. -/
def leaveAtomic (s : MachineState) : MachineState :=
  s.setStatus (.ofByte (s.regs .AL))

theorem enterAtomic_regs_AL (s : MachineState) : s.enterAtomic.regs .AL = s.p.toByte :=
  setByte_regs_self s .AL s.p.toByte

theorem enterAtomic_regs_of_ne (s : MachineState) {r : ByteReg} (h : r ≠ .AL) :
    s.enterAtomic.regs r = s.regs r :=
  setByte_regs_of_ne s s.p.toByte h

/-- Where `A` has the status register already, saving it changes no register. -/
theorem enterAtomic_regs_of_eq {s : MachineState} (h : s.regs .AL = s.p.toByte) (r : ByteReg) :
    s.enterAtomic.regs r = s.regs r := by
  by_cases hr : r = .AL
  · rw [hr, enterAtomic_regs_AL, h]
  · exact enterAtomic_regs_of_ne s hr

@[simp] theorem enterAtomic_mem (s : MachineState) : s.enterAtomic.mem = s.mem := rfl

end MachineState

/-- **An expanded body** runs between saving and restoring the status register. -/
theorem execBlock_expandAtomic (body : List MachineInstr) (s : MachineState) :
    execBlock (expandAtomic body) s =
      (execBlock body s.enterAtomic).map MachineState.leaveAtomic := by
  have hprefix : execBlock atomicPrefix s = some s.enterAtomic := rfl
  have hsuffix : ∀ t, execBlock [⟨.OUTARr, [ofUnsigned pAddr, .reg scratchRegister]⟩] t =
      some t.leaveAtomic := fun _ => rfl
  change execBlock (atomicPrefix ++ body ++ _) s = _
  rw [execBlock_append, execBlock_append, hprefix, Option.bind_some]
  cases execBlock body s.enterAtomic with
  | none => rfl
  | some t => exact hsuffix t

namespace IndexReg

variable (rr : IndexReg)

/-- An index register is not `A`. -/
theorem subLo_ne_AL : rr.1.subLo ≠ .AL := by
  obtain ⟨r, hr⟩ := rr
  cases r with
  | A => exact absurd hr (by decide)
  | X | Y => simp [WordReg.subLo]

theorem subHi_ne_AL : rr.1.subHi ≠ .AL := by
  obtain ⟨r, -⟩ := rr
  cases r <;> simp [WordReg.subHi]

/-- Saving the status register leaves an index register alone. -/
theorem enterAtomic_word (s : MachineState) : s.enterAtomic.word rr = s.word rr :=
  MachineState.word_congr (s.enterAtomic_regs_of_ne rr.subLo_ne_AL)
    (s.enterAtomic_regs_of_ne rr.subHi_ne_AL)

theorem enterAtomic_get (s : MachineState) (type : ValueType) :
    s.enterAtomic.get type rr = s.get type rr :=
  MachineState.get_congr (s.enterAtomic_regs_of_ne rr.subLo_ne_AL)
    (s.enterAtomic_regs_of_ne rr.subHi_ne_AL)

end IndexReg

/-! ## When the state after the expansion is that after the node -/

/-- The low byte of a value in a register. -/
theorem MachineState.get_setWidth (s : MachineState) (type : ValueType) (r : WordReg) :
    (s.get type r).setWidth 8 = s.regs r.subLo := by
  cases type
  · exact BitVec.setWidth_eq _
  · exact low_of_append _ _

/-- The pass on a function of one block. -/
theorem runOnMachineFunction_singleton {scavenge : Scavenger} {block mis : List MachineInstr} :
    runOnMachineFunction scavenge [block] = some [mis] ↔ expandBlock scavenge block = some mis := by
  unfold runOnMachineFunction
  cases hblock : expandBlock scavenge block <;> simp [hblock]

namespace AtomicPseudo

/-- A register that a pseudo does not define. -/
def Kept (i : AtomicPseudo) (r : ByteReg) : Prop :=
  ∀ rd, i.dst = some rd → r ≠ rd.subLo ∧ r ≠ rd.subHi

/-- The low half of `A` is kept unless `A` is the destination. -/
theorem kept_AL_iff (i : AtomicPseudo) : i.Kept .AL ↔ i.dst ≠ some .A := by
  constructor
  · intro hkept hdst
    exact (hkept .A hdst).1 rfl
  · intro hdst rd hrd
    refine ⟨fun hlo => hdst ?_, ?_⟩
    · rw [hrd, WordReg.subLo_inj.mp (show WordReg.A.subLo = rd.subLo from hlo)]
    · cases rd <;> simp [WordReg.subHi]

/-- Whether a body leaves the registers and the status register as they were depends on the byte
that the status register is restored from. -/
theorem regs_and_restored_iff {i : AtomicPseudo} {s t : MachineState}
    (hkept : ∀ r, i.Kept r → t.regs r = s.enterAtomic.regs r)
    (hreturned : ∀ rd, i.dst = some rd → t.get i.type rd = i.old s) :
    (∀ r, i.Kept r → t.regs r = s.regs r) ∧ t.regs .AL = s.p.toByte ↔
      i.restored s = s.p.toByte := by
  unfold restored
  split_ifs with hdst
  · have hAL : t.regs .AL = (i.old s).setWidth 8 := by
      rw [← hreturned .A hdst]
      exact (t.get_setWidth i.type .A).symm
    rw [hAL]
    refine and_iff_right fun r hr => ?_
    rw [hkept r hr, MachineState.enterAtomic_regs_of_ne]
    exact (hr .A hdst).1
  · have hAL := i.kept_AL_iff.mpr hdst
    constructor
    · rintro ⟨hregs, hp⟩
      rw [← hregs .AL hAL, hp]
    · intro hp
      refine ⟨fun r hr => ?_, ?_⟩
      · rw [hkept r hr, MachineState.enterAtomic_regs_of_eq hp]
      · rw [hkept .AL hAL, MachineState.enterAtomic_regs_AL]

/-- **The state after an expansion** is that after the node exactly when the status register is
restored and the destination and the memory have their values. -/
theorem behaves_leaveAtomic_iff {i : AtomicPseudo} {s t : MachineState}
    (hkept : ∀ r, i.Kept r → t.regs r = s.enterAtomic.regs r) (hsp : t.sp = s.sp) :
    i.Behaves s t.leaveAtomic ↔
      i.restored s = s.p.toByte ∧ (∀ rd, i.dst = some rd → t.get i.type rd = i.old s) ∧
        t.mem = i.memAfter s := by
  constructor
  · rintro ⟨hreturned, hmem, hregs, -, hp, -⟩
    have hreturned' : ∀ rd, i.dst = some rd → t.get i.type rd = i.old s := hreturned
    refine ⟨(regs_and_restored_iff hkept hreturned').mp ⟨hregs, ?_⟩, hreturned', hmem⟩
    exact (Status.ofByte_eq_iff _ _).mp hp
  · rintro ⟨hrestored, hreturned, hmem⟩
    obtain ⟨hregs, hAL⟩ := (regs_and_restored_iff hkept hreturned).mpr hrestored
    have hp : t.leaveAtomic.p = s.p := (Status.ofByte_eq_iff _ _).mpr hAL
    exact ⟨hreturned, hmem, hregs, hsp, hp, congrArg Status.interrupt hp⟩

/-- A word load or operation through its own destination is never right: the stack pointer does not
come back. -/
theorem not_expandedRight_of_not_apart {i : AtomicPseudo} (scavenge : Scavenger)
    (s : MachineState) (h : ¬ i.Apart) : ¬ i.ExpandedRight scavenge s := by
  rintro ⟨mis, s', hrun, hexec, hbehaves⟩
  have hsp := execBlock_sp hexec
  rw [spOffset_of_not_apart scavenge h (runOnMachineFunction_singleton.mp hrun),
    hbehaves.sp] at hsp
  have hzero : (-1 : BitVec 16) = 0 := left_eq_add.mp hsp
  exact absurd hzero (by decide)

/-- The expansion of a pseudo whose destination is apart from the pointer. -/
theorem expandedRight_iff_of_apart {i : AtomicPseudo} (scavenge : Scavenger) (h : i.Apart)
    {s t : MachineState} (ht : execBlock i.finalBody s.enterAtomic = some t) :
    i.ExpandedRight scavenge s ↔ i.Behaves s t.leaveAtomic := by
  have hexpand := expandBlock_of_apart scavenge h
  have hexec : execBlock (expandAtomic i.finalBody) s = some t.leaveAtomic := by
    rw [execBlock_expandAtomic, ht, Option.map_some]
  constructor
  · rintro ⟨mis, s', hrun, hmis, hbehaves⟩
    obtain rfl := Option.some.inj
      (hexpand.symm.trans (runOnMachineFunction_singleton.mp hrun))
    obtain rfl := Option.some.inj (hexec.symm.trans hmis)
    exact hbehaves
  · intro hbehaves
    exact ⟨_, _, runOnMachineFunction_singleton.mpr hexpand, hexec, hbehaves⟩

/-- The value that an operation leaves in its destination and, unless that is the pointer, in
memory: the operand is the pointer, or the old value where the destination is the pointer. -/
def leftValue (op : AtomicOp) (type : ValueType) (rd : WordReg) (rr : IndexReg)
    (s : MachineState) : BitVec type.width :=
  op.eval (s.load type (s.word rr))
    (if rd = rr then s.load type (s.word rr) else s.get type rr)

/-- The address that an operation stores to. -/
def leftAddress (op : AtomicOp) (type : ValueType) (rd : WordReg) (rr : IndexReg)
    (s : MachineState) : BitVec 16 :=
  if rd = rr then s.regs rd.subHi ++ (leftValue op type rd rr s).setWidth 8 else s.word rr

/-- **The body of an operation.** -/
theorem exists_execBlock_loadOp (op : AtomicOp) {type : ValueType} {rd : WordReg} {rr : IndexReg}
    (operand : WordReg) (h : type = .i16 → rd ≠ rr) (s : MachineState) :
    ∃ t, execBlock (finalBody (.loadOp type op rd rr operand)) s.enterAtomic = some t ∧
      (∀ r, (loadOp type op rd rr operand).Kept r → t.regs r = s.enterAtomic.regs r) ∧
      t.sp = s.sp ∧ t.get type rd = leftValue op type rd rr s ∧
      t.mem = (s.store type (leftAddress op type rd rr s) (leftValue op type rd rr s)).mem := by
  obtain ⟨t, ht, harith⟩ := exists_execBlock_arithBody type op rd rr
    (s.enterAtomic.put type rd (s.load type (s.word rr)))
  have hload : execBlock (loadBody type rd rr) s.enterAtomic =
      some (s.enterAtomic.put type rd (s.load type (s.word rr))) := by
    rw [execBlock_loadBody h, rr.enterAtomic_word,
      MachineState.load_congr s.enterAtomic_mem]
  have hvalue : t.get type rd = leftValue op type rd rr s := by
    rw [harith.result, MachineState.get_put_self, MachineState.get_put, rr.enterAtomic_get]
    rfl
  have hregs : ∀ r, r ≠ rd.subLo → (type = .i16 → r ≠ rd.subHi) →
      t.regs r = s.enterAtomic.regs r := fun r hlo hhi =>
    (harith.regs r hlo hhi).trans (MachineState.put_regs_of_ne _ type _ hlo hhi)
  have haddress : t.word rr = leftAddress op type rd rr s := by
    unfold leftAddress
    split_ifs with heq
    · subst heq
      have hhi : t.regs rr.1.subHi = s.regs rr.1.subHi := by
        rw [hregs _ (by simp) fun htype => absurd rfl (h htype),
          MachineState.enterAtomic_regs_of_ne _ rr.subHi_ne_AL]
      rw [MachineState.word, hhi, ← hvalue, MachineState.get_setWidth]
    · rw [← rr.enterAtomic_word s]
      exact MachineState.word_congr
        (hregs _ (by simpa using Ne.symm heq) fun _ => by simp)
        (hregs _ (by simp) fun _ => by simpa using Ne.symm heq)
  refine ⟨t.store type (t.word rr) (t.get type rd), ?_, ?_, ?_, ?_, ?_⟩
  · rw [finalBody, execBlock_append, execBlock_append, hload, Option.bind_some, ht,
      Option.bind_some, execBlock_storeBody]
  · intro r hr
    obtain ⟨hlo, hhi⟩ := hr rd rfl
    rw [MachineState.store_regs, hregs r hlo fun _ => hhi]
  · rw [MachineState.store_sp, harith.sp, MachineState.put_sp]
    rfl
  · rw [← hvalue]
    exact MachineState.get_congr (by simp) (by simp)
  · rw [hvalue, haddress]
    exact MachineState.store_mem_congr
      ((harith.mem.trans (MachineState.put_mem _ _ _ _)).trans s.enterAtomic_mem) _ _ _

/-- What an operation leaves is right when the old value is unchanged both by the operation and by
what the body does in its place. -/
theorem loadOp_left_iff (op : AtomicOp) {type : ValueType} {rd : WordReg} {rr : IndexReg}
    (operand : WordReg) (h : type = .i16 → rd ≠ rr) (s : MachineState) :
    leftValue op type rd rr s = s.load type (s.word rr) ∧
        (s.store type (leftAddress op type rd rr s) (leftValue op type rd rr s)).mem =
          (s.store type (s.word rr)
            (op.eval (s.load type (s.word rr)) (s.get type operand))).mem ↔
      op.eval (s.load type (s.word rr)) (s.get type operand) = s.load type (s.word rr) ∧
        (rd ≠ rr ∧ op.eval (s.load type (s.word rr)) (s.get type rr) = s.load type (s.word rr) ∨
          rd = rr ∧ type = .i8 ∧
            op.eval (s.load type (s.word rr)) (s.load type (s.word rr)) =
              s.load type (s.word rr) ∧
            s.mem (s.regs rd.subHi ++ (s.load type (s.word rr)).setWidth 8) =
              (s.load type (s.word rr)).setWidth 8) := by
  by_cases heq : rd = rr
  · obtain rfl : type = .i8 := by
      cases type with
      | i8 => rfl
      | i16 => exact absurd heq (h rfl)
    have hvalue : leftValue op .i8 rd rr s =
        op.eval (s.load .i8 (s.word rr)) (s.load .i8 (s.word rr)) := by
      rw [leftValue, if_pos heq]
    rw [leftAddress, if_pos heq, hvalue]
    simp only [heq, ne_eq, not_true_eq_false, false_and, false_or, true_and]
    rw [← and_assoc, and_comm (b := op.eval _ _ = _), and_assoc]
    refine and_congr_right fun hleft => ?_
    rw [hleft]
    exact MachineState.storeByte_mem_eq_iff
  · have hvalue : leftValue op type rd rr s =
        op.eval (s.load type (s.word rr)) (s.get type rr) := by
      rw [leftValue, if_neg heq]
    rw [leftAddress, if_neg heq, hvalue, MachineState.store_mem_inj]
    simp only [heq, ne_eq, not_false_eq_true, true_and, false_and, or_false]
    constructor
    · rintro ⟨hleft, hright⟩
      exact ⟨hright.symm.trans hleft, hleft⟩
    · rintro ⟨hright, hleft⟩
      exact ⟨hleft, hleft.trans hright.symm⟩

/-- The expansion of a load. -/
theorem load_expandedRight_iff (scavenge : Scavenger) {type : ValueType} {rd : WordReg}
    {rr : IndexReg} (h : type = .i16 → rd ≠ rr) (s : MachineState) :
    (load type rd rr).ExpandedRight scavenge s ↔
      (load type rd rr).restored s = s.p.toByte := by
  have hapart : (load type rd rr).Apart := fun htype hdst => h htype (Option.some.inj hdst)
  have hload : execBlock (finalBody (.load type rd rr)) s.enterAtomic =
      some (s.enterAtomic.put type rd ((load type rd rr).old s)) := by
    rw [finalBody, execBlock_loadBody h, rr.enterAtomic_word,
      MachineState.load_congr s.enterAtomic_mem]
    rfl
  rw [expandedRight_iff_of_apart scavenge hapart hload, behaves_leaveAtomic_iff]
  · refine and_iff_left ⟨?_, ?_⟩
    · intro q hq
      obtain rfl : rd = q := Option.some.inj hq
      exact MachineState.get_put_self _ _ _ _
    · exact MachineState.put_mem _ _ _ _
  · intro r hr
    obtain ⟨hlo, hhi⟩ := hr rd rfl
    exact MachineState.put_regs_of_ne _ type _ hlo fun _ => hhi
  · exact MachineState.put_sp _ _ _ _

/-- The expansion of a store. -/
theorem store_expandedRight_iff (scavenge : Scavenger) (type : ValueType) (rd rr : WordReg)
    (s : MachineState) :
    (store type rd rr).ExpandedRight scavenge s ↔
      (store type rd rr).restored s = s.p.toByte := by
  have hapart : (store type rd rr).Apart := fun _ hdst => by simp [dst] at hdst
  have hstore : execBlock (finalBody (.store type rd rr)) s.enterAtomic =
      some (s.enterAtomic.store type (s.enterAtomic.word rd) (s.enterAtomic.get type rr)) :=
    execBlock_storeBody type rd rr _
  rw [expandedRight_iff_of_apart scavenge hapart hstore, behaves_leaveAtomic_iff]
  · refine and_iff_left_of_imp fun hrestored => ⟨fun q hq => by simp [dst] at hq, ?_⟩
    have hregs : ∀ r, s.enterAtomic.regs r = s.regs r :=
      MachineState.enterAtomic_regs_of_eq hrestored
    rw [MachineState.word_congr (hregs _) (hregs _),
      MachineState.get_congr (hregs rr.subLo) (hregs rr.subHi)]
    exact MachineState.store_mem_congr s.enterAtomic_mem _ _ _
  · intro r _
    rw [MachineState.store_regs]
  · exact MachineState.store_sp _ _ _ _

/-- The expansion of an operation. -/
theorem loadOp_expandedRight_iff (scavenge : Scavenger) (op : AtomicOp) {type : ValueType}
    {rd : WordReg} {rr : IndexReg} (operand : WordReg) (h : type = .i16 → rd ≠ rr)
    (s : MachineState) :
    (loadOp type op rd rr operand).ExpandedRight scavenge s ↔
      (loadOp type op rd rr operand).RightWhen s := by
  have hapart : (loadOp type op rd rr operand).Apart := fun htype hdst =>
    h htype (Option.some.inj hdst)
  obtain ⟨t, ht, hkept, hsp, hvalue, hmem⟩ := exists_execBlock_loadOp op operand h s
  rw [expandedRight_iff_of_apart scavenge hapart ht, behaves_leaveAtomic_iff hkept hsp]
  refine and_congr_right fun _ => ?_
  refine Iff.trans ?_ (loadOp_left_iff op operand h s)
  rw [← hmem, ← hvalue]
  refine and_congr_left fun _ => ?_
  constructor
  · intro hreturned
    exact hreturned rd rfl
  · intro hreturned q hq
    obtain rfl : rd = q := Option.some.inj hq
    exact hreturned

/-- Where the condition of a word load or operation holds, its destination is not the pointer. -/
theorem RightWhen.apart {i : AtomicPseudo} {s : MachineState} (h : i.RightWhen s) : i.Apart := by
  intro htype hdst
  obtain ⟨-, h⟩ := h
  cases i with
  | load type rd rr => exact h htype (Option.some.inj hdst)
  | store type rd rr => simp [dst] at hdst
  | loadOp type op rd rr operand =>
      obtain ⟨-, ⟨hne, -⟩ | ⟨-, hbyte, -⟩⟩ := h
      · exact hne (Option.some.inj hdst)
      · exact absurd (hbyte.symm.trans htype) (by decide)

/-- **The expansion of an atomic pseudo** behaves as its node exactly under the condition. -/
theorem expandedRight_iff (i : AtomicPseudo) (scavenge : Scavenger) (s : MachineState) :
    i.ExpandedRight scavenge s ↔ i.RightWhen s := by
  by_cases hapart : i.Apart
  · cases i with
    | load type rd rr =>
        have hne : type = .i16 → rd ≠ rr := fun htype heq => hapart htype (congrArg some heq)
        rw [load_expandedRight_iff scavenge hne]
        exact (and_iff_left hne).symm
    | store type rd rr =>
        rw [store_expandedRight_iff]
        exact (and_iff_left trivial).symm
    | loadOp type op rd rr operand =>
        exact loadOp_expandedRight_iff scavenge op operand
          (fun htype heq => hapart htype (congrArg some heq)) s
  · constructor
    · exact fun hright => absurd hright (not_expandedRight_of_not_apart scavenge s hapart)
    · exact fun hright => absurd hright.apart hapart

/-- An addition of the `1` in `A` to the `0` in memory, where `A` holds the status register already:
the pointer, which is `0` too, is added instead. -/
theorem not_expandedRight_AtomicLoadAdd8 :
    ¬ (loadOp .i8 .add .X ⟨.Y, by decide⟩ .A).ExpandedRight (fun _ _ => none)
      { regs := fun r => if r = .AL then 1 else 0
        p := { carry := true, zero := false, negative := false, overflow := false, upper := 0 }
        sp := 0
        mem := fun _ => 0 } := by
  rw [loadOp_expandedRight_iff _ .add .A (by simp)]
  rintro ⟨-, hleft, -⟩
  exact absurd hleft (by decide)

end AtomicPseudo

end Snes
