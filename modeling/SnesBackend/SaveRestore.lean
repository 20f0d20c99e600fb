/-
# Saving Registers and Restoring Them

The two ways to save a list of main registers on the stack: the pushes and pops that
`spillCalleeSavedRegisters` and `restoreCalleeSavedRegisters` insert, and the expansions of
`PUSHWRr` and `POPWRd`.  Every push pushes `A`.  The first way pops one byte for the two
that were pushed, and records the number of registers as the number of bytes; the second
way pops the bytes in the order in which they were pushed.
-/
import SnesBackend.AtomicRuns

namespace Snes

/-! ## The instructions -/

/-- The instructions that `spillCalleeSavedRegisters` inserts, the last register first. -/
def spillInstrs (csi : List Reg) : List MachineInstr :=
  csi.reverse.map fun reg => ⟨.PHAstk, [.reg reg]⟩

/-- The instructions that `restoreCalleeSavedRegisters` inserts. -/
def restoreInstrs (csi : List Reg) : List MachineInstr :=
  csi.map fun reg => ⟨.POPRd, [.reg reg]⟩

/-- The `CalleeSavedFrameSize` that `spillCalleeSavedRegisters` records: it counts the registers,
and records nothing where there is none. -/
def calleeSavedFrameSize (csi : List Reg) : BitVec 32 :=
  csi.reverse.foldl (fun size _ => size + 1) 0

/-- A `PUSHWRr` for each register. -/
def pushWords (regs : List WordReg) : List MachineInstr :=
  regs.map fun reg => ⟨.PUSHWRr, [.reg (.word reg)]⟩

/-- A `POPWRd` for each register, in the opposite order. -/
def popWords (regs : List WordReg) : List MachineInstr :=
  regs.reverse.map fun reg => ⟨.POPWRd, [.reg (.word reg)]⟩

/-- The two ways of saving registers. -/
inductive SaveMethod where
  | calleeSaved | pushPop
deriving DecidableEq, Repr

/-- The instructions that save registers. -/
def SaveMethod.saves (scavenge : Scavenger) (method : SaveMethod) (regs : List WordReg) :
    Option (List MachineInstr) :=
  match method with
  | calleeSaved => some (spillInstrs (regs.map Reg.word))
  | pushPop => expandBlock scavenge (pushWords regs)

/-- The instructions that restore registers. -/
def SaveMethod.restores (scavenge : Scavenger) (method : SaveMethod) (regs : List WordReg) :
    Option (List MachineInstr) :=
  match method with
  | calleeSaved => some (restoreInstrs (regs.map Reg.word))
  | pushPop => expandBlock scavenge (popWords regs)

/-- The bytes that instructions push. -/
def bytesPushed (mis : List MachineInstr) : ℕ :=
  (mis.map fun mi => if mi.opcode = .PHAstk then 2 else 0).sum

/-! ## What saving promises -/

/-- Code between saving and restoring: it leaves SP and the bytes saved above it alone. -/
structure KeepsSaved (body : MachineState → MachineState) (saved : ℕ) (s : MachineState) :
    Prop where
  sp : (body s).sp = s.sp
  mem : ∀ j, 0 < j → j ≤ saved →
    (body s).mem (s.sp + BitVec.ofNat 16 j) = s.mem (s.sp + BitVec.ofNat 16 j)

/-- Registers are saved and restored: whatever the code in between does, the registers and SP get
their values back, and the recorded size is the number of bytes pushed. -/
def SavedAndRestored (scavenge : Scavenger) (method : SaveMethod) (regs : List WordReg)
    (s : MachineState) : Prop :=
  ∃ saves restores atBody, method.saves scavenge regs = some saves ∧
    method.restores scavenge regs = some restores ∧ execBlock saves s = some atBody ∧
    (∀ body : MachineState → MachineState, KeepsSaved body (bytesPushed saves) atBody →
      ∃ s', execBlock restores (body atBody) = some s' ∧ s'.sp = s.sp ∧
        ∀ reg ∈ regs, s'.word reg = s.word reg) ∧
    (method = .calleeSaved →
      (calleeSavedFrameSize (regs.map Reg.word)).toNat = bytesPushed saves)

/-- A word with its bytes swapped. -/
def swapBytes (v : BitVec 16) : BitVec 16 :=
  (v.setWidth 8 : BitVec 8) ++ ((v >>> 8).setWidth 8 : BitVec 8)

/-- When registers are saved and restored: not at all by the first way, unless there are none, and
by the second way when each holds the bytes of `A`, swapped. -/
def SaveCondition (method : SaveMethod) (regs : List WordReg) (s : MachineState) : Prop :=
  match method with
  | .calleeSaved => regs = []
  | .pushPop => ∀ reg ∈ regs, s.word reg = swapBytes (s.word .A)

/-! ## The instructions of the second way -/

/-- The push that is left of a `PUSHWRr`. -/
def pushInstrs (reg : WordReg) : List MachineInstr :=
  [⟨.PHAstk, [.reg (.word reg)]⟩]

/-- The pops that are left of a `POPWRd`, high half first. -/
def popInstrs (reg : WordReg) : List MachineInstr :=
  [⟨.POPRd, [.reg (.byte reg.subHi)]⟩, ⟨.POPRd, [.reg (.byte reg.subLo)]⟩]

theorem noPseudos_flatMap {β : Type*} {f : β → List MachineInstr} {items : List β}
    (h : ∀ b ∈ items, NoPseudos (f b)) : NoPseudos (items.flatMap f) := by
  intro mi hmi
  obtain ⟨b, hb, hmi⟩ := List.mem_flatMap.mp hmi
  exact h b hb mi hmi

/-- The pass on a `PUSHWRr` for each register. -/
theorem expandBlock_pushWords (scavenge : Scavenger) (regs : List WordReg) :
    expandBlock scavenge (pushWords regs) = some (regs.flatMap pushInstrs) :=
  expandBlock_of_forall_expanded _ pushInstrs regs (fun _ _ _ => rfl)
    (noPseudos_flatMap fun _ _ => .cons rfl noPseudos_nil)

/-- The pass on a `POPWRd` for each register. -/
theorem expandBlock_popWords (scavenge : Scavenger) (regs : List WordReg) :
    expandBlock scavenge (popWords regs) = some (regs.reverse.flatMap popInstrs) :=
  expandBlock_of_forall_expanded _ popInstrs regs.reverse (fun _ _ _ => rfl)
    (noPseudos_flatMap fun _ _ => noPseudos_pair rfl rfl)

/-! ## The pushes -/

/-- The bytes of a word lie on the stack a number of times, from an address down. -/
def PushedTimes (mem : BitVec 16 → BitVec 8) (base : BitVec 16) (v : BitVec 16) (count : ℕ) :
    Prop :=
  ∀ i < count, mem (base - BitVec.ofNat 16 (2 * i)) = (v >>> 8).setWidth 8 ∧
    mem (base - BitVec.ofNat 16 (2 * i + 1)) = v.setWidth 8

/-- The high bytes lie at even distances, the low bytes at odd ones, even where the stack wraps. -/
theorem even_ne_odd (i j : ℕ) : BitVec.ofNat 16 (2 * i) ≠ BitVec.ofNat 16 (2 * j + 1) := by
  intro h
  have hnat := congrArg BitVec.toNat h
  rw [BitVec.toNat_ofNat, BitVec.toNat_ofNat] at hnat
  omega

/-- Pushing the word once more. -/
theorem PushedTimes.pushWord {s : MachineState} {base v : BitVec 16} {count : ℕ}
    (h : PushedTimes s.mem base v count) (hsp : s.sp = base - BitVec.ofNat 16 (2 * count)) :
    PushedTimes (s.pushWord v).mem base v (count + 1) ∧
      (s.pushWord v).sp = base - BitVec.ofNat 16 (2 * (count + 1)) := by
  have hnext : s.sp - 1 = base - BitVec.ofNat 16 (2 * count + 1) := by
    rw [hsp, BitVec.ofNat_add, sub_sub]
    rfl
  have hmem : (s.pushWord v).mem = Function.update (Function.update s.mem
      (base - BitVec.ofNat 16 (2 * count)) ((v >>> 8).setWidth 8))
      (base - BitVec.ofNat 16 (2 * count + 1)) (v.setWidth 8) := by
    rw [← hnext, ← hsp]
    rfl
  refine ⟨fun i hi => ?_, ?_⟩
  · rw [hmem]
    constructor
    · rw [Function.update_of_ne fun heq => even_ne_odd i count (sub_right_injective heq)]
      by_cases hsame : BitVec.ofNat 16 (2 * i) = BitVec.ofNat 16 (2 * count)
      · rw [hsame, Function.update_self]
      · rw [Function.update_of_ne fun heq => hsame (sub_right_injective heq)]
        exact (h i (Nat.lt_of_le_of_ne (Nat.le_of_lt_succ hi) fun heq => hsame (by rw [heq]))).1
    · by_cases hsame : BitVec.ofNat 16 (2 * i + 1) = BitVec.ofNat 16 (2 * count + 1)
      · rw [hsame, Function.update_self]
      · rw [Function.update_of_ne fun heq => hsame (sub_right_injective heq),
          Function.update_of_ne fun heq => (even_ne_odd count i) (sub_right_injective heq).symm]
        exact (h i (Nat.lt_of_le_of_ne (Nat.le_of_lt_succ hi) fun heq => hsame (by rw [heq]))).2
  · rw [MachineState.pushWord_sp, hsp, sub_sub, Nat.mul_add, BitVec.ofNat_add]
    rfl

/-- **The pushes** leave `A` on the stack once for each register, and change no register. -/
theorem exists_execBlock_pushInstrs (regs : List WordReg) {s : MachineState} {base : BitVec 16}
    {count : ℕ} (h : PushedTimes s.mem base (s.word .A) count)
    (hsp : s.sp = base - BitVec.ofNat 16 (2 * count)) :
    ∃ s', execBlock (regs.flatMap pushInstrs) s = some s' ∧ s'.regs = s.regs ∧
      PushedTimes s'.mem base (s.word .A) (count + regs.length) ∧
      s'.sp = base - BitVec.ofNat 16 (2 * (count + regs.length)) := by
  induction regs generalizing s count with
  | nil => exact ⟨s, rfl, rfl, h, hsp⟩
  | cons reg regs ih =>
      obtain ⟨hpushed, hsp⟩ := h.pushWord hsp
      obtain ⟨s', hexec, hregs, hpushed, hsp⟩ :=
        ih (s := s.pushWord (s.word .A)) hpushed hsp
      refine ⟨s', hexec, hregs, ?_, ?_⟩
      · rw [List.length_cons, ← Nat.add_assoc, Nat.add_right_comm]
        exact hpushed
      · rw [List.length_cons, hsp, Nat.add_right_comm count, Nat.add_assoc]

/-- The pushes from a state. -/
theorem exists_execBlock_pushWords (regs : List WordReg) (s : MachineState) :
    ∃ s', execBlock (regs.flatMap pushInstrs) s = some s' ∧
      PushedTimes s'.mem s.sp (s.word .A) regs.length ∧
      s'.sp = s.sp - BitVec.ofNat 16 (2 * regs.length) := by
  have hnone : PushedTimes s.mem s.sp (s.word .A) 0 := fun i hi => absurd hi (Nat.not_lt_zero i)
  obtain ⟨s', hexec, -, hpushed, hsp⟩ :=
    exists_execBlock_pushInstrs regs hnone (sub_zero s.sp).symm
  rw [Nat.zero_add] at hpushed hsp
  exact ⟨s', hexec, hpushed, hsp⟩

/-! ## The pops -/

/-- Two pops of a word that was pushed: the low byte comes first, and goes to the high half. -/
theorem exists_execBlock_popInstrs {s : MachineState} {base v : BitVec 16} {count : ℕ}
    (h : PushedTimes s.mem base v (count + 1))
    (hsp : s.sp = base - BitVec.ofNat 16 (2 * (count + 1))) (reg : WordReg) :
    ∃ s', execBlock (popInstrs reg) s = some s' ∧ s'.mem = s.mem ∧
      s'.sp = base - BitVec.ofNat 16 (2 * count) ∧ s'.word reg = swapBytes v ∧
      ∀ other, other ≠ reg → s'.word other = s.word other := by
  have hlow : s.sp + 1 = base - BitVec.ofNat 16 (2 * count + 1) := by
    rw [hsp, Nat.mul_add, BitVec.ofNat_add, BitVec.ofNat_add]
    change base - (BitVec.ofNat 16 (2 * count) + 2) + 1 = base - (BitVec.ofNat 16 (2 * count) + 1)
    ring
  have hhigh : s.sp + 1 + 1 = base - BitVec.ofNat 16 (2 * count) := by
    rw [hlow, BitVec.ofNat_add]
    change base - (BitVec.ofNat 16 (2 * count) + 1) + 1 = _
    ring
  obtain ⟨hbyteHigh, hbyteLow⟩ := h count (Nat.lt_succ_self count)
  let popped : MachineState := { s with sp := s.sp + 1 + 1 }
  have hexec : execBlock (popInstrs reg) s =
      some ((popped.setByte reg.subHi (s.mem (s.sp + 1))).setByte reg.subLo
        (s.mem (s.sp + 1 + 1))) := rfl
  refine ⟨_, hexec, rfl, hhigh, ?_, fun other hother => ?_⟩
  · rw [hlow, ← hlow, hhigh, hbyteHigh, hlow, hbyteLow]
    simp [MachineState.word, swapBytes]
  · simp [MachineState.word, popped, hother]

/-- **The pops** give every register the swapped bytes, and SP comes back. -/
theorem exists_execBlock_popWords (regs : List WordReg) {s : MachineState} {base v : BitVec 16}
    (h : PushedTimes s.mem base v regs.length)
    (hsp : s.sp = base - BitVec.ofNat 16 (2 * regs.length)) :
    ∃ s', execBlock (regs.flatMap popInstrs) s = some s' ∧ s'.sp = base ∧
      (∀ reg ∈ regs, s'.word reg = swapBytes v) ∧
      ∀ other, other ∉ regs → s'.word other = s.word other := by
  induction regs generalizing s with
  | nil => exact ⟨s, rfl, by simpa using hsp, by simp, fun _ _ => rfl⟩
  | cons reg regs ih =>
      obtain ⟨next, hexec, hmem, hnextsp, hword, hothers⟩ :=
        exists_execBlock_popInstrs h hsp reg
      have hpushed : PushedTimes next.mem base v regs.length := by
        rw [hmem]
        exact fun i hi => h i (Nat.lt_succ_of_lt hi)
      obtain ⟨s', hrest, hlast, hregs, hkept⟩ := ih hpushed hnextsp
      refine ⟨s', ?_, hlast, fun other hother => ?_, fun other hother => ?_⟩
      · rw [List.flatMap_cons, execBlock_append, hexec, Option.bind_some, hrest]
      · by_cases hin : other ∈ regs
        · exact hregs other hin
        · rcases List.mem_cons.mp hother with rfl | hin'
          · rw [hkept other hin, hword]
          · exact absurd hin' hin
      · rw [List.mem_cons, not_or] at hother
        rw [hkept other hother.2, hothers other hother.1]

/-! ## When registers are saved and restored -/

/-- The recorded size is the number of registers. -/
theorem calleeSavedFrameSize_eq (csi : List Reg) :
    calleeSavedFrameSize csi = BitVec.ofNat 32 csi.length := by
  have count (l : List Reg) (size : BitVec 32) :
      l.foldl (fun size _ => size + 1) size = size + BitVec.ofNat 32 l.length := by
    induction l generalizing size with
    | nil => simp
    | cons reg l ih =>
        rw [List.foldl_cons, ih, List.length_cons, BitVec.ofNat_add, add_assoc,
          add_comm (1 : BitVec 32)]
        rfl
  rw [calleeSavedFrameSize, count, List.length_reverse, zero_add]

/-- Two bytes are pushed for each register. -/
theorem bytesPushed_spillInstrs (csi : List Reg) :
    bytesPushed (spillInstrs csi) = 2 * csi.length := by
  rw [bytesPushed, spillInstrs, List.map_map, ← List.length_reverse]
  induction csi.reverse with
  | nil => rfl
  | cons reg csi ih =>
      rw [List.map_cons, List.sum_cons, ih, List.length_cons]
      simp only [Function.comp_apply, if_true]
      ring

/-- And by the second way too. -/
theorem bytesPushed_pushInstrs (regs : List WordReg) :
    bytesPushed (regs.flatMap pushInstrs) = 2 * regs.length := by
  rw [bytesPushed]
  induction regs with
  | nil => rfl
  | cons reg regs ih =>
      rw [List.flatMap_cons, List.map_append, List.sum_append, ih, List.length_cons]
      simp only [pushInstrs, List.map_cons, List.map_nil, List.sum_cons, List.sum_nil, if_true]
      ring

/-- The recorded size is the number of bytes only where nothing is saved. -/
theorem frameSize_eq_iff (csi : List Reg) :
    (calleeSavedFrameSize csi).toNat = bytesPushed (spillInstrs csi) ↔ csi = [] := by
  rw [calleeSavedFrameSize_eq, bytesPushed_spillInstrs, BitVec.toNat_ofNat,
    ← List.length_eq_zero_iff]
  constructor
  · intro h
    have hle := Nat.mod_le csi.length (2 ^ 32)
    omega
  · intro h
    rw [h]

/-- The first way is right only for no registers. -/
theorem calleeSaved_savedAndRestored_iff (scavenge : Scavenger) (regs : List WordReg)
    (s : MachineState) : SavedAndRestored scavenge .calleeSaved regs s ↔ regs = [] := by
  constructor
  · rintro ⟨saves, _, _, hsaves, -, -, -, hsize⟩
    obtain rfl := Option.some.inj hsaves
    exact List.map_eq_nil_iff.mp ((frameSize_eq_iff _).mp (hsize rfl))
  · rintro rfl
    refine ⟨_, _, s, rfl, rfl, rfl, fun body hbody => ⟨body s, rfl, hbody.sp, by simp⟩, fun _ => ?_⟩
    exact (frameSize_eq_iff []).mpr rfl

/-- Code that keeps the saved area keeps what was pushed. -/
theorem KeepsSaved.pushedTimes {body : MachineState → MachineState} {s : MachineState}
    {base v : BitVec 16} {count : ℕ} (h : KeepsSaved body (2 * count) s)
    (hpushed : PushedTimes s.mem base v count)
    (hsp : s.sp = base - BitVec.ofNat 16 (2 * count)) :
    PushedTimes (body s).mem base v count := by
  have hkept (i : ℕ) (hi : i < 2 * count) :
      (body s).mem (base - BitVec.ofNat 16 i) = s.mem (base - BitVec.ofNat 16 i) := by
    have haddress : base - BitVec.ofNat 16 i = s.sp + BitVec.ofNat 16 (2 * count - i) := by
      have hsum : BitVec.ofNat 16 (2 * count) =
          BitVec.ofNat 16 (2 * count - i) + BitVec.ofNat 16 i := by
        rw [← BitVec.ofNat_add, Nat.sub_add_cancel hi.le]
      rw [hsp, hsum]
      ring
    rw [haddress]
    exact h.mem _ (by omega) (by omega)
  intro i hi
  obtain ⟨hhigh, hlow⟩ := hpushed i hi
  exact ⟨(hkept _ (by omega)).trans hhigh, (hkept _ (by omega)).trans hlow⟩

/-- The second way is right where every register holds the swapped bytes of `A`. -/
theorem pushPop_savedAndRestored_iff (scavenge : Scavenger) (regs : List WordReg)
    (s : MachineState) :
    SavedAndRestored scavenge .pushPop regs s ↔
      ∀ reg ∈ regs, s.word reg = swapBytes (s.word .A) := by
  obtain ⟨atBody, hexec, hpushed, hsp⟩ := exists_execBlock_pushWords regs s
  -- after any code in between, the pops give the swapped bytes of `A` to every register
  have hpops (body : MachineState → MachineState)
      (hbody : KeepsSaved body (bytesPushed (regs.flatMap pushInstrs)) atBody) :
      ∃ s', execBlock (regs.reverse.flatMap popInstrs) (body atBody) = some s' ∧ s'.sp = s.sp ∧
        ∀ reg ∈ regs, s'.word reg = swapBytes (s.word .A) := by
    rw [bytesPushed_pushInstrs] at hbody
    have hkept := hbody.pushedTimes hpushed hsp
    rw [← List.length_reverse] at hkept
    obtain ⟨s', hrest, hlast, hregs, -⟩ := exists_execBlock_popWords regs.reverse hkept
      (by rw [hbody.sp, hsp, List.length_reverse])
    exact ⟨s', hrest, hlast, fun reg hreg => hregs reg (List.mem_reverse.mpr hreg)⟩
  constructor
  · rintro ⟨saves, restores, atBody', hsaves, hrestores, hexec', hall, -⟩ reg hreg
    obtain rfl := Option.some.inj ((expandBlock_pushWords scavenge regs).symm.trans hsaves)
    obtain rfl := Option.some.inj ((expandBlock_popWords scavenge regs).symm.trans hrestores)
    obtain rfl := Option.some.inj (hexec.symm.trans hexec')
    have hid : KeepsSaved id (bytesPushed (regs.flatMap pushInstrs)) atBody :=
      ⟨rfl, fun _ _ _ => rfl⟩
    obtain ⟨s', hrest, -, hwords⟩ := hall id hid
    obtain ⟨s'', hrest', -, hswapped⟩ := hpops id hid
    obtain rfl := Option.some.inj (hrest.symm.trans hrest')
    rw [← hwords reg hreg, hswapped reg hreg]
  · intro hall
    refine ⟨_, _, atBody, expandBlock_pushWords scavenge regs, expandBlock_popWords scavenge regs,
      hexec, fun body hbody => ?_, by rintro ⟨⟩⟩
    obtain ⟨s', hrest, hlast, hwords⟩ := hpops body hbody
    exact ⟨s', hrest, hlast, fun reg hreg => (hwords reg hreg).trans (hall reg hreg).symm⟩

/-- **Registers are saved and restored** exactly on the condition of the way they are saved. -/
theorem savedAndRestored_iff (scavenge : Scavenger) (method : SaveMethod) (regs : List WordReg)
    (s : MachineState) :
    SavedAndRestored scavenge method regs s ↔ SaveCondition method regs s := by
  cases method with
  | calleeSaved => exact calleeSaved_savedAndRestored_iff scavenge regs s
  | pushPop => exact pushPop_savedAndRestored_iff scavenge regs s

/-- Saving `A`, the only callee-saved register, records one byte for two. -/
theorem not_savedAndRestored_A :
    ¬ SavedAndRestored (fun _ _ => none) .calleeSaved [.A]
      ⟨fun _ => 0, ⟨⟨false, false, false, false⟩, 0⟩, 0x1ff, fun _ => 0⟩ := by
  rw [calleeSaved_savedAndRestored_iff]
  simp

end Snes
