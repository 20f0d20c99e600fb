/-
# Relaxed Stores

A store of a word with a displacement above 63, which `SNESRelaxMem` replaces by moving the
pointer: it is pushed, the displacement is subtracted negated, the word is stored, and the
pointer is popped.  The push pushes `A`, the pops take the bytes in the order in which they
were pushed, and the subtraction takes the incoming carry with it and leaves its flags.
-/
import SnesBackend.FoldedAccesses
import SnesBackend.SaveRestore

namespace Snes

open WordArith

/-! ## The stores -/

/-- A `STDWPtrQRr` that is relaxed. -/
structure RelaxedStore where
  ptr : WordReg
  src : WordReg
  imm : BitVec 64
  imm_gt : 63 < imm.toInt

/-- The free stack area below `SP`, which has room for a word. -/
structure FreeStack (sp : BitVec 16) where
  area : Set (BitVec 16)
  first : sp ∈ area
  second : sp - 1 ∈ area

namespace RelaxedStore

/-- The instruction. -/
def instr (r : RelaxedStore) : MachineInstr :=
  ⟨.STDWPtrQRr, [.reg (.word r.ptr), .imm r.imm, .reg (.word r.src)]⟩

/-- The address of the word. -/
def address (r : RelaxedStore) (s : MachineState) : BitVec 16 :=
  s.word r.ptr + r.imm.setWidth 16

/-- The effect of the store: the word at its address, and nothing else changed but the free
stack. -/
structure Effect (r : RelaxedStore) (s s' : MachineState) (free : FreeStack s.sp) : Prop where
  low : s'.mem (r.address s) = s.regs r.src.subLo
  high : s'.mem (r.address s + 1) = s.regs r.src.subHi
  mem : ∀ x, x ≠ r.address s → x ≠ r.address s + 1 → x ∉ free.area → s'.mem x = s.mem x
  regs : s'.regs = s.regs
  sp : s'.sp = s.sp
  p : s'.p = s.p

/-- What the passes leave of the store has its effect. -/
def SameEffect (r : RelaxedStore) (scavenge : Scavenger) (s : MachineState)
    (free : FreeStack s.sp) : Prop :=
  ∃ mis s', lowerPseudos scavenge [r.instr] = some mis ∧ execBlock mis s = some s' ∧
    r.Effect s s' free

/-! ## When the effect is the same -/

/-- Where the moved pointer points: the carry takes one more off. -/
def movedTo (r : RelaxedStore) (s : MachineState) : BitVec 16 :=
  r.address s - BitVec.ofNat 16 s.p.carry.toNat

/-- The word that is stored there: the moved pointer, if the pointer is to be stored. -/
def movedWord (r : RelaxedStore) (s : MachineState) : BitVec 16 :=
  if r.src = r.ptr then r.movedTo s else s.word r.src

/-- The byte at an address once `A` is pushed. -/
def pushedByte (s : MachineState) (x : BitVec 16) : BitVec 8 :=
  if x = s.sp - 1 then s.regs .AL else if x = s.sp then s.regs .AH else s.mem x

/-- The byte at an address once the word is stored too. -/
def leftByte (r : RelaxedStore) (s : MachineState) (x : BitVec 16) : BitVec 8 :=
  if x = r.movedTo s + 1 then (r.movedWord s >>> 8).setWidth 8
  else if x = r.movedTo s then (r.movedWord s).setWidth 8
  else pushedByte s x

/-- When the effect is the same.  The comparison of the pointer with the negated displacement leaves
the flags as they are.  Without a carry, a pointer that is itself stored is not moved; with a carry,
the word that is stored one byte too low happens to agree with the one that was to be stored.  And
the two bytes of `A` on the stack, or what the store left of them, are those of the pointer in the
order of the pops. -/
structure RightWhen (r : RelaxedStore) (s : MachineState) (free : FreeStack s.sp) : Prop where
  flags : cmpcFlags (s.word r.ptr) (-r.imm.setWidth 16) s.p.toFlags = s.p.toFlags
  stored : s.p.carry = false → r.src = r.ptr → r.imm.setWidth 16 = 0#16
  storedLower : s.p.carry = true →
    (r.movedWord s >>> 8).setWidth 8 = s.regs r.src.subLo ∧
      pushedByte s (r.address s + 1) = s.regs r.src.subHi ∧
      (r.address s - 1 ∉ free.area → (r.movedWord s).setWidth 8 = s.mem (r.address s - 1))
  popped : r.leftByte s (s.sp - 1) ++ r.leftByte s s.sp = s.word r.ptr

/-! ## The instructions that are left -/

/-- The instructions that the passes leave. -/
def instrs (r : RelaxedStore) : List MachineInstr :=
  [⟨.PHAstk, [.reg (.word r.ptr)]⟩,
    ⟨.SBCIRdK, [.reg (.byte r.ptr.subLo), .reg (.byte r.ptr.subLo),
      ofUnsigned (lo8 (toUnsigned (-r.imm)))]⟩,
    ⟨.SBCIRdK, [.reg (.byte r.ptr.subHi), .reg (.byte r.ptr.subHi),
      ofUnsigned (hi8 (toUnsigned (-r.imm)))]⟩,
    ⟨.STPtrRr, [.reg (.word r.ptr), .reg (.byte r.src.subLo)]⟩,
    ⟨.STDPtrQRr, [.reg (.word r.ptr), .imm 1, .reg (.byte r.src.subHi)]⟩,
    ⟨.POPRd, [.reg (.byte r.ptr.subHi)]⟩, ⟨.POPRd, [.reg (.byte r.ptr.subLo)]⟩]

/-- **The passes** relax the store and expand each of the four pseudos in one round. -/
theorem lowerPseudos_instr (r : RelaxedStore) (scavenge : Scavenger) :
    lowerPseudos scavenge [r.instr] = some r.instrs := by
  -- each pseudo with its expansion
  let items : List (MachineInstr × List MachineInstr) :=
    [(⟨.PUSHWRr, [.reg (.word r.ptr)]⟩, [⟨.PHAstk, [.reg (.word r.ptr)]⟩]),
      (⟨.SBCIWRdK, [.reg (.word r.ptr), .reg (.word r.ptr), .imm (-r.imm)]⟩,
        [⟨.SBCIRdK, [.reg (.byte r.ptr.subLo), .reg (.byte r.ptr.subLo),
            ofUnsigned (lo8 (toUnsigned (-r.imm)))]⟩,
          ⟨.SBCIRdK, [.reg (.byte r.ptr.subHi), .reg (.byte r.ptr.subHi),
            ofUnsigned (hi8 (toUnsigned (-r.imm)))]⟩]),
      (⟨.STWPtrRr, [.reg (.word r.ptr), .reg (.word r.src)]⟩,
        [⟨.STPtrRr, [.reg (.word r.ptr), .reg (.byte r.src.subLo)]⟩,
          ⟨.STDPtrQRr, [.reg (.word r.ptr), .imm 1, .reg (.byte r.src.subHi)]⟩]),
      (⟨.POPWRd, [.reg (.word r.ptr)]⟩,
        [⟨.POPRd, [.reg (.byte r.ptr.subHi)]⟩, ⟨.POPRd, [.reg (.byte r.ptr.subLo)]⟩])]
  have hrelax : relaxMem r.instr = items.map Prod.fst := by
    simp [items, instr, relaxMem, relaxSTDWPtrQRr, MachineInstr.getReg, MachineInstr.getImm,
      r.imm_gt]
  rw [lowerPseudos, List.flatMap_singleton, hrelax]
  refine expandBlock_of_forall_expanded Prod.fst Prod.snd items ?_ ?_
  · intro item hitem before
    simp only [items, List.mem_cons, List.not_mem_nil, or_false] at hitem
    rcases hitem with rfl | rfl | rfl | rfl <;> rfl
  · intro mi hmi
    simp only [items, List.flatMap_cons, List.flatMap_nil, List.append_nil, List.cons_append,
      List.nil_append, List.mem_cons, List.not_mem_nil, or_false] at hmi
    rcases hmi with rfl | rfl | rfl | rfl | rfl | rfl | rfl <;> rfl

/-! ## The run -/

/-- The state after the pointer is moved. -/
theorem exists_execBlock_moved (r : RelaxedStore) (s : MachineState) :
    ∃ s', execBlock
        [⟨.SBCIRdK, [.reg (.byte r.ptr.subLo), .reg (.byte r.ptr.subLo),
          ofUnsigned (lo8 (toUnsigned (-r.imm)))]⟩,
        ⟨.SBCIRdK, [.reg (.byte r.ptr.subHi), .reg (.byte r.ptr.subHi),
          ofUnsigned (hi8 (toUnsigned (-r.imm)))]⟩] s = some s' ∧
      s'.word r.ptr = r.movedTo s ∧
      s'.p = ⟨cmpcFlags (s.word r.ptr) (-r.imm.setWidth 16) s.p.toFlags, s.p.upper⟩ ∧
      (∀ q, q ≠ r.ptr.subLo → q ≠ r.ptr.subHi → s'.regs q = s.regs q) ∧
      s'.sp = s.sp ∧ s'.mem = s.mem := by
  have hbytes : (((-r.imm) >>> 8).setWidth 8 : BitVec 8) ++ ((-r.imm).setWidth 8 : BitVec 8) =
      -r.imm.setWidth 16 := by
    rw [bytes_of_immediate, BitVec.setWidth_neg_of_le (by decide)]
  have hexec : execAluBlock
      [⟨.SBCIRdK, [.reg (.byte r.ptr.subLo), .reg (.byte r.ptr.subLo),
        ofUnsigned (lo8 (toUnsigned (-r.imm)))]⟩,
      ⟨.SBCIRdK, [.reg (.byte r.ptr.subHi), .reg (.byte r.ptr.subHi),
        ofUnsigned (hi8 (toUnsigned (-r.imm)))]⟩] s = some _ :=
    execAluBlock_regImm s rfl rfl r.ptr _ _
  rw [setWidth_lo8, setWidth_hi8] at hexec
  refine ⟨_, hexec, ?_, ?_, ?_, rfl, rfl⟩
  · have hword := subBorrow_append (s.regs r.ptr.subHi) (((-r.imm) >>> 8).setWidth 8)
      (s.regs r.ptr.subLo) ((-r.imm).setWidth 8) s.p.carry
    rw [hbytes] at hword
    unfold MachineState.word
    rw [MachineState.setResult_regs_self,
      MachineState.setResult_regs_of_ne _ _ (WordReg.subLo_ne_subHi _ _),
      MachineState.setResult_regs_self]
    refine hword.symm.trans ?_
    rw [subBorrow, movedTo, address, sub_neg_eq_add]
    rfl
  · have hflags := cmpcFlags_append (s.regs r.ptr.subHi) (((-r.imm) >>> 8).setWidth 8)
      (s.regs r.ptr.subLo) ((-r.imm).setWidth 8) s.p.toFlags
    rw [hbytes] at hflags
    rw [MachineState.word, hflags]
    rfl
  · intro q hlo hhi
    rw [MachineState.setResult_regs_of_ne _ _ hhi, MachineState.setResult_regs_of_ne _ _ hlo]

/-- The memory after the push. -/
theorem pushWord_mem_eq (s : MachineState) (x : BitVec 16) :
    (s.pushWord (s.word .A)).mem x = pushedByte s x := by
  have hmem : (s.pushWord (s.word .A)).mem = Function.update
      (Function.update s.mem s.sp (s.regs .AH)) (s.sp - 1) (s.regs .AL) := by
    unfold MachineState.pushWord MachineState.push MachineState.word
    rw [low_of_append, MachineState.high_of_append]
    rfl
  rw [hmem, pushedByte, Function.update_apply, Function.update_apply]

/-- **The run** of the instructions that are left. -/
theorem exists_execBlock_instrs (r : RelaxedStore) (s : MachineState) :
    ∃ s', execBlock r.instrs s = some s' ∧ (∀ x, s'.mem x = r.leftByte s x) ∧
      s'.word r.ptr = r.leftByte s (s.sp - 1) ++ r.leftByte s s.sp ∧
      (∀ q, q ≠ r.ptr.subLo → q ≠ r.ptr.subHi → s'.regs q = s.regs q) ∧ s'.sp = s.sp ∧
      s'.p = ⟨cmpcFlags (s.word r.ptr) (-r.imm.setWidth 16) s.p.toFlags, s.p.upper⟩ := by
  obtain ⟨moved, hmove, hword, hp, hregs, hsp, hmem⟩ :=
    r.exists_execBlock_moved (s.pushWord (s.word .A))
  -- the word that is stored, and the state after the store
  have hsrc : moved.word r.src = r.movedWord s := by
    unfold movedWord
    split_ifs with hself
    · rw [hself, hword]
      rfl
    · exact MachineState.word_congr
        (hregs _ (by simpa using hself) (by simp)) (hregs _ (by simp) (by simpa using hself))
  let stored := (moved.storeByte (moved.word r.ptr) (moved.regs r.src.subLo)).storeByte
    (moved.word r.ptr + 1) (moved.regs r.src.subHi)
  have hstored (x : BitVec 16) : stored.mem x = r.leftByte s x := by
    have hlow : moved.regs r.src.subLo = (r.movedWord s).setWidth 8 := by
      rw [← hsrc, MachineState.word, low_of_append]
    have hhigh : moved.regs r.src.subHi = (r.movedWord s >>> 8).setWidth 8 := by
      rw [← hsrc, MachineState.word, MachineState.high_of_append]
    simp only [stored, MachineState.storeByte, Function.update_apply, hmem, pushWord_mem_eq, hlow,
      hhigh, hword]
    rfl
  have hspStored : stored.sp = s.sp - 2 := hsp.trans (MachineState.pushWord_sp s _)
  have hfirst : stored.sp + 1 = s.sp - 1 := by
    rw [hspStored]
    ring
  have hsecond : stored.sp + 1 + 1 = s.sp := by
    rw [hspStored]
    ring
  refine ⟨(stored.popRd (.byte r.ptr.subHi)).popRd (.byte r.ptr.subLo), ?_, hstored, ?_, ?_, ?_,
    hp⟩
  · have hpush : execBlock r.instrs s = execBlock
        ([⟨.SBCIRdK, [.reg (.byte r.ptr.subLo), .reg (.byte r.ptr.subLo),
          ofUnsigned (lo8 (toUnsigned (-r.imm)))]⟩,
        ⟨.SBCIRdK, [.reg (.byte r.ptr.subHi), .reg (.byte r.ptr.subHi),
          ofUnsigned (hi8 (toUnsigned (-r.imm)))]⟩] ++
        [⟨.STPtrRr, [.reg (.word r.ptr), .reg (.byte r.src.subLo)]⟩,
          ⟨.STDPtrQRr, [.reg (.word r.ptr), .imm 1, .reg (.byte r.src.subHi)]⟩,
          ⟨.POPRd, [.reg (.byte r.ptr.subHi)]⟩, ⟨.POPRd, [.reg (.byte r.ptr.subLo)]⟩])
        (s.pushWord (s.word .A)) := rfl
    rw [hpush, execBlock_append, hmove]
    rfl
  · have hlo : ((stored.popRd (.byte r.ptr.subHi)).popRd (.byte r.ptr.subLo)).regs r.ptr.subLo =
        stored.mem (stored.sp + 1 + 1) := MachineState.setByte_regs_self _ _ _
    have hhi : ((stored.popRd (.byte r.ptr.subHi)).popRd (.byte r.ptr.subLo)).regs r.ptr.subHi =
        stored.mem (stored.sp + 1) :=
      (MachineState.setByte_regs_of_ne _ _ (WordReg.subHi_ne_subLo _ _)).trans
        (MachineState.setByte_regs_self _ _ _)
    rw [MachineState.word, hlo, hhi, hsecond, hfirst, hstored, hstored]
  · intro q hlo hhi
    refine (MachineState.setByte_regs_of_ne _ _ hlo).trans ?_
    exact (MachineState.setByte_regs_of_ne _ _ hhi).trans (hregs q hlo hhi)
  · exact hsecond

/-! ## The effect -/

/-- Outside the free stack the push changes no byte. -/
theorem pushedByte_of_notMem {s : MachineState} (free : FreeStack s.sp) {x : BitVec 16}
    (hx : x ∉ free.area) : pushedByte s x = s.mem x := by
  have hfirst : x ≠ s.sp := fun h => hx (h ▸ free.first)
  have hsecond : x ≠ s.sp - 1 := fun h => hx (h ▸ free.second)
  rw [pushedByte, if_neg hsecond, if_neg hfirst]

/-- The bytes where the word is stored, and elsewhere. -/
theorem leftByte_movedTo (r : RelaxedStore) (s : MachineState) :
    r.leftByte s (r.movedTo s) = (r.movedWord s).setWidth 8 ∧
      r.leftByte s (r.movedTo s + 1) = (r.movedWord s >>> 8).setWidth 8 ∧
      ∀ x, x ≠ r.movedTo s → x ≠ r.movedTo s + 1 → r.leftByte s x = pushedByte s x := by
  refine ⟨?_, if_pos rfl, fun x hlow hhigh => ?_⟩
  · have hne : r.movedTo s ≠ r.movedTo s + 1 := by simp
    rw [leftByte, if_neg hne, if_pos rfl]
  · rw [leftByte, if_neg hhigh, if_neg hlow]

/-- A word is another one when its bytes are. -/
theorem bytes_eq_iff (v : BitVec 16) (s : MachineState) (q : WordReg) :
    v.setWidth 8 = s.regs q.subLo ∧ (v >>> 8).setWidth 8 = s.regs q.subHi ↔ v = s.word q := by
  constructor
  · rintro ⟨hlow, hhigh⟩
    rw [MachineState.word, ← hlow, ← hhigh, MachineState.high_append_low]
  · rintro rfl
    exact ⟨low_of_append _ _, MachineState.high_of_append _ _⟩

/-- The addresses above and below an address differ. -/
theorem add_one_ne_sub_one (a : BitVec 16) : a + 1 ≠ a - 1 := by
  intro h
  rw [eq_sub_iff_add_eq, add_assoc] at h
  have htwo : (1 + 1 : BitVec 16) = 0 := add_eq_left.mp h
  exact absurd htwo (by decide)

/-- **The word at its address**: what is stored without a carry, and with one. -/
theorem stored_iff (r : RelaxedStore) (s : MachineState) (free : FreeStack s.sp) :
    (r.leftByte s (r.address s) = s.regs r.src.subLo ∧
        r.leftByte s (r.address s + 1) = s.regs r.src.subHi ∧
        ∀ x, x ≠ r.address s → x ≠ r.address s + 1 → x ∉ free.area → r.leftByte s x = s.mem x) ↔
      (s.p.carry = false → r.src = r.ptr → r.imm.setWidth 16 = 0#16) ∧
        (s.p.carry = true →
          (r.movedWord s >>> 8).setWidth 8 = s.regs r.src.subLo ∧
            pushedByte s (r.address s + 1) = s.regs r.src.subHi ∧
            (r.address s - 1 ∉ free.area →
              (r.movedWord s).setWidth 8 = s.mem (r.address s - 1))) := by
  obtain ⟨hlow, hhigh, helse⟩ := r.leftByte_movedTo s
  cases hcarry : s.p.carry with
  | false =>
      have hmoved : r.movedTo s = r.address s := by simp [movedTo, hcarry]
      rw [hmoved] at hlow hhigh helse
      have hrest : ∀ x, x ≠ r.address s → x ≠ r.address s + 1 → x ∉ free.area →
          r.leftByte s x = s.mem x := fun x hx hx' hfree =>
        (helse x hx hx').trans (pushedByte_of_notMem free hfree)
      have hword : r.movedWord s = s.word r.src ↔ (r.src = r.ptr → r.imm.setWidth 16 = 0#16) := by
        unfold movedWord
        split_ifs with hself
        · rw [hmoved, hself, address]
          simp
        · simp [hself]
      rw [hlow, hhigh, ← and_assoc, bytes_eq_iff, and_iff_left hrest, hword]
      simp
  | true =>
      have hmoved : r.movedTo s = r.address s - 1 := by
        rw [movedTo, hcarry]
        rfl
      have hback : r.address s - 1 + 1 = r.address s := by ring
      rw [hmoved, hback] at hhigh helse
      rw [hmoved] at hlow
      have hnext : r.leftByte s (r.address s + 1) = pushedByte s (r.address s + 1) := by
        exact helse _ (add_one_ne_sub_one _) (by simp)
      rw [hhigh, hnext]
      simp only [reduceCtorEq, false_implies, true_and, true_implies]
      refine and_congr_right fun _ => and_congr_right fun _ => ?_
      constructor
      · intro h hfree
        rw [← hlow]
        exact h _ (by simp) (add_one_ne_sub_one _).symm hfree
      · intro h x hx hx' hfree
        by_cases hlower : x = r.address s - 1
        · rw [hlower] at hfree ⊢
          rw [hlow, h hfree]
        · rw [helse x hlower hx, pushedByte_of_notMem free hfree]

/-- The passes leave one run, so the effect is the same when this run has it. -/
theorem sameEffect_iff_effect {r : RelaxedStore} {s s' : MachineState}
    (hexec : execBlock r.instrs s = some s') (scavenge : Scavenger) (free : FreeStack s.sp) :
    r.SameEffect scavenge s free ↔ r.Effect s s' free := by
  constructor
  · rintro ⟨mis, s'', hlower, hexec', heffect⟩
    obtain rfl := Option.some.inj ((r.lowerPseudos_instr scavenge).symm.trans hlower)
    obtain rfl := Option.some.inj (hexec.symm.trans hexec')
    exact heffect
  · intro heffect
    exact ⟨r.instrs, s', r.lowerPseudos_instr scavenge, hexec, heffect⟩

/-- The bytes that are popped must be those of the pointer. -/
theorem popped_of_sameEffect {r : RelaxedStore} {scavenge : Scavenger} {s : MachineState}
    {free : FreeStack s.sp} (h : r.SameEffect scavenge s free) :
    r.leftByte s (s.sp - 1) ++ r.leftByte s s.sp = s.word r.ptr := by
  obtain ⟨s', hexec, -, hword, -⟩ := r.exists_execBlock_instrs s
  rw [← hword, MachineState.word, ((sameEffect_iff_effect hexec scavenge free).mp h).regs]
  rfl

/-- **When a relaxed store has the effect of the store**, for every pointer, source, displacement
above 63, state and carry. -/
theorem sameEffect_iff (r : RelaxedStore) (scavenge : Scavenger) (s : MachineState)
    (free : FreeStack s.sp) : r.SameEffect scavenge s free ↔ r.RightWhen s free := by
  obtain ⟨s', hexec, hmem, hword, hregs, hsp, hp⟩ := r.exists_execBlock_instrs s
  have hstored := r.stored_iff s free
  constructor
  · intro h
    obtain ⟨hlow, hhigh, hrest, -, -, hp'⟩ := (sameEffect_iff_effect hexec scavenge free).mp h
    rw [hmem] at hlow hhigh
    obtain ⟨hnocarry, hcarry⟩ := hstored.mp ⟨hlow, hhigh, fun x hx hx' hfree =>
      (hmem x).symm.trans (hrest x hx hx' hfree)⟩
    exact ⟨congrArg Status.toFlags (hp.symm.trans hp'), hnocarry, hcarry, popped_of_sameEffect h⟩
  · rintro ⟨hflags, hnocarry, hcarry, hpopped⟩
    obtain ⟨hlow, hhigh, hrest⟩ := hstored.mpr ⟨hnocarry, hcarry⟩
    rw [sameEffect_iff_effect hexec scavenge free]
    refine ⟨(hmem _).trans hlow, (hmem _).trans hhigh, fun x hx hx' hfree =>
      (hmem x).trans (hrest x hx hx' hfree), ?_, hsp, ?_⟩
    · have hpointer : s'.word r.ptr = s.word r.ptr := hword.trans hpopped
      obtain ⟨hptrLow, hptrHigh⟩ := (bytes_eq_iff _ s r.ptr).mpr hpointer
      rw [MachineState.word] at hptrLow hptrHigh
      rw [low_of_append] at hptrLow
      rw [MachineState.high_of_append] at hptrHigh
      funext q
      by_cases hqlo : q = r.ptr.subLo
      · rw [hqlo, hptrLow]
      · by_cases hqhi : q = r.ptr.subHi
        · rw [hqhi, hptrHigh]
        · exact hregs q hqlo hqhi
    · rw [hp, hflags]

/-- The stack area from an address down to 0. -/
def stackDownFrom (sp : BitVec 16) (hroom : 1 ≤ sp.toNat) : FreeStack sp where
  area := {x | x.toNat ≤ sp.toNat}
  first := le_refl sp.toNat
  second := by
    have hone : (1 : BitVec 16).toNat = 1 := rfl
    change (sp - 1).toNat ≤ sp.toNat
    rw [BitVec.toNat_sub_of_le (by rw [BitVec.le_def, hone]; exact hroom)]
    exact Nat.sub_le _ _

/-- A store of `A` at `X + 64`, where `X` is `0x1000` and `A` is 0: `X` becomes 0. -/
theorem not_sameEffect_STDWPtrQRr_X :
    ¬ SameEffect ⟨.X, .A, 64, by decide⟩ (fun _ _ => none)
      ⟨fun r => if r = .XH then 0x10 else 0, ⟨⟨false, false, false, false⟩, 0⟩, 0x1fff, fun _ => 0⟩
      (stackDownFrom 0x1fff (by decide)) := by
  intro h
  have hpopped := popped_of_sameEffect h
  revert hpopped
  decide

end RelaxedStore

end Snes
