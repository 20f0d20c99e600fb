/-
# Chains of Word Comparisons

A comparison of several words becomes one `CPWRdRr` for the low words and a
`CPCWRdRr` for each higher pair.  The pass leaves a chain of byte comparisons,
and the flags at its end are those of one comparison of the whole numbers.
-/
import SnesBackend.AtomicRuns
import SnesBackend.CompareLowering
import SnesBackend.MultiWord

namespace Snes

open WordArith RoundRewriting

/-! ## Byte comparisons -/

/-- The flags of the byte comparisons on two values and the incoming flags. -/
def compareOp : Opcode → Option (BitVec 8 → BitVec 8 → Flags → Flags)
  | .CPRdRr => some fun a b _ => cmpFlags a b
  | .CPCRdRr => some cmpcFlags
  | _ => none

/-- Execute a byte comparison on register halves. -/
def execCompare (mi : MachineInstr) (s : MachineState) : Option MachineState :=
  match mi.operands with
  | [.reg (.byte d), .reg (.byte r)] =>
      (compareOp mi.opcode).map fun op => s.setFlags (op (s.regs d) (s.regs r) s.p.toFlags)
  | _ => none

/-- Execute byte comparisons one after the other. -/
def execCompareBlock : List MachineInstr → MachineState → Option MachineState
  | [], s => some s
  | mi :: rest, s => (execCompare mi s).bind (execCompareBlock rest)

/-! ## The chain -/

/-- A pair of words that is compared: the registers, and the values in the register file when the
comparison is reached. -/
structure ComparedPair where
  dst : WordReg
  src : WordReg
  regs : ByteReg → BitVec 8

namespace ComparedPair

/-- The word in the first register. -/
def left (pair : ComparedPair) : BitVec 16 :=
  pair.regs pair.dst.subHi ++ pair.regs pair.dst.subLo

/-- The word in the second register. -/
def right (pair : ComparedPair) : BitVec 16 :=
  pair.regs pair.src.subHi ++ pair.regs pair.src.subLo

/-- The comparison of the pair with one of the two pseudos. -/
def instr (op : Opcode) (pair : ComparedPair) : MachineInstr :=
  ⟨op, [.reg (.word pair.dst), .reg (.word pair.src)]⟩

end ComparedPair

/-- The pseudos of a chain. -/
def compareChain (first : ComparedPair) (rest : List ComparedPair) : List MachineInstr :=
  first.instr .CPWRdRr :: rest.map (ComparedPair.instr .CPCWRdRr)

/-- Two byte comparisons of a pair. -/
def byteCompares (opLo : Opcode) (pair : ComparedPair) : List MachineInstr :=
  [⟨opLo, [.reg (.byte pair.dst.subLo), .reg (.byte pair.src.subLo)]⟩,
    ⟨.CPCRdRr, [.reg (.byte pair.dst.subHi), .reg (.byte pair.src.subHi)]⟩]

/-- The byte sequence of a chain. -/
def compareBytes (first : ComparedPair) (rest : List ComparedPair) : List MachineInstr :=
  byteCompares .CPRdRr first ++ rest.flatMap (byteCompares .CPCRdRr)

/-- Execute the byte sequence of a chain two instructions at a time, where the code in between loads
the registers of the next pair and keeps the flags. -/
def execReloading : List MachineInstr → List ComparedPair → MachineState → Option MachineState
  | [], [], s => some s
  | lo :: hi :: mis, pair :: pairs, s =>
      (execCompareBlock [lo, hi] { s with regs := pair.regs }).bind (execReloading mis pairs)
  | _, _, _ => none

/-! ## The expansion -/

theorem noPseudos_byteCompares (opLo : Opcode) (hop : opLo.isPseudo = false)
    (pair : ComparedPair) : NoPseudos (byteCompares opLo pair) :=
  noPseudos_pair hop rfl

theorem noPseudos_compareBytes (first : ComparedPair) (rest : List ComparedPair) :
    NoPseudos (compareBytes first rest) := by
  refine (noPseudos_byteCompares .CPRdRr rfl first).append fun mi hmi => ?_
  obtain ⟨pair, -, hpair⟩ := List.mem_flatMap.mp hmi
  exact noPseudos_byteCompares .CPCRdRr rfl pair mi hpair

/-- **The pass on a chain** leaves its byte sequence. -/
theorem runOnMachineFunction_compareChain (scavenge : Scavenger) (first : ComparedPair)
    (rest : List ComparedPair) :
    runOnMachineFunction scavenge [compareChain first rest] =
      some [compareBytes first rest] := by
  -- each pseudo with the byte comparison of its low halves
  let items : List (Opcode × Opcode × ComparedPair) :=
    (.CPWRdRr, .CPRdRr, first) :: rest.map fun pair => (.CPCWRdRr, .CPCRdRr, pair)
  have hblock : items.map (fun item => item.2.2.instr item.1) = compareChain first rest := by
    simp [items, compareChain, Function.comp_def]
  have hbytes : items.flatMap (fun item => byteCompares item.2.1 item.2.2) =
      compareBytes first rest := by
    simp [items, compareBytes, List.flatMap_map]
  rw [runOnMachineFunction_singleton, ← hblock, ← hbytes]
  apply expandBlock_of_forall_expanded
  · intro item hitem before
    rcases List.mem_cons.mp hitem with rfl | hitem
    · rfl
    · obtain ⟨pair, -, rfl⟩ := List.mem_map.mp hitem
      rfl
  · rw [hbytes]
    exact noPseudos_compareBytes first rest

/-! ## The flags -/

/-- The first word comparison sets the flags of the pair. -/
theorem execCompareBlock_first (pair : ComparedPair) (s : MachineState) :
    execCompareBlock (byteCompares .CPRdRr pair) { s with regs := pair.regs } =
      some ({ s with regs := pair.regs }.setFlags (cmpFlags pair.left pair.right)) := by
  have hflags : cmpFlags pair.left pair.right =
      cmpcFlags (pair.regs pair.dst.subHi) (pair.regs pair.src.subHi)
        (cmpFlags (pair.regs pair.dst.subLo) (pair.regs pair.src.subLo)) :=
    subFlags_append _ _ _ _ _
  rw [hflags]
  rfl

/-- A later word comparison continues with the flags before it. -/
theorem execCompareBlock_later (pair : ComparedPair) (s : MachineState) :
    execCompareBlock (byteCompares .CPCRdRr pair) { s with regs := pair.regs } =
      some ({ s with regs := pair.regs }.setFlags
        (cmpcFlags pair.left pair.right s.p.toFlags)) := by
  have hflags : cmpcFlags pair.left pair.right s.p.toFlags =
      cmpcFlags (pair.regs pair.dst.subHi) (pair.regs pair.src.subHi)
        (cmpcFlags (pair.regs pair.dst.subLo) (pair.regs pair.src.subLo) s.p.toFlags) :=
    cmpcFlags_append _ _ _ _ _
  rw [hflags]
  rfl

/-- A chain starts with its first pair, on the registers of that pair. -/
theorem execReloading_pair (opLo : Opcode) (pair : ComparedPair) (mis : List MachineInstr)
    (pairs : List ComparedPair) (s : MachineState) :
    execReloading (byteCompares opLo pair ++ mis) (pair :: pairs) s =
      (execCompareBlock (byteCompares opLo pair) { s with regs := pair.regs }).bind
        (execReloading mis pairs) :=
  rfl

/-- A state with other registers and other flags. -/
def MachineState.afterCompares (s : MachineState) (regs : ByteReg → BitVec 8) (f : Flags) :
    MachineState :=
  { s with regs := regs }.setFlags f

/-- The registers at the end of a chain. -/
def lastRegs (regs : ByteReg → BitVec 8) (pairs : List ComparedPair) : ByteReg → BitVec 8 :=
  (pairs.getLast?.map ComparedPair.regs).getD regs

/-- **The higher pairs** compare word by word, starting from the flags before them. -/
theorem execReloading_higherPairs (pairs : List ComparedPair) (s : MachineState) :
    execReloading (pairs.flatMap (byteCompares .CPCRdRr)) pairs s =
      some (s.afterCompares (lastRegs s.regs pairs)
        (cmpcWords ComparedPair.left ComparedPair.right pairs s.p.toFlags)) := by
  induction pairs generalizing s with
  | nil => rfl
  | cons pair pairs ih =>
      rw [List.flatMap_cons, execReloading_pair, execCompareBlock_later, Option.bind_some, ih]
      cases pairs <;> rfl

/-- The flags of comparing the whole numbers, low words first. -/
def chainFlags (first : ComparedPair) (rest : List ComparedPair) : Flags :=
  cmpFlags (concatWords ComparedPair.left (first :: rest))
    (concatWords ComparedPair.right (first :: rest))

/-- The flags with which a chain starts as if with a comparison that carries on. -/
def startFlags : Flags where
  carry := false
  zero := true
  negative := false
  overflow := false

/-- A comparison carries on from the start flags. -/
theorem cmpFlags_eq_cmpcFlags {w : ℕ} (a b : BitVec w) :
    cmpFlags a b = cmpcFlags a b startFlags := by
  simp [cmpFlags, cmpcFlags, startFlags]

/-- The flags of a whole chain. -/
theorem chainFlags_eq (first : ComparedPair) (rest : List ComparedPair) :
    chainFlags first rest =
      cmpcWords ComparedPair.left ComparedPair.right rest
        (cmpFlags first.left first.right) := by
  have hwords := cmpcWords_eq (w := 15) ComparedPair.left ComparedPair.right first rest startFlags
  rw [chainFlags, cmpFlags_eq_cmpcFlags, cmpFlags_eq_cmpcFlags first.left]
  exact hwords.symm

/-- **A chain with reloads** compares the numbers of the words that it finds. -/
theorem execReloading_compareBytes (first : ComparedPair) (rest : List ComparedPair)
    (s : MachineState) :
    execReloading (compareBytes first rest) (first :: rest) s =
      some (s.afterCompares (lastRegs first.regs rest) (chainFlags first rest)) := by
  rw [compareBytes, execReloading_pair, execCompareBlock_first, Option.bind_some,
    execReloading_higherPairs, chainFlags_eq]
  rfl

/-! ## Chains without reloads -/

/-- Blocks in a row. -/
theorem execCompareBlock_append (mis mis' : List MachineInstr) (s : MachineState) :
    execCompareBlock (mis ++ mis') s = (execCompareBlock mis s).bind (execCompareBlock mis') := by
  induction mis generalizing s with
  | nil => rfl
  | cons mi mis ih =>
      simp only [List.cons_append, execCompareBlock, Option.bind_assoc]
      congr 1
      funext s'
      exact ih s'

/-- A comparison changes nothing but the flags. -/
theorem execCompare_regs {mi : MachineInstr} {s s' : MachineState}
    (h : execCompare mi s = some s') : s'.regs = s.regs := by
  unfold execCompare at h
  split at h
  · obtain ⟨op, -, rfl⟩ := Option.map_eq_some_iff.mp h
    rfl
  · simp at h

/-- So does a block of comparisons. -/
theorem execCompareBlock_regs {mis : List MachineInstr} {s s' : MachineState}
    (h : execCompareBlock mis s = some s') : s'.regs = s.regs := by
  induction mis generalizing s with
  | nil => rw [← Option.some.inj h]
  | cons mi mis ih =>
      obtain ⟨next, hmi, hmis⟩ := Option.bind_eq_some_iff.mp h
      rw [ih hmis, execCompare_regs hmi]

/-- The higher pairs of a chain whose pairs all see the same registers need no reloads. -/
theorem execCompareBlock_higherPairs (pairs : List ComparedPair) (s : MachineState)
    (h : ∀ pair ∈ pairs, pair.regs = s.regs) :
    execCompareBlock (pairs.flatMap (byteCompares .CPCRdRr)) s =
      execReloading (pairs.flatMap (byteCompares .CPCRdRr)) pairs s := by
  induction pairs generalizing s with
  | nil => rfl
  | cons pair pairs ih =>
      rw [List.forall_mem_cons] at h
      rw [List.flatMap_cons, execReloading_pair, execCompareBlock_append, h.1]
      cases hnext : execCompareBlock (byteCompares .CPCRdRr pair) s with
      | none => rfl
      | some next =>
          have hregs := execCompareBlock_regs hnext
          exact ih next fun pair' hpair' => (h.2 pair' hpair').trans hregs.symm

/-- The byte sequence of a chain whose pairs all see the registers of the state. -/
theorem execCompareBlock_compareBytes (first : ComparedPair) (rest : List ComparedPair)
    (s : MachineState) (h : ∀ pair ∈ first :: rest, pair.regs = s.regs) :
    execCompareBlock (compareBytes first rest) s =
      some (s.setFlags (chainFlags first rest)) := by
  rw [List.forall_mem_cons] at h
  obtain ⟨hfirst, hrest⟩ := h
  have hstate : ({ s with regs := first.regs } : MachineState) = s := by rw [hfirst]
  have hexec := execCompareBlock_first first s
  rw [hstate] at hexec
  have hregs : lastRegs s.regs rest = s.regs := by
    unfold lastRegs
    cases hlast : rest.getLast? with
    | none => rfl
    | some pair => exact hrest pair (List.mem_of_getLast? hlast)
  rw [compareBytes, execCompareBlock_append, hexec, Option.bind_some,
    execCompareBlock_higherPairs rest (s.setFlags (cmpFlags first.left first.right)) hrest,
    execReloading_higherPairs, chainFlags_eq, MachineState.setFlags_regs, hregs]
  rfl

/-! ## The conditions -/

/-- The conditions of the target mean on the flags what they say of two numbers. -/
structure ConditionsRight {w : ℕ} (f : Flags) (a b : BitVec w) : Prop where
  eq : SNESCC.COND_EQ.holds f = true ↔ a = b
  ne : SNESCC.COND_NE.holds f = true ↔ a ≠ b
  sh : SNESCC.COND_SH.holds f = true ↔ b.toNat ≤ a.toNat
  lo : SNESCC.COND_LO.holds f = true ↔ a.toNat < b.toNat
  ge : SNESCC.COND_GE.holds f = true ↔ b.toInt ≤ a.toInt
  lt : SNESCC.COND_LT.holds f = true ↔ a.toInt < b.toInt

/-- The conditions are right on the flags of one comparison. -/
theorem conditionsRight_cmpFlags {w : ℕ} (hw : 0 < w) (a b : BitVec w) :
    ConditionsRight (cmpFlags a b) a b where
  eq := by
    have h := holds_cmp hw a b (show intCCToSNESCC .SETEQ = some .COND_EQ from rfl)
    simp [h, CondCode.eval]
  ne := by
    have h := holds_cmp hw a b (show intCCToSNESCC .SETNE = some .COND_NE from rfl)
    simp [h, CondCode.eval]
  sh := by
    have h := holds_cmp hw a b (show intCCToSNESCC .SETUGE = some .COND_SH from rfl)
    simp [h, CondCode.eval, BitVec.ule]
  lo := by
    have h := holds_cmp hw a b (show intCCToSNESCC .SETULT = some .COND_LO from rfl)
    simp [h, CondCode.eval, BitVec.ult]
  ge := by
    have h := holds_cmp hw a b (show intCCToSNESCC .SETGE = some .COND_GE from rfl)
    simp [h, CondCode.eval, BitVec.sle]
  lt := by
    have h := holds_cmp hw a b (show intCCToSNESCC .SETLT = some .COND_LT from rfl)
    simp [h, CondCode.eval, BitVec.slt]

/-- A chain has compared its numbers and has changed nothing but flags. -/
structure ComparesRight (first : ComparedPair) (rest : List ComparedPair) (s s' : MachineState) :
    Prop where
  conditions : ConditionsRight s'.p.toFlags
    (concatWords ComparedPair.left (first :: rest))
    (concatWords ComparedPair.right (first :: rest))
  upper : s'.p.upper = s.p.upper
  sp : s'.sp = s.sp
  mem : s'.mem = s.mem

/-- Setting the flags of a chain compares its numbers. -/
theorem comparesRight_afterCompares (first : ComparedPair) (rest : List ComparedPair)
    (s : MachineState) (regs : ByteReg → BitVec 8) :
    ComparesRight first rest s (s.afterCompares regs (chainFlags first rest)) where
  conditions := conditionsRight_cmpFlags (Nat.mul_pos (by decide) (Nat.succ_pos _)) _ _
  upper := rfl
  sp := rfl
  mem := rfl

/-- **A chain compares its numbers**: the pass turns a `CPWRdRr` and any number of `CPCWRdRr` into
byte comparisons after which the conditions hold of the whole numbers, and no register is changed,
whether other code loads the registers of each pair or all pairs are there from the start. -/
theorem compareChain_right (scavenge : Scavenger) (first : ComparedPair)
    (rest : List ComparedPair) (s : MachineState) :
    ∃ mis, runOnMachineFunction scavenge [compareChain first rest] = some [mis] ∧
      (∃ s', execReloading mis (first :: rest) s = some s' ∧
        ComparesRight first rest s s' ∧ s'.regs = lastRegs first.regs rest) ∧
      ((∀ pair ∈ first :: rest, pair.regs = s.regs) →
        ∃ s', execCompareBlock mis s = some s' ∧
          ComparesRight first rest s s' ∧ s'.regs = s.regs) := by
  refine ⟨_, runOnMachineFunction_compareChain scavenge first rest, ?_, fun hregs => ?_⟩
  · exact ⟨_, execReloading_compareBytes first rest s,
      comparesRight_afterCompares first rest s _, rfl⟩
  · exact ⟨_, execCompareBlock_compareBytes first rest s hregs,
      comparesRight_afterCompares first rest s s.regs, rfl⟩

end Snes
