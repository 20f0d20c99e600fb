/-
# Callee-Saved Registers and the Register Conventions

`determineCalleeSaves`, `spillCalleeSavedRegisters` and `restoreCalleeSavedRegisters`,
the registers in which values are returned, and whether these go together.

`PHA` pushes the two bytes of A, high byte first, and `POPRd` pops one byte.  A
function is given by what its instructions define and by what its body does
between the saving and the restoring of registers.
-/
import SnesBackend.MachineState

namespace Snes

/-! ## Saving and restoring -/

/-- The registers that a value of a type is returned in, `RetCC_SNES`. -/
def retCC_SNES : ValueType → Reg
  | .i8 => .AL
  | .i16 => .A

/-- `PHAstk`: it pushes A, whatever its operand. -/
def MachineState.phaStk (s : MachineState) (_reg : Reg) : MachineState :=
  s.pushWord (s.word .A)

/-- `POPRd`: one byte, for a main register into its low half. -/
def MachineState.popRd (s : MachineState) (reg : Reg) : MachineState :=
  match reg with
  | .byte r => s.pop.2.setByte r s.pop.1
  | .word r => s.pop.2.setByte r.subLo s.pop.1
  | _ => s.pop.2

/-- `spillCalleeSavedRegisters`: a push for each register, the last one first. -/
def spillCalleeSavedRegisters (csi : List Reg) (s : MachineState) : MachineState :=
  csi.reverse.foldl MachineState.phaStk s

/-- `restoreCalleeSavedRegisters`: a pop for each register. -/
def restoreCalleeSavedRegisters (csi : List Reg) (s : MachineState) : MachineState :=
  csi.foldl MachineState.popRd s

/-- **Saving** moves SP by two bytes for each register, and changes no register. -/
theorem spillCalleeSavedRegisters_spec (csi : List Reg) (s : MachineState) :
    (spillCalleeSavedRegisters csi s).sp = s.sp - BitVec.ofNat 16 (2 * csi.length) ∧
      (spillCalleeSavedRegisters csi s).regs = s.regs := by
  have pushes (rs : List Reg) (s : MachineState) :
      (rs.foldl MachineState.phaStk s).sp = s.sp - BitVec.ofNat 16 (2 * rs.length) ∧
        (rs.foldl MachineState.phaStk s).regs = s.regs := by
    induction rs generalizing s with
    | nil => simp
    | cons r rs ih =>
        obtain ⟨hsp, hregs⟩ := ih (s.phaStk r)
        rw [List.foldl_cons, hsp, hregs, MachineState.phaStk, MachineState.pushWord_sp,
          MachineState.pushWord_regs, List.length_cons, Nat.mul_add, BitVec.ofNat_add]
        refine ⟨?_, rfl⟩
        rw [sub_sub, add_comm (BitVec.ofNat 16 (2 * rs.length))]
        rfl
  have all := pushes csi.reverse s
  rwa [List.length_reverse] at all

/-- **Restoring** moves SP by one byte for each register only. -/
theorem restoreCalleeSavedRegisters_sp (csi : List Reg) (s : MachineState) :
    (restoreCalleeSavedRegisters csi s).sp = s.sp + BitVec.ofNat 16 csi.length := by
  unfold restoreCalleeSavedRegisters
  induction csi generalizing s with
  | nil => simp
  | cons r csi ih =>
      have one : (s.popRd r).sp = s.sp + 1 := by
        cases r <;> rfl
      rw [List.foldl_cons, ih, one, List.length_cons, BitVec.ofNat_add, add_assoc,
        add_comm (1 : BitVec 16)]
      rfl

/-! ## Functions -/

/-- A function: whether it is naked and calls `__builtin_unwind_init`, the type that it returns, the
registers that pass its arguments, the registers that its instructions define, and what its body
does.  The body changes only registers that are defined, gives SP back, and leaves the four bytes
above SP alone, where the saved register and the return address are. -/
structure FunctionBody where
  naked : Bool
  callsUnwindInit : Bool
  ret : Option ValueType
  argRegs : List Reg
  defs : List Reg
  body : MachineState → MachineState
  body_regs : ∀ s r, (∀ q ∈ Reg.aliases (.byte r), q ∉ defs) → (body s).regs r = s.regs r
  body_sp : ∀ s, (body s).sp = s.sp
  body_mem : ∀ s, ∀ j ∈ [1, 2, 3, 4], (body s).mem (s.sp + j) = s.mem (s.sp + j)

namespace FunctionBody

variable (f : FunctionBody)

/-- `isPhysRegModified`: some alias of the register is defined. -/
def isPhysRegModified (r : Reg) : Bool :=
  (Reg.aliases r).any fun q => f.defs.contains q

/-- `determineCalleeSaves`, with the order of the callee-saved list. -/
def determineCalleeSaves : List Reg :=
  if f.naked then []
  else Reg.getCalleeSavedRegs.filter fun r => f.callsUnwindInit || f.isPhysRegModified r

/-- The registers that return the value of the function. -/
def retRegs : List Reg :=
  (f.ret.map retCC_SNES).toList

/-- The state at the end of the body, where `LowerReturn` has placed the returned value. -/
def atReturn (s : MachineState) : MachineState :=
  f.body (spillCalleeSavedRegisters f.determineCalleeSaves s)

/-- The state at the return instruction. -/
def exit (s : MachineState) : MachineState :=
  restoreCalleeSavedRegisters f.determineCalleeSaves (f.atReturn s)

end FunctionBody

/-- A register has the same value in two states. -/
def SameIn (r : Reg) (s t : MachineState) : Prop :=
  match r with
  | .byte r => s.regs r = t.regs r
  | .word r => s.word r = t.word r
  | .SP => s.sp = t.sp
  | _ => True

/-- The conventions are consistent for a function: from every state at its entry, control comes back
to the caller, with the return address where it was; the call-preserved registers have the values
that they had; the returned value is the one that `LowerReturn` placed; and no call-preserved
register returns a value or passes an argument that the function may overwrite. -/
structure ConventionsConsistent (f : FunctionBody) : Prop where
  returns : ∀ s, (f.exit s).sp = s.sp ∧ (f.exit s).mem (s.sp + 1) = s.mem (s.sp + 1) ∧
    (f.exit s).mem (s.sp + 2) = s.mem (s.sp + 2)
  preserved : ∀ s, ∀ r ∈ Reg.getCallPreservedMask, SameIn r (f.exit s) s
  returned : ∀ s, ∀ r ∈ f.retRegs, SameIn r (f.exit s) (f.atReturn s)
  apart : ∀ r ∈ Reg.getCallPreservedMask,
    r ∉ f.retRegs ∧ (r ∈ f.argRegs → f.isPhysRegModified r = false)

/-! ## When the conventions are consistent -/

/-- Every register that returns a value is call-preserved. -/
theorem retCC_SNES_mem (type : ValueType) : retCC_SNES type ∈ Reg.getCallPreservedMask := by
  cases type <;> decide

/-- A main register is its halves. -/
theorem word_eq_iff (s t : MachineState) (r : WordReg) :
    s.word r = t.word r ↔ s.regs r.subHi = t.regs r.subHi ∧ s.regs r.subLo = t.regs r.subLo := by
  unfold MachineState.word
  constructor
  · intro h
    have high := congrArg (fun v : BitVec 16 => (v >>> 8).setWidth 8) h
    have low := congrArg (fun v : BitVec 16 => v.setWidth 8) h
    simp only [MachineState.high_of_append] at high
    simp only [BitVec.setWidth_append_eq_right] at low
    exact ⟨high, low⟩
  · rintro ⟨high, low⟩
    rw [high, low]

/-- Only A can be saved. -/
theorem determineCalleeSaves_cases (f : FunctionBody) :
    f.determineCalleeSaves = [] ∨ f.determineCalleeSaves = [.A] := by
  unfold FunctionBody.determineCalleeSaves
  split_ifs
  · exact Or.inl rfl
  · cases h : f.callsUnwindInit || f.isPhysRegModified .A with
    | false =>
        left
        simp [Reg.getCalleeSavedRegs, h]
    | true =>
        right
        simp [Reg.getCalleeSavedRegs, h]

/-- **A saved register is not given back**: SP is one byte off at the return instruction. -/
theorem exit_sp_ne (f : FunctionBody) (hsaved : f.determineCalleeSaves ≠ []) (s : MachineState) :
    (f.exit s).sp ≠ s.sp := by
  have one := (determineCalleeSaves_cases f).resolve_left hsaved
  have moved : (f.exit s).sp = s.sp - 2 + 1 := by
    unfold FunctionBody.exit FunctionBody.atReturn
    rw [restoreCalleeSavedRegisters_sp, f.body_sp, (spillCalleeSavedRegisters_spec _ s).1, one]
    rfl
  rw [moved]
  intro h
  bv_omega

/-- Without saved registers a function is its body. -/
theorem exit_of_not_saved (f : FunctionBody) (h : f.determineCalleeSaves = []) (s : MachineState) :
    f.exit s = f.body s ∧ f.atReturn s = f.body s := by
  unfold FunctionBody.exit FunctionBody.atReturn
  rw [h]
  exact ⟨rfl, rfl⟩

/-- The call-preserved registers are A and its halves. -/
theorem sameIn_preserved_iff (s t : MachineState) :
    (∀ r ∈ Reg.getCallPreservedMask, SameIn r s t) ↔ s.word .A = t.word .A := by
  have mask : Reg.getCallPreservedMask = [.word .A, .byte .AL, .byte .AH] := by decide
  rw [mask]
  constructor
  · intro h
    exact h (.word .A) List.mem_cons_self
  · intro h
    obtain ⟨high, low⟩ := (word_eq_iff s t .A).mp h
    intro r hr
    simp only [List.mem_cons, List.not_mem_nil, or_false] at hr
    rcases hr with rfl | rfl | rfl
    · exact h
    · exact low
    · exact high

/-- The functions whose conventions are consistent: they return nothing and save nothing, no
instruction defines a call-preserved register that passes an argument, and the body leaves in A
what it found there. -/
structure ConventionCondition (f : FunctionBody) : Prop where
  ret : f.ret = none
  saves : f.determineCalleeSaves = []
  args : ∀ r ∈ Reg.getCallPreservedMask, r ∈ f.argRegs → f.isPhysRegModified r = false
  keeps : ∀ s, (f.body s).word .A = s.word .A

/-- **When the register conventions are consistent.** -/
theorem conventionsConsistent_iff (f : FunctionBody) :
    ConventionsConsistent f ↔ ConventionCondition f := by
  constructor
  · intro h
    have saves : f.determineCalleeSaves = [] := by
      by_contra hsaved
      have s : MachineState := ⟨fun _ => 0, ⟨⟨false, false, false, false⟩, 0⟩, 0, fun _ => 0⟩
      exact exit_sp_ne f hsaved s (h.returns s).1
    refine ⟨?_, saves, fun r hr => (h.apart r hr).2, ?_⟩
    · cases hret : f.ret with
      | none => rfl
      | some type =>
          -- the register of a returned value is call-preserved
          have mem : retCC_SNES type ∈ f.retRegs := by
            simp [FunctionBody.retRegs, hret]
          exact absurd mem (h.apart _ (retCC_SNES_mem type)).1
    · intro s
      have kept := (sameIn_preserved_iff _ _).mp (h.preserved s)
      rwa [(exit_of_not_saved f saves s).1] at kept
  · rintro ⟨ret, saves, args, keeps⟩
    have no_regs : f.retRegs = [] := by rw [FunctionBody.retRegs, ret]; rfl
    refine ⟨?_, ?_, ?_, ?_⟩
    · intro s
      rw [(exit_of_not_saved f saves s).1]
      exact ⟨f.body_sp s, f.body_mem s 1 (by decide), f.body_mem s 2 (by decide)⟩
    · intro s
      rw [(exit_of_not_saved f saves s).1, sameIn_preserved_iff]
      exact keeps s
    · intro s r hr
      rw [no_regs] at hr
      cases hr
    · intro r hr
      refine ⟨?_, args r hr⟩
      rw [no_regs]
      exact List.not_mem_nil

/-- What it means that A is not modified. -/
theorem isPhysRegModified_A_eq_false_iff (f : FunctionBody) :
    f.isPhysRegModified .A = false ↔ .A ∉ f.defs ∧ .AL ∉ f.defs ∧ .AH ∉ f.defs := by
  simp [FunctionBody.isPhysRegModified, Reg.aliases]

/-- Functions that do not define A keep it. -/
theorem keeps_of_not_modified (f : FunctionBody) (h : f.isPhysRegModified .A = false)
    (s : MachineState) : (f.body s).word .A = s.word .A := by
  obtain ⟨whole, low, high⟩ := (isPhysRegModified_A_eq_false_iff f).mp h
  rw [word_eq_iff]
  constructor
  · refine f.body_regs s .AH ?_
    simpa only [Reg.aliases, List.forall_mem_cons] using ⟨high, whole, by simp⟩
  · refine f.body_regs s .AL ?_
    simpa only [Reg.aliases, List.forall_mem_cons] using ⟨low, whole, by simp⟩

/-- **The condition for ordinary functions**: they return nothing, do not unwind, and no instruction
defines A. -/
theorem conventionCondition_iff_of_not_naked (f : FunctionBody) (h : f.naked = false) :
    ConventionCondition f ↔
      f.ret = none ∧ f.callsUnwindInit = false ∧ f.isPhysRegModified .A = false := by
  have saves : f.determineCalleeSaves = [] ↔
      f.callsUnwindInit = false ∧ f.isPhysRegModified .A = false := by
    simp [FunctionBody.determineCalleeSaves, h, Reg.getCalleeSavedRegs]
  constructor
  · rintro ⟨ret, none_saved, -, -⟩
    exact ⟨ret, saves.mp none_saved⟩
  · rintro ⟨ret, unwind, modified⟩
    refine ⟨ret, saves.mpr ⟨unwind, modified⟩, ?_, keeps_of_not_modified f modified⟩
    obtain ⟨whole, low, high⟩ := (isPhysRegModified_A_eq_false_iff f).mp modified
    have mask : Reg.getCallPreservedMask = [.word .A, .byte .AL, .byte .AH] := by decide
    intro r hr _
    rw [mask] at hr
    simp only [List.mem_cons, List.not_mem_nil, or_false] at hr
    rcases hr with rfl | rfl | rfl
    · exact modified
    · simpa [FunctionBody.isPhysRegModified, Reg.aliases] using ⟨low, whole⟩
    · simpa [FunctionBody.isPhysRegModified, Reg.aliases] using ⟨high, whole⟩

/-- A function that returns the 16-bit constant 1. -/
def returnsOne : FunctionBody where
  naked := false
  callsUnwindInit := false
  ret := some .i16
  argRegs := []
  defs := [.A]
  body := fun s => s.setWord .A 1
  body_regs := by
    intro s r hr
    have ne_low : r ≠ .AL := by
      rintro rfl
      exact hr .A (by decide) (by decide)
    have ne_high : r ≠ .AH := by
      rintro rfl
      exact hr .A (by decide) (by decide)
    exact (MachineState.setByte_regs_of_ne _ _ ne_high).trans
      (MachineState.setByte_regs_of_ne _ _ ne_low)
  body_sp := fun _ => rfl
  body_mem := fun _ _ _ => rfl

/-- **A function that returns a value breaks the conventions**: the restored register is the one
that returns it. -/
theorem not_conventionsConsistent_returnsOne : ¬ ConventionsConsistent returnsOne := by
  intro h
  have apart := (h.apart .A (by decide)).1
  revert apart
  decide

end Snes
