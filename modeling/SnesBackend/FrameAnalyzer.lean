/-
# The Frame Analyzer

`SNESFrameAnalyzer`, the pass that finds out whether a function needs a frame pointer:
it looks for objects of the frame, and for loads and stores of stack arguments.

Fixed objects have the negative frame indices.  An object of variable size has the size
zero, and no place in the frame.
-/
import SnesBackend.MachineInstr

namespace Snes

/-! ## Functions -/

/-- `MachineFrameInfo`: the number of the fixed objects, and the sizes of the others. -/
structure FrameObjects where
  numFixedObjects : ℕ
  objectSizes : List ℕ

namespace FrameObjects

variable (mfi : FrameObjects)

/-- `getNumObjects`. -/
def getNumObjects : ℕ :=
  mfi.numFixedObjects + mfi.objectSizes.length

/-- `isFixedObjectIndex`. -/
def isFixedObjectIndex (index : ℤ) : Bool :=
  decide (index < 0) && decide (-(mfi.numFixedObjects : ℤ) ≤ index)

/-- A frame index of an object with a place in the frame. -/
def IsPlaced (index : ℤ) : Prop :=
  mfi.isFixedObjectIndex index = true ∨
    ∃ i size, index = (i : ℕ) ∧ mfi.objectSizes[i]? = some size ∧ size ≠ 0

end FrameObjects

/-- `SNESMachineFunctionInfo`, as far as `hasFP` reads it. -/
structure FunctionFlags where
  hasSpills : Bool
  hasAllocas : Bool
  hasStackArgs : Bool
deriving DecidableEq, Repr

/-- `hasFP`. -/
def FunctionFlags.hasFP (flags : FunctionFlags) : Bool :=
  flags.hasSpills || flags.hasAllocas || flags.hasStackArgs

/-- An instruction of the function; the opcode is `none` where it is not one of the target. -/
structure FrameInstr where
  opcode : Option Opcode
  operands : List MachineOperand

/-- A function before its frame is laid out. -/
structure FrameFunction where
  mfi : FrameObjects
  blocks : List (List FrameInstr)

/-! ## The pass -/

/-- The opcodes that the pass looks at. -/
def FrameInstr.isScanned (mi : FrameInstr) : Bool :=
  mi.opcode == some .LDDRdPtrQ || mi.opcode == some .LDDWRdPtrQ ||
    mi.opcode == some .STDPtrQRr || mi.opcode == some .STDWPtrQRr

namespace FrameFunction

variable (F : FrameFunction)

/-- An operand is the frame index of a fixed object. -/
def isFixedObject (operand : MachineOperand) : Bool :=
  match operand with
  | .frameIndex index => F.mfi.isFixedObjectIndex index
  | _ => false

/-- The first part of the pass: the objects that are not fixed. -/
def findAllocas (flags : FunctionFlags) : FunctionFlags :=
  if F.mfi.getNumObjects ≠ F.mfi.numFixedObjects ∧ F.mfi.objectSizes.any (· ≠ 0) = true then
    { flags with hasAllocas := true }
  else flags

/-- The second part: the uses of fixed objects, if there are any. -/
def findStackArgs (flags : FunctionFlags) : FunctionFlags :=
  if F.mfi.numFixedObjects = 0 then flags
  else if (F.blocks.any fun block => block.any fun mi =>
      mi.isScanned && mi.operands.any F.isFixedObject) = true then
    { flags with hasStackArgs := true }
  else flags

/-- `runOnMachineFunction` of `SNESFrameAnalyzer`. -/
def analyzeFrame (flags : FunctionFlags) : FunctionFlags :=
  F.findStackArgs (F.findAllocas flags)

/-! ## When the flags are right -/

/-- An instruction of the function has a frame index among its operands. -/
def HasFrameIndex (mi : FrameInstr) (index : ℤ) : Prop :=
  (∃ block ∈ F.blocks, mi ∈ block) ∧ .frameIndex index ∈ mi.operands

/-- The flags are right: a use of a fixed object is a stack argument, an object with a size is an
alloca, and a function in which a frame index is to be resolved has a frame pointer. -/
structure FlagsRight (flags : FunctionFlags) : Prop where
  stackArgs : ∀ mi index, F.HasFrameIndex mi index → F.mfi.isFixedObjectIndex index = true →
    flags.hasStackArgs = true
  allocas : ∀ size ∈ F.mfi.objectSizes, size ≠ 0 → flags.hasAllocas = true
  framePointer : ∀ mi index, F.HasFrameIndex mi index → F.mfi.IsPlaced index →
    flags.hasFP = true

/-- A function that uses fixed objects uses one of them in a load or a store that the pass looks
at. -/
def FixedUsesScanned : Prop :=
  ∀ mi index, F.HasFrameIndex mi index → F.mfi.isFixedObjectIndex index = true →
    ∃ mi' index', F.HasFrameIndex mi' index' ∧ F.mfi.isFixedObjectIndex index' = true ∧
      mi'.isScanned = true

/-- **The flag of the allocas** is set where there is an object with a size. -/
theorem hasAllocas_analyzeFrame (flags : FunctionFlags) {size : ℕ}
    (hmem : size ∈ F.mfi.objectSizes) (hsize : size ≠ 0) :
    (F.analyzeFrame flags).hasAllocas = true := by
  have hany : F.mfi.objectSizes.any (· ≠ 0) = true :=
    List.any_eq_true.mpr ⟨size, hmem, by simpa using hsize⟩
  have hobjects : F.mfi.getNumObjects ≠ F.mfi.numFixedObjects := by
    have hpos := List.length_pos_of_mem hmem
    unfold FrameObjects.getNumObjects
    omega
  have hfirst : F.findAllocas flags = { flags with hasAllocas := true } :=
    if_pos ⟨hobjects, hany⟩
  unfold analyzeFrame findStackArgs
  rw [hfirst]
  split_ifs <;> rfl

/-- The first part leaves the flag of the stack arguments. -/
theorem hasStackArgs_findAllocas (flags : FunctionFlags) :
    (F.findAllocas flags).hasStackArgs = flags.hasStackArgs := by
  unfold findAllocas
  split_ifs <;> rfl

/-- **The flag of the stack arguments** is set where it was set, and where the pass sees a use. -/
theorem hasStackArgs_analyzeFrame_iff (flags : FunctionFlags) :
    (F.analyzeFrame flags).hasStackArgs = true ↔ flags.hasStackArgs = true ∨
      ∃ mi index, F.HasFrameIndex mi index ∧ F.mfi.isFixedObjectIndex index = true ∧
        mi.isScanned = true := by
  have hseen : (F.blocks.any fun block => block.any fun mi =>
      mi.isScanned && mi.operands.any F.isFixedObject) = true ↔
        ∃ mi index, F.HasFrameIndex mi index ∧ F.mfi.isFixedObjectIndex index = true ∧
          mi.isScanned = true := by
    simp only [List.any_eq_true, Bool.and_eq_true]
    constructor
    · rintro ⟨block, hblock, mi, hmi, hscanned, operand, hoperand, hfixed⟩
      unfold isFixedObject at hfixed
      split at hfixed
      · exact ⟨mi, _, ⟨⟨block, hblock, hmi⟩, hoperand⟩, hfixed, hscanned⟩
      · cases hfixed
    · rintro ⟨mi, index, ⟨⟨block, hblock, hmi⟩, hoperand⟩, hfixed, hscanned⟩
      exact ⟨block, hblock, mi, hmi, hscanned, _, hoperand, hfixed⟩
  unfold analyzeFrame findStackArgs
  split_ifs with hzero hany
  · -- without fixed objects no index is that of one
    rw [hasStackArgs_findAllocas, or_iff_left]
    rintro ⟨mi, index, -, hfixed, -⟩
    unfold FrameObjects.isFixedObjectIndex at hfixed
    rw [hzero, Bool.and_eq_true, decide_eq_true_eq, decide_eq_true_eq] at hfixed
    omega
  · exact iff_of_true rfl (.inr (hseen.mp hany))
  · rw [hasStackArgs_findAllocas, or_iff_left (mt hseen.mpr hany)]

/-- **When the flags are right**: a use of a fixed object that the pass does not look at is not the
only one, unless the flag of the stack arguments is set already. -/
theorem flagsRight_analyzeFrame_iff (flags : FunctionFlags) :
    F.FlagsRight (F.analyzeFrame flags) ↔ flags.hasStackArgs = true ∨ F.FixedUsesScanned := by
  constructor
  · intro hright
    rw [or_iff_not_imp_left]
    intro hclear mi index huse hfixed
    have hset := hright.stackArgs mi index huse hfixed
    exact ((F.hasStackArgs_analyzeFrame_iff flags).mp hset).resolve_left hclear
  · intro hcond
    have hstackArgs : ∀ mi index, F.HasFrameIndex mi index →
        F.mfi.isFixedObjectIndex index = true → (F.analyzeFrame flags).hasStackArgs = true := by
      intro mi index huse hfixed
      exact (F.hasStackArgs_analyzeFrame_iff flags).mpr (hcond.imp_right fun hscanned =>
        hscanned mi index huse hfixed)
    have hallocas : ∀ size ∈ F.mfi.objectSizes, size ≠ 0 →
        (F.analyzeFrame flags).hasAllocas = true :=
      fun size hmem hsize => F.hasAllocas_analyzeFrame flags hmem hsize
    refine ⟨hstackArgs, hallocas, ?_⟩
    rintro mi index huse (hfixed | ⟨i, size, -, hsize, hne⟩)
    · simp [FunctionFlags.hasFP, hstackArgs mi index huse hfixed]
    · simp [FunctionFlags.hasFP, hallocas size (List.mem_of_getElem? hsize) hne]

/-- The address of the variable arguments is all that the function takes of its frame: `FRMIDX` of a
fixed object, and nothing else. -/
theorem not_flagsRight_FRMIDX :
    ¬ FlagsRight ⟨⟨1, []⟩, [[⟨some .FRMIDX, [.reg .A, .frameIndex (-1), .imm 0]⟩]]⟩
      (analyzeFrame ⟨⟨1, []⟩, [[⟨some .FRMIDX, [.reg .A, .frameIndex (-1), .imm 0]⟩]]⟩
        ⟨false, false, false⟩) := by
  intro hright
  have hfp := hright.framePointer _ (-1) ⟨⟨_, List.mem_cons_self, List.mem_cons_self⟩, by simp⟩
    (.inl rfl)
  exact absurd hfp (by decide)

end FrameFunction

end Snes
