/-
# The Stack Frame

The offsets that prologue/epilogue insertion gives to the frame objects, the
prologue that the target emits, and `eliminateFrameIndex`.

Offsets count from the first byte above the return address: incoming stack
arguments have offsets from 0 up, the return address is at -2 and -1, and the
objects of the function lie below.  Objects are listed in the order in which they
are allocated, whatever that order is.
-/
import SnesBackend.CalleeSaved
import SnesBackend.DataLayout

namespace Snes

/-! ## Offsets of the frame objects -/

/-- A frame object that prologue/epilogue insertion places: a local variable or a spill slot. -/
structure FrameObject where
  size : ℕ
  align : ℕ
  align_pos : 0 < align

/-- The bytes of an object, counted from the first byte above the return address. -/
structure Slot where
  offset : ℤ
  size : ℕ
deriving DecidableEq, Repr

/-- Slots without a common byte. -/
def Slot.Separate (a b : Slot) : Prop :=
  a.offset + a.size ≤ b.offset ∨ b.offset + b.size ≤ a.offset

/-- The saved return address. -/
def returnAddress : Slot :=
  ⟨-2, 2⟩

/-- The fixed objects of `LowerFormalArguments`: each stack argument behind the one before it. -/
def incomingSlots : ℕ → List ℕ → List Slot
  | _, [] => []
  | offset, size :: sizes => ⟨offset, size⟩ :: incomingSlots (offset + size) sizes

/-- `AdjustStackOffset` for one object after another, from a distance below the stack top: the
slots, and the distance at the end. -/
def assignOffsets : ℕ → List FrameObject → List Slot × ℕ
  | offset, [] => ([], offset)
  | offset, o :: os =>
      let lower := alignTo (offset + o.size) o.align
      (⟨-lower, o.size⟩ :: (assignOffsets lower os).1, (assignOffsets lower os).2)

/-- What frame lowering knows of a function: the sizes of its stack arguments, the callee-saved
registers that it saves, its other objects, and what `hasFP` and `hasReservedCallFrame` ask for. -/
structure FrameInfo where
  stackArgs : List ℕ
  savedRegs : List Reg
  objects : List FrameObject
  hasSpills : Bool
  hasAllocas : Bool
  hasStackArgs : Bool
  hasVarSizedObjects : Bool
  adjustsStack : Bool
  maxCallFrameSize : ℕ

namespace FrameInfo

variable (F : FrameInfo)

/-- `hasFP`. -/
def hasFP : Bool :=
  F.hasSpills || F.hasAllocas || F.hasStackArgs

/-- `hasReservedCallFrame`. -/
def hasReservedCallFrame : Bool :=
  F.hasFP && !F.hasVarSizedObjects

/-- `getFrameRegister`. -/
def getFrameRegister : Reg :=
  if F.hasFP then .word .Y else .SP

/-- The distance at which allocation starts: the local area, or the end of the lowest fixed
object. -/
def fixedEnd : ℤ :=
  (incomingSlots 0 F.stackArgs).foldl (fun offset slot => max offset (-slot.offset)) 2

/-- `assignCalleeSavedSpillSlots`: two bytes for each register, with the alignment of the stack. -/
def savedObjects : List FrameObject :=
  F.savedRegs.map fun _ => ⟨2, 1, Nat.one_pos⟩

/-- The callee-saved slots and the other slots, and the distance at the end. -/
def allocated : List Slot × ℕ :=
  assignOffsets F.fixedEnd.toNat (F.savedObjects ++ F.objects)

/-- The slots by frame index: stack arguments, saved registers, other objects. -/
def slots : List Slot :=
  incomingSlots 0 F.stackArgs ++ F.allocated.1

/-- `getMaxAlignment`. -/
def maxAlignment : ℕ :=
  (F.objects.map FrameObject.align).foldr max 1

/-- `getStackSize`: the distance with the reserved call frame, aligned, without the local area. -/
def stackSize : ℕ :=
  let callFrame := if F.adjustsStack && F.hasReservedCallFrame then F.maxCallFrameSize else 0
  alignTo (F.allocated.2 + callFrame) F.maxAlignment - 2

end FrameInfo

/-! ## Separate slots -/

/-- Allocation only goes down, and every slot lies between the start and the end. -/
theorem assignOffsets_bounds (os : List FrameObject) (offset : ℕ) :
    offset ≤ (assignOffsets offset os).2 ∧
      ∀ slot ∈ (assignOffsets offset os).1,
        -((assignOffsets offset os).2 : ℤ) ≤ slot.offset ∧
          slot.offset + slot.size ≤ -(offset : ℤ) := by
  induction os generalizing offset with
  | nil => exact ⟨le_rfl, by simp [assignOffsets]⟩
  | cons o os ih =>
      have lower := le_alignTo (offset + o.size) o.align_pos
      obtain ⟨down, below⟩ := ih (alignTo (offset + o.size) o.align)
      refine ⟨by simp only [assignOffsets]; omega, ?_⟩
      intro slot hslot
      simp only [assignOffsets, List.mem_cons] at hslot ⊢
      rcases hslot with rfl | hslot
      · constructor
        · simp only
          omega
        · simp only
          omega
      · obtain ⟨hlow, hhigh⟩ := below slot hslot
        constructor
        · exact hlow
        · omega

/-- **Allocated slots are separate.** -/
theorem assignOffsets_separate (os : List FrameObject) (offset : ℕ) :
    (assignOffsets offset os).1.Pairwise Slot.Separate := by
  induction os generalizing offset with
  | nil => exact List.Pairwise.nil
  | cons o os ih =>
      refine List.Pairwise.cons ?_ (ih _)
      intro slot hslot
      have below := (assignOffsets_bounds os (alignTo (offset + o.size) o.align)).2 slot hslot
      exact Or.inr below.2

/-- Incoming slots start at their offset. -/
theorem incomingSlots_bounds (sizes : List ℕ) (offset : ℕ) :
    ∀ slot ∈ incomingSlots offset sizes, (offset : ℤ) ≤ slot.offset := by
  induction sizes generalizing offset with
  | nil => simp [incomingSlots]
  | cons size sizes ih =>
      intro slot hslot
      rw [incomingSlots, List.mem_cons] at hslot
      rcases hslot with rfl | hslot
      · exact le_rfl
      · have := ih _ slot hslot
        omega

/-- Incoming slots are separate. -/
theorem incomingSlots_separate (sizes : List ℕ) (offset : ℕ) :
    (incomingSlots offset sizes).Pairwise Slot.Separate := by
  induction sizes generalizing offset with
  | nil => exact List.Pairwise.nil
  | cons size sizes ih =>
      refine List.Pairwise.cons ?_ (ih _)
      intro slot hslot
      have above := incomingSlots_bounds sizes (offset + size) slot hslot
      left
      push_cast at above
      exact above

namespace FrameInfo

/-- Incoming arguments do not move the start of the allocation. -/
theorem fixedEnd_eq (F : FrameInfo) : F.fixedEnd = 2 := by
  have keep (slots : List Slot) (h : ∀ slot ∈ slots, 0 ≤ slot.offset) :
      slots.foldl (fun offset slot => max offset (-slot.offset)) (2 : ℤ) = 2 := by
    induction slots with
    | nil => rfl
    | cons slot slots ih =>
        rw [List.forall_mem_cons] at h
        rw [List.foldl_cons, max_eq_left (by omega), ih h.2]
  exact keep _ (incomingSlots_bounds F.stackArgs 0)

/-- The slots that are allocated lie below the return address. -/
theorem allocated_bounds (F : FrameInfo) :
    2 ≤ F.allocated.2 ∧ ∀ slot ∈ F.allocated.1,
      -(F.allocated.2 : ℤ) ≤ slot.offset ∧ slot.offset + slot.size ≤ -2 := by
  have bounds := assignOffsets_bounds (F.savedObjects ++ F.objects) 2
  unfold allocated
  rw [fixedEnd_eq]
  exact bounds

/-- **Slots of distinct objects and the return address do not overlap.** -/
theorem slots_separate (F : FrameInfo) :
    F.slots.Pairwise Slot.Separate ∧ ∀ slot ∈ F.slots, slot.Separate returnAddress := by
  have below := F.allocated_bounds.2
  have above := incomingSlots_bounds F.stackArgs 0
  constructor
  · refine List.pairwise_append.mpr ⟨incomingSlots_separate _ _, assignOffsets_separate _ _, ?_⟩
    intro a ha b hb
    have := above a ha
    have := (below b hb).2
    right
    omega
  · intro slot hslot
    rw [slots, List.mem_append] at hslot
    rcases hslot with hslot | hslot
    · have := above slot hslot
      right
      simp only [returnAddress]
      omega
    · have := (below slot hslot).2
      left
      simp only [returnAddress]
      omega

/-- Every alignment is positive. -/
theorem maxAlignment_pos (F : FrameInfo) : 0 < F.maxAlignment := by
  unfold maxAlignment
  induction F.objects.map FrameObject.align with
  | nil => exact Nat.one_pos
  | cons a as ih => exact lt_max_of_lt_right ih

/-- **The frame holds every slot**: none reaches below the stack pointer after allocation. -/
theorem slot_in_frame (F : FrameInfo) :
    ∀ slot ∈ F.slots, 1 ≤ slot.offset + F.stackSize + 3 := by
  have down := F.allocated_bounds.1
  have aligned := le_alignTo (F.allocated.2 +
    (if F.adjustsStack && F.hasReservedCallFrame then F.maxCallFrameSize else 0))
    F.maxAlignment_pos
  intro slot hslot
  rw [slots, List.mem_append] at hslot
  simp only [stackSize]
  rcases hslot with hslot | hslot
  · have := incomingSlots_bounds F.stackArgs 0 slot hslot
    omega
  · have := (F.allocated_bounds.2 slot hslot).1
    omega

end FrameInfo

/-! ## The prologue -/

/-- The value of a register as a pointer. -/
def MachineState.pointer (s : MachineState) : Reg → Option (BitVec 16)
  | .word r => some (s.word r)
  | .SP => some s.sp
  | _ => none

/-- The prologue: the callee-saved registers are pushed, and `emitPrologue` is empty. -/
def FrameInfo.prologue (F : FrameInfo) (s : MachineState) : MachineState :=
  spillCalleeSavedRegisters F.savedRegs s

/-- The value of SP after frame allocation, from its value at function entry. -/
def FrameInfo.allocatedSP (F : FrameInfo) (entrySP : BitVec 16) : BitVec 16 :=
  entrySP - BitVec.ofNat 16 F.stackSize

/-! ## Eliminating frame indices -/

/-- An access to a frame object: its index, the constant that was folded into it, and the number of
bytes. -/
structure FrameAccess (F : FrameInfo) where
  index : Fin F.slots.length
  imm : ℤ
  size : ℕ

/-- The slot that an access is meant for. -/
def FrameAccess.slot {F : FrameInfo} (a : FrameAccess F) : Slot :=
  F.slots.get a.index

/-- `isUInt<6>`. -/
def isUInt6 (x : ℤ) : Prop :=
  0 ≤ x ∧ x < 64

/-- `eliminateFrameIndex`: the base register and the offset that replace the frame index. -/
def eliminateFrameIndex {F : FrameInfo} (a : FrameAccess F) : Reg × ℤ :=
  let offset := a.slot.offset
  -- SP points to an empty slot
  let offset := offset + (F.stackSize - (-2) + 1)
  (.word .A, offset + a.imm)

/-- The address of the first byte above the return address. -/
def frameTop (entrySP : BitVec 16) : BitVec 16 :=
  entrySP + 3

/-- The bytes from an address lie in a slot. -/
def InSlot (entrySP address : BitVec 16) (size : ℕ) (slot : Slot) : Prop :=
  ∀ k < size, ∃ j < slot.size,
    address + BitVec.ofNat 16 k =
      frameTop entrySP + BitVec.ofInt 16 slot.offset + BitVec.ofNat 16 j

/-- An access is right in a state, for a value of SP at function entry: its base is the frame
register, which holds the value of SP after frame allocation; the address lies in the slot of the
object; slots and the return address do not overlap; and the assertion on the offset holds. -/
structure FrameAccessRight (F : FrameInfo) (a : FrameAccess F) (entrySP : BitVec 16)
    (s : MachineState) : Prop where
  base : (eliminateFrameIndex a).1 = F.getFrameRegister
  value : s.pointer (eliminateFrameIndex a).1 = some (F.allocatedSP entrySP)
  address : ∀ p ∈ s.pointer (eliminateFrameIndex a).1,
    InSlot entrySP (p + BitVec.ofInt 16 (eliminateFrameIndex a).2) a.size a.slot
  separate : F.slots.Pairwise Slot.Separate ∧ ∀ slot ∈ F.slots, slot.Separate returnAddress
  offset : isUInt6 (eliminateFrameIndex a).2

/-- From the value of SP after frame allocation, the offset leads into the slot. -/
theorem inSlot_of_allocatedSP {F : FrameInfo} (a : FrameAccess F) (entrySP : BitVec 16)
    (himm : 0 ≤ a.imm) (hsize : a.imm + a.size ≤ a.slot.size) :
    InSlot entrySP (F.allocatedSP entrySP + BitVec.ofInt 16 (eliminateFrameIndex a).2) a.size
      a.slot := by
  intro k hk
  refine ⟨a.imm.toNat + k, by omega, ?_⟩
  have imm_eq : BitVec.ofNat 16 a.imm.toNat = BitVec.ofInt 16 a.imm := by
    rw [← BitVec.ofInt_natCast, Int.toNat_of_nonneg himm]
  have frame_eq : BitVec.ofInt 16 ((F.stackSize : ℤ) - -2 + 1) =
      BitVec.ofNat 16 F.stackSize + 3 := by
    rw [show (F.stackSize : ℤ) - -2 + 1 = F.stackSize + 3 by ring, BitVec.ofInt_add,
      BitVec.ofInt_natCast]
    rfl
  rw [eliminateFrameIndex, FrameInfo.allocatedSP, frameTop, BitVec.ofInt_add, BitVec.ofInt_add,
    BitVec.ofNat_add, imm_eq, frame_eq]
  ring

/-- **The prologue reaches the end of the frame** only when the saved registers are all there is to
it, up to a multiple of the address space. -/
theorem prologue_allocates_iff (F : FrameInfo) (s : MachineState) :
    (F.prologue s).sp = F.allocatedSP s.sp ↔ 2 * F.savedRegs.length ≡ F.stackSize [MOD 2 ^ 16] := by
  rw [FrameInfo.prologue, (spillCalleeSavedRegisters_spec _ _).1, FrameInfo.allocatedSP,
    sub_right_inj, ← BitVec.toNat_inj, BitVec.toNat_ofNat, BitVec.toNat_ofNat]
  rfl

/-- **No access to a frame object is right**: the base is A, never the frame register. -/
theorem not_frameAccessRight (F : FrameInfo) (a : FrameAccess F) (entrySP : BitVec 16)
    (s : MachineState) : ¬ FrameAccessRight F a entrySP s := by
  intro h
  have base : Reg.word .A = F.getFrameRegister := h.base
  unfold FrameInfo.getFrameRegister at base
  split_ifs at base with hFP
  exact absurd base (by decide)

/-- A function with one local variable of two bytes. -/
def oneLocal : FrameInfo where
  stackArgs := []
  savedRegs := []
  objects := [⟨2, 1, Nat.one_pos⟩]
  hasSpills := false
  hasAllocas := true
  hasStackArgs := false
  hasVarSizedObjects := false
  adjustsStack := false
  maxCallFrameSize := 0

/-- **An access to the local variable goes wrong**: with zero in A, and SP at 511 on entry, it does
not reach the variable. -/
theorem not_frameAccessRight_oneLocal :
    ¬ FrameAccessRight oneLocal ⟨⟨0, by decide⟩, 0, 2⟩ 511
      ⟨fun _ => 0, ⟨⟨false, false, false, false⟩, 0⟩, 509, fun _ => 0⟩ := by
  intro h
  have value := h.value
  revert value
  decide

end Snes
