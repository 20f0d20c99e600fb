/-
# Where Caller and Callee Place the Arguments

When `analyzeStandardArguments` assigns the same locations for a call and for the
definition of the function.

The caller counts the pieces of every value, the callee the words of every argument.
The locations are first written as a recursion over these sizes; comparing two such
recursions gives the condition on the sizes.
-/
import SnesBackend.CallingConv
import SnesBackend.ListTiling

namespace Snes

open ListTiling

/-! ## Pieces -/

/-- The pieces after `j` of a value are taken as one run. -/
theorem takeParts_range' (vt : ValueType) (n : ℕ) (rest : List OutputArg)
    (hrest : ∀ out ∈ rest.head?, out.partOffset = 0) :
    ∀ j, 0 < j + n →
      takeParts (j * vt.bytes)
          ((List.range' j n).map (fun i => ⟨vt, i * vt.bytes⟩) ++ rest) = (n, rest) := by
  induction n with
  | zero =>
      intro j hj
      cases rest with
      | nil => rfl
      | cons out rest =>
          have bytes_pos : 0 < vt.bytes := by cases vt <;> decide
          have offset_pos : 0 < j * vt.bytes := Nat.mul_pos hj bytes_pos
          have first : out.partOffset = 0 := hrest out rfl
          rw [List.range'_zero, List.map_nil, List.nil_append, takeParts, if_neg (by omega)]
  | succ n ih =>
      intro j _
      have next := ih (j + 1) (by omega)
      rw [Nat.add_mul, Nat.one_mul] at next
      rw [List.range'_succ, List.map_cons, List.cons_append, takeParts, if_pos rfl, next]

/-- The types of the pieces of a value. -/
theorem outputArgs_map_vt (width : ℕ) :
    (outputArgs width).map OutputArg.vt =
      List.replicate (getNumRegisters width) (getRegisterType width) := by
  rw [outputArgs, List.map_map, List.eq_replicate_iff]
  refine ⟨by simp, ?_⟩
  intro vt hvt
  obtain ⟨j, -, rfl⟩ := List.mem_map.mp hvt
  rfl

/-- The first piece of the following values has the offset 0. -/
theorem head?_flatMap_outputArgs (widths : List ℕ) :
    ∀ out ∈ (widths.flatMap outputArgs).head?, out.partOffset = 0 := by
  induction widths with
  | nil => simp
  | cons width widths ih =>
      rw [List.flatMap_cons, outputArgs]
      cases getNumRegisters width with
      | zero => exact ih
      | succ n =>
          rw [List.range_succ_eq_map]
          rintro out ⟨⟩
          exact Nat.zero_mul _

/-- **The runs are the values**: each value that has pieces is one run. -/
theorem parseParts_flatMap_outputArgs (widths : List ℕ) (fuel : ℕ)
    (hfuel : (widths.flatMap outputArgs).length ≤ fuel) :
    parseParts fuel (widths.flatMap outputArgs) =
      some ((widths.map getNumRegisters).filter (· ≠ 0)) := by
  induction widths generalizing fuel with
  | nil => cases fuel <;> rfl
  | cons width widths ih =>
      have run := takeParts_range' (getRegisterType width) (getNumRegisters width)
        (widths.flatMap outputArgs) (head?_flatMap_outputArgs widths) 0
      rw [List.flatMap_cons] at hfuel ⊢
      rw [outputArgs] at hfuel ⊢
      rw [Nat.zero_mul, ← List.range_eq_range'] at run
      rw [List.map_cons]
      generalize getNumRegisters width = n at *
      cases n with
      | zero => exact ih fuel hfuel
      | succ n =>
          have run := run (by omega)
          simp only [List.length_append, List.length_map, List.length_range] at hfuel
          obtain ⟨fuel, rfl⟩ := Nat.exists_eq_succ_of_ne_zero (show fuel ≠ 0 by omega)
          rw [parseParts, run, ih fuel (by omega), Option.map_some,
            List.filter_cons_of_pos (by simp)]
          · simp [List.range_succ_eq_map]

/-! ## Registers -/

/-- The first `k` registers of both lists are allocated, and no others of them. -/
def RegsUsed (cc : CCState) (k : ℕ) : Prop :=
  ∀ vt, (regList vt).map cc.isAllocated = (List.range 3).map fun j => decide (j < k)

/-- What is allocated after marking a register. -/
theorem isAllocated_markAllocated (cc : CCState) (r q : Reg) :
    (cc.markAllocated r).isAllocated q = (r.aliases.contains q || cc.isAllocated q) := by
  simp [CCState.markAllocated, CCState.isAllocated]

/-- The first register that is not allocated. -/
theorem RegsUsed.find? {cc : CCState} {k : ℕ} (h : RegsUsed cc k) (hk : k < 3) (vt : ValueType) :
    (regList vt).find? (fun reg => !cc.isAllocated reg) = (regList vt)[k]? := by
  have used := h vt
  interval_cases k <;> cases vt <;>
    simp_all [regList, List.range, List.range.loop]

/-- Marking the next register of one list marks that of the other list too. -/
theorem RegsUsed.markAllocated {cc : CCState} {k : ℕ} (h : RegsUsed cc k) {vt : ValueType}
    {reg : Reg} (hreg : (regList vt)[k]? = some reg) : RegsUsed (cc.markAllocated reg) (k + 1) := by
  have aliased : ∀ vt', (regList vt').map reg.aliases.contains =
      (List.range 3).map fun j => decide (j = k) := by
    have hk : k < 3 := by
      obtain ⟨hk, -⟩ := List.getElem?_eq_some_iff.mp hreg
      cases vt <;> exact hk
    intro vt'
    interval_cases k <;> cases vt <;> cases hreg <;> cases vt' <;> decide
  intro vt'
  have both := congrArg₂ (List.zipWith or) (aliased vt') (h vt')
  simp only [List.zipWith_map, List.zipWith_self] at both
  rw [show ((cc.markAllocated reg).isAllocated) = fun q => reg.aliases.contains q || cc.isAllocated q
    from funext (isAllocated_markAllocated cc reg), both]
  apply List.map_congr_left
  intro j _
  rw [← Bool.decide_or]
  exact decide_eq_decide.mpr (by omega)

/-- **Allocating** takes the next register of a list, and with it that of the other list. -/
theorem RegsUsed.allocateReg {cc : CCState} {k : ℕ} (h : RegsUsed cc k) (hk : k < 3)
    (vt : ValueType) :
    (cc.allocateReg (regList vt)).1 = (regList vt)[k]? ∧
      RegsUsed (cc.allocateReg (regList vt)).2 (k + 1) ∧
      (cc.allocateReg (regList vt)).2.stackOffset = cc.stackOffset := by
  have three : (regList vt).length = 3 := by cases vt <;> rfl
  have hreg := List.getElem?_eq_getElem (show k < (regList vt).length by omega)
  unfold CCState.allocateReg
  rw [h.find? hk vt, hreg]
  exact ⟨rfl, h.markAllocated hreg, rfl⟩

/-! ## Groups of pieces -/

/-- A group of pieces in registers, before it is reversed. -/
def regLocs (vt : ValueType) (k size : ℕ) : List CCValAssign :=
  (List.range' k size).map fun j => ⟨j, vt, .reg (regList vt)[j]?⟩

/-- Pieces on the stack, one after the other. -/
def stackLocs : ℕ → ℕ → List ValueType → List CCValAssign
  | _, _, [] => []
  | n, offset, vt :: vts => ⟨n, vt, .mem offset⟩ :: stackLocs (n + 1) (offset + vt.bytes) vts

/-- The types can be read off. -/
theorem stackLocs_map_locVT (vts : List ValueType) :
    ∀ n offset, (stackLocs n offset vts).map CCValAssign.locVT = vts := by
  induction vts with
  | nil => intro _ _; rfl
  | cons vt vts ih =>
      intro n offset
      rw [stackLocs, List.map_cons, ih]

/-- Repeated types first. -/
theorem stackLocs_replicate_append (vt : ValueType) (size : ℕ) (vts : List ValueType) :
    ∀ n offset, stackLocs n offset (List.replicate size vt ++ vts) =
      stackLocs n offset (List.replicate size vt) ++
        stackLocs (n + size) (offset + size * vt.bytes) vts := by
  induction size with
  | zero => simp [stackLocs]
  | succ size ih =>
      intro n offset
      rw [List.replicate_succ, List.cons_append, stackLocs, ih, stackLocs, List.cons_append,
        Nat.add_right_comm n 1 size, Nat.add_assoc n, Nat.succ_mul, Nat.add_assoc offset,
        Nat.add_comm vt.bytes]

namespace ArgState

/-- After `k` pieces in registers. -/
structure InRegs (a : ArgState) (k : ℕ) : Prop where
  used : RegsUsed a.cc k
  regsLeft : a.regsLeft + k = 3
  valNo : a.valNo = k
  usesStack : a.usesStack = false
  stackOffset : a.cc.stackOffset = 0

/-- After `n` pieces, the last ones on the stack. -/
structure OnStack (a : ArgState) (n offset : ℕ) : Prop where
  valNo : a.valNo = n
  usesStack : a.usesStack = true
  stackOffset : a.cc.stackOffset = offset

/-- A piece that goes to a register. -/
theorem InRegs.assignReg {a : ArgState} {k : ℕ} (h : InRegs a k) (hk : k < 3) (vt : ValueType) :
    InRegs (a.assignReg vt) (k + 1) ∧
      (a.assignReg vt).argLocs = a.argLocs ++ [⟨k, vt, .reg (regList vt)[k]?⟩] := by
  obtain ⟨hreg, hused, hoffset⟩ := h.used.allocateReg hk vt
  have left := h.regsLeft
  constructor
  · refine ⟨hused, ?_, ?_, h.usesStack, hoffset.trans h.stackOffset⟩
    · show a.regsLeft - 1 + (k + 1) = 3
      omega
    · exact congrArg (· + 1) h.valNo
  · show a.argLocs ++ [⟨a.valNo, vt, .reg (a.cc.allocateReg (regList vt)).1⟩] = _
    rw [h.valNo, hreg]

/-- A group of pieces that goes to registers. -/
theorem InRegs.assignReg_iterate {a : ArgState} {k : ℕ} (h : InRegs a k) (vt : ValueType)
    (size : ℕ) (hk : k + size ≤ 3) :
    InRegs ((ArgState.assignReg vt)^[size] a) (k + size) ∧
      ((ArgState.assignReg vt)^[size] a).argLocs = a.argLocs ++ regLocs vt k size := by
  induction size generalizing a k with
  | zero => exact ⟨h, (List.append_nil _).symm⟩
  | succ size ih =>
      obtain ⟨hone, honeLocs⟩ := h.assignReg (by omega) vt
      obtain ⟨hall, hallLocs⟩ := ih hone (by omega)
      rw [Function.iterate_succ_apply]
      constructor
      · rwa [Nat.add_right_comm] at hall
      · rw [hallLocs, honeLocs, List.append_assoc]
        rfl

/-- A piece that goes to the stack. -/
theorem OnStack.assignStack {a : ArgState} {n offset : ℕ} (h : OnStack a n offset)
    (vt : ValueType) :
    OnStack (a.assignStack vt) (n + 1) (offset + vt.bytes) ∧
      (a.assignStack vt).argLocs = a.argLocs ++ [⟨n, vt, .mem offset⟩] := by
  have unaligned : alignTo a.cc.stackOffset (integerABIAlign vt.width) = offset := by
    rw [show integerABIAlign vt.width = 1 by cases vt <;> decide, h.stackOffset]
    simp [alignTo]
  constructor
  · refine ⟨congrArg (· + 1) h.valNo, h.usesStack, ?_⟩
    exact congrArg (· + vt.bytes) unaligned
  · show a.argLocs ++ [⟨a.valNo, vt, .mem _⟩] = _
    rw [h.valNo]
    exact congrArg (fun o => a.argLocs ++ [⟨n, vt, .mem o⟩]) unaligned

/-- A group of pieces that goes to the stack. -/
theorem OnStack.assignStack_iterate {a : ArgState} {n offset : ℕ} (h : OnStack a n offset)
    (vt : ValueType) (size : ℕ) :
    OnStack ((ArgState.assignStack vt)^[size] a) (n + size) (offset + size * vt.bytes) ∧
      ((ArgState.assignStack vt)^[size] a).argLocs =
        a.argLocs ++ stackLocs n offset (List.replicate size vt) := by
  induction size generalizing a n offset with
  | zero =>
      rw [Nat.zero_mul]
      exact ⟨h, (List.append_nil _).symm⟩
  | succ size ih =>
      obtain ⟨hone, honeLocs⟩ := h.assignStack vt
      obtain ⟨hall, hallLocs⟩ := ih hone
      rw [Function.iterate_succ_apply]
      constructor
      · rwa [Nat.add_right_comm, Nat.add_assoc offset, Nat.add_comm vt.bytes, ← Nat.succ_mul]
          at hall
      · rw [hallLocs, honeLocs, List.append_assoc]
        rfl

/-- Nothing is assigned where there are no pieces. -/
theorem assignArg_none {vts : List ValueType} {a : ArgState} {size : ℕ} (hsize : size ≠ 0)
    (hvt : vts[a.pos]? = none) : assignArg vts a size = none := by
  rw [assignArg, if_neg hsize, hvt]
  rfl

/-- An argument in registers. -/
theorem InRegs.assignArg {vts : List ValueType} {a : ArgState} {k size : ℕ} {vt : ValueType}
    (h : InRegs a k) (hpos : a.pos = k) (hlen : a.argLocs.length = k) (hsize : size ≠ 0)
    (hfit : k + size ≤ 3) (hvt : vts[k]? = some vt) :
    ∃ b, ArgState.assignArg vts a size = some b ∧ InRegs b (k + size) ∧ b.pos = k + size ∧
      b.argLocs = a.argLocs ++ (regLocs vt k size).reverse := by
  obtain ⟨hall, hlocs⟩ := h.assignReg_iterate vt size hfit
  have fits : a.usesStack = false ∧ size ≤ a.regsLeft := by
    have left := h.regsLeft
    exact ⟨h.usesStack, by omega⟩
  refine ⟨{ ((ArgState.assignReg vt)^[size] a).reverse k size with pos := k + size }, ?_, ?_, rfl,
    ?_⟩
  · rw [ArgState.assignArg, if_neg hsize, hpos, hvt, Option.map_some, if_pos fits]
  · exact ⟨hall.used, hall.regsLeft, hall.valNo, hall.usesStack, hall.stackOffset⟩
  · -- only the group itself is reversed
    have group : (regLocs vt k size).length = size := by simp [regLocs]
    show ((ArgState.assignReg vt)^[size] a).argLocs.take k ++ _ ++ _ = _
    rw [hlocs, List.take_left' hlen, List.drop_left' hlen, List.take_of_length_le group.le,
      List.drop_eq_nil_of_le (by simp [hlen, group]), List.append_nil]

/-- An argument on the stack. -/
theorem OnStack.assignArg {vts : List ValueType} {a : ArgState} {n offset size : ℕ}
    {vt : ValueType} (h : OnStack a n offset) (hpos : a.pos = n) (hsize : size ≠ 0)
    (hvt : vts[n]? = some vt) :
    ∃ b, ArgState.assignArg vts a size = some b ∧
      OnStack b (n + size) (offset + size * vt.bytes) ∧ b.pos = n + size ∧
      b.argLocs = a.argLocs ++ stackLocs n offset (List.replicate size vt) := by
  subst hpos
  have used : { a with usesStack := true } = a := by
    obtain ⟨-, husesStack, -⟩ := h
    cases a
    cases husesStack
    rfl
  obtain ⟨hall, hlocs⟩ := h.assignStack_iterate vt size
  refine ⟨{ (ArgState.assignStack vt)^[size] a with pos := a.pos + size }, ?_, ?_, rfl, hlocs⟩
  · rw [ArgState.assignArg, if_neg hsize, hvt, Option.map_some,
      if_neg (by simp [h.usesStack]), used]
  · exact ⟨hall.valNo, hall.usesStack, hall.stackOffset⟩

/-- **All arguments from the stack on**: their types are those of the first pieces. -/
theorem OnStack.foldlM {sizes : List ℕ} {a : ArgState} {n offset : ℕ} (h : OnStack a n offset)
    (vts : List ValueType) (hpos : a.pos = n) (hsizes : ∀ size ∈ sizes, size ≠ 0) :
    (sizes.foldlM (ArgState.assignArg vts) a).map ArgState.argLocs =
      (groupHeads (vts.drop n) sizes).map fun types => a.argLocs ++ stackLocs n offset types := by
  induction sizes generalizing a n offset with
  | nil => exact congrArg some (List.append_nil _).symm
  | cons size sizes ih =>
      have hsize := hsizes size List.mem_cons_self
      rw [List.foldlM_cons, groupHeads, List.head?_drop]
      cases hvt : vts[n]? with
      | none =>
          rw [assignArg_none hsize (by rwa [hpos])]
          rfl
      | some vt =>
          obtain ⟨b, hb, hstack, hbpos, hlocs⟩ := h.assignArg hpos hsize hvt
          have rest := ih hstack hbpos fun m hm => hsizes m (List.mem_cons_of_mem _ hm)
          rw [hb, Option.bind_some, List.drop_drop, Option.map_map]
          refine rest.trans (congrArg (Option.map · _) (funext fun types => ?_))
          rw [hlocs, List.append_assoc, Function.comp_apply, stackLocs_replicate_append]

end ArgState

/-- The locations of arguments of given sizes, after `k` pieces in registers. -/
def places (k : ℕ) (vts : List ValueType) : List ℕ → Option (List CCValAssign)
  | [] => some []
  | size :: sizes =>
      if k + size ≤ 3 then
        vts.head?.bind fun vt =>
          (places (k + size) (vts.drop size) sizes).map ((regLocs vt k size).reverse ++ ·)
      else (groupHeads vts (size :: sizes)).map (stackLocs k 0)

/-- The first argument that does not fit into the registers switches to the stack. -/
theorem ArgState.assignArg_of_not_fit (vts : List ValueType) {a : ArgState} {size : ℕ}
    (hfit : ¬ size ≤ a.regsLeft) :
    ArgState.assignArg vts a size = ArgState.assignArg vts { a with usesStack := true } size := by
  have hsize : size ≠ 0 := by omega
  rw [ArgState.assignArg, ArgState.assignArg, if_neg hsize, if_neg hsize]
  apply congrArg (Option.map · _)
  funext vt
  rw [if_neg (not_and_of_not_right _ hfit), if_neg (by rintro ⟨⟨⟩, -⟩)]

/-- **All arguments from the registers on.** -/
theorem ArgState.InRegs.foldlM {sizes : List ℕ} {a : ArgState} {k : ℕ} (h : InRegs a k)
    (vts : List ValueType) (hpos : a.pos = k) (hlen : a.argLocs.length = k)
    (hsizes : ∀ size ∈ sizes, size ≠ 0) :
    (sizes.foldlM (ArgState.assignArg vts) a).map ArgState.argLocs =
      (places k (vts.drop k) sizes).map (a.argLocs ++ ·) := by
  induction sizes generalizing a k with
  | nil => exact congrArg some (List.append_nil _).symm
  | cons size sizes ih =>
      have hsize := hsizes size List.mem_cons_self
      have left := h.regsLeft
      rw [places]
      split_ifs with hfit
      · rw [List.foldlM_cons, List.head?_drop]
        cases hvt : vts[k]? with
        | none =>
            rw [assignArg_none hsize (by rwa [hpos])]
            rfl
        | some vt =>
            obtain ⟨b, hb, hregs, hbpos, hlocs⟩ := h.assignArg hpos hlen hsize hfit hvt
            have hblen : b.argLocs.length = k + size := by simp [hlocs, hlen, regLocs]
            have rest := ih hregs hbpos hblen fun m hm => hsizes m (List.mem_cons_of_mem _ hm)
            rw [hb, Option.bind_some, List.drop_drop, Option.map_map]
            refine rest.trans (congrArg (Option.map · _) (funext fun locs => ?_))
            rw [hlocs, List.append_assoc, Function.comp_apply]
      · have first := assignArg_of_not_fit vts (a := a) (show ¬ size ≤ a.regsLeft by omega)
        have stack : OnStack { a with usesStack := true } k 0 := ⟨h.valNo, rfl, h.stackOffset⟩
        have rest := stack.foldlM vts hpos hsizes
        rw [List.foldlM_cons] at rest ⊢
        rw [first, rest, Option.map_map]
        rfl

/-- Arguments of size 0 are skipped. -/
theorem foldlM_assignArg_filter (vts : List ValueType) (sizes : List ℕ) (a : ArgState) :
    (sizes.filter (· ≠ 0)).foldlM (ArgState.assignArg vts) a =
      sizes.foldlM (ArgState.assignArg vts) a := by
  induction sizes generalizing a with
  | nil => rfl
  | cons size sizes ih =>
      rcases Nat.eq_zero_or_pos size with rfl | hpos
      · rw [List.filter_cons_of_neg (by simp), ih, List.foldlM_cons]
        rfl
      · rw [List.filter_cons_of_pos (by simp; omega), List.foldlM_cons, List.foldlM_cons]
        exact congrArg _ (funext ih)

/-- **The loop is the recursion** over the sizes that are not 0. -/
theorem assignArgs_eq_places (vts : List ValueType) (sizes : List ℕ) :
    assignArgs vts sizes = places 0 vts (sizes.filter (· ≠ 0)) := by
  have start : ArgState.InRegs {} 0 := by
    refine ⟨?_, rfl, rfl, rfl, rfl⟩
    intro vt
    cases vt <;> rfl
  have nonzero : ∀ size ∈ sizes.filter (· ≠ 0), size ≠ 0 := by
    intro size h
    simpa using (List.mem_filter.mp h).2
  have all := start.foldlM vts rfl rfl nonzero
  rw [foldlM_assignArg_filter] at all
  exact all.trans Option.map_id'

/-! ## Comparing sizes -/

/-- The first sizes, as far as they fit into a number of registers, and the sizes from the first one
that does not. -/
def splitRegs : ℕ → List ℕ → List ℕ × List ℕ
  | _, [] => ([], [])
  | n, size :: sizes =>
      if size ≤ n then
        (size :: (splitRegs (n - size) sizes).1, (splitRegs (n - size) sizes).2)
      else ([], size :: sizes)

/-- The first location tells how many pieces the first argument has in registers. -/
theorem places_head? {k size : ℕ} {vt : ValueType} {vts : List ValueType} {sizes : List ℕ}
    {locs : List CCValAssign} (hsize : size ≠ 0)
    (h : places k (vt :: vts) (size :: sizes) = some locs) :
    locs.head? = some
      (if k + size ≤ 3 then ⟨k + size - 1, vt, .reg (regList vt)[k + size - 1]?⟩
        else ⟨k, vt, .mem 0⟩) := by
  obtain ⟨n, rfl⟩ := Nat.exists_eq_succ_of_ne_zero hsize
  rw [places] at h
  split_ifs at h ⊢ with hfit
  · rw [List.head?_cons, Option.bind_some, Option.map_eq_some_iff] at h
    obtain ⟨rest, -, rfl⟩ := h
    rw [regLocs, List.range'_concat, List.map_append, List.reverse_append]
    simp
  · obtain ⟨types, htypes, rfl⟩ := Option.map_eq_some_iff.mp h
    obtain ⟨heads, -, rfl⟩ := Option.map_eq_some_iff.mp htypes
    rfl

/-- First arguments that are placed alike, one of them in registers, have the same size. -/
theorem eq_of_places_agree {k g h : ℕ} {vt : ValueType} {vts : List ValueType} {gs hs : List ℕ}
    (hg : g ≠ 0) (hh : h ≠ 0) (hfit : k + g ≤ 3 ∨ k + h ≤ 3)
    (agree : ∃ locs, places k (vt :: vts) (g :: gs) = some locs ∧
      places k (vt :: vts) (h :: hs) = some locs) : g = h := by
  obtain ⟨locs, hlocsg, hlocsh⟩ := agree
  have first := (places_head? hg hlocsg).symm.trans (places_head? hh hlocsh)
  split_ifs at first with hgfit hhfit
  · have index := congrArg CCValAssign.valNo (Option.some.inj first)
    simp only at index
    omega
  · cases congrArg CCValAssign.loc (Option.some.inj first)
  · cases congrArg CCValAssign.loc (Option.some.inj first)
  · omega

/-- There is no location without a piece. -/
theorem places_nil (k size : ℕ) (sizes : List ℕ) : places k [] (size :: sizes) = none := by
  rw [places]
  split_ifs
  · rfl
  · rfl

/-- The first argument, if it fits into the registers of both lists. -/
theorem places_agree_cons_iff {k size : ℕ} {vt : ValueType} {vts : List ValueType}
    {gs hs : List ℕ} (hfit : k + size ≤ 3) :
    (∃ locs, places k (vt :: vts) (size :: gs) = some locs ∧
        places k (vt :: vts) (size :: hs) = some locs) ↔
      ∃ locs, places (k + size) ((vt :: vts).drop size) gs = some locs ∧
        places (k + size) ((vt :: vts).drop size) hs = some locs := by
  rw [places, places, if_pos hfit, if_pos hfit, List.head?_cons, Option.bind_some,
    Option.bind_some]
  constructor
  · rintro ⟨locs, hg, hh⟩
    obtain ⟨restg, hrestg, rfl⟩ := Option.map_eq_some_iff.mp hg
    obtain ⟨resth, hresth, happ⟩ := Option.map_eq_some_iff.mp hh
    rw [List.append_cancel_left happ] at hresth
    exact ⟨restg, hrestg, hresth⟩
  · rintro ⟨locs, hg, hh⟩
    exact ⟨_, by rw [hg, Option.map_some], by rw [hh, Option.map_some]⟩

/-- All arguments, if the first one does not fit into the registers of either list. -/
theorem places_agree_stack_iff {k g h : ℕ} {vts : List ValueType} {gs hs : List ℕ}
    (htiles : Tiles vts (g :: gs)) (hgs : ∀ m ∈ g :: gs, m ≠ 0) (hhs : ∀ m ∈ h :: hs, m ≠ 0)
    (hg : ¬ k + g ≤ 3) (hh : ¬ k + h ≤ 3) :
    (∃ locs, places k vts (g :: gs) = some locs ∧ places k vts (h :: hs) = some locs) ↔
      Tiles vts (h :: hs) := by
  have all := (groupHeads_eq_iff vts (g :: gs) fun m hm => Nat.pos_of_ne_zero (hgs m hm)).mpr htiles
  rw [← groupHeads_eq_iff vts (h :: hs) fun m hm => Nat.pos_of_ne_zero (hhs m hm), places, places,
    if_neg hg, if_neg hh, all]
  constructor
  · rintro ⟨locs, ⟨⟩, hlocs⟩
    obtain ⟨types, htypes, heq⟩ := Option.map_eq_some_iff.mp hlocs
    have same := congrArg (List.map CCValAssign.locVT) heq
    rw [stackLocs_map_locVT, stackLocs_map_locVT] at same
    rw [htypes, same]
  · intro htypes
    rw [htypes]
    exact ⟨_, rfl, rfl⟩

/-- The same condition, if there are no pieces. -/
theorem places_agree_nil_iff {hs : List ℕ} (k n : ℕ) (hhs : ∀ h ∈ hs, h ≠ 0) :
    (∃ locs, places k [] [] = some locs ∧ places k [] hs = some locs) ↔
      (splitRegs n []).1 = (splitRegs n hs).1 ∧
        Tiles (([] : List ValueType).drop (splitRegs n hs).1.sum) (splitRegs n hs).2 := by
  cases hs with
  | nil => exact iff_of_true ⟨[], rfl, rfl⟩ ⟨rfl, rfl⟩
  | cons h hs =>
      apply iff_of_false
      · rintro ⟨locs, -, hlocs⟩
        rw [places_nil] at hlocs
        cases hlocs
      · rw [splitRegs, splitRegs]
        split_ifs
        · rintro ⟨⟨⟩, -⟩
        · rintro ⟨-, htiles⟩
          exact not_tiles_nil_cons (hhs h List.mem_cons_self) hs htiles

/-- **When two lists of sizes place all pieces alike**, if the first is a tiling of the pieces. -/
theorem places_agree_iff {vts : List ValueType} {gs hs : List ℕ} {k n : ℕ} (hkn : k + n = 3)
    (htiles : Tiles vts gs) (hgs : ∀ g ∈ gs, g ≠ 0) (hhs : ∀ h ∈ hs, h ≠ 0) :
    (∃ locs, places k vts gs = some locs ∧ places k vts hs = some locs) ↔
      (splitRegs n gs).1 = (splitRegs n hs).1 ∧
        Tiles (vts.drop (splitRegs n hs).1.sum) (splitRegs n hs).2 := by
  induction gs generalizing vts hs k n with
  | nil =>
      obtain rfl : vts = [] := htiles
      exact places_agree_nil_iff k n hhs
  | cons g gs ih =>
      have hg := hgs g List.mem_cons_self
      rcases vts with _ | ⟨vt, vts⟩
      · exact absurd htiles (not_tiles_nil_cons hg gs)
      rcases hs with _ | ⟨h, hs⟩
      · apply iff_of_false
        · rintro ⟨locs, hlocs, ⟨⟩⟩
          cases places_head? hg hlocs
        · rw [splitRegs, splitRegs]
          rintro ⟨-, ⟨⟩⟩
      have hh := hhs h List.mem_cons_self
      rw [splitRegs, splitRegs]
      by_cases hfit : g ≤ n ∨ h ≤ n
      · by_cases heq : g = h
        · subst heq
          have hgn : g ≤ n := hfit.elim id id
          have hleft : k + g + (n - g) = 3 := by omega
          have hgs' : ∀ m ∈ gs, m ≠ 0 := fun m hm => hgs m (List.mem_cons_of_mem _ hm)
          have hhs' : ∀ m ∈ hs, m ≠ 0 := fun m hm => hhs m (List.mem_cons_of_mem _ hm)
          have rest := ih hleft htiles.2 hgs' hhs'
          refine (places_agree_cons_iff (by omega)).trans (rest.trans ?_)
          rw [if_pos hgn, if_pos hgn, List.drop_drop, List.cons.injEq, List.sum_cons,
            and_iff_right rfl]
        · -- the first arguments already differ
          apply iff_of_false
          · intro agree
            exact heq (eq_of_places_agree hg hh (by omega) agree)
          · rintro ⟨same, -⟩
            split_ifs at same
            · exact heq (List.cons.inj same).1
            · omega
      · obtain ⟨hgn, hhn⟩ := not_or.mp hfit
        rw [if_neg hgn, if_neg hhn,
          places_agree_stack_iff htiles hgs hhs (by omega) (by omega)]
        exact (and_iff_right rfl).symm

/-- The sizes that are left tile the pieces that are left. -/
theorem Tiles.splitRegs {vts : List ValueType} {sizes : List ℕ} (h : Tiles vts sizes) (n : ℕ) :
    Tiles (vts.drop (splitRegs n sizes).1.sum) (splitRegs n sizes).2 := by
  induction sizes generalizing vts n with
  | nil => exact h
  | cons size sizes ih =>
      rw [Snes.splitRegs]
      split_ifs
      · rw [List.sum_cons, ← List.drop_drop]
        exact ih h.2 (n - size)
      · exact h

/-- Splitting loses no size. -/
theorem splitRegs_sum (n : ℕ) (sizes : List ℕ) :
    (splitRegs n sizes).1.sum + (splitRegs n sizes).2.sum = sizes.sum := by
  induction sizes generalizing n with
  | nil => rfl
  | cons size sizes ih =>
      have rest := ih (n - size)
      rw [splitRegs, List.sum_cons]
      split_ifs
      · rw [List.sum_cons, Nat.add_assoc, rest]
      · rw [List.sum_nil, Nat.zero_add, List.sum_cons]

/-! ## Caller and callee -/

namespace Signature

variable (s : Signature)

/-- The number of pieces of each value that is passed, as far as it has pieces. -/
def pieces : List ℕ :=
  (s.valueWidths.map getNumRegisters).filter (· ≠ 0)

/-- The number of words of each argument, as far as it has words. -/
def words : List ℕ :=
  (parseFunctionArgs s.args).filter (· ≠ 0)

/-- The words of the arguments match the pieces of the values: as long as they fit into the
registers, they are the same numbers, and the words of the other arguments cut the other pieces into
groups of one type. -/
def WordsMatchPieces : Prop :=
  (splitRegs 3 s.pieces).1 = (splitRegs 3 s.words).1 ∧
    Tiles (s.ins.drop (splitRegs 3 s.words).1.sum) (splitRegs 3 s.words).2

/-- The pieces at a call have the types of the pieces in the definition. -/
theorem outs_map_vt : s.outs.map OutputArg.vt = s.ins := by
  rw [outs, ins, List.map_flatMap]
  exact congrArg (List.flatMap · _) (funext outputArgs_map_vt)

/-- The values tile the pieces. -/
theorem tiles_pieces : Tiles s.ins s.pieces :=
  (tiles_filter_iff _ .i8 _).mpr (tiles_flatMap_replicate getNumRegisters getRegisterType _)

/-- The locations at a call. -/
theorem callerLocs_eq : s.callerLocs = places 0 s.ins s.pieces := by
  have groups : parseExternFuncCallArgs s.outs = some s.pieces :=
    parseParts_flatMap_outputArgs s.valueWidths _ le_rfl
  rw [callerLocs, analyzeStandardArguments, if_pos rfl, groups, Option.bind_some, outs_map_vt,
    assignArgs_eq_places, pieces, List.filter_filter]
  simp

/-- The locations in the definition. -/
theorem calleeLocs_eq : s.calleeLocs = places 0 s.ins s.words := by
  rw [calleeLocs, analyzeStandardArguments, if_neg (by decide), assignArgs_eq_places, words]

/-- Words that match the pieces are as many. -/
theorem WordsMatchPieces.sum_eq {s : Signature} (h : s.WordsMatchPieces) :
    s.words.sum = s.pieces.sum := by
  obtain ⟨hsame, htiles⟩ := h
  have rest := htiles.sum_eq
  have all := s.tiles_pieces.sum_eq
  have words := splitRegs_sum 3 s.words
  have pieces := splitRegs_sum 3 s.pieces
  rw [List.length_drop] at rest
  rw [hsame] at pieces
  omega

end Signature

/-- **When caller and callee place the arguments alike**: exactly when the words of the arguments
match the pieces of the values. -/
theorem argumentsPlacedAlike_iff (s : Signature) :
    ArgumentsPlacedAlike s ↔ s.WordsMatchPieces := by
  unfold ArgumentsPlacedAlike
  rw [s.callerLocs_eq, s.calleeLocs_eq]
  refine places_agree_iff rfl s.tiles_pieces ?_ ?_
  · intro g hg
    simpa using (List.mem_filter.mp hg).2
  · intro h hh
    simpa using (List.mem_filter.mp hh).2

/-- A structure of two bytes has two pieces and one word: the second piece has no place in the
definition. -/
theorem not_argumentsPlacedAlike_twoBytes :
    ¬ ArgumentsPlacedAlike ⟨[.struct false [.int 8, .int 8]], none⟩ := by
  rintro ⟨locs, hcaller, hcallee⟩
  have same := hcaller.trans hcallee.symm
  revert same
  decide

/-! ## Scalar arguments -/

/-- Integers and pointers. -/
def IRType.IsScalar : IRType → Prop
  | .int _ => True
  | .pointer => True
  | _ => False

/-- A scalar has as many words as pieces. -/
theorem getNumRegisters_eq_words (width : ℕ) :
    getNumRegisters width = ((width + 7) / 8 + 1) / 2 := by
  unfold getNumRegisters getRegisterType
  split_ifs
  · show (width + 8 - 1) / 8 = _
    omega
  · show (width + 16 - 1) / 16 = _
    omega

/-- A scalar is one value. -/
theorem IRType.IsScalar.valueWidths_eq {type : IRType} (h : type.IsScalar) :
    type.valueWidths = [type.sizeInBits] := by
  cases type with
  | int width => simp [IRType.valueWidths, IRType.sizeInBits]
  | pointer => simp [IRType.valueWidths, IRType.sizeInBits]
  | array count elem => exact h.elim
  | struct packed fields => exact h.elim

/-- `CheckReturn` accepts at most one piece. -/
theorem checkReturn_iff (vts : List ValueType) :
    CCState.checkReturn {} vts = true ↔ vts.length ≤ 1 := by
  rcases vts with _ | ⟨vt, _ | ⟨vt', vts⟩⟩
  · decide
  · cases vt <;> decide
  · cases vt <;> cases vt' <;>
      simp [CCState.checkReturn, CCState.allocateReg, CCState.isAllocated, CCState.markAllocated,
        retCC_SNES, Reg.aliases]

/-- A result is returned in registers if it is at most one piece. -/
theorem Signature.canLowerReturn_iff (s : Signature) :
    s.canLowerReturn = true ↔
      (((s.ret.map IRType.valueWidths).getD []).flatMap outputArgs).length ≤ 1 := by
  rw [canLowerReturn, checkReturn_iff, List.length_map]

/-- The pieces of scalar arguments are their words, with the pointer to the result in front. -/
theorem Signature.pieces_of_scalar (s : Signature) (h : ∀ type ∈ s.args, type.IsScalar) :
    s.pieces = (if s.canLowerReturn then [] else [1]) ++ s.words := by
  have widths : s.args.flatMap IRType.valueWidths = s.args.map IRType.sizeInBits := by
    rw [List.map_eq_flatMap]
    exact List.flatMap_congr fun type htype => (h type htype).valueWidths_eq
  have counts : (s.args.map IRType.sizeInBits).map getNumRegisters = parseFunctionArgs s.args := by
    rw [parseFunctionArgs, List.map_map]
    exact congrArg (List.map · _) (funext fun type => getNumRegisters_eq_words _)
  rw [pieces, valueWidths, widths, List.map_append, counts, List.filter_append, words]
  split_ifs
  · rfl
  · simp [IRType.valueWidths, getNumRegisters, getRegisterType, ValueType.width]

/-- **Scalar arguments** are placed alike exactly when the function returns its value in
registers. -/
theorem argumentsPlacedAlike_iff_canLowerReturn (s : Signature)
    (h : ∀ type ∈ s.args, type.IsScalar) :
    ArgumentsPlacedAlike s ↔ s.canLowerReturn = true := by
  have hpieces := s.pieces_of_scalar h
  have tiles := s.tiles_pieces
  rw [argumentsPlacedAlike_iff]
  constructor
  · intro matches'
    by_contra hret
    have sums := matches'.sum_eq
    rw [hpieces, if_neg hret, List.sum_append] at sums
    simp at sums
  · intro hret
    rw [if_pos hret, List.nil_append] at hpieces
    rw [hpieces] at tiles
    exact ⟨by rw [hpieces], Tiles.splitRegs tiles 3⟩

end Snes
