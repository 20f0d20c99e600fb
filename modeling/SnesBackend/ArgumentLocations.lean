/-
# What the Locations of Arguments Satisfy

The locations that `analyzeStandardArguments` assigns, for all sizes of arguments and all
types of their pieces: the registers are there and do not overlap, an argument is in
registers or on the stack as a whole, and the stack slots lie one after the other up to
the next stack offset.  `LowerCall` relies on this: it takes the registers up to the first
stack location and asserts that all later locations are on the stack.
-/
import SnesBackend.ArgumentPlaces

namespace Snes

open ListTiling

/-! ## Locations -/

namespace CCValAssign

/-- `isRegLoc`. -/
def isRegLoc (loc : CCValAssign) : Bool :=
  match loc.loc with
  | .reg _ => true
  | .mem _ => false

/-- `isMemLoc`. -/
def isMemLoc (loc : CCValAssign) : Bool :=
  match loc.loc with
  | .reg _ => false
  | .mem _ => true

/-- The stack slot, with its size. -/
def slot (loc : CCValAssign) : Option (ℕ × ℕ) :=
  match loc.loc with
  | .reg _ => none
  | .mem offset => some (offset, loc.locVT.bytes)

/-- Two locations that are not registers with a common half. -/
def Apart (loc loc' : CCValAssign) : Prop :=
  ∀ reg reg', loc.loc = .reg (some reg) → loc'.loc = .reg (some reg') → reg' ∉ reg.aliases

end CCValAssign

/-- Each argument of a size other than zero is in registers as a whole, or on the stack as a
whole. -/
def ArgumentsWhole : List ℕ → List CCValAssign → Prop
  | [], _ => True
  | size :: sizes, locs =>
      ((∀ loc ∈ locs.take size, loc.isRegLoc = true) ∨
          ∀ loc ∈ locs.take size, loc.isMemLoc = true) ∧
        ArgumentsWhole sizes (locs.drop size)

/-- What the locations satisfy.  `LowerCall` and `LowerFormalArguments` take the location at an
index for the piece at that index; the numbers of the values are each there once, and are reversed
in an argument in registers. -/
structure LocationsRight (sizes : List ℕ) (vts : List ValueType) (locs : List CCValAssign)
    (nextStackOffset : ℕ) : Prop where
  types : locs.map CCValAssign.locVT = vts
  numbers : (locs.map CCValAssign.valNo).Perm (List.range vts.length)
  registers : ∀ loc ∈ locs, ∀ reg, loc.loc = .reg reg → reg.isSome = true
  apart : locs.Pairwise CCValAssign.Apart
  whole : ArgumentsWhole sizes locs
  stackLast : locs.Pairwise fun loc loc' => loc.isMemLoc = true → loc'.isMemLoc = true
  slots : TilesInterval 0 (locs.filterMap CCValAssign.slot) nextStackOffset
  disjoint : (locs.filterMap CCValAssign.slot).Pairwise fun slot slot' =>
    slot.1 + slot.2 ≤ slot'.1

/-! ## The stack -/

/-- The bytes of the stack slots. -/
def stackBytes (locs : List CCValAssign) : ℕ :=
  ((locs.filterMap CCValAssign.slot).map Prod.snd).sum

theorem stackBytes_append (locs locs' : List CCValAssign) :
    stackBytes (locs ++ locs') = stackBytes locs + stackBytes locs' := by
  simp [stackBytes]

/-- The order does not matter. -/
theorem stackBytes_perm {locs locs' : List CCValAssign} (h : locs.Perm locs') :
    stackBytes locs = stackBytes locs' :=
  ((h.filterMap _).map _).sum_eq

/-- Locations on the stack are a tiling. -/
theorem tilesInterval_stackLocs (vts : List ValueType) (n offset : ℕ) :
    TilesInterval offset ((stackLocs n offset vts).filterMap CCValAssign.slot)
      (offset + stackBytes (stackLocs n offset vts)) := by
  induction vts generalizing n offset with
  | nil => exact (Nat.add_zero offset).symm
  | cons vt vts ih =>
      have hslot : (⟨n, vt, .mem offset⟩ : CCValAssign).slot = some (offset, vt.bytes) := rfl
      have hrest := ih (n + 1) (offset + vt.bytes)
      have hbytes : stackBytes (stackLocs n offset (vt :: vts)) =
          vt.bytes + stackBytes (stackLocs (n + 1) (offset + vt.bytes) vts) := by
        simp [stackBytes, stackLocs, hslot]
      rw [hbytes, ← Nat.add_assoc, stackLocs, List.filterMap_cons_some hslot]
      exact ⟨rfl, hrest⟩

/-- All locations on the stack are there. -/
theorem isMemLoc_of_mem_stackLocs {vts : List ValueType} {n offset : ℕ} {loc : CCValAssign}
    (h : loc ∈ stackLocs n offset vts) : loc.isMemLoc = true := by
  induction vts generalizing n offset with
  | nil => simp [stackLocs] at h
  | cons vt vts ih =>
      rcases List.mem_cons.mp h with rfl | h
      · rfl
      · exact ih h

namespace ArgState

/-- The next stack offset is the number of bytes on the stack. -/
def OffsetRight (a : ArgState) : Prop :=
  a.cc.stackOffset = stackBytes a.argLocs

/-- A piece that goes to a register does not move the stack offset. -/
theorem OffsetRight.assignReg {a : ArgState} (h : OffsetRight a) (vt : ValueType) :
    OffsetRight (a.assignReg vt) := by
  have hoffset : (a.cc.allocateReg (regList vt)).2.stackOffset = a.cc.stackOffset := by
    unfold CCState.allocateReg
    split <;> rfl
  change (a.cc.allocateReg (regList vt)).2.stackOffset = stackBytes (a.argLocs ++ [_])
  rw [hoffset, h, stackBytes_append]
  rfl

/-- A piece that goes to the stack moves it by its size. -/
theorem OffsetRight.assignStack {a : ArgState} (h : OffsetRight a) (vt : ValueType) :
    OffsetRight (a.assignStack vt) := by
  have halign : alignTo a.cc.stackOffset (integerABIAlign vt.width) = a.cc.stackOffset := by
    rw [show integerABIAlign vt.width = 1 by cases vt <;> decide]
    simp [alignTo]
  change alignTo a.cc.stackOffset (integerABIAlign vt.width) + vt.bytes =
    stackBytes (a.argLocs ++ [_])
  rw [halign, h, stackBytes_append]
  rfl

/-- Reversing a group does not matter. -/
theorem OffsetRight.reverse {a : ArgState} (h : OffsetRight a) (pos size : ℕ) :
    OffsetRight (a.reverse pos size) := by
  have hperm : (a.argLocs.take pos ++ ((a.argLocs.drop pos).take size).reverse ++
      a.argLocs.drop (pos + size)).Perm a.argLocs := by
    have hgroup := ((a.argLocs.drop pos).take size).reverse_perm
    have hsplit : a.argLocs.take pos ++ ((a.argLocs.drop pos).take size) ++
        a.argLocs.drop (pos + size) = a.argLocs := by
      rw [List.append_assoc, ← List.drop_drop, List.take_append_drop, List.take_append_drop]
    exact ((hgroup.append_left _).append_right _).trans (.of_eq hsplit)
  exact h.trans (stackBytes_perm hperm).symm

/-- A number of pieces. -/
theorem OffsetRight.iterate {f : ArgState → ArgState}
    (hf : ∀ a, OffsetRight a → OffsetRight (f a)) (size : ℕ) {a : ArgState} (h : OffsetRight a) :
    OffsetRight (f^[size] a) := by
  induction size generalizing a with
  | zero => exact h
  | succ size ih =>
      rw [Function.iterate_succ_apply]
      exact ih (hf a h)

/-- An argument. -/
theorem OffsetRight.assignArg {vts : List ValueType} {size : ℕ} {a b : ArgState}
    (h : OffsetRight a) (hb : ArgState.assignArg vts a size = some b) : OffsetRight b := by
  unfold ArgState.assignArg at hb
  rcases Nat.eq_zero_or_pos size with rfl | hpos
  · rw [if_pos rfl] at hb
    exact Option.some.inj hb ▸ h
  · rw [if_neg hpos.ne'] at hb
    obtain ⟨vt, -, rfl⟩ := Option.map_eq_some_iff.mp hb
    split_ifs
    · exact (OffsetRight.iterate (fun a ha => ha.assignReg vt) size h).reverse a.pos size
    · exact OffsetRight.iterate (fun a ha => ha.assignStack vt) size h

/-- **All arguments**: the next stack offset is the number of bytes on the stack. -/
theorem OffsetRight.foldlM {vts : List ValueType} {sizes : List ℕ} {a b : ArgState}
    (h : OffsetRight a) (hb : sizes.foldlM (ArgState.assignArg vts) a = some b) :
    OffsetRight b := by
  induction sizes generalizing a with
  | nil => exact Option.some.inj hb ▸ h
  | cons size sizes ih =>
      rw [List.foldlM_cons] at hb
      obtain ⟨next, hnext, hrest⟩ := Option.bind_eq_some_iff.mp hb
      exact ih (h.assignArg hnext) hrest

end ArgState

/-! ## The registers -/

/-- Locations in registers: the pieces from one number up to another, each once and in the register
of its number. -/
structure RegPart (k n : ℕ) (locs : List CCValAssign) : Prop where
  numbers : (locs.map CCValAssign.valNo).Perm (List.range' k (n - k))
  registers : ∀ loc ∈ locs, loc.loc = .reg (regList loc.locVT)[loc.valNo]?

/-- Numbers in a row. -/
theorem range'_append_range' {k m n : ℕ} (hkm : k ≤ m) (hmn : m ≤ n) :
    List.range' k (m - k) ++ List.range' m (n - m) = List.range' k (n - k) := by
  rw [show n - k = m - k + (n - m) by omega, ← List.range'_append_1, Nat.add_sub_cancel' hkm]

/-- Parts in a row. -/
theorem RegPart.append {k m n : ℕ} {locs locs' : List CCValAssign} (h : RegPart k m locs)
    (h' : RegPart m n locs') (hkm : k ≤ m) (hmn : m ≤ n) : RegPart k n (locs ++ locs') where
  numbers := by
    rw [List.map_append, ← range'_append_range' hkm hmn]
    exact h.numbers.append h'.numbers
  registers loc hloc := by
    rcases List.mem_append.mp hloc with hloc | hloc
    · exact h.registers loc hloc
    · exact h'.registers loc hloc

/-- No locations. -/
theorem regPart_nil (k : ℕ) : RegPart k k [] where
  numbers := by simp
  registers := by simp

/-- A group, reversed. -/
theorem regPart_regLocs (vt : ValueType) (k size : ℕ) :
    RegPart k (k + size) (regLocs vt k size).reverse where
  numbers := by
    have hnumbers : (regLocs vt k size).map CCValAssign.valNo = List.range' k size := by
      rw [regLocs, List.map_map]
      exact List.map_id' _
    rw [List.map_reverse, hnumbers, Nat.add_sub_cancel_left]
    exact List.reverse_perm _
  registers loc hloc := by
    obtain ⟨j, -, rfl⟩ := List.mem_map.mp (List.mem_reverse.mp hloc)
    rfl

/-- The numbers on the stack go on. -/
theorem stackLocs_map_valNo (vts : List ValueType) (n offset : ℕ) :
    (stackLocs n offset vts).map CCValAssign.valNo = List.range' n vts.length := by
  induction vts generalizing n offset with
  | nil => rfl
  | cons vt vts ih => rw [stackLocs, List.map_cons, ih, List.length_cons, List.range'_succ]

/-- Registers of different numbers do not overlap, whatever the types. -/
theorem regList_apart {vt vt' : ValueType} {j j' : ℕ} {reg reg' : Reg} (hne : j ≠ j')
    (hreg : (regList vt)[j]? = some reg) (hreg' : (regList vt')[j']? = some reg') :
    reg' ∉ reg.aliases := by
  have three (vt : ValueType) : (regList vt).length = 3 := by cases vt <;> rfl
  have hj : j < 3 := by
    obtain ⟨hj, -⟩ := List.getElem?_eq_some_iff.mp hreg
    rwa [three] at hj
  have hj' : j' < 3 := by
    obtain ⟨hj', -⟩ := List.getElem?_eq_some_iff.mp hreg'
    rwa [three] at hj'
  interval_cases j <;> interval_cases j' <;> first
    | exact absurd rfl hne
    | (cases vt <;> cases vt' <;> cases hreg <;> cases hreg' <;> decide)

section

variable {k n : ℕ} {locs : List CCValAssign}

/-- All locations of a part are registers. -/
theorem RegPart.isRegLoc (h : RegPart k n locs) : ∀ loc ∈ locs, loc.isRegLoc = true := by
  intro loc hloc
  unfold CCValAssign.isRegLoc
  rw [h.registers loc hloc]

/-- The registers of a part do not overlap. -/
theorem RegPart.apart (h : RegPart k n locs) : locs.Pairwise CCValAssign.Apart := by
  have hdistinct : (locs.map CCValAssign.valNo).Pairwise (· ≠ ·) :=
    h.numbers.nodup_iff.mpr List.nodup_range'
  rw [List.pairwise_map] at hdistinct
  refine hdistinct.imp_of_mem fun hloc hloc' hne reg reg' hreg hreg' => ?_
  rw [h.registers _ hloc, ArgLoc.reg.injEq] at hreg
  rw [h.registers _ hloc', ArgLoc.reg.injEq] at hreg'
  exact regList_apart hne hreg hreg'

/-- The registers of a part are there. -/
theorem RegPart.isSome (h : RegPart k n locs) (hn : n ≤ 3) :
    ∀ loc ∈ locs, ∀ reg, loc.loc = .reg reg → reg.isSome = true := by
  intro loc hloc reg hreg
  have hlt := h.numbers.mem_iff.mp (List.mem_map_of_mem hloc)
  rw [List.mem_range'_1] at hlt
  have hthree : (regList loc.locVT).length = 3 := by cases loc.locVT <;> rfl
  rw [h.registers loc hloc, ArgLoc.reg.injEq] at hreg
  rw [← hreg, List.getElem?_eq_getElem (by omega)]
  rfl

end

/-! ## All locations -/

/-- A group of equal pieces in front. -/
theorem exists_of_tiles_cons {vts : List ValueType} {size : ℕ} {sizes : List ℕ}
    (h : Tiles vts (size :: sizes)) (hsize : size ≠ 0) :
    ∃ vt rest, vts = List.replicate size vt ++ rest ∧ vts.head? = some vt ∧
      vts.drop size = rest ∧ Tiles rest sizes := by
  obtain ⟨⟨vt, htake⟩, hdrop⟩ := h
  have hsplit : vts = List.replicate size vt ++ vts.drop size := by
    rw [← htake, List.take_append_drop]
  refine ⟨vt, vts.drop size, hsplit, ?_, rfl, hdrop⟩
  obtain ⟨m, rfl⟩ := Nat.exists_eq_succ_of_ne_zero hsize
  rw [hsplit]
  rfl

/-- Groups on the stack are whole. -/
theorem argumentsWhole_of_isMemLoc {locs : List CCValAssign}
    (h : ∀ loc ∈ locs, loc.isMemLoc = true) (sizes : List ℕ) : ArgumentsWhole sizes locs := by
  induction sizes generalizing locs with
  | nil => trivial
  | cons size sizes ih =>
      exact ⟨.inr fun loc hloc => h loc (List.mem_of_mem_take hloc),
        ih fun loc hloc => h loc (List.mem_of_mem_drop hloc)⟩

/-- Arguments of size zero do not matter. -/
theorem argumentsWhole_filter_iff (sizes : List ℕ) (locs : List CCValAssign) :
    ArgumentsWhole (sizes.filter (· ≠ 0)) locs ↔ ArgumentsWhole sizes locs := by
  induction sizes generalizing locs with
  | nil => rfl
  | cons size sizes ih =>
      rcases Nat.eq_zero_or_pos size with rfl | hpos
      · rw [List.filter_cons_of_neg (by simp), ih, ArgumentsWhole]
        simp
      · rw [List.filter_cons_of_pos (by simp; omega), ArgumentsWhole, ArgumentsWhole, ih]

/-- **The shape of the locations**: a part in registers, then a part on the stack. -/
theorem exists_places {sizes : List ℕ} (hsizes : ∀ size ∈ sizes, size ≠ 0) {k : ℕ} (hk : k ≤ 3)
    {vts : List ValueType} (h : Tiles vts sizes) :
    ∃ n front rest, k ≤ n ∧ n ≤ 3 ∧ places k vts sizes = some (front ++ stackLocs n 0 rest) ∧
      RegPart k n front ∧ front.map CCValAssign.locVT ++ rest = vts ∧
      ArgumentsWhole sizes (front ++ stackLocs n 0 rest) := by
  induction sizes generalizing k vts with
  | nil =>
      obtain rfl : vts = [] := h
      exact ⟨k, [], [], le_rfl, hk, rfl, regPart_nil k, rfl, trivial⟩
  | cons size sizes ih =>
      have hsize := hsizes size List.mem_cons_self
      by_cases hfit : k + size ≤ 3
      · obtain ⟨vt, rest, hvts, hhead, hdrop, htiles⟩ := exists_of_tiles_cons h hsize
        obtain ⟨n, front, stack, hkn, hn, hplaces, hpart, htypes, hwhole⟩ :=
          ih (fun m hm => hsizes m (List.mem_cons_of_mem _ hm)) hfit htiles
        have hgroup := regPart_regLocs vt k size
        have hlength : (regLocs vt k size).reverse.length = size := by simp [regLocs]
        refine ⟨n, (regLocs vt k size).reverse ++ front, stack, by omega, hn, ?_,
          hgroup.append hpart (Nat.le_add_right k size) hkn, ?_, ?_⟩
        · rw [places, if_pos hfit, hhead, Option.bind_some, hdrop, hplaces, Option.map_some,
            List.append_assoc]
        · rw [List.map_append, List.append_assoc, htypes, hvts]
          simp [regLocs, Function.comp_def]
        · refine ⟨.inl fun loc hloc => ?_, ?_⟩
          · rw [List.append_assoc, List.take_left' hlength] at hloc
            exact hgroup.isRegLoc loc hloc
          · rwa [List.append_assoc, List.drop_left' hlength]
      · have hpos : ∀ m ∈ size :: sizes, 0 < m := fun m hm => Nat.pos_of_ne_zero (hsizes m hm)
        have hheads := (groupHeads_eq_iff vts (size :: sizes) hpos).mpr h
        refine ⟨k, [], vts, le_rfl, hk, ?_, regPart_nil k, rfl, ?_⟩
        · rw [places, if_neg hfit, hheads]
          rfl
        · exact argumentsWhole_of_isMemLoc (fun loc hloc => isMemLoc_of_mem_stackLocs hloc) _

/-- A location is a register or on the stack. -/
theorem isRegLoc_eq_false_of_isMemLoc {loc : CCValAssign} (h : loc.isMemLoc = true) :
    loc.isRegLoc = false := by
  unfold CCValAssign.isMemLoc at h
  unfold CCValAssign.isRegLoc
  split at h <;> simp_all

/-- A register is a register location. -/
theorem isRegLoc_of_loc_eq {loc : CCValAssign} {reg : Option Reg} (h : loc.loc = .reg reg) :
    loc.isRegLoc = true := by
  unfold CCValAssign.isRegLoc
  rw [h]

/-- Locations in registers have no slots. -/
theorem filterMap_slot_of_isRegLoc {locs : List CCValAssign}
    (h : ∀ loc ∈ locs, loc.isRegLoc = true) : locs.filterMap CCValAssign.slot = [] := by
  rw [List.filterMap_eq_nil_iff]
  intro loc hloc
  have hreg := h loc hloc
  unfold CCValAssign.isRegLoc at hreg
  unfold CCValAssign.slot
  split at hreg <;> simp_all

section

variable {n : ℕ} {front stack : List CCValAssign}

/-- Registers in front do not overlap, and the stack behind them has none. -/
theorem RegPart.apart_append (h : RegPart 0 n front)
    (hstack : ∀ loc ∈ stack, loc.isMemLoc = true) :
    (front ++ stack).Pairwise CCValAssign.Apart := by
  have hnone {loc : CCValAssign} (hloc : loc ∈ stack) (reg : Reg) : loc.loc ≠ .reg (some reg) := by
    intro hreg
    have hfalse := isRegLoc_eq_false_of_isMemLoc (hstack loc hloc)
    simp [isRegLoc_of_loc_eq hreg] at hfalse
  refine List.pairwise_append.mpr ⟨h.apart, ?_, ?_⟩
  · exact List.Pairwise.imp_of_mem (fun hloc _ _ reg _ hreg => absurd hreg (hnone hloc reg))
      (List.pairwise_of_forall (R := fun _ _ => True) fun _ _ => trivial)
  · exact fun _ _ _ hloc' _ reg' _ hreg' => absurd hreg' (hnone hloc' reg')

/-- The stack comes last. -/
theorem RegPart.stackLast_append (h : RegPart 0 n front)
    (hstack : ∀ loc ∈ stack, loc.isMemLoc = true) :
    (front ++ stack).Pairwise fun loc loc' => loc.isMemLoc = true → loc'.isMemLoc = true := by
  refine List.pairwise_append.mpr ⟨?_, ?_, fun _ _ loc' hloc' _ => hstack loc' hloc'⟩
  · refine List.Pairwise.imp_of_mem (fun {loc _} hloc _ _ hmem => ?_)
      (List.pairwise_of_forall (R := fun _ _ => True) fun _ _ => trivial)
    have hfalse := isRegLoc_eq_false_of_isMemLoc hmem
    simp [h.isRegLoc loc hloc] at hfalse
  · exact List.Pairwise.imp_of_mem (fun _ hloc' _ _ => hstack _ hloc')
      (List.pairwise_of_forall (R := fun _ _ => True) fun _ _ => trivial)

end

/-- **The locations are right** for all sizes of arguments and types of pieces that fit together. -/
theorem assignArgs_locationsRight {vts : List ValueType} {sizes : List ℕ} (h : Tiles vts sizes) :
    ∃ a, sizes.foldlM (ArgState.assignArg vts) {} = some a ∧
      LocationsRight sizes vts a.argLocs a.cc.stackOffset := by
  have hnonzero : ∀ size ∈ sizes.filter (· ≠ 0), size ≠ 0 := by
    intro size hsize
    simpa using (List.mem_filter.mp hsize).2
  obtain ⟨n, front, rest, -, hn, hplaces, hpart, htypes, hwhole⟩ :=
    exists_places hnonzero (Nat.zero_le 3) ((tiles_filter_iff vts .i8 sizes).mpr h)
  have hlocs := (assignArgs_eq_places vts sizes).trans hplaces
  obtain ⟨a, hfold, hargLocs⟩ := Option.map_eq_some_iff.mp hlocs
  have hoffset : a.OffsetRight := ArgState.OffsetRight.foldlM (a := {}) rfl hfold
  have hstack : ∀ loc ∈ stackLocs n 0 rest, loc.isMemLoc = true :=
    fun loc => isMemLoc_of_mem_stackLocs
  have htiles : TilesInterval 0 (a.argLocs.filterMap CCValAssign.slot) a.cc.stackOffset := by
    have hslots := tilesInterval_stackLocs rest n 0
    rw [hoffset, stackBytes, hargLocs, List.filterMap_append,
      filterMap_slot_of_isRegLoc hpart.isRegLoc, List.nil_append]
    rwa [Nat.zero_add] at hslots
  refine ⟨a, hfold, ⟨?_, ?_, ?_, ?_, ?_, ?_, htiles, htiles.pairwise⟩⟩
  · rw [hargLocs, List.map_append, stackLocs_map_locVT, htypes]
  · have hlength : front.length = n := by simpa using hpart.numbers.length_eq
    have hnumbers := hpart.numbers.append_right (List.range' n rest.length)
    have hall := range'_append_range' (Nat.zero_le n) (Nat.le_add_right n rest.length)
    rw [Nat.add_sub_cancel_left, Nat.sub_zero] at hall
    rw [hargLocs, List.map_append, stackLocs_map_valNo, ← htypes, List.length_append,
      List.length_map, hlength, List.range_eq_range', ← Nat.sub_zero (n + rest.length), ← hall]
    exact hnumbers
  · rw [hargLocs]
    intro loc hloc reg hreg
    rcases List.mem_append.mp hloc with hloc | hloc
    · exact hpart.isSome hn loc hloc reg hreg
    · have hfalse := isRegLoc_eq_false_of_isMemLoc (hstack loc hloc)
      simp [isRegLoc_of_loc_eq hreg] at hfalse
  · rw [hargLocs]
    exact hpart.apart_append hstack
  · rw [hargLocs, ← argumentsWhole_filter_iff]
    exact hwhole
  · rw [hargLocs]
    exact hpart.stackLast_append hstack

/-- A byte in `AL`, a word in `X`, and two words that no longer fit and go to the stack. -/
theorem assignArgs_locationsRight_mixed :
    ∃ a, [1, 1, 0, 2].foldlM (ArgState.assignArg [.i8, .i16, .i16, .i16]) {} = some a ∧
      LocationsRight [1, 1, 0, 2] [.i8, .i16, .i16, .i16] a.argLocs a.cc.stackOffset :=
  assignArgs_locationsRight ⟨⟨.i8, rfl⟩, ⟨.i16, rfl⟩, ⟨.i8, rfl⟩, ⟨.i16, rfl⟩, rfl⟩

end Snes
