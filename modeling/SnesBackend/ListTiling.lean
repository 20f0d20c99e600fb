/-
# Tilings of Lists

A list of sizes cuts a list into consecutive groups.  It tiles the list if nothing is
left and each group repeats one element.  Slots tile an interval if they lie one after
the other.
-/
import Mathlib

namespace ListTiling

/-! ## Tilings -/

variable {α : Type*}

/-- Sizes cut a list into groups of one element each, repeated, with nothing left. -/
def Tiles : List α → List ℕ → Prop
  | rest, [] => rest = []
  | rest, size :: sizes =>
      (∃ x, rest.take size = List.replicate size x) ∧ Tiles (rest.drop size) sizes

/-- The sizes of a tiling add up to the length. -/
theorem Tiles.sum_eq {rest : List α} {sizes : List ℕ} (h : Tiles rest sizes) :
    sizes.sum = rest.length := by
  induction sizes generalizing rest with
  | nil =>
      rw [show rest = [] from h]
      rfl
  | cons size sizes ih =>
      obtain ⟨⟨x, htake⟩, hdrop⟩ := h
      have taken := congrArg List.length htake
      have dropped := ih hdrop
      simp only [List.length_take, List.length_replicate, List.length_drop] at taken dropped
      rw [List.sum_cons]
      omega

/-- There is nothing to cut in the empty list. -/
theorem not_tiles_nil_cons {size : ℕ} (hsize : size ≠ 0) (sizes : List ℕ) :
    ¬ Tiles ([] : List α) (size :: sizes) := by
  rintro ⟨⟨x, htake⟩, -⟩
  have taken := congrArg List.length htake
  rw [List.take_nil, List.length_replicate] at taken
  exact hsize taken.symm

/-- Groups of equal elements are tiled by their sizes. -/
theorem tiles_flatMap_replicate {β : Type*} (count : β → ℕ) (elem : β → α) (l : List β) :
    Tiles (l.flatMap fun b => List.replicate (count b) (elem b)) (l.map count) := by
  induction l with
  | nil => rfl
  | cons b l ih =>
      rw [List.flatMap_cons, List.map_cons]
      refine ⟨⟨elem b, ?_⟩, ?_⟩
      · rw [List.take_append_of_le_length (by simp), List.take_replicate, min_self]
      · rwa [List.drop_left' (by simp)]

/-- Empty groups do not matter. -/
theorem tiles_filter_iff (rest : List α) (x : α) (sizes : List ℕ) :
    Tiles rest (sizes.filter (· ≠ 0)) ↔ Tiles rest sizes := by
  induction sizes generalizing rest with
  | nil => rfl
  | cons size sizes ih =>
      rcases Nat.eq_zero_or_pos size with rfl | hpos
      · rw [List.filter_cons_of_neg (by simp), ih]
        constructor
        · intro h
          exact ⟨⟨x, rfl⟩, h⟩
        · rintro ⟨-, h⟩
          exact h
      · rw [List.filter_cons_of_pos (by simp; omega)]
        exact and_congr_right fun _ => ih _

/-! ## The elements of the groups -/

/-- The elements that a tiling repeats: each group starts with its element. -/
def groupHeads : List α → List ℕ → Option (List α)
  | _, [] => some []
  | rest, size :: sizes =>
      rest.head?.bind fun x =>
        (groupHeads (rest.drop size) sizes).map (List.replicate size x ++ ·)

/-- **A tiling repeats what is there.** -/
theorem groupHeads_eq_iff (rest : List α) (sizes : List ℕ) (hpos : ∀ size ∈ sizes, 0 < size) :
    groupHeads rest sizes = some rest ↔ Tiles rest sizes := by
  induction sizes generalizing rest with
  | nil =>
      rw [groupHeads, Tiles, Option.some_inj]
      exact eq_comm
  | cons size sizes ih =>
      have size_pos := hpos size List.mem_cons_self
      have ih := ih (rest.drop size) fun n hn => hpos n (List.mem_cons_of_mem _ hn)
      cases rest with
      | nil =>
          refine iff_of_false ?_ (not_tiles_nil_cons size_pos.ne' sizes)
          rw [groupHeads]
          rintro ⟨⟩
      | cons x rest =>
          rw [groupHeads, Tiles, List.head?_cons, Option.bind_some, Option.map_eq_some_iff]
          constructor
          · rintro ⟨heads, hheads, happ⟩
            have htake : (x :: rest).take size = List.replicate size x := by
              rw [← happ, List.take_left' (by simp)]
            have hdrop : (x :: rest).drop size = heads := by
              rw [← happ, List.drop_left' (by simp)]
            exact ⟨⟨x, htake⟩, ih.mp (hheads.trans (congrArg some hdrop.symm))⟩
          · rintro ⟨⟨y, htake⟩, htiles⟩
            refine ⟨(x :: rest).drop size, ih.mpr htiles, ?_⟩
            have same : y = x := by
              obtain ⟨n, rfl⟩ := Nat.exists_eq_succ_of_ne_zero size_pos.ne'
              rw [List.take_succ_cons, List.replicate_succ] at htake
              exact (List.cons.inj htake).1.symm
            subst same
            rw [← htake, List.take_append_drop]

/-! ## Tilings of intervals -/

/-- Slots, each with its start and its size, lie one after the other from a start to an end. -/
def TilesInterval : ℕ → List (ℕ × ℕ) → ℕ → Prop
  | start, [], stop => start = stop
  | start, slot :: slots, stop => slot.1 = start ∧ TilesInterval (start + slot.2) slots stop

/-- A slot of a tiling starts at the start or behind it. -/
theorem TilesInterval.start_le {start stop : ℕ} {slots : List (ℕ × ℕ)}
    (h : TilesInterval start slots stop) : ∀ slot ∈ slots, start ≤ slot.1 := by
  induction slots generalizing start with
  | nil => simp
  | cons first slots ih =>
      obtain ⟨hfirst, hslots⟩ := h
      intro slot hslot
      rcases List.mem_cons.mp hslot with rfl | hslot
      · exact hfirst.ge
      · exact (Nat.le_add_right _ _).trans (ih hslots slot hslot)

/-- **The slots of a tiling are disjoint**: each one ends before the next ones start. -/
theorem TilesInterval.pairwise {start stop : ℕ} {slots : List (ℕ × ℕ)}
    (h : TilesInterval start slots stop) :
    slots.Pairwise fun slot slot' => slot.1 + slot.2 ≤ slot'.1 := by
  induction slots generalizing start with
  | nil => exact .nil
  | cons first slots ih =>
      obtain ⟨hfirst, hslots⟩ := h
      refine .cons (fun slot hslot => ?_) (ih hslots)
      rw [hfirst]
      exact hslots.start_le slot hslot

end ListTiling
