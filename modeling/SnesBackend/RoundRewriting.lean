/-
# Rewriting a List in Rounds

A pass over a list replaces each element by a list of elements, leaves it alone,
or fails, and may look at what stands before the element, already rewritten.
Rounds of the pass are repeated until a round changes nothing, within a limit.

The rules: a pass that only replaces elements by elements of a smaller rank ends
with elements of rank zero; an element that the pass never changes survives
every round; an element on which the pass always fails makes it fail.
-/
import Mathlib

namespace RoundRewriting

variable {α : Type*}

/-- What a pass does with one element. -/
inductive Step (α : Type*) where
  | unchanged
  | replaced (new : List α)
  | failed

/-- One round: the new list, and whether anything was replaced. -/
def rewriteRound (step : List α → α → Step α) : List α → List α → Option (List α × Bool)
  | _, [] => some ([], false)
  | before, a :: rest =>
      match step before a with
      | .unchanged =>
          (rewriteRound step (before ++ [a]) rest).map fun result => (a :: result.1, result.2)
      | .replaced new =>
          (rewriteRound step (before ++ new) rest).map fun result => (new ++ result.1, true)
      | .failed => none

/-- At most `limit` rounds, the last of which changes nothing. -/
def rewriteRounds (step : List α → α → Step α) : ℕ → List α → Option (List α)
  | 0, _ => none
  | limit + 1, list =>
      (rewriteRound step [] list).bind fun result =>
        if result.2 then rewriteRounds step limit result.1 else some result.1

/-! ## One round after the other -/

section

variable {step : List α → α → Step α}

/-- A round over two parts: the second part sees the first one rewritten. -/
theorem rewriteRound_append (before list list' : List α) :
    rewriteRound step before (list ++ list') =
      (rewriteRound step before list).bind fun first =>
        (rewriteRound step (before ++ first.1) list').map fun second =>
          (first.1 ++ second.1, first.2 || second.2) := by
  induction list generalizing before with
  | nil => cases hround : rewriteRound step before list' <;> simp [rewriteRound, hround]
  | cons a rest ih =>
      rcases ha : step before a with _ | new | _
      · simp only [List.cons_append, rewriteRound, ha, ih]
        cases rewriteRound step (before ++ [a]) rest with
        | none => rfl
        | some first =>
            simp only [Option.bind_some, Option.map_some, List.append_assoc, List.cons_append,
              List.nil_append, Option.map_map]
            rfl
      · simp only [List.cons_append, rewriteRound, ha, ih]
        cases rewriteRound step (before ++ new) rest with
        | none => rfl
        | some first =>
            simp only [Option.bind_some, Option.map_some, List.append_assoc, Option.map_map,
              Bool.true_or]
            rfl
      · simp [rewriteRound, ha]

/-- A round that changes something is followed by another one. -/
theorem rewriteRounds_of_changed {limit : ℕ} {list next : List α}
    (h : rewriteRound step [] list = some (next, true)) :
    rewriteRounds step (limit + 1) list = rewriteRounds step limit next := by
  simp [rewriteRounds, h]

/-- A round that changes nothing is the last one. -/
theorem rewriteRounds_of_unchanged {limit : ℕ} {list next : List α}
    (h : rewriteRound step [] list = some (next, false)) :
    rewriteRounds step (limit + 1) list = some next := by
  simp [rewriteRounds, h]

/-- A round changes nothing when the pass leaves every element alone. -/
theorem rewriteRound_of_forall_unchanged (before : List α) {list : List α}
    (h : ∀ a ∈ list, ∀ before, step before a = .unchanged) :
    rewriteRound step before list = some (list, false) := by
  induction list generalizing before with
  | nil => rfl
  | cons a rest ih =>
      rw [List.forall_mem_cons] at h
      simp [rewriteRound, h.1 before, ih (before ++ [a]) h.2]

/-- A round replaces every element when the pass replaces all of them. -/
theorem rewriteRound_of_forall_replaced {β : Type*} {elem : β → α} {f : β → List α}
    (before : List α) {items : List β}
    (h : ∀ b ∈ items, ∀ before, step before (elem b) = .replaced (f b)) :
    rewriteRound step before (items.map elem) = some (items.flatMap f, !items.isEmpty) := by
  induction items generalizing before with
  | nil => rfl
  | cons b rest ih =>
      rw [List.forall_mem_cons] at h
      simp [rewriteRound, h.1 before, ih (before ++ f b) h.2]

/-- **Two rounds are enough** when all elements are replaced by elements that stay. -/
theorem rewriteRounds_of_forall_replaced {β : Type*} {elem : β → α} {f : β → List α}
    {items : List β} (h : ∀ b ∈ items, ∀ before, step before (elem b) = .replaced (f b))
    (hstay : ∀ a ∈ items.flatMap f, ∀ before, step before a = .unchanged) (limit : ℕ) :
    rewriteRounds step (limit + 2) (items.map elem) = some (items.flatMap f) := by
  have hfirst := rewriteRound_of_forall_replaced [] h
  have hsecond := rewriteRound_of_forall_unchanged [] hstay
  cases items with
  | nil => exact rewriteRounds_of_unchanged hfirst
  | cons b rest => rw [rewriteRounds_of_changed hfirst, rewriteRounds_of_unchanged hsecond]

end

/-! ## Ranks -/

/-- A pass that goes down in rank on good elements, and leaves those of rank zero alone. -/
structure Ranked (step : List α → α → Step α) (Good : α → Prop) (rank : α → ℕ) : Prop where
  stop : ∀ before a, Good a → rank a = 0 → step before a = .unchanged
  down : ∀ before a, Good a → 0 < rank a →
    ∃ new, step before a = .replaced new ∧ ∀ b ∈ new, Good b ∧ rank b < rank a

section

variable {step : List α → α → Step α} {Good : α → Prop} {rank : α → ℕ}

/-- A round lowers the ranks. -/
theorem Ranked.round_down (h : Ranked step Good rank) {n : ℕ} (before list : List α)
    (hgood : ∀ a ∈ list, Good a ∧ rank a ≤ n + 1) :
    ∃ new changed, rewriteRound step before list = some (new, changed) ∧
      ∀ b ∈ new, Good b ∧ rank b ≤ n := by
  induction list generalizing before with
  | nil => exact ⟨[], false, rfl, by simp⟩
  | cons a rest ih =>
      obtain ⟨ha, hrank⟩ := hgood a List.mem_cons_self
      have hrest := fun b hb => hgood b (List.mem_cons_of_mem a hb)
      rcases Nat.eq_zero_or_pos (rank a) with hzero | hpos
      · obtain ⟨new, changed, hround, hnew⟩ := ih (before ++ [a]) hrest
        refine ⟨a :: new, changed, ?_, ?_⟩
        · simp [rewriteRound, h.stop before a ha hzero, hround]
        · intro b hb
          rcases List.mem_cons.mp hb with rfl | hb
          · exact ⟨ha, by omega⟩
          · exact hnew b hb
      · obtain ⟨front, hstep, hfront⟩ := h.down before a ha hpos
        obtain ⟨new, changed, hround, hnew⟩ := ih (before ++ front) hrest
        refine ⟨front ++ new, true, ?_, ?_⟩
        · simp [rewriteRound, hstep, hround]
        · intro b hb
          rcases List.mem_append.mp hb with hb | hb
          · obtain ⟨hb, hlt⟩ := hfront b hb
            exact ⟨hb, by omega⟩
          · exact hnew b hb

/-- A round leaves a list of elements of rank zero alone. -/
theorem Ranked.round_zero (h : Ranked step Good rank) (before : List α) {list : List α}
    (hgood : ∀ a ∈ list, Good a ∧ rank a = 0) : rewriteRound step before list = some (list, false) :=
  rewriteRound_of_forall_unchanged before fun a ha before =>
    h.stop before a (hgood a ha).1 (hgood a ha).2

/-- A round that replaces nothing leaves elements of rank zero. -/
theorem Ranked.rank_zero_of_round_false (h : Ranked step Good rank) {before list new : List α}
    (hgood : ∀ a ∈ list, Good a) (hround : rewriteRound step before list = some (new, false)) :
    ∀ b ∈ new, rank b = 0 := by
  induction list generalizing before new with
  | nil =>
      intro b hb
      simp only [rewriteRound, Option.some.injEq, Prod.mk.injEq, and_true] at hround
      simp [← hround] at hb
  | cons a rest ih =>
      intro b hb
      have ha := hgood a List.mem_cons_self
      rcases Nat.eq_zero_or_pos (rank a) with hzero | hpos
      · simp only [rewriteRound, h.stop before a ha hzero, Option.map_eq_some_iff, Prod.mk.injEq,
          Prod.exists] at hround
        obtain ⟨tail, _, htail, rfl, rfl⟩ := hround
        rcases List.mem_cons.mp hb with rfl | hb
        · exact hzero
        · exact ih (fun c hc => hgood c (List.mem_cons_of_mem a hc)) htail b hb
      · obtain ⟨front, hstep, -⟩ := h.down before a ha hpos
        simp [rewriteRound, hstep] at hround

/-- **The rounds end**: ranks up to `n` need at most `n + 1` rounds, and rank zero is left. -/
theorem Ranked.rounds_end (h : Ranked step Good rank) (n : ℕ) (list : List α)
    (hgood : ∀ a ∈ list, Good a ∧ rank a ≤ n) :
    ∃ new, rewriteRounds step (n + 1) list = some new ∧ ∀ b ∈ new, Good b ∧ rank b = 0 := by
  induction n generalizing list with
  | zero =>
      have hzero : ∀ a ∈ list, Good a ∧ rank a = 0 := by
        intro a ha
        obtain ⟨hgood, hrank⟩ := hgood a ha
        exact ⟨hgood, by omega⟩
      exact ⟨list, by simp [rewriteRounds, h.round_zero [] hzero], hzero⟩
  | succ n ih =>
      obtain ⟨new, changed, hround, hnew⟩ := h.round_down [] list hgood
      cases changed with
      | true =>
          obtain ⟨last, hrounds, hlast⟩ := ih new hnew
          exact ⟨last, by rw [rewriteRounds, hround]; simpa using hrounds, hlast⟩
      | false =>
          -- nothing was replaced, so every element had rank zero already
          have hzero := h.rank_zero_of_round_false (fun a ha => (hgood a ha).1) hround
          exact ⟨new, by simp [rewriteRounds, hround], fun b hb => ⟨(hnew b hb).1, hzero b hb⟩⟩

end

/-- A pass that changes the elements of positive rank only, into elements of a smaller rank.  It may
fail on them. -/
structure Lowering (step : List α → α → Step α) (rank : α → ℕ) : Prop where
  stop : ∀ before a, rank a = 0 → step before a = .unchanged
  moves : ∀ before a, 0 < rank a → step before a ≠ .unchanged
  down : ∀ before a new, step before a = .replaced new → ∀ b ∈ new, rank b < rank a

section

variable {step : List α → α → Step α} {rank : α → ℕ}

/-- A round that does not fail lowers the ranks. -/
theorem Lowering.round_down (h : Lowering step rank) {n : ℕ} {before list new : List α}
    {changed : Bool} (hround : rewriteRound step before list = some (new, changed))
    (hrank : ∀ a ∈ list, rank a ≤ n + 1) : ∀ b ∈ new, rank b ≤ n := by
  induction list generalizing before new changed with
  | nil =>
      simp only [rewriteRound, Option.some.injEq, Prod.mk.injEq] at hround
      simp [← hround.1]
  | cons a rest ih =>
      rw [List.forall_mem_cons] at hrank
      obtain ⟨ha, hrest⟩ := hrank
      rcases hstep : step before a with _ | front | _
      all_goals simp only [rewriteRound, hstep, Option.map_eq_some_iff, Prod.mk.injEq, Prod.exists,
        reduceCtorEq] at hround
      case unchanged =>
        obtain ⟨tail, _, htail, rfl, rfl⟩ := hround
        have hzero : rank a = 0 := by
          by_contra hne
          exact h.moves before a (Nat.pos_of_ne_zero hne) hstep
        exact List.forall_mem_cons.mpr ⟨by omega, ih htail hrest⟩
      case replaced =>
        obtain ⟨tail, _, htail, rfl, rfl⟩ := hround
        intro b hb
        rcases List.mem_append.mp hb with hb | hb
        · have hlt := h.down before a front hstep b hb
          omega
        · exact ih htail hrest b hb

/-- A round over elements of rank zero changes nothing. -/
theorem Lowering.round_zero (h : Lowering step rank) (before : List α) {list : List α}
    (hrank : ∀ a ∈ list, rank a = 0) : rewriteRound step before list = some (list, false) :=
  rewriteRound_of_forall_unchanged before fun a ha before => h.stop before a (hrank a ha)

end

/-! ## Elements that stay and elements that fail -/

section

variable {step : List α → α → Step α} {a : α}

/-- An element that is never changed survives a round. -/
theorem mem_of_round (hstep : ∀ before, step before a = .unchanged) {before list new : List α}
    {changed : Bool} (ha : a ∈ list) (hround : rewriteRound step before list = some (new, changed)) :
    a ∈ new := by
  induction list generalizing before new changed with
  | nil => simp at ha
  | cons b rest ih =>
      rcases hb : step before b with _ | front | _
      all_goals simp only [rewriteRound, hb, Option.map_eq_some_iff, Prod.mk.injEq, Prod.exists,
        reduceCtorEq] at hround
      case unchanged =>
        obtain ⟨tail, _, htail, rfl, rfl⟩ := hround
        rcases List.mem_cons.mp ha with rfl | ha
        · exact List.mem_cons_self
        · exact List.mem_cons_of_mem b (ih ha htail)
      case replaced =>
        obtain ⟨tail, _, htail, rfl, rfl⟩ := hround
        rcases List.mem_cons.mp ha with rfl | ha
        · simp [hstep before] at hb
        · exact List.mem_append_right front (ih ha htail)

/-- An element that is never changed survives the rounds. -/
theorem mem_of_rounds (hstep : ∀ before, step before a = .unchanged) {limit : ℕ}
    {list new : List α} (ha : a ∈ list) (hrounds : rewriteRounds step limit list = some new) :
    a ∈ new := by
  induction limit generalizing list with
  | zero => simp [rewriteRounds] at hrounds
  | succ limit ih =>
      rcases hround : rewriteRound step [] list with _ | ⟨next, changed⟩
      · simp [rewriteRounds, hround] at hrounds
      · have hnext := mem_of_round hstep ha hround
        cases changed with
        | true => exact ih hnext (by simpa [rewriteRounds, hround] using hrounds)
        | false =>
            simp only [rewriteRounds, hround, Option.bind_some, Bool.false_eq_true, if_false,
              Option.some.injEq] at hrounds
            rwa [← hrounds]

/-- A round fails on an element on which the pass always fails. -/
theorem round_eq_none (hstep : ∀ before, step before a = .failed) (before : List α)
    {list : List α} (ha : a ∈ list) : rewriteRound step before list = none := by
  induction list generalizing before with
  | nil => simp at ha
  | cons b rest ih =>
      rcases List.mem_cons.mp ha with rfl | ha
      · simp [rewriteRound, hstep before]
      · rcases hb : step before b with _ | front | _ <;> simp [rewriteRound, hb, ih _ ha]

/-- So do the rounds. -/
theorem rounds_eq_none (hstep : ∀ before, step before a = .failed) (limit : ℕ) {list : List α}
    (ha : a ∈ list) : rewriteRounds step limit list = none := by
  cases limit with
  | zero => rfl
  | succ limit => simp [rewriteRounds, round_eq_none hstep [] ha]

end

/-! ## What elements become -/

/-- An element that the pass puts in the place of another one, in the same round or in later
ones. -/
inductive DerivedFrom (step : List α → α → Step α) : α → α → Prop where
  | direct {before new : List α} {a b : α} (h : step before a = .replaced new) (hb : b ∈ new) :
      DerivedFrom step a b
  | later {before new : List α} {a b c : α} (h : step before a = .replaced new) (hb : b ∈ new)
      (hc : DerivedFrom step b c) : DerivedFrom step a c

/-- A property of an element and of everything that the pass makes of it. -/
def Kept (step : List α → α → Step α) (P : α → Prop) (a : α) : Prop :=
  P a ∧ ∀ b, DerivedFrom step a b → P b

section

variable {step : List α → α → Step α} {P : α → Prop} {a b : α}

/-- A property is kept when it holds and the elements of every replacement keep it. -/
theorem kept_iff :
    Kept step P a ↔
      P a ∧ ∀ before new, step before a = .replaced new → ∀ b ∈ new, Kept step P b := by
  constructor
  · rintro ⟨ha, hderived⟩
    exact ⟨ha, fun before new hstep b hb =>
      ⟨hderived b (.direct hstep hb), fun c hc => hderived c (.later hstep hb hc)⟩⟩
  · rintro ⟨ha, hnew⟩
    refine ⟨ha, fun c hc => ?_⟩
    cases hc with
    | direct hstep hb => exact (hnew _ _ hstep _ hb).1
    | later hstep hb hc => exact (hnew _ _ hstep _ hb).2 c hc

/-- A property of an element that the pass never replaces. -/
theorem kept_iff_of_not_replaced (h : ∀ before new, step before a ≠ .replaced new) :
    Kept step P a ↔ P a := by
  rw [kept_iff]
  exact and_iff_left fun before new hstep => absurd hstep (h before new)

/-- A property of an element that the pass replaces in one way. -/
theorem kept_iff_of_replaced {new : List α} (h : ∀ before, step before a = .replaced new) :
    Kept step P a ↔ P a ∧ ∀ b ∈ new, Kept step P b := by
  rw [kept_iff]
  refine and_congr_right fun _ => ⟨fun hnew => hnew [] new (h []), ?_⟩
  intro hnew before new' hstep
  rw [h before, Step.replaced.injEq] at hstep
  exact hstep ▸ hnew

/-- What a round leaves keeps the property. -/
theorem Kept.of_round {before list new : List α} {changed : Bool}
    (h : rewriteRound step before list = some (new, changed)) (hlist : ∀ a ∈ list, Kept step P a) :
    ∀ b ∈ new, Kept step P b := by
  induction list generalizing before new changed with
  | nil =>
      simp only [rewriteRound, Option.some.injEq, Prod.mk.injEq] at h
      simp [← h.1]
  | cons a rest ih =>
      rw [List.forall_mem_cons] at hlist
      obtain ⟨ha, hrest⟩ := hlist
      rcases hstep : step before a with _ | front | _
      all_goals simp only [rewriteRound, hstep, Option.map_eq_some_iff, Prod.mk.injEq, Prod.exists,
        reduceCtorEq] at h
      case unchanged =>
        obtain ⟨tail, _, htail, rfl, rfl⟩ := h
        exact List.forall_mem_cons.mpr ⟨ha, ih htail hrest⟩
      case replaced =>
        obtain ⟨tail, _, htail, rfl, rfl⟩ := h
        intro b hb
        rcases List.mem_append.mp hb with hb | hb
        · exact (kept_iff.mp ha).2 before front hstep b hb
        · exact ih htail hrest b hb

/-- **What the rounds leave keeps the property** that all elements keep. -/
theorem Kept.of_rounds {limit : ℕ} {list new : List α}
    (h : rewriteRounds step limit list = some new) (hlist : ∀ a ∈ list, Kept step P a) :
    ∀ b ∈ new, Kept step P b := by
  induction limit generalizing list with
  | zero => simp [rewriteRounds] at h
  | succ limit ih =>
      rcases hround : rewriteRound step [] list with _ | ⟨next, changed⟩
      · simp [rewriteRounds, hround] at h
      · have hnext := Kept.of_round hround hlist
        cases changed with
        | true => exact ih (by simpa [rewriteRounds, hround] using h) hnext
        | false =>
            simp only [rewriteRounds, hround, Option.bind_some, Bool.false_eq_true, if_false,
              Option.some.injEq] at h
            rwa [← h]

end

end RoundRewriting
