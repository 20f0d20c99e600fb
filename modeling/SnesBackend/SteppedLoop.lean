/-
# Loops Given by Their Steps

A loop is a function from a state to the next state or to a result.  It returns
when enough rounds lead to a result.  The rule: an invariant that every round
keeps, together with a well-founded relation that every round follows, gives a
result and what holds of it.
-/
import Mathlib

namespace SteppedLoop

variable {σ ρ : Type}

/-- At most so many rounds of a loop. -/
def iterate (step : σ → σ ⊕ ρ) : ℕ → σ → Option ρ
  | 0, _ => none
  | n + 1, s =>
      match step s with
      | .inl next => iterate step n next
      | .inr result => some result

/-- A loop returns a result: all large enough numbers of rounds give it. -/
def Returns (step : σ → σ ⊕ ρ) (s : σ) (result : ρ) : Prop :=
  ∃ rounds, ∀ n ≥ rounds, iterate step n s = some result

section

variable {step : σ → σ ⊕ ρ}

/-- A loop that is done returns. -/
theorem Returns.done {s : σ} {result : ρ} (h : step s = .inr result) : Returns step s result := by
  refine ⟨1, fun n hn => ?_⟩
  obtain ⟨m, rfl⟩ := Nat.exists_eq_add_of_le' hn
  rw [iterate, h]

/-- A loop returns what it returns after one round. -/
theorem Returns.next {s t : σ} {result : ρ} (h : step s = .inl t) (ht : Returns step t result) :
    Returns step s result := by
  obtain ⟨rounds, hrounds⟩ := ht
  refine ⟨rounds + 1, fun n hn => ?_⟩
  obtain ⟨m, rfl⟩ := Nat.exists_eq_add_of_le' (Nat.le_of_add_left_le hn)
  rw [iterate, h]
  exact hrounds m (by omega)

/-- A loop returns one result only. -/
theorem Returns.unique {s : σ} {x y : ρ} (hx : Returns step s x) (hy : Returns step s y) :
    x = y := by
  obtain ⟨m, hm⟩ := hx
  obtain ⟨n, hn⟩ := hy
  have h := (hm (max m n) (le_max_left m n)).symm.trans (hn (max m n) (le_max_right m n))
  exact Option.some.inj h

/-- **The rule for loops**: from an invariant and a well-founded relation to a result. -/
theorem exists_returns {r : σ → σ → Prop} (wf : WellFounded r) {Inv : σ → Prop} {Post : ρ → Prop}
    (next : ∀ s t, Inv s → step s = .inl t → Inv t ∧ r t s)
    (done : ∀ s result, Inv s → step s = .inr result → Post result) {s : σ} (h : Inv s) :
    ∃ result, Returns step s result ∧ Post result := by
  induction s using wf.induction with
  | _ s ih =>
      cases hstep : step s with
      | inl t =>
          obtain ⟨ht, hr⟩ := next s t h hstep
          obtain ⟨result, hreturns, hpost⟩ := ih t hr ht
          exact ⟨result, hreturns.next hstep, hpost⟩
      | inr result => exact ⟨result, .done hstep, done s result h hstep⟩

/-- A round does not change what a loop returns. -/
theorem returns_iff_of_next {s t : σ} {result : ρ} (h : step s = .inl t) :
    Returns step s result ↔ Returns step t result := by
  refine ⟨?_, Returns.next h⟩
  rintro ⟨rounds, hrounds⟩
  refine ⟨rounds, fun n hn => ?_⟩
  have hsucc := hrounds (n + 1) (by omega)
  rwa [iterate, h] at hsucc

/-- The states that a loop comes to. -/
def Reaches (step : σ → σ ⊕ ρ) : σ → σ → Prop :=
  Relation.ReflTransGen fun s t => step s = .inl t

/-- A loop that returns comes to a last round. -/
theorem Returns.exists_last {s : σ} {result : ρ} (h : Returns step s result) :
    ∃ t, Reaches step s t ∧ step t = .inr result := by
  obtain ⟨n, hn⟩ := h
  replace hn := hn n le_rfl
  induction n generalizing s with
  | zero => cases hn
  | succ n ih =>
      rw [iterate] at hn
      cases hstep : step s with
      | inl t =>
          rw [hstep] at hn
          obtain ⟨last, hreaches, hlast⟩ := ih hn
          exact ⟨last, .head hstep hreaches, hlast⟩
      | inr x =>
          rw [hstep] at hn
          exact ⟨s, .refl, by rw [hstep, Option.some.inj hn]⟩

/-- A loop that returns has a last round. -/
theorem Returns.exists_done {s : σ} {result : ρ} (h : Returns step s result) :
    ∃ t, step t = .inr result := by
  obtain ⟨t, -, ht⟩ := h.exists_last
  exact ⟨t, ht⟩

/-- What a loop returns is what it returns from any state that it comes to. -/
theorem Reaches.returns_iff {s t : σ} {result : ρ} (h : Reaches step s t) :
    Returns step s result ↔ Returns step t result := by
  induction h with
  | refl => rfl
  | tail _ hstep ih => rw [ih, returns_iff_of_next hstep]

/-- A loop returns the result of every last round that it comes to. -/
theorem Returns.eq_of_last {s t : σ} {x y : ρ} (hx : Returns step s x) (h : Reaches step s t)
    (hy : step t = .inr y) : x = y :=
  (h.returns_iff.mp hx).unique (.done hy)

/-- **The rule for invariants**: what every round keeps, every reached state has. -/
theorem Reaches.invariant {Inv : σ → Prop} (next : ∀ s t, Inv s → step s = .inl t → Inv t) {s t : σ}
    (h : Reaches step s t) (hs : Inv s) : Inv t := by
  induction h with
  | refl => exact hs
  | tail _ hstep ih => exact next _ _ ih hstep

/-- **The rule for reached states**: where every reached state moves on along a well-founded
relation or gives a right result, the loop returns one. -/
theorem exists_returns_of_reaches {r : σ → σ → Prop} (wf : WellFounded r) {Post : ρ → Prop} {s : σ}
    (next : ∀ t u, Reaches step s t → step t = .inl u → r u t)
    (done : ∀ t result, Reaches step s t → step t = .inr result → Post result) :
    ∃ result, Returns step s result ∧ Post result := by
  refine exists_returns wf (fun t u (ht : Reaches step s t) hstep => ?_) done .refl
  exact ⟨ht.tail hstep, next t u ht hstep⟩

/-- More rounds give the same result. -/
theorem iterate_of_le {m n : ℕ} (hmn : m ≤ n) {s : σ} {result : ρ}
    (h : iterate step m s = some result) : iterate step n s = some result := by
  induction m generalizing n s with
  | zero => cases h
  | succ m ih =>
      obtain ⟨k, rfl⟩ := Nat.exists_eq_add_of_le' (Nat.le_of_add_left_le hmn)
      rw [iterate] at h ⊢
      cases hstep : step s with
      | inl t =>
          rw [hstep] at h
          exact ih (by omega) h
      | inr x =>
          rw [hstep] at h
          exact h

/-- **The rule for bounds**: a measure that every round lowers bounds the number of rounds. -/
theorem exists_iterate_of_measure {Inv : σ → Prop} {measure : σ → ℕ}
    (next : ∀ s t, Inv s → step s = .inl t → Inv t ∧ measure t < measure s) {s : σ} (h : Inv s)
    {n : ℕ} (hn : measure s < n) : ∃ result, iterate step n s = some result := by
  induction n generalizing s with
  | zero => omega
  | succ n ih =>
      rw [iterate]
      cases hstep : step s with
      | inl t =>
          obtain ⟨ht, hlt⟩ := next s t h hstep
          exact ih ht (by omega)
      | inr result => exact ⟨result, rfl⟩

/-- A loop returns a result when some number of rounds gives it. -/
theorem returns_iff_exists_iterate {s : σ} {result : ρ} :
    Returns step s result ↔ ∃ n, iterate step n s = some result := by
  constructor
  · rintro ⟨n, hn⟩
    exact ⟨n, hn n le_rfl⟩
  · rintro ⟨n, hn⟩
    exact ⟨n, fun m hm => iterate_of_le hm hn⟩

end

/-! ## Loops that simulate each other -/

section

variable {τ κ : Type} {step₁ : σ → σ ⊕ ρ} {step₂ : τ → τ ⊕ κ} {f : σ → τ} {g : ρ → κ}
  {Inv : σ → Prop}

/-- Rounds of a loop that follows another one. -/
theorem iterate_map (next : ∀ s t, Inv s → step₁ s = .inl t → Inv t)
    (sim : ∀ s, Inv s → step₂ (f s) = (step₁ s).map f g) {s : σ} (h : Inv s) (n : ℕ) :
    iterate step₂ n (f s) = (iterate step₁ n s).map g := by
  induction n generalizing s with
  | zero => rfl
  | succ n ih =>
      rw [iterate, iterate, sim s h]
      cases hstep : step₁ s with
      | inl t => exact ih (next s t h hstep)
      | inr x => rfl

/-- **The rule for simulation**: a loop whose rounds are those of another loop, seen through a map
of states, returns what the other one returns, seen through a map of results. -/
theorem returns_map_iff (next : ∀ s t, Inv s → step₁ s = .inl t → Inv t)
    (sim : ∀ s, Inv s → step₂ (f s) = (step₁ s).map f g) {s : σ} (h : Inv s) {y : κ} :
    Returns step₂ (f s) y ↔ ∃ x, Returns step₁ s x ∧ g x = y := by
  simp only [returns_iff_exists_iterate, iterate_map next sim h, Option.map_eq_some_iff]
  constructor
  · rintro ⟨n, x, hx, rfl⟩
    exact ⟨x, ⟨n, hx⟩, rfl⟩
  · rintro ⟨x, ⟨n, hx⟩, rfl⟩
    exact ⟨n, x, hx, rfl⟩

end

end SteppedLoop
