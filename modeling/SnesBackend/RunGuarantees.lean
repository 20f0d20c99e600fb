/-
# Guarantees of Lists of Steps

A list of elements, each of which may take a state to several states or to none,
is run from left to right.  A guarantee says that no run gets stuck and that
every run ends well.  An element may be replaced by a list that implements it:
all guarantees of a list are kept, and so they are by rounds of replacements.

The blocks of a program are such lists, and after each block the next one is
chosen.  Where every block keeps its guarantees, the whole program does.
-/
import SnesBackend.RoundRewriting

namespace RunGuarantees

open RoundRewriting Relation

variable {α σ : Type*}

/-! ## Runs and guarantees -/

/-- A run of a list from one state to another. -/
inductive Run (does : α → σ → σ → Prop) : List α → σ → σ → Prop where
  | nil (s : σ) : Run does [] s s
  | cons {a : α} {rest : List α} {s t u : σ} (head : does a s t) (tail : Run does rest t u) :
      Run does (a :: rest) s u

/-- No run from the state gets stuck, and all of them end with the postcondition. -/
def Guarantees (does : α → σ → σ → Prop) : List α → (σ → Prop) → σ → Prop
  | [], post, s => post s
  | a :: rest, post, s => (∃ t, does a s t) ∧ ∀ t, does a s t → Guarantees does rest post t

section

variable {does : α → σ → σ → Prop} {list list' : List α} {post post' : σ → Prop} {s t : σ}

/-- The postcondition can be weakened. -/
theorem Guarantees.mono (h : Guarantees does list post s) (hpost : ∀ t, post t → post' t) :
    Guarantees does list post' s := by
  induction list generalizing s with
  | nil => exact hpost s h
  | cons a rest ih => exact ⟨h.1, fun t ht => ih (h.2 t ht)⟩

/-- Lists in a row. -/
theorem guarantees_append_iff :
    Guarantees does (list ++ list') post s ↔
      Guarantees does list (Guarantees does list' post) s := by
  induction list generalizing s with
  | nil => rfl
  | cons a rest ih => simp only [List.cons_append, Guarantees, ih]

/-- A run ends with what is guaranteed. -/
theorem Guarantees.of_run (h : Guarantees does list post s) (hrun : Run does list s t) :
    post t := by
  induction hrun with
  | nil s => exact h
  | cons head tail ih => exact ih (h.2 _ head)

/-- A list that does not get stuck guarantees that its end is the end of a run. -/
theorem Guarantees.ends (h : Guarantees does list post s) :
    Guarantees does list (Run does list s) s := by
  induction list generalizing s with
  | nil => exact .nil s
  | cons a rest ih =>
      exact ⟨h.1, fun t ht => (ih (h.2 t ht)).mono fun u hu => .cons ht hu⟩

/-- Runs of lists in a row. -/
theorem run_append_iff {t : σ} :
    Run does (list ++ list') s t ↔ ∃ u, Run does list s u ∧ Run does list' u t := by
  induction list generalizing s with
  | nil =>
      refine ⟨fun h => ⟨s, .nil s, h⟩, ?_⟩
      rintro ⟨_, ⟨_⟩, h⟩
      exact h
  | cons a rest ih =>
      constructor
      · rintro (_ | ⟨head, tail⟩)
        obtain ⟨u, hrest, hlist'⟩ := ih.mp tail
        exact ⟨u, .cons head hrest, hlist'⟩
      · rintro ⟨u, _ | ⟨head, tail⟩, hlist'⟩
        exact .cons head (ih.mpr ⟨u, tail, hlist'⟩)

/-- A run of one element. -/
theorem run_singleton_iff {a : α} {t : σ} : Run does [a] s t ↔ does a s t := by
  constructor
  · rintro (_ | ⟨head, ⟨_⟩⟩)
    exact head
  · exact fun h => .cons h (.nil t)

/-- Elements with the same meaning give the same guarantees. -/
theorem guarantees_congr {does' : α → σ → σ → Prop}
    (h : ∀ a ∈ list, ∀ s t, does a s t ↔ does' a s t) :
    Guarantees does list post s ↔ Guarantees does' list post s := by
  induction list generalizing s with
  | nil => rfl
  | cons a rest ih =>
      rw [List.forall_mem_cons] at h
      simp only [Guarantees, h.1, ih h.2]

/-- And the same runs. -/
theorem run_congr {does' : α → σ → σ → Prop}
    (h : ∀ a ∈ list, ∀ s t, does a s t ↔ does' a s t) : Run does list s t ↔ Run does' list s t := by
  induction list generalizing s with
  | nil =>
      constructor <;>
        · rintro ⟨_⟩
          exact .nil _
  | cons a rest ih =>
      rw [List.forall_mem_cons] at h
      constructor
      · rintro (_ | ⟨head, tail⟩)
        exact .cons ((h.1 _ _).mp head) ((ih h.2).mp tail)
      · rintro (_ | ⟨head, tail⟩)
        exact .cons ((h.1 _ _).mpr head) ((ih h.2).mpr tail)

end

/-! ## Replacements -/

/-- A list implements an element: wherever the element can go on, the list runs through, to states
that the element goes to. -/
def Implements (does : α → σ → σ → Prop) (a : α) (new : List α) : Prop :=
  ∀ s, (∃ t, does a s t) → Guarantees does new (does a s) s

/-- A list keeps the guarantees of another one. -/
def KeepsGuarantees (does : α → σ → σ → Prop) (list new : List α) : Prop :=
  ∀ post s, Guarantees does list post s → Guarantees does new post s

section

variable {does : α → σ → σ → Prop} {list new : List α} {a : α}

/-- What implements an element can stand before what keeps the guarantees of the rest. -/
theorem Implements.keeps_cons {rest rest' : List α} (h : Implements does a new)
    (hrest : KeepsGuarantees does rest rest') :
    KeepsGuarantees does (a :: rest) (new ++ rest') := by
  intro post s hlist
  rw [guarantees_append_iff]
  exact (h s hlist.1).mono fun t ht => hrest post t (hlist.2 t ht)

/-- An element can stay. -/
theorem KeepsGuarantees.cons {rest rest' : List α} (h : KeepsGuarantees does rest rest') :
    KeepsGuarantees does (a :: rest) (a :: rest') :=
  fun post _ hlist => ⟨hlist.1, fun t ht => h post t (hlist.2 t ht)⟩

/-- A pass whose replacements implement the elements that they replace, and are of the same good
elements. -/
structure Sound (does : α → σ → σ → Prop) (Good : α → Prop) (step : List α → α → Step α) :
    Prop where
  implements : ∀ before a new, Good a → step before a = .replaced new → Implements does a new
  good : ∀ before a new, Good a → step before a = .replaced new → ∀ b ∈ new, Good b

variable {Good : α → Prop} {step : List α → α → Step α}

/-- **A round of a sound pass** keeps the guarantees. -/
theorem Sound.round (h : Sound does Good step) {before : List α} {changed : Bool}
    (hgood : ∀ a ∈ list, Good a) (hround : rewriteRound step before list = some (new, changed)) :
    (∀ b ∈ new, Good b) ∧ KeepsGuarantees does list new := by
  induction list generalizing before new changed with
  | nil =>
      obtain ⟨rfl, -⟩ := Prod.mk.inj (Option.some.inj hround)
      exact ⟨hgood, fun _ _ hlist => hlist⟩
  | cons a rest ih =>
      rw [List.forall_mem_cons] at hgood
      rcases hstep : step before a with _ | front | _
      all_goals simp only [rewriteRound, hstep, Option.map_eq_some_iff, Prod.mk.injEq, Prod.exists,
        reduceCtorEq] at hround
      case unchanged =>
        obtain ⟨tail, _, htail, rfl, rfl⟩ := hround
        obtain ⟨good, keeps⟩ := ih hgood.2 htail
        exact ⟨List.forall_mem_cons.mpr ⟨hgood.1, good⟩, keeps.cons⟩
      case replaced =>
        obtain ⟨tail, _, htail, rfl, rfl⟩ := hround
        obtain ⟨good, keeps⟩ := ih hgood.2 htail
        refine ⟨fun b hb => ?_, (h.implements before a front hgood.1 hstep).keeps_cons keeps⟩
        rcases List.mem_append.mp hb with hb | hb
        · exact h.good before a front hgood.1 hstep b hb
        · exact good b hb

/-- **The rounds of a sound pass** keep the guarantees. -/
theorem Sound.rounds (h : Sound does Good step) {limit : ℕ} (hgood : ∀ a ∈ list, Good a)
    (hrounds : rewriteRounds step limit list = some new) : KeepsGuarantees does list new := by
  induction limit generalizing list with
  | zero => cases hrounds
  | succ limit ih =>
      obtain ⟨⟨next, changed⟩, hround, hnext⟩ := Option.bind_eq_some_iff.mp hrounds
      obtain ⟨good, keeps⟩ := h.round hgood hround
      cases changed with
      | true => exact fun post s hlist => ih good hnext post s (keeps post s hlist)
      | false =>
          obtain rfl := Option.some.inj hnext
          exact keeps

/-- A pass whose replacements have the runs of the elements that they replace, and are of the same
good elements. -/
structure Exact (does : α → σ → σ → Prop) (Good : α → Prop) (step : List α → α → Step α) :
    Prop where
  runs : ∀ before a new, Good a → step before a = .replaced new →
    ∀ s t, Run does new s t ↔ does a s t
  good : ∀ before a new, Good a → step before a = .replaced new → ∀ b ∈ new, Good b

/-- **A round of an exact pass** keeps the runs. -/
theorem Exact.round (h : Exact does Good step) {before : List α} {changed : Bool}
    (hgood : ∀ a ∈ list, Good a) (hround : rewriteRound step before list = some (new, changed)) :
    (∀ b ∈ new, Good b) ∧ ∀ s t, Run does new s t ↔ Run does list s t := by
  induction list generalizing before new changed with
  | nil =>
      obtain ⟨rfl, -⟩ := Prod.mk.inj (Option.some.inj hround)
      exact ⟨hgood, fun _ _ => Iff.rfl⟩
  | cons a rest ih =>
      rw [List.forall_mem_cons] at hgood
      rcases hstep : step before a with _ | front | _
      all_goals simp only [rewriteRound, hstep, Option.map_eq_some_iff, Prod.mk.injEq, Prod.exists,
        reduceCtorEq] at hround
      case unchanged =>
        obtain ⟨tail, _, htail, rfl, rfl⟩ := hround
        obtain ⟨good, runs⟩ := ih hgood.2 htail
        refine ⟨List.forall_mem_cons.mpr ⟨hgood.1, good⟩, fun s t => ?_⟩
        rw [← List.singleton_append, ← List.singleton_append (l := rest), run_append_iff,
          run_append_iff]
        exact exists_congr fun u => and_congr_right fun _ => runs u t
      case replaced =>
        obtain ⟨tail, _, htail, rfl, rfl⟩ := hround
        obtain ⟨good, runs⟩ := ih hgood.2 htail
        refine ⟨fun b hb => ?_, fun s t => ?_⟩
        · rcases List.mem_append.mp hb with hb | hb
          · exact h.good before a front hgood.1 hstep b hb
          · exact good b hb
        · rw [← List.singleton_append (l := rest), run_append_iff, run_append_iff]
          refine exists_congr fun u => and_congr ?_ (runs u t)
          rw [h.runs before a front hgood.1 hstep, run_singleton_iff]

/-- **The rounds of an exact pass** keep the runs. -/
theorem Exact.rounds (h : Exact does Good step) {limit : ℕ} (hgood : ∀ a ∈ list, Good a)
    (hrounds : rewriteRounds step limit list = some new) (s t : σ) :
    Run does new s t ↔ Run does list s t := by
  induction limit generalizing list with
  | zero => cases hrounds
  | succ limit ih =>
      obtain ⟨⟨next, changed⟩, hround, hnext⟩ := Option.bind_eq_some_iff.mp hrounds
      obtain ⟨good, runs⟩ := h.round hgood hround
      cases changed with
      | true => exact (ih good hnext).trans (runs s t)
      | false =>
          obtain rfl := Option.some.inj hnext
          exact runs s t

/-- A round keeps what a filter selects, where the elements that are replaced and those that take
their places are not selected. -/
theorem filter_of_round {p : α → Bool}
    (hstep : ∀ before a new, Good a → step before a = .replaced new →
      p a = false ∧ ∀ b ∈ new, Good b ∧ p b = false)
    {before : List α} {changed : Bool} (hgood : ∀ a ∈ list, Good a)
    (hround : rewriteRound step before list = some (new, changed)) :
    (∀ b ∈ new, Good b) ∧ new.filter p = list.filter p := by
  induction list generalizing before new changed with
  | nil =>
      obtain ⟨rfl, -⟩ := Prod.mk.inj (Option.some.inj hround)
      exact ⟨hgood, rfl⟩
  | cons a rest ih =>
      rw [List.forall_mem_cons] at hgood
      rcases ha : step before a with _ | front | _
      all_goals simp only [rewriteRound, ha, Option.map_eq_some_iff, Prod.mk.injEq, Prod.exists,
        reduceCtorEq] at hround
      case unchanged =>
        obtain ⟨tail, _, htail, rfl, rfl⟩ := hround
        obtain ⟨good, same⟩ := ih hgood.2 htail
        exact ⟨List.forall_mem_cons.mpr ⟨hgood.1, good⟩, by rw [List.filter_cons, same,
          List.filter_cons]⟩
      case replaced =>
        obtain ⟨tail, _, htail, rfl, rfl⟩ := hround
        obtain ⟨good, same⟩ := ih hgood.2 htail
        obtain ⟨ha, hfront⟩ := hstep before a front hgood.1 ha
        have none : front.filter p = [] := by
          rw [List.filter_eq_nil_iff]
          exact fun b hb => by simp [(hfront b hb).2]
        refine ⟨fun b hb => ?_, by simp [List.filter_append, none, same, ha]⟩
        rcases List.mem_append.mp hb with hb | hb
        · exact (hfront b hb).1
        · exact good b hb

/-- So do the rounds. -/
theorem filter_of_rounds {p : α → Bool}
    (hstep : ∀ before a new, Good a → step before a = .replaced new →
      p a = false ∧ ∀ b ∈ new, Good b ∧ p b = false)
    {limit : ℕ} (hgood : ∀ a ∈ list, Good a) (hrounds : rewriteRounds step limit list = some new) :
    new.filter p = list.filter p := by
  induction limit generalizing list with
  | zero => cases hrounds
  | succ limit ih =>
      obtain ⟨⟨next, changed⟩, hround, hnext⟩ := Option.bind_eq_some_iff.mp hrounds
      obtain ⟨good, same⟩ := filter_of_round hstep hgood hround
      cases changed with
      | true => exact (ih good hnext).trans same
      | false =>
          obtain rfl := Option.some.inj hnext
          exact same

end

/-! ## Programs of blocks -/

/-- The start of a block, or the end of the program. -/
abbrev Place (σ : Type*) := Option ℕ × σ

/-- Control goes from the start of a block to the start of the next one, or to the end. -/
def BlockStep (does : α → σ → σ → Prop) (next : ℕ → List α → σ → Option ℕ)
    (blocks : List (List α)) (c c' : Place σ) : Prop :=
  ∃ n block, c.1 = some n ∧ blocks[n]? = some block ∧ Run does block c.2 c'.2 ∧
    next n block c'.2 = c'.1

/-- No run of the program from a place gets stuck: the blocks that it comes to are there, and run
through. -/
def Safe (does : α → σ → σ → Prop) (next : ℕ → List α → σ → Option ℕ) (blocks : List (List α))
    (c : Place σ) : Prop :=
  ∀ c', ReflTransGen (BlockStep does next blocks) c c' → ∀ n, c'.1 = some n →
    ∃ block, blocks[n]? = some block ∧ Guarantees does block (fun _ => True) c'.2

section

variable {does : α → σ → σ → Prop} {next : ℕ → List α → σ → Option ℕ}
  {blocks blocks' : List (List α)}

/-- A block that takes the place of another one in a program. -/
structure Replaces (does : α → σ → σ → Prop) (next : ℕ → List α → σ → Option ℕ)
    (block block' : List α) : Prop where
  keeps : KeepsGuarantees does block block'
  next : ∀ n t, next n block' t = next n block t

/-- A safe run of the new block is a run of the old one. -/
theorem Replaces.run {block block' : List α} (h : Replaces does next block block') {s t : σ}
    (hsafe : Guarantees does block (fun _ => True) s) (hrun : Run does block' s t) :
    Run does block s t :=
  (h.keeps _ s hsafe.ends).of_run hrun

/-- The blocks at a place of two programs whose blocks are related one by one. -/
theorem getElem?_of_forall₂ {R : List α → List α → Prop} (h : List.Forall₂ R blocks blocks')
    (n : ℕ) :
    (∀ block, blocks[n]? = some block → ∃ block', blocks'[n]? = some block' ∧ R block block') ∧
    ∀ block', blocks'[n]? = some block' → ∃ block, blocks[n]? = some block ∧ R block block' := by
  induction h generalizing n with
  | nil => simp
  | cons hblock _ ih =>
      cases n with
      | zero => simpa using hblock
      | succ n => simpa using ih n

/-- **A step of the new program** from a safe place is a step of the old one. -/
theorem blockStep_of_replaces (h : List.Forall₂ (Replaces does next) blocks blocks')
    {c c' : Place σ} (hsafe : Safe does next blocks c) (hstep : BlockStep does next blocks' c c') :
    BlockStep does next blocks c c' := by
  obtain ⟨n, block', hn, hblock', hrun, hnext⟩ := hstep
  obtain ⟨block, hblock, replaces⟩ := (getElem?_of_forall₂ h n).2 block' hblock'
  obtain ⟨block₀, hblock₀, guarantees⟩ := hsafe c .refl n hn
  obtain rfl := Option.some.inj (hblock.symm.trans hblock₀)
  exact ⟨n, block, hn, hblock, replaces.run guarantees hrun, by rw [← hnext, replaces.next]⟩

/-- Safety is kept by steps. -/
theorem Safe.step {c c' : Place σ} (h : Safe does next blocks c)
    (hstep : BlockStep does next blocks c c') : Safe does next blocks c' :=
  fun d hd => h d (.head hstep hd)

/-- **Whole runs**: where the old program is safe, each run of the new program is one of the old
program, and the new program is safe. -/
theorem runs_of_replaces (h : List.Forall₂ (Replaces does next) blocks blocks') {c : Place σ}
    (hsafe : Safe does next blocks c) :
    Safe does next blocks' c ∧ ∀ c', ReflTransGen (BlockStep does next blocks') c c' →
      ReflTransGen (BlockStep does next blocks) c c' := by
  have runs : ∀ c', ReflTransGen (BlockStep does next blocks') c c' →
      ReflTransGen (BlockStep does next blocks) c c' ∧ Safe does next blocks c' := by
    intro c' hrun
    induction hrun with
    | refl => exact ⟨.refl, hsafe⟩
    | tail _ hstep ih =>
        have old := blockStep_of_replaces h ih.2 hstep
        exact ⟨ih.1.tail old, ih.2.step old⟩
  refine ⟨fun c' hrun n hn => ?_, fun c' hrun => (runs c' hrun).1⟩
  obtain ⟨block, hblock, guarantees⟩ := (runs c' hrun).2 c' .refl n hn
  obtain ⟨block', hblock', replaces⟩ := (getElem?_of_forall₂ h n).1 block hblock
  exact ⟨block', hblock', replaces.keeps _ _ guarantees⟩

/-- Blocks with the same runs, after which control goes to the same place. -/
structure SameBlock (does : α → σ → σ → Prop) (next : ℕ → List α → σ → Option ℕ)
    (block block' : List α) : Prop where
  runs : ∀ s t, Run does block' s t ↔ Run does block s t
  next : ∀ n t, next n block' t = next n block t

/-- **Whole runs** through blocks with the same runs are the same. -/
theorem blockStep_of_sameBlock (h : List.Forall₂ (SameBlock does next) blocks blocks') :
    BlockStep does next blocks' = BlockStep does next blocks := by
  funext c c'
  refine propext (exists_congr fun n => ?_)
  obtain ⟨old, new⟩ := getElem?_of_forall₂ h n
  constructor
  · rintro ⟨block', hn, hblock', hrun, hnext⟩
    obtain ⟨block, hblock, same⟩ := new block' hblock'
    exact ⟨block, hn, hblock, (same.runs _ _).mp hrun, (same.next _ _).symm.trans hnext⟩
  · rintro ⟨block, hn, hblock, hrun, hnext⟩
    obtain ⟨block', hblock', same⟩ := old block hblock
    exact ⟨block', hn, hblock', (same.runs _ _).mpr hrun, (same.next _ _).trans hnext⟩

/-- Programs whose elements have the same meaning take the same steps. -/
theorem blockStep_congr {does' : α → σ → σ → Prop}
    (h : ∀ block ∈ blocks, ∀ a ∈ block, ∀ s t, does a s t ↔ does' a s t) {c c' : Place σ} :
    BlockStep does next blocks c c' ↔ BlockStep does' next blocks c c' := by
  refine exists_congr fun n => exists_congr fun block => and_congr_right fun _ =>
    and_congr_right fun hblock => and_congr_left' ?_
  exact run_congr (h block (List.mem_of_getElem? hblock))

/-- They are safe at the same places. -/
theorem safe_congr {does' : α → σ → σ → Prop}
    (h : ∀ block ∈ blocks, ∀ a ∈ block, ∀ s t, does a s t ↔ does' a s t) {c : Place σ} :
    Safe does next blocks c ↔ Safe does' next blocks c := by
  have steps : BlockStep does next blocks = BlockStep does' next blocks := by
    funext c c'
    exact propext (blockStep_congr h)
  unfold Safe
  rw [steps]
  refine forall_congr' fun c' => imp_congr_right fun _ => forall_congr' fun n =>
    imp_congr_right fun _ => exists_congr fun block => and_congr_right fun hblock => ?_
  exact guarantees_congr (h block (List.mem_of_getElem? hblock))

end

end RunGuarantees
