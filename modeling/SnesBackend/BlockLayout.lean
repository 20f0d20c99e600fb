/-
# Control Flow over a Layout of Blocks

Programs made of named blocks that stand one after another.  A block is left by a
jump, by the end of the program, or by falling through to the block that follows
it.  What a block does may depend on the block from which it is entered.

The rules: a block in the layout takes one step, paths compose, a block that
jumps to itself is run as often as its count says, and a simulation of single
steps by paths is a simulation of whole runs.
-/
import Mathlib

namespace BlockLayout

variable {ι σ σ' : Type}

/-! ## Blocks and layouts -/

/-- How control leaves a block. -/
inductive Exit (ι : Type) where
  | jump (target : ι)
  | stop
  | fallThrough
deriving DecidableEq, Repr

/-- A block: its name, and what it does when it is entered from another block or from outside. -/
structure Block (ι σ : Type) where
  id : ι
  run : Option ι → σ → σ × Exit ι

/-- Where control is: at a block, at the end, or nowhere. -/
inductive Place (ι : Type) where
  | block (id : ι)
  | stopped
  | lost
deriving DecidableEq, Repr

/-- A configuration: the block that control comes from, where it is, and the state. -/
structure Config (ι σ : Type) where
  pred : Option ι
  place : Place ι
  state : σ

section Steps

variable [DecidableEq ι]

/-- The name that follows another in a layout. -/
def layoutNext : List ι → ι → Option ι
  | [], _ => none
  | a :: rest, id => if a = id then rest.head? else layoutNext rest id

/-- Where an exit leads. -/
def Exit.place (ids : List ι) (id : ι) : Exit ι → Place ι
  | jump target => .block target
  | stop => .stopped
  | fallThrough =>
      match layoutNext ids id with
      | some next => .block next
      | none => .lost

/-- One step: run the block at which control is. -/
def step (L : List (Block ι σ)) (c : Config ι σ) : Config ι σ :=
  match c.place with
  | .block id =>
      match L.find? (fun b => b.id = id) with
      | some b =>
          ⟨some id, (b.run c.pred c.state).2.place (L.map Block.id) id, (b.run c.pred c.state).1⟩
      | none => { c with place := .lost }
  | _ => c

/-- A run through a list of blocks. -/
inductive Path (L : List (Block ι σ)) : Config ι σ → List ι → Config ι σ → Prop where
  | nil (c : Config ι σ) : Path L c [] c
  | cons {c d : Config ι σ} {id : ι} {ids : List ι} (at_block : c.place = .block id)
      (rest : Path L (step L c) ids d) : Path L c (id :: ids) d

/-! ## Layout lemmas -/

/-- What follows a name is the head of what is after it. -/
theorem layoutNext_append {pre : List ι} {a : ι} (post : List ι) (ha : a ∉ pre) :
    layoutNext (pre ++ a :: post) a = post.head? := by
  induction pre with
  | nil => exact if_pos rfl
  | cons b pre ih =>
      rw [List.mem_cons, not_or] at ha
      rw [List.cons_append, layoutNext, if_neg (Ne.symm ha.1), ih ha.2]

/-- Names that are not there are skipped. -/
theorem layoutNext_append_right {pre : List ι} {id : ι} (post : List ι) (hid : id ∉ pre) :
    layoutNext (pre ++ post) id = layoutNext post id := by
  induction pre with
  | nil => rfl
  | cons b pre ih =>
      rw [List.mem_cons, not_or] at hid
      rw [List.cons_append, layoutNext, if_neg (Ne.symm hid.1), ih hid.2]

/-- **Inserting new names behind one** matters to that one only. -/
theorem layoutNext_insert_after {pre new : List ι} {a id : ι} (post : List ι) (ha : id ≠ a)
    (hnew : id ∉ new) :
    layoutNext (pre ++ a :: (new ++ post)) id = layoutNext (pre ++ a :: post) id := by
  induction pre with
  | nil =>
      rw [List.nil_append, List.nil_append, layoutNext, layoutNext, if_neg (Ne.symm ha),
        if_neg (Ne.symm ha), layoutNext_append_right post hnew]
  | cons b pre ih =>
      rw [List.cons_append, List.cons_append, layoutNext, layoutNext, ih]
      have head : (pre ++ a :: (new ++ post)).head? = (pre ++ a :: post).head? := by
        cases pre <;> rfl
      rw [head]

/-- What follows a name is a name of the layout. -/
theorem mem_of_layoutNext {ids : List ι} {id next : ι} (h : layoutNext ids id = some next) :
    next ∈ ids := by
  induction ids with
  | nil => cases h
  | cons a rest ih =>
      rw [layoutNext] at h
      split_ifs at h with heq
      · exact List.mem_cons_of_mem a (List.mem_of_head? h)
      · exact List.mem_cons_of_mem a (ih h)

/-- The block of a name, in a layout without repetitions. -/
theorem find?_of_mem {L : List (Block ι σ)} (hL : (L.map Block.id).Nodup) {b : Block ι σ}
    (hb : b ∈ L) : L.find? (fun a => a.id = b.id) = some b := by
  induction L with
  | nil => cases hb
  | cons a L ih =>
      rw [List.map_cons, List.nodup_cons] at hL
      rcases List.mem_cons.mp hb with rfl | hb
      · exact List.find?_cons_of_pos (decide_eq_true rfl)
      · have hne : a.id ≠ b.id := by
          intro h
          exact hL.1 (h ▸ List.mem_map_of_mem hb)
        rw [List.find?_cons_of_neg (by simpa using hne)]
        exact ih hL.2 hb

/-- **The step of a block** in a layout without repetitions. -/
theorem step_of_mem {L : List (Block ι σ)} (hL : (L.map Block.id).Nodup) {b : Block ι σ}
    (hb : b ∈ L) (pred : Option ι) (s : σ) :
    step L ⟨pred, .block b.id, s⟩ =
      ⟨some b.id, (b.run pred s).2.place (L.map Block.id) b.id, (b.run pred s).1⟩ := by
  simp only [step, find?_of_mem hL hb]

/-! ## Paths -/

/-- Paths compose. -/
theorem Path.append {L : List (Block ι σ)} {c d e : Config ι σ} {p q : List ι}
    (hp : Path L c p d) (hq : Path L d q e) : Path L c (p ++ q) e := by
  induction hp with
  | nil c => exact hq
  | cons at_block _ ih => exact Path.cons at_block (ih hq)

/-- A path of one block. -/
theorem Path.single {L : List (Block ι σ)} {c : Config ι σ} {id : ι}
    (at_block : c.place = .block id) : Path L c [id] (step L c) :=
  Path.cons at_block (Path.nil _)

/-- Of two paths from one configuration, one goes on where the other ends. -/
theorem Path.extends_or {L : List (Block ι σ)} {c d e : Config ι σ} {p q : List ι}
    (hp : Path L c p d) (hq : Path L c q e) :
    (∃ r, q = p ++ r ∧ Path L d r e) ∨ (∃ r, p = q ++ r ∧ Path L e r d) := by
  induction hp generalizing q with
  | nil c => exact Or.inl ⟨q, rfl, hq⟩
  | cons at_block rest ih =>
      cases hq with
      | nil => exact Or.inr ⟨_, rfl, Path.cons at_block rest⟩
      | cons at_block' rest' =>
          obtain rfl := Place.block.inj (at_block.symm.trans at_block')
          rcases ih rest' with ⟨r, rfl, hr⟩ | ⟨r, rfl, hr⟩
          · exact Or.inl ⟨r, rfl, hr⟩
          · exact Or.inr ⟨r, rfl, hr⟩

/-- A path is determined by where it starts and the blocks it goes through. -/
theorem Path.unique {L : List (Block ι σ)} {c d e : Config ι σ} {p : List ι} (hp : Path L c p d)
    (hq : Path L c p e) : d = e := by
  induction hp with
  | nil c =>
      cases hq
      rfl
  | cons at_block rest ih =>
      cases hq with
      | cons at_block' rest' => exact ih rest'

/-- A path that starts at a block is empty or takes the step of the block. -/
theorem Path.eq_nil_or_step {L : List (Block ι σ)} {c d : Config ι σ} {p : List ι} {id : ι}
    (at_block : c.place = .block id) (hp : Path L c p d) :
    (p = [] ∧ d = c) ∨ ∃ q, p = id :: q ∧ Path L (step L c) q d := by
  cases hp with
  | nil => exact Or.inl ⟨rfl, rfl⟩
  | cons at_block' rest =>
      obtain rfl := Place.block.inj (at_block.symm.trans at_block')
      exact Or.inr ⟨_, rfl, rest⟩

/-- **The loop rule**: a block that keeps control while a count is positive, and keeps an
invariant, is run as often as the count says. -/
theorem Path.replicate {L : List (Block ι σ)} (id : ι) (Inv : ℕ → Config ι σ → Prop)
    (at_block : ∀ n c, Inv (n + 1) c → c.place = .block id)
    (next : ∀ n c, Inv (n + 1) c → Inv n (step L c)) (n : ℕ) :
    ∀ c, Inv n c → ∃ d, Path L c (List.replicate n id) d ∧ Inv 0 d := by
  induction n with
  | zero =>
      intro c hc
      exact ⟨c, Path.nil c, hc⟩
  | succ n ih =>
      intro c hc
      obtain ⟨d, hpath, hd⟩ := ih (step L c) (next n c hc)
      exact ⟨d, Path.cons (at_block n c hc) hpath, hd⟩

/-- **Simulation of runs**: when every step of one program is matched by a path of another, so is
every path. -/
theorem Path.simulate {L : List (Block ι σ)} {L' : List (Block ι σ')}
    (R : Config ι σ → Config ι σ' → Prop)
    (hstep : ∀ c c' id, c.place = .block id → R c c' → ∃ p d', Path L' c' p d' ∧ R (step L c) d')
    {c d : Config ι σ} {p : List ι} (hpath : Path L c p d) :
    ∀ c', R c c' → ∃ p' d', Path L' c' p' d' ∧ R d d' := by
  induction hpath with
  | nil c =>
      intro c' hR
      exact ⟨[], c', Path.nil c', hR⟩
  | cons at_block _ ih =>
      intro c' hR
      obtain ⟨p₁, d₁, hpath₁, hR₁⟩ := hstep _ c' _ at_block hR
      obtain ⟨p₂, d₂, hpath₂, hR₂⟩ := ih d₁ hR₁
      exact ⟨p₁ ++ p₂, d₂, hpath₁.append hpath₂, hR₂⟩

/-! ## Detours -/

/-- Two configurations at the same place and in the same state. -/
structure Config.Same (c d : Config ι σ) : Prop where
  place : c.place = d.place
  state : c.state = d.state

/-- A program goes from old block to old block as another one does, at most with one block that is
not old on the way. -/
structure Detours (old : ι → Bool) (L L' : List (Block ι σ)) : Prop where
  follows : ∀ c c' id, c.place = .block id → old id = true → c.Same c' →
    (step L c).Same (step L' c') ∨ ∃ new, old new = false ∧ (step L' c').place = .block new ∧
      (step L c).Same (step L' (step L' c'))
  closed : ∀ c id, c.place = .block id → old id = true →
    ∀ id', (step L c).place = .block id' → old id' = true

/-- The runs of a program are those of another one, if only the old blocks are looked at. -/
def SameRuns (old : ι → Bool) (L L' : List (Block ι σ)) : Prop :=
  ∀ id s p place s', old id = true → (∀ id', place = .block id' → old id' = true) →
    ((∃ pred, Path L ⟨none, .block id, s⟩ p ⟨pred, place, s'⟩) ↔
      ∃ p' pred, p'.filter old = p ∧ Path L' ⟨none, .block id, s⟩ p' ⟨pred, place, s'⟩)

section

variable {old : ι → Bool} {L L' L'' : List (Block ι σ)}

/-- A run of the one program is a run of the other one, with detours. -/
theorem Detours.path (h : Detours old L L') {c d : Config ι σ} {p : List ι} (hpath : Path L c p d) :
    ∀ c', (∀ id, c.place = .block id → old id = true) → c.Same c' →
      ∃ p' d', p'.filter old = p ∧ Path L' c' p' d' ∧ d.Same d' := by
  induction hpath with
  | nil c =>
      intro c' _ hsame
      exact ⟨[], c', rfl, .nil c', hsame⟩
  | @cons c d id ids at_block rest ih =>
      intro c' hold hsame
      have hid := hold id at_block
      have at_block' : c'.place = .block id := hsame.place.symm.trans at_block
      have next := h.closed c id at_block hid
      rcases h.follows c c' id at_block hid hsame with hstep | ⟨new, hnew, hplace, hstep⟩
      · obtain ⟨p', d', rfl, hpath', hd⟩ := ih _ next hstep
        exact ⟨id :: p', d', List.filter_cons_of_pos hid, .cons at_block' hpath', hd⟩
      · obtain ⟨p', d', rfl, hpath', hd⟩ := ih _ next hstep
        refine ⟨id :: new :: p', d', ?_, .cons at_block' (.cons hplace hpath'), hd⟩
        rw [List.filter_cons_of_pos hid, List.filter_cons_of_neg (by simp [hnew])]

/-- A run with detours that ends at an old block, or at none, is a run without them. -/
theorem Detours.path_filter (h : Detours old L L') (p' : List ι) :
    ∀ {c c' d' : Config ι σ}, Path L' c' p' d' → (∀ id, c.place = .block id → old id = true) →
      c.Same c' → (∀ id, d'.place = .block id → old id = true) →
      ∃ d, Path L c (p'.filter old) d ∧ d.Same d' := by
  induction hlength : p'.length using Nat.strong_induction_on generalizing p' with
  | _ n ih =>
      intro c c' d' hpath hold hsame hend
      subst hlength
      cases hpath with
      | nil => exact ⟨c, .nil c, hsame⟩
      | @cons _ _ id ids at_block rest =>
          have at_block' : c.place = .block id := hsame.place.trans at_block
          have hid := hold id at_block'
          have next := h.closed c id at_block' hid
          rw [List.filter_cons_of_pos hid]
          rcases h.follows c c' id at_block' hid hsame with hstep | ⟨new, hnew, hplace, hstep⟩
          · obtain ⟨d, hpath', hd⟩ := ih _ (Nat.lt_succ_self _) ids rfl rest next hstep hend
            exact ⟨d, .cons at_block' hpath', hd⟩
          · -- the run cannot end at the new block, so it goes on behind it
            rcases rest.eq_nil_or_step hplace with ⟨rfl, rfl⟩ | ⟨q, rfl, hrest⟩
            · rw [hend new hplace] at hnew
              cases hnew
            · obtain ⟨d, hpath', hd⟩ := ih _ (Nat.lt_succ_of_lt (Nat.lt_succ_self _)) q rfl hrest
                next hstep hend
              rw [List.filter_cons_of_neg (by simp [hnew])]
              exact ⟨d, .cons at_block' hpath', hd⟩

/-- **Programs that differ in detours only** have the same runs. -/
theorem Detours.sameRuns (h : Detours old L L') : SameRuns old L L' := by
  intro id s p place s' hid hplace
  have start : ∀ id', (⟨none, .block id, s⟩ : Config ι σ).place = .block id' → old id' = true := by
    intro id' heq
    obtain rfl := Place.block.inj heq
    exact hid
  constructor
  · rintro ⟨pred, hpath⟩
    obtain ⟨p', ⟨pred', place', state'⟩, hfilter, hpath', hsame⟩ := h.path hpath _ start ⟨rfl, rfl⟩
    obtain rfl : place = place' := hsame.place
    obtain rfl : s' = state' := hsame.state
    exact ⟨p', pred', hfilter, hpath'⟩
  · rintro ⟨p', pred, rfl, hpath⟩
    obtain ⟨⟨pred', place', state'⟩, hpath', hsame⟩ :=
      h.path_filter p' hpath start ⟨rfl, rfl⟩ hplace
    obtain rfl : place' = place := hsame.place
    obtain rfl : state' = s' := hsame.state
    exact ⟨pred', hpath'⟩

omit [DecidableEq ι] in
/-- Filtering by a weaker test first does not matter. -/
theorem filter_filter_of_imp {old old' : ι → Bool} (hsub : ∀ id, old id = true → old' id = true)
    (q : List ι) : (q.filter old').filter old = q.filter old := by
  rw [List.filter_filter]
  refine List.filter_congr fun a _ => ?_
  cases hold : old a with
  | false => rfl
  | true => rw [hsub a hold, Bool.and_true]

/-- The same runs, one program after another; more blocks may be old for the second one. -/
theorem SameRuns.trans {old' : ι → Bool} (h : SameRuns old L L') (h' : SameRuns old' L' L'')
    (hsub : ∀ id, old id = true → old' id = true) : SameRuns old L L'' := by
  intro id s p place s' hid hplace
  have second := fun q => h' id s q place s' (hsub id hid) fun id' heq => hsub id' (hplace id' heq)
  rw [h id s p place s' hid hplace]
  constructor
  · rintro ⟨q, pred, rfl, hpath⟩
    obtain ⟨q', pred', rfl, hpath'⟩ := (second q).mp ⟨pred, hpath⟩
    exact ⟨q', pred', (filter_filter_of_imp hsub q').symm, hpath'⟩
  · rintro ⟨q', pred, rfl, hpath⟩
    obtain ⟨pred', hpath'⟩ := (second (q'.filter old')).mpr ⟨q', pred, rfl, hpath⟩
    exact ⟨q'.filter old', pred', filter_filter_of_imp hsub q', hpath'⟩

end

/-! ## Programs that mirror each other -/

/-- A program mirrors another one: related configurations are at the same place, and a step of the
one is a run of the other through the same old block and blocks that are not old. -/
structure Mirrors (old : ι → Bool) (L : List (Block ι σ)) (L' : List (Block ι σ'))
    (R : Config ι σ → Config ι σ' → Prop) : Prop where
  place_eq : ∀ c c', R c c' → c'.place = c.place
  step : ∀ c c' id, c.place = .block id → R c c' →
    ∃ p d', p.filter old = [id] ∧ Path L' c' p d' ∧ R (step L c) d'

section

variable {σ'' : Type} {old old' : ι → Bool} {L : List (Block ι σ)} {L' : List (Block ι σ')}
  {L'' : List (Block ι σ'')} {R : Config ι σ → Config ι σ' → Prop}
  {R' : Config ι σ' → Config ι σ'' → Prop}

/-- Runs are mirrored through the same old blocks. -/
theorem Mirrors.path (h : Mirrors old L L' R) {c d : Config ι σ} {p : List ι}
    (hpath : Path L c p d) :
    ∀ c', R c c' → ∃ p' d', p'.filter old = p ∧ Path L' c' p' d' ∧ R d d' := by
  induction hpath with
  | nil c =>
      intro c' hR
      exact ⟨[], c', rfl, .nil c', hR⟩
  | cons at_block _ ih =>
      intro c' hR
      obtain ⟨p₁, d₁, hfilter₁, hpath₁, hR₁⟩ := h.step _ c' _ at_block hR
      obtain ⟨p₂, d₂, hfilter₂, hpath₂, hR₂⟩ := ih d₁ hR₁
      refine ⟨p₁ ++ p₂, d₂, ?_, hpath₁.append hpath₂, hR₂⟩
      rw [List.filter_append, hfilter₁, hfilter₂, List.singleton_append]

/-- A run that ends at no block mirrors a run. -/
theorem Mirrors.path_filter (h : Mirrors old L L' R) (p' : List ι) :
    ∀ {c : Config ι σ} {c' d' : Config ι σ'}, Path L' c' p' d' → R c c' →
      (∀ id, d'.place ≠ .block id) → ∃ d, Path L c (p'.filter old) d ∧ R d d' := by
  induction hlength : p'.length using Nat.strong_induction_on generalizing p' with
  | _ n ih =>
      intro c c' d' hpath hR hend
      subst hlength
      cases hpath with
      | nil => exact ⟨c, .nil c, hR⟩
      | @cons _ _ id ids at_block rest =>
          have at_block' : c.place = .block id := (h.place_eq c c' hR).symm.trans at_block
          obtain ⟨p₁, d₁, hfilter, hpath₁, hR₁⟩ := h.step c c' id at_block' hR
          have hne : p₁ ≠ [] := by
            rintro rfl
            cases hfilter
          rcases hpath₁.extends_or (.cons at_block rest) with ⟨r, hr, hrest⟩ | ⟨r, hr, hrest⟩
          · have hlt : r.length < (id :: ids).length := by
              have hpos := List.length_pos_of_ne_nil hne
              rw [hr, List.length_append]
              omega
            obtain ⟨d, hpath', hd⟩ := ih r.length hlt r rfl hrest hR₁ hend
            refine ⟨d, ?_, hd⟩
            rw [hr, List.filter_append, hfilter]
            exact .cons at_block' hpath'
          · -- the run ends within this step, so with it
            obtain ⟨rfl, rfl⟩ : r = [] ∧ d₁ = d' := by
              cases hrest with
              | nil => exact ⟨rfl, rfl⟩
              | cons at_block'' _ => exact absurd at_block'' (hend _)
            rw [List.append_nil] at hr
            rw [← hr, hfilter]
            exact ⟨_, .single at_block', hR₁⟩

/-- **Following is transitive**; more blocks may be old for the second program. -/
theorem Mirrors.trans (h : Mirrors old L L' R) (h' : Mirrors old' L' L'' R')
    (hsub : ∀ id, old id = true → old' id = true) :
    Mirrors old L L'' fun c c'' => ∃ c', R c c' ∧ R' c' c'' where
  place_eq := by
    rintro c c'' ⟨c', hR, hR'⟩
    exact (h'.place_eq c' c'' hR').trans (h.place_eq c c' hR)
  step := by
    rintro c c'' id at_block ⟨c', hR, hR'⟩
    obtain ⟨p, d', hfilter, hpath, hd⟩ := h.step c c' id at_block hR
    obtain ⟨p', d'', rfl, hpath', hd'⟩ := h'.path hpath c'' hR'
    exact ⟨p', d'', (filter_filter_of_imp hsub p').symm.trans hfilter, hpath', d', hd, hd'⟩

end

end Steps

end BlockLayout
