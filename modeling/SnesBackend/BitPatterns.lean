/-
# Decoding by Bit Patterns

Patterns that fix some bits of a word and leave the others open, and tables of
instructions with such patterns.  A decoder of a table gives a word the most
specific instruction whose pattern it has, where there is one.
-/
import Mathlib

namespace BitPatterns

/-! ## Patterns -/

/-- The bits of a word from bit 0 up, `none` where both values will do. -/
abbrev Pattern := List (Option Bool)

namespace Pattern

variable {w : ℕ}

/-- A word has the bits that a pattern fixes. -/
def Matches (p : Pattern) (x : BitVec w) : Prop :=
  ∀ i < p.length, ∀ b, p[i]? = some (some b) → x.getLsbD i = b

instance (p : Pattern) (x : BitVec w) : Decidable (p.Matches x) :=
  inferInstanceAs (Decidable (∀ i < p.length, ∀ b, p[i]? = some (some b) → x.getLsbD i = b))

/-- A fixed bit of a pattern that a word has. -/
theorem Matches.getLsbD_eq {p : Pattern} {x : BitVec w} (h : p.Matches x) {i : ℕ} {b : Bool}
    (hi : p[i]? = some (some b)) : x.getLsbD i = b := by
  obtain ⟨hlt, -⟩ := List.getElem?_eq_some_iff.mp hi
  exact h i hlt b hi

/-- Two patterns fix a bit differently. -/
def clashes : Pattern → Pattern → Bool
  | some a :: p, some b :: q => a != b || clashes p q
  | _ :: p, _ :: q => clashes p q
  | _, _ => false

/-- The bit that two clashing patterns fix differently. -/
theorem exists_of_clashes {p q : Pattern} (h : clashes p q = true) :
    ∃ (i : ℕ) (b : Bool), p[i]? = some (some b) ∧ q[i]? = some (some !b) := by
  fun_induction clashes p q with
  | case1 a p b q ih =>
      rcases Bool.or_eq_true_iff.mp h with hab | hrest
      · exact ⟨0, a, rfl, by cases a <;> cases b <;> simp_all⟩
      · obtain ⟨i, c, hp, hq⟩ := ih hrest
        exact ⟨i + 1, c, hp, hq⟩
  | case2 x p y q _ ih =>
      obtain ⟨i, c, hp, hq⟩ := ih h
      exact ⟨i + 1, c, hp, hq⟩
  | case3 => exact absurd h (by decide)

/-- No word has two patterns that clash. -/
theorem Matches.not_of_clashes {p q : Pattern} {x : BitVec w} (hp : p.Matches x)
    (h : clashes p q = true) : ¬ q.Matches x := by
  intro hq
  obtain ⟨i, b, hpi, hqi⟩ := exists_of_clashes h
  have hne := (hp.getLsbD_eq hpi).symm.trans (hq.getLsbD_eq hqi)
  cases b <;> exact absurd hne (by decide)

/-- Every bit that the second pattern fixes is fixed by the first. -/
def covers : Pattern → Pattern → Bool
  | _, [] => true
  | [], y :: q => y.isNone && covers [] q
  | x :: p, y :: q => (y.isNone || x.isSome) && covers p q

/-- The first pattern fixes more bits than the second. -/
def moreSpecific (p q : Pattern) : Bool :=
  covers p q && !covers q p

/-- Of two patterns only one is the more specific. -/
theorem moreSpecific_asymm {p q : Pattern} (h : moreSpecific p q = true) :
    moreSpecific q p = false := by
  simp only [moreSpecific, Bool.and_eq_true, Bool.not_eq_true'] at h
  simp [moreSpecific, h.2]

end Pattern

/-! ## Decoders -/

open Pattern

variable {α : Type*} {w : ℕ}

/-- An instruction has its pattern in a word and is more specific than the others that do. -/
def MostSpecific (pattern : α → Pattern) (table : List α) (x : BitVec w) (a : α) : Prop :=
  (pattern a).Matches x ∧
    ∀ b ∈ table, b ≠ a → (pattern b).Matches x → moreSpecific (pattern a) (pattern b) = true

instance [DecidableEq α] (pattern : α → Pattern) (table : List α) (x : BitVec w) (a : α) :
    Decidable (MostSpecific pattern table x a) :=
  inferInstanceAs (Decidable ((pattern a).Matches x ∧ ∀ b ∈ table, b ≠ a →
    (pattern b).Matches x → moreSpecific (pattern a) (pattern b) = true))

/-- **There is at most one** most specific instruction. -/
theorem MostSpecific.unique {pattern : α → Pattern} {table : List α} {x : BitVec w} {a b : α}
    (ha : a ∈ table) (hb : b ∈ table) (hxa : MostSpecific pattern table x a)
    (hxb : MostSpecific pattern table x b) : a = b := by
  by_contra hne
  have hab := hxa.2 b hb (Ne.symm hne) hxb.1
  have hba := hxb.2 a ha hne hxa.1
  rw [moreSpecific_asymm hab] at hba
  exact absurd hba (by decide)

/-- A decoder of a table.  Nothing is said about a word that has several patterns of the table none
of which is more specific than all others. -/
structure Decoder (pattern : α → Pattern) (table : List α) (w : ℕ) where
  decode : BitVec w → Option α
  mem_table : ∀ {x a}, decode x = some a → a ∈ table
  eq_none : ∀ {x}, (∀ a ∈ table, ¬ (pattern a).Matches x) → decode x = none
  eq_some : ∀ {x a}, a ∈ table → MostSpecific pattern table x a → decode x = some a

namespace Decoder

variable {pattern : α → Pattern} {table : List α}

/-- **An instruction that is never less specific** than another one is decoded where its pattern
is. -/
theorem decode_eq_some (decoder : Decoder pattern table w) {x : BitVec w} {a : α} (ha : a ∈ table)
    (hx : (pattern a).Matches x)
    (h : ∀ b ∈ table, b = a ∨ clashes (pattern a) (pattern b) = true ∨
      moreSpecific (pattern a) (pattern b) = true) : decoder.decode x = some a := by
  refine decoder.eq_some ha ⟨hx, fun b hb hne hbx => ?_⟩
  rcases h b hb with heq | hclash | hmore
  · exact absurd heq hne
  · exact absurd hbx (hx.not_of_clashes hclash)
  · exact hmore

/-- Where no two patterns of a table are in one word, only words with its pattern are decoded to an
instruction. -/
theorem matches_of_decode (decoder : Decoder pattern table w)
    (h : ∀ a ∈ table, ∀ b ∈ table, b = a ∨ clashes (pattern a) (pattern b) = true)
    {x : BitVec w} {a : α} (hx : decoder.decode x = some a) : (pattern a).Matches x := by
  by_contra hnot
  have hnone : decoder.decode x = none := by
    refine decoder.eq_none fun b hb hbx => hnot ?_
    have hb' := decoder.decode_eq_some hb hbx fun c hc => (h b hb c hc).imp_right Or.inl
    obtain rfl := Option.some.inj (hx.symm.trans hb')
    exact hbx
  exact absurd (hx.symm.trans hnone) (by simp)

/-- The decoder that looks for the most specific instruction. -/
def mostSpecific [DecidableEq α] (pattern : α → Pattern) (table : List α) (w : ℕ) :
    Decoder pattern table w where
  decode x := table.find? fun a => decide (MostSpecific pattern table x a)
  mem_table h := List.mem_of_find?_eq_some h
  eq_none h := by
    refine List.find?_eq_none.mpr fun a ha hfound => ?_
    exact h a ha (of_decide_eq_true hfound).1
  eq_some {x a} ha hx := by
    have hfound : (table.find? fun a => decide (MostSpecific pattern table x a)).isSome = true :=
      List.find?_isSome.mpr ⟨a, ha, decide_eq_true hx⟩
    obtain ⟨c, hc⟩ := Option.isSome_iff_exists.mp hfound
    have hcx : MostSpecific pattern table x c := by simpa using List.find?_some hc
    rw [hc, hcx.unique (List.mem_of_find?_eq_some hc) ha hx]

end Decoder

end BitPatterns
