import Mathlib.Data.List.TakeWhile
import Mathlib.Tactic.Common

/-!
# Sorted lists above one another

The levels of a skip list: sorted lists, each with only entries of the one below. A search
goes along a level as long as a predicate holds, and then down at the same place. `After l x
rest` says which place that is: `rest` is what comes after `x`, where `none` is the place
before the first entry.

A place of a level is a place of the one below (`Nested.down`), and the place at which a
search stops is determined by the predicate (`After.eq_dropWhile`).
-/

namespace TLevelDB.Levels

variable {E : Type} {lt : E → E → Prop} {l rest : List E} {x : Option E} {y : E}

/-- Sorted lists, each with only entries of the one below. -/
structure Nested (lt : E → E → Prop) (height : ℕ) (L : ℕ → List E) : Prop where
  sorted : ∀ i < height, (L i).Pairwise lt
  subset : ∀ i, i + 1 < height → L (i + 1) ⊆ L i

/-- What comes after a place of a list. -/
def After (l : List E) (x : Option E) (rest : List E) : Prop := ∃ before, l = before ++ rest ∧ x = before.getLast?

theorem after_none (l : List E) : After l none l := ⟨[], rfl, rfl⟩

theorem After.next (h : After l x (y :: rest)) : After l (some y) rest := by
  obtain ⟨before, rfl, -⟩ := h
  exact ⟨before ++ [y], by simp, by simp⟩

theorem After.mem (h : After l (some y) rest) : y ∈ l := by
  obtain ⟨before, rfl, hlast⟩ := h
  exact List.mem_append_left _ (List.mem_of_getLast? hlast.symm)

theorem After.forall_lt (h : After l x (y :: rest)) (hsorted : l.Pairwise lt) : ∀ e ∈ x, lt e y := by
  obtain ⟨before, rfl, rfl⟩ := h
  intro e he
  exact (List.pairwise_append.mp hsorted).2.2 e (List.mem_of_getLast? he) y List.mem_cons_self

theorem exists_after (h : y ∈ l) : ∃ rest, After l (some y) rest := by
  obtain ⟨before, rest, rfl⟩ := List.append_of_mem h
  exact ⟨rest, before ++ [y], by simp, by simp⟩

/-- Every place of a level is a place of any level below. -/
theorem Nested.down {height : ℕ} {L : ℕ → List E} (h : Nested lt height L) {i j : ℕ} (hi : i < height) (hj : j ≤ i)
    (hafter : After (L i) x rest) : ∃ rest', After (L j) x rest' := by
  cases x with
  | none => exact ⟨L j, after_none _⟩
  | some y =>
    induction i, hj using Nat.le_induction generalizing rest with
    | base => exact ⟨rest, hafter⟩
    | succ i hj ih =>
      obtain ⟨rest', hrest'⟩ := exists_after (h.subset i hi hafter.mem)
      exact ih (Nat.lt_of_succ_lt hi) hrest'

/-- A search has less before it at an entry than at a smaller one. -/
theorem After.length_lt {rest' : List E} (h : After l x rest) (h' : After l (some y) rest') (hsorted : l.Pairwise lt)
    (hasymm : ∀ a b, lt a b → ¬ lt b a) (hlt : ∀ e ∈ x, lt e y) : rest'.length < rest.length := by
  obtain ⟨before, rfl, rfl⟩ := h
  obtain ⟨before', heq, hlast⟩ := h'
  by_contra hle
  have hprefix : before' <+: before := by
    have hlen := congrArg List.length heq
    rw [List.length_append, List.length_append] at hlen
    exact List.prefix_of_prefix_length_le (heq ▸ List.prefix_append before' rest') (List.prefix_append before rest) (by omega)
  obtain ⟨more, rfl⟩ := hprefix
  have hy := List.mem_of_getLast? hlast.symm
  cases hmore : more.getLast? with
  | none =>
    rw [List.getLast?_append, hmore, ← hlast] at hlt
    have hself := hlt y rfl
    exact hasymm y y hself hself
  | some e =>
    rw [List.getLast?_append, hmore] at hlt
    have hright := hlt e rfl
    have hpair := (List.pairwise_append.mp (List.pairwise_append.mp hsorted).1).2.2
    exact hasymm _ _ hright (hpair y hy e (List.mem_of_getLast? hmore))

/-- The place at which a search stops. -/
theorem After.eq_dropWhile {p : E → Bool} (h : After l x rest) (hsorted : l.Pairwise lt)
    (hp : ∀ a b, lt a b → p b → p a) (hx : ∀ e ∈ x, p e) (hrest : ∀ e ∈ rest.head?, p e = false) :
    rest = l.dropWhile p ∧ x = (l.takeWhile p).getLast? := by
  obtain ⟨before, rfl, rfl⟩ := h
  have hbefore : ∀ a ∈ before, p a := by
    intro a ha
    obtain ⟨init, last, rfl⟩ := before.eq_nil_or_concat.resolve_left (List.ne_nil_of_mem ha)
    rw [List.concat_eq_append] at *
    have hlast : p last := hx last (by simp)
    rcases List.mem_append.mp ha with ha | ha
    · exact hp a last ((List.pairwise_append.mp (List.pairwise_append.mp hsorted).1).2.2 a ha last (by simp)) hlast
    · rw [List.mem_singleton.mp ha]
      exact hlast
  rw [List.dropWhile_append_of_pos hbefore, List.takeWhile_append_of_pos hbefore]
  cases rest with
  | nil => simp
  | cons y ys => simp [hrest y rfl]

end TLevelDB.Levels
