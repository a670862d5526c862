import TLevelDB.Lib.Cursor
import TLevelDB.Lib.SortedSearch

/-!
# Cursors over the union of sorted lists

Several lists with increasing keys have no key in common, and a list with increasing keys
holds the elements of all of them. A search in that list finds the best of what the same
search finds in each of the lists (`IsUnion.seek_eq_some`, `IsUnion.seekBack_eq_some`), and
once it is found each list is where a search from there on would put it
(`IsUnion.seek_at`, `IsUnion.seekBack_at`).
-/

namespace TLevelDB.Cursors

open SortedSearch

variable {α β ι : Type} [LinearOrder β] {key : α → β}

/-! ### One list -/

section One

variable {l : List α} {p q : α → Prop} [DecidablePred p] [DecidablePred q] {z : Zipper α}

theorem seek_congr (h : ∀ x ∈ l, p x ↔ q x) : seek p l = seek q l := by
  refine Option.ext fun z => ?_
  rw [seek_eq_some_iff, seek_eq_some_iff]
  refine and_congr_right fun hz => ?_
  subst hz
  refine and_congr (h _ z.cur_mem) (forall_congr' fun x => forall_congr' fun hx => ?_)
  rw [h x (Zipper.mem_toList.mpr (Or.inl hx))]

theorem seekBack_congr (h : ∀ x ∈ l, p x ↔ q x) : seekBack p l = seekBack q l := by
  rw [seekBack, seekBack, seek_congr fun x hx => h x (List.mem_reverse.mp hx)]

/-- The first element that satisfies a predicate is the smallest. -/
theorem seek_eq_some_iff_least (hl : Increasing key l) :
    seek p l = some z ↔ z.toList = l ∧ p z.cur ∧ ∀ y ∈ l, p y → key z.cur ≤ key y := by
  rw [seek_eq_some_iff]
  refine and_congr_right fun hz => and_congr_right fun _ => ?_
  subst hz
  constructor
  · intro hbefore y hy hp
    rcases Zipper.mem_toList.mp hy with hy | rfl | hy
    · exact absurd hp (hbefore y hy)
    · exact le_rfl
    · exact (cur_rel_of_mem_after hl hy).le
  · intro hleast y hy hp
    have hle := hleast y (Zipper.mem_toList.mpr (Or.inl hy)) hp
    exact absurd (rel_cur_of_mem_before hl hy) (not_lt.mpr hle)

end One

/-! ### The union -/

/-- The list has the elements of all lists, in order. -/
structure IsUnion (key : α → β) (contents : ι → List α) (U : List α) : Prop where
  sorted : Increasing key U
  each : ∀ i, Increasing key (contents i)
  mem_iff : ∀ x, x ∈ U ↔ ∃ i, x ∈ contents i
  disjoint : ∀ i j, i ≠ j → ∀ x ∈ contents i, ∀ y ∈ contents j, key x ≠ key y

variable {contents : ι → List α} {U : List α} {p : α → Prop} [DecidablePred p] {z w : Zipper α} {i j : ι}

/-- The same lists in the other direction. -/
theorem IsUnion.reverse (h : IsUnion key contents U) :
    IsUnion (OrderDual.toDual ∘ key) (fun i => (contents i).reverse) U.reverse where
  sorted := h.sorted.reverse
  each i := (h.each i).reverse
  mem_iff x := by simp only [List.mem_reverse, h.mem_iff]
  disjoint i j hij x hx y hy := h.disjoint i j hij x (List.mem_reverse.mp hx) y (List.mem_reverse.mp hy)

theorem IsUnion.seek_eq_none (h : IsUnion key contents U) (hall : ∀ i, seek p (contents i) = none) :
    seek p U = none := by
  rw [seek_eq_none_iff]
  intro x hx
  obtain ⟨i, hi⟩ := (h.mem_iff x).mp hx
  exact (seek_eq_none_iff p).mp (hall i) x hi

/-- The smallest of the elements that were found in the lists. -/
theorem IsUnion.seek_eq_some (h : IsUnion key contents U) (hi : seek p (contents i) = some z)
    (hleast : ∀ j w, seek p (contents j) = some w → key z.cur ≤ key w.cur) :
    ∃ w, seek p U = some w ∧ w.cur = z.cur := by
  have hz := (seek_eq_some_iff_least (h.each i)).mp hi
  have hle : ∀ j, ∀ y ∈ contents j, p y → key z.cur ≤ key y := by
    intro j y hy hp
    cases hj : seek p (contents j) with
    | none => exact absurd hp ((seek_eq_none_iff p).mp hj y hy)
    | some w => exact (hleast j w hj).trans (((seek_eq_some_iff_least (h.each j)).mp hj).2.2 y hy hp)
  have hzU : z.cur ∈ U := (h.mem_iff _).mpr ⟨i, cur_mem_of_seek p hi⟩
  cases hU : seek p U with
  | none => exact absurd hz.2.1 ((seek_eq_none_iff p).mp hU _ hzU)
  | some w =>
    obtain ⟨hw, hp, hwleast⟩ := (seek_eq_some_iff_least h.sorted).mp hU
    have hwU : w.cur ∈ U := cur_mem_of_seek p hU
    obtain ⟨j, hj⟩ := (h.mem_iff _).mp hwU
    refine ⟨w, rfl, h.sorted.eq_of_key hwU hzU (le_antisymm ?_ ?_)⟩
    · exact hwleast _ hzU hz.2.1
    · exact hle j _ hj hp

/-- A search that found an element is a search from that element on. -/
theorem IsUnion.seek_at (h : IsUnion key contents U) (hp : ∀ x y, key x ≤ key y → p x → p y) (hw : seek p U = some w)
    (j : ι) : seek p (contents j) = seek (fun x => key w.cur ≤ key x) (contents j) := by
  obtain ⟨-, hpw, hleast⟩ := (seek_eq_some_iff_least h.sorted).mp hw
  refine seek_congr fun x hx => ?_
  constructor
  · exact hleast x ((h.mem_iff x).mpr ⟨j, hx⟩)
  · exact fun hle => hp _ _ hle hpw

theorem IsUnion.seekBack_eq_none (h : IsUnion key contents U) (hall : ∀ i, seekBack p (contents i) = none) :
    seekBack p U = none := by
  rw [seekBack, h.reverse.seek_eq_none fun i => ?_]
  · rfl
  · exact Option.map_eq_none_iff.mp (hall i)

theorem IsUnion.seekBack_eq_some (h : IsUnion key contents U) (hi : seekBack p (contents i) = some z)
    (hgreatest : ∀ j w, seekBack p (contents j) = some w → key w.cur ≤ key z.cur) :
    ∃ w, seekBack p U = some w ∧ w.cur = z.cur := by
  obtain ⟨z', hz', rfl⟩ := Option.map_eq_some_iff.mp hi
  obtain ⟨w, hw, hcur⟩ := h.reverse.seek_eq_some hz' fun j w hw =>
    OrderDual.toDual_le_toDual.mpr (hgreatest j w.swap (Option.map_eq_some_iff.mpr ⟨w, hw, rfl⟩))
  exact ⟨w.swap, Option.map_eq_some_iff.mpr ⟨w, hw, rfl⟩, hcur⟩

theorem IsUnion.seekBack_at (h : IsUnion key contents U) (hp : ∀ x y, key x ≤ key y → p y → p x)
    (hw : seekBack p U = some w) (j : ι) : seekBack p (contents j) = seekBack (fun x => key x ≤ key w.cur) (contents j) := by
  obtain ⟨w', hw', rfl⟩ := Option.map_eq_some_iff.mp hw
  exact congrArg (Option.map Zipper.swap) (h.reverse.seek_at (fun x y hxy => hp y x hxy) hw' j)

end TLevelDB.Cursors
