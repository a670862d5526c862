import Mathlib.Data.List.Basic
import Mathlib.Order.Defs.LinearOrder

/-!
# Cursors over a list

A cursor stands on an element of a list or nowhere. It is moved to the first or the
last element, to the first or the last one that satisfies a predicate, and by one in
either direction; past an end it stands nowhere, and does not remember which end.

On a list without repetitions of its order, moving by one is seeking the first element
above, or the last one below, the current one (`next_eq_seek`, `prev_eq_seekBack`). A
cursor over some of the elements, each seen through a function, is a cursor over all of
them that seeks only among those (`seek_filter_map`, `seekBack_filter_map`).
-/

namespace TLevelDB.Cursors

variable {α β : Type}

/-- A position on an element of a list. -/
@[ext] structure Zipper (α : Type) where
  /-- The elements before it, the nearest first. -/
  before : List α
  /-- The element. -/
  cur : α
  /-- The elements after it. -/
  after : List α
deriving DecidableEq

namespace Zipper

/-- The list it is a position in. -/
def toList (z : Zipper α) : List α := z.before.reverse ++ z.cur :: z.after

/-- The same position in the reversed list. -/
def swap (z : Zipper α) : Zipper α := ⟨z.after, z.cur, z.before⟩

@[simp] theorem swap_swap (z : Zipper α) : z.swap.swap = z := rfl

@[simp] theorem swap_cur (z : Zipper α) : z.swap.cur = z.cur := rfl

@[simp] theorem swap_before (z : Zipper α) : z.swap.before = z.after := rfl

@[simp] theorem toList_swap (z : Zipper α) : z.swap.toList = z.toList.reverse := by
  simp [toList, swap]

variable {x : α}

theorem mem_toList {z : Zipper α} : x ∈ z.toList ↔ x ∈ z.before ∨ x = z.cur ∨ x ∈ z.after := by
  simp [toList]

theorem cur_mem (z : Zipper α) : z.cur ∈ z.toList := mem_toList.mpr (Or.inr (Or.inl rfl))

/-- The position among the elements that satisfy `q`, each seen through `f`. -/
def filterMap (q : α → Prop) [DecidablePred q] (f : α → β) (z : Zipper α) : Zipper β :=
  ⟨(z.before.filter q).map f, f z.cur, (z.after.filter q).map f⟩

theorem toList_filterMap (q : α → Prop) [DecidablePred q] (f : α → β) {z : Zipper α} (h : q z.cur) :
    (z.filterMap q f).toList = (z.toList.filter q).map f := by
  simp [toList, filterMap, h]

end Zipper

/-- A cursor: on an element, or nowhere. -/
abbrev Cursor (α : Type) := Option (Zipper α)

/-! ### Moving -/

/-- One element on. -/
def next : Cursor α → Cursor α
  | some ⟨b, x, y :: a⟩ => some ⟨x :: b, y, a⟩
  | _ => none

/-- One element back. -/
def prev : Cursor α → Cursor α
  | some ⟨y :: b, x, a⟩ => some ⟨b, y, x :: a⟩
  | _ => none

/-- The first element of `l` that satisfies `p`, after the elements `b`. -/
def seekFrom (p : α → Prop) [DecidablePred p] (b : List α) : List α → Cursor α
  | [] => none
  | x :: l => if p x then some ⟨b, x, l⟩ else seekFrom p (x :: b) l

/-- The first element that satisfies `p`. -/
def seek (p : α → Prop) [DecidablePred p] (l : List α) : Cursor α := seekFrom p [] l

/-- The last element that satisfies `p`. -/
def seekBack (p : α → Prop) [DecidablePred p] (l : List α) : Cursor α := (seek p l.reverse).map Zipper.swap

/-- The first element. -/
def seekToFirst (l : List α) : Cursor α := seek (fun _ => True) l

/-- The last element. -/
def seekToLast (l : List α) : Cursor α := seekBack (fun _ => True) l

theorem toList_of_next {z w : Zipper α} (h : next (some w) = some z) : z.toList = w.toList := by
  obtain ⟨b, x, a⟩ := w
  cases a with
  | nil => cases h
  | cons y a =>
    cases h
    simp [Zipper.toList]

theorem toList_of_prev {z w : Zipper α} (h : prev (some w) = some z) : z.toList = w.toList := by
  obtain ⟨b, x, a⟩ := w
  cases b with
  | nil => cases h
  | cons y b =>
    cases h
    simp [Zipper.toList]

/-! ### Seeking -/

section Seek

variable (p : α → Prop) [DecidablePred p] {l : List α} {z : Zipper α}

theorem seekFrom_eq_some_iff {b : List α} (hb : ∀ x ∈ b, ¬ p x) :
    seekFrom p b l = some z ↔ z.toList = b.reverse ++ l ∧ p z.cur ∧ ∀ x ∈ z.before, ¬ p x := by
  induction l generalizing b with
  | nil =>
    refine iff_of_false (by simp [seekFrom]) ?_
    rintro ⟨hl, hp, -⟩
    have hmem : z.cur ∈ b := by simpa [hl] using z.cur_mem
    exact hb _ hmem hp
  | cons x l ih =>
    unfold seekFrom
    split_ifs with hx
    · constructor
      · rintro ⟨⟩
        exact ⟨rfl, hx, hb⟩
      · rintro ⟨hl, hp, hz⟩
        -- the two lists agree up to the first element that satisfies `p`
        obtain ⟨b', y, a'⟩ := z
        simp only [Zipper.toList] at hl hp hz
        rcases List.append_eq_append_iff.mp hl with ⟨c, hb', hc⟩ | ⟨c, hb', hc⟩
        · cases c with
          | nil => simp_all
          | cons w c =>
            obtain ⟨rfl, -⟩ : y = w ∧ a' = c ++ x :: l := by simpa using hc
            exact absurd hp (hb y (by rw [← List.mem_reverse, hb']; simp))
        · cases c with
          | nil => simp_all
          | cons w c =>
            obtain ⟨rfl, -⟩ : x = w ∧ l = c ++ y :: a' := by simpa using hc
            exact absurd hx (hz x (by rw [← List.mem_reverse, hb']; simp))
    · rw [ih (by simpa [hx] using hb)]
      simp

theorem seekFrom_eq_none_iff {b : List α} : seekFrom p b l = none ↔ ∀ x ∈ l, ¬ p x := by
  induction l generalizing b with
  | nil => simp [seekFrom]
  | cons x l ih =>
    unfold seekFrom
    split_ifs with hx
    · simp [hx]
    · simp [ih, hx]

theorem seek_eq_some_iff :
    seek p l = some z ↔ z.toList = l ∧ p z.cur ∧ ∀ x ∈ z.before, ¬ p x := by
  rw [seek, seekFrom_eq_some_iff p (by simp)]
  simp

theorem map_cur_seekFrom (b l : List α) : (seekFrom p b l).map Zipper.cur = l.find? fun x => decide (p x) := by
  induction l generalizing b with
  | nil => rfl
  | cons x l ih =>
    unfold seekFrom
    split_ifs with hx
    · simp [hx]
    · simp [hx, ih]

theorem map_cur_seek (l : List α) : (seek p l).map Zipper.cur = l.find? fun x => decide (p x) := map_cur_seekFrom p [] l

theorem seek_eq_none_iff : seek p l = none ↔ ∀ x ∈ l, ¬ p x := seekFrom_eq_none_iff p

theorem seekBack_eq_some_iff :
    seekBack p l = some z ↔ z.toList = l ∧ p z.cur ∧ ∀ x ∈ z.after, ¬ p x := by
  have hswap : seekBack p l = some z ↔ seek p l.reverse = some z.swap := by
    unfold seekBack
    cases seek p l.reverse with
    | none => simp
    | some w =>
      simp only [Option.map_some, Option.some.injEq]
      exact ⟨fun h => h ▸ rfl, fun h => h ▸ rfl⟩
  rw [hswap, seek_eq_some_iff]
  simp

theorem cur_mem_of_seek (h : seek p l = some z) : z.cur ∈ l := by
  rw [← ((seek_eq_some_iff p).mp h).1]
  exact z.cur_mem

theorem seekBack_eq_none_iff : seekBack p l = none ↔ ∀ x ∈ l, ¬ p x := by
  simp [seekBack, seek_eq_none_iff]

end Seek

/-! ### Sorted lists -/

section Sorted

variable {r : α → α → Prop} {l : List α} {z : Zipper α}

theorem rel_cur_of_mem_before (hl : z.toList.Pairwise r) (hx : x ∈ z.before) : r x z.cur :=
  (List.pairwise_append.mp hl).2.2 x (List.mem_reverse.mpr hx) z.cur (by simp)

theorem cur_rel_of_mem_after (hl : z.toList.Pairwise r) (hx : x ∈ z.after) : r z.cur x :=
  (List.pairwise_cons.mp (List.pairwise_append.mp hl).2.1).1 x hx

variable [DecidableRel r]

/-- Moving on by one finds the first element above the current one. -/
theorem next_eq_seek (hr : ∀ x y, r x y → ¬ r y x) (hl : l.Pairwise r) (hz : z.toList = l) :
    next (some z) = seek (r z.cur) l := by
  subst hz
  have hirr : ¬ r z.cur z.cur := fun h => hr _ _ h h
  have hbefore : ∀ x ∈ z.before, ¬ r z.cur x := fun x hx => hr _ _ (rel_cur_of_mem_before hl hx)
  obtain ⟨b, x, a⟩ := z
  symm
  cases a with
  | nil =>
    rw [next, seek_eq_none_iff]
    intro y hy
    rcases Zipper.mem_toList.mp hy with hy | rfl | hy
    · exact hbefore y hy
    · exact hirr
    · simp at hy
    all_goals simp
  | cons y a =>
    rw [next, seek_eq_some_iff]
    refine ⟨by simp [Zipper.toList], cur_rel_of_mem_after hl (by simp), ?_⟩
    simp only [List.mem_cons, forall_eq_or_imp]
    exact ⟨hirr, hbefore⟩

omit [DecidableRel r] in
theorem prev_eq_map_swap_next (z : Zipper α) : prev (some z) = (next (some z.swap)).map Zipper.swap := by
  obtain ⟨b, x, a⟩ := z
  cases b <;> rfl

/-- Moving back by one finds the last element below the current one. -/
theorem prev_eq_seekBack (hr : ∀ x y, r x y → ¬ r y x) (hl : l.Pairwise r) (hz : z.toList = l) :
    prev (some z) = seekBack (fun x => r x z.cur) l := by
  rw [prev_eq_map_swap_next, next_eq_seek (r := fun x y => r y x) (l := l.reverse) (fun x y h => hr y x h)
    (List.pairwise_reverse.mpr hl) (by rw [Zipper.toList_swap, hz])]
  rfl

end Sorted

/-! ### Positions by number -/

section Index

variable (l : List α)

/-- The cursor on element number `i`; past the end it stands nowhere. -/
def atIndex (i : ℕ) : Cursor α := l[i]?.map fun x => ⟨(l.take i).reverse, x, l.drop (i + 1)⟩

variable {l} {i : ℕ}

theorem atIndex_of_lt (h : i < l.length) : atIndex l i = some ⟨(l.take i).reverse, l[i], l.drop (i + 1)⟩ := by
  rw [atIndex, List.getElem?_eq_getElem h, Option.map_some]

theorem atIndex_of_le (h : l.length ≤ i) : atIndex l i = none := by
  rw [atIndex, List.getElem?_eq_none h, Option.map_none]

@[simp] theorem map_cur_atIndex : (atIndex l i).map Zipper.cur = l[i]? := by
  simp [atIndex, Function.comp_def]

theorem toList_atIndex {z : Zipper α} (h : atIndex l i = some z) : z.toList = l := by
  by_cases hi : i < l.length
  · rw [atIndex_of_lt hi] at h
    cases h
    rw [Zipper.toList, List.reverse_reverse, ← List.drop_eq_getElem_cons hi, List.take_append_drop]
  · rw [atIndex_of_le (Nat.le_of_not_lt hi)] at h
    cases h

theorem reverse_take_succ (h : i < l.length) : (l.take (i + 1)).reverse = l[i] :: (l.take i).reverse := by
  rw [List.take_succ_eq_append_getElem h, List.reverse_append]
  rfl

theorem next_atIndex : next (atIndex l i) = atIndex l (i + 1) := by
  by_cases hi : i < l.length
  · rw [atIndex_of_lt hi]
    by_cases hi' : i + 1 < l.length
    · rw [atIndex_of_lt hi', List.drop_eq_getElem_cons hi', next, reverse_take_succ hi]
    · rw [atIndex_of_le (Nat.le_of_not_lt hi'), List.drop_eq_nil_of_le (Nat.le_of_not_lt hi')]
      rfl
  · rw [atIndex_of_le (Nat.le_of_not_lt hi), atIndex_of_le (by omega)]
    rfl

theorem prev_atIndex_succ (h : i + 1 < l.length) : prev (atIndex l (i + 1)) = atIndex l i := by
  have hi : i < l.length := by omega
  rw [atIndex_of_lt h, atIndex_of_lt hi, reverse_take_succ hi, List.drop_eq_getElem_cons h, prev]

theorem prev_atIndex_zero : prev (atIndex l 0) = none := by
  cases l <;> rfl

theorem seek_eq_atIndex (p : α → Prop) [DecidablePred p] : seek p l = atIndex l (l.findIdx fun x => decide (p x)) := by
  by_cases hi : l.findIdx (fun x => decide (p x)) < l.length
  · rw [atIndex_of_lt hi, seek_eq_some_iff]
    refine ⟨toList_atIndex (atIndex_of_lt hi), by simpa using List.findIdx_getElem (w := hi), fun x hx => ?_⟩
    obtain ⟨j, hj, rfl⟩ := List.mem_iff_getElem.mp (List.mem_reverse.mp hx)
    rw [List.length_take] at hj
    rw [List.getElem_take]
    have hnot := List.not_of_lt_findIdx (p := fun x => decide (p x)) (Nat.lt_of_lt_of_le hj (Nat.min_le_left _ _))
    simpa using hnot
  · rw [atIndex_of_le (Nat.le_of_not_lt hi), seek_eq_none_iff]
    intro x hx hp
    exact hi (List.findIdx_lt_length_of_exists ⟨x, hx, decide_eq_true hp⟩)

theorem seekToFirst_eq_atIndex : seekToFirst l = atIndex l 0 := by
  cases l <;> rfl

theorem seekToLast_eq_atIndex : seekToLast l = atIndex l (l.length - 1) := by
  by_cases hl : l = []
  · subst hl
    rfl
  · have hpos : l.length - 1 < l.length := Nat.sub_lt (List.length_pos_iff.mpr hl) Nat.one_pos
    rw [atIndex_of_lt hpos, seekToLast, seekBack_eq_some_iff]
    refine ⟨toList_atIndex (atIndex_of_lt hpos), trivial, ?_⟩
    simp [show l.length - 1 + 1 = l.length by omega]

end Index

/-! ### Some of the elements, seen through a function -/

section FilterMap

variable (q : α → Prop) [DecidablePred q] (f : α → β) (p : β → Prop) [DecidablePred p]

theorem seek_filter_map (l : List α) :
    seek p ((l.filter q).map f) = (seek (fun x => q x ∧ p (f x)) l).map (Zipper.filterMap q f) := by
  cases h : seek (fun x => q x ∧ p (f x)) l with
  | none =>
    rw [seek_eq_none_iff] at h
    simp only [Option.map_none, seek_eq_none_iff, List.mem_map, List.mem_filter, decide_eq_true_eq]
    rintro _ ⟨x, ⟨hx, hq⟩, rfl⟩ hp
    exact h x hx ⟨hq, hp⟩
  | some z =>
    obtain ⟨rfl, ⟨hq, hp⟩, hz⟩ := (seek_eq_some_iff _).mp h
    rw [Option.map_some, seek_eq_some_iff]
    refine ⟨Zipper.toList_filterMap q f hq, hp, ?_⟩
    simp only [Zipper.filterMap, List.mem_map, List.mem_filter, decide_eq_true_eq]
    rintro _ ⟨x, ⟨hx, hqx⟩, rfl⟩ hpx
    exact hz x hx ⟨hqx, hpx⟩

theorem seekBack_filter_map (l : List α) :
    seekBack p ((l.filter q).map f) = (seekBack (fun x => q x ∧ p (f x)) l).map (Zipper.filterMap q f) := by
  unfold seekBack
  rw [← List.map_reverse, ← List.filter_reverse, seek_filter_map]
  cases seek (fun x => q x ∧ p (f x)) l.reverse with
  | none => rfl
  | some z => rfl

end FilterMap

end TLevelDB.Cursors
