import TLevelDB.Db.Merger
import Mathlib.Algebra.Order.BigOperators.Group.Finset

/-!
# Iterators and the entries they do not show

For a sequence number `s`, an internal iterator is compared with the same iterator over the
visible entries only, those with sequence numbers up to `s`. The one over all entries is
`Ahead`: from where it stands, the first visible entry is the one on which the other one
stands. Going backward is going forward along the reversed lists, in the dual order (`Behind`).
Both are kept by every operation (`Simulation`), and by the insertion of entries that are not
visible.
-/

namespace TLevelDB.Db

open SortedSearch

variable {S K V : Type}

/-! ### Going along one list -/

/-- The entries with sequence numbers up to `s`. -/
def visibleEntries (s : ℕ) (L : List (Entry K V)) : List (Entry K V) := L.filter fun x => x.sequence ≤ s

/-- Going along the list from the position `p`, the first visible entry is `p'`. -/
structure Ahead {γ : Type} [LinearOrder γ] (rank : Entry K V → γ) (s : ℕ) (L : List (Entry K V))
    (p p' : Option (Entry K V)) : Prop where
  mem : ∀ x, p = some x → x ∈ L
  eq : p' = p.bind fun x => L.find? fun y => decide (rank x ≤ rank y) && decide (y.sequence ≤ s)

/-- An iterator that moves with `step` is followed by one over the visible entries, which
does not move where the other one passes an entry that is not visible. -/
structure Follows {S S' K V : Type} (s : ℕ) (current : S → Option (Entry K V)) (step : S → S) (size : ℕ)
    (current' : S' → Option (Entry K V)) (step' : S' → S') (size' : ℕ) (R : S → S' → Prop) where
  atEnd : ∀ {m m'}, R m m' → current m = none → current' m' = none
  visible : ∀ {m m' x}, R m m' → current m = some x → x.sequence ≤ s → current' m' = some x
  advance : ∀ {m m' x}, R m m' → current m = some x → x.sequence ≤ s → R (step m) (step' m')
  skip : ∀ {m m' x}, R m m' → current m = some x → ¬ x.sequence ≤ s → R (step m) m'
  /-- How many entries the two have left. -/
  left : S → ℕ
  left' : S' → ℕ
  left_le : ∀ {m m'}, R m m' → left m ≤ size ∧ left' m' ≤ size'
  left_step : ∀ {m m' x}, R m m' → current m = some x → left (step m) < left m
  left_step' : ∀ {m m' x}, R m m' → current' m' = some x → left' (step' m') < left' m'

section OneList

variable {γ : Type} [LinearOrder γ] {rank : Entry K V → γ} {s : ℕ} {L : List (Entry K V)} {p p' : Option (Entry K V)}
  {x y : Entry K V}

theorem mem_visibleEntries : x ∈ visibleEntries s L ↔ x ∈ L ∧ x.sequence ≤ s := by simp [visibleEntries]

theorem visibleEntries_reverse : visibleEntries s L.reverse = (visibleEntries s L).reverse := List.filter_reverse

theorem increasing_visible (hL : Increasing rank L) : Increasing rank (visibleEntries s L) := List.Pairwise.filter _ hL

/-- The positions of the two iterators after a search. -/
theorem ahead_find? (hL : Increasing rank L) {q : Entry K V → Bool} (hq : ∀ x y, rank x ≤ rank y → q x → q y) :
    Ahead rank s L (L.find? q) ((visibleEntries s L).find? q) :=
  ⟨fun _ => List.mem_of_find?_eq_some, (find?_bind_find? hL hq).symm⟩

theorem ahead_find?_le (hL : Increasing rank L) (k : γ) :
    Ahead rank s L (L.find? fun y => k ≤ rank y) ((visibleEntries s L).find? fun y => k ≤ rank y) :=
  ahead_find? hL fun _ _ hxy hx => decide_eq_true ((of_decide_eq_true hx).trans hxy)

theorem ahead_find?_lt (hL : Increasing rank L) (k : γ) :
    Ahead rank s L (L.find? fun y => k < rank y) ((visibleEntries s L).find? fun y => k < rank y) :=
  ahead_find? hL fun _ _ hxy hx => decide_eq_true ((of_decide_eq_true hx).trans_le hxy)

theorem ahead_head? (hL : Increasing rank L) : Ahead rank s L L.head? (visibleEntries s L).head? := by
  have hhead : ∀ l : List (Entry K V), l.head? = l.find? fun _ => true := fun l => by cases l <;> rfl
  rw [hhead, hhead]
  exact ahead_find? hL fun _ _ _ _ => rfl

namespace Ahead

/-- On a visible entry, both stand on it. -/
theorem eq_some (h : Ahead rank s L (some x) p') (hL : Increasing rank L) (hs : x.sequence ≤ s) : p' = some x := by
  rw [h.eq, Option.bind_some, find?_eq_some_iff hL]
  refine ⟨h.mem x rfl, by simpa using hs, fun y _ hy => ?_⟩
  simp only [Bool.and_eq_true, decide_eq_true_eq] at hy
  exact hy.1

/-- What is passed when it is not visible makes no difference. -/
theorem skip (h : Ahead rank s L (some x) p') (hL : Increasing rank L) (hs : ¬ x.sequence ≤ s) :
    Ahead rank s L (L.find? fun y => rank x < rank y) p' := by
  have hfind := ahead_find?_lt (s := s) hL (rank x)
  refine ⟨hfind.mem, h.eq.trans (Eq.trans ?_ hfind.eq)⟩
  rw [Option.bind_some, visibleEntries, List.find?_filter]
  refine List.find?_congr fun y hy => ?_
  rw [Bool.eq_iff_iff]
  simp only [Bool.and_eq_true, decide_eq_true_eq]
  refine ⟨fun hy' => ⟨hy'.2, lt_of_le_of_ne hy'.1 fun heq => hs ?_⟩, fun hy' => ⟨hy'.2.le, hy'.1⟩⟩
  rw [hL.eq_of_key (h.mem x rfl) hy heq]
  exact hy'.2

/-- What the iterator over the visible entries stands on. -/
theorem of_some (h : Ahead rank s L p (some y)) : (∃ x, p = some x ∧ rank x ≤ rank y) ∧ y ∈ visibleEntries s L := by
  obtain ⟨x, rfl, hfind⟩ := Option.bind_eq_some_iff.mp h.eq.symm
  have hy := List.find?_some hfind
  simp only [Bool.and_eq_true, decide_eq_true_eq] at hy
  exact ⟨⟨x, rfl, hy.1⟩, mem_visibleEntries.mpr ⟨List.mem_of_find?_eq_some hfind, hy.2⟩⟩

theorem insert {L' : List (Entry K V)} (h : Ahead rank s L p p') (hmem : ∀ x ∈ L, x ∈ L')
    (hvisible : visibleEntries s L' = visibleEntries s L) : Ahead rank s L' p p' := by
  refine ⟨fun x hx => hmem x (h.mem x hx), h.eq.trans (congrArg p.bind (funext fun x => ?_))⟩
  have hfind : ∀ l : List (Entry K V), (l.find? fun y => decide (rank x ≤ rank y) && decide (y.sequence ≤ s)) =
      (visibleEntries s l).find? fun y => rank x ≤ rank y := fun l => by
    rw [visibleEntries, List.find?_filter]
    exact List.find?_congr fun y _ => by simp [and_comm]
  rw [hfind, hfind, hvisible]

end Ahead

/-- The entries from the position on. -/
def aheadCount (rank : Entry K V → γ) (L : List (Entry K V)) (p : Option (Entry K V)) : ℕ :=
  p.elim 0 fun x => L.countP fun y => rank x ≤ rank y

theorem aheadCount_le (rank : Entry K V → γ) (L : List (Entry K V)) (p : Option (Entry K V)) :
    aheadCount rank L p ≤ L.length := by
  cases p with
  | none => exact Nat.zero_le _
  | some x => exact List.countP_le_length

theorem aheadCount_next (hx : x ∈ L) :
    aheadCount rank L (L.find? fun y => rank x < rank y) < aheadCount rank L (some x) := by
  cases hnext : L.find? fun y => rank x < rank y with
  | none => exact List.countP_pos_iff.mpr ⟨x, hx, by simp⟩
  | some y => exact countP_find?_lt hx hnext

/-- `step` goes on to the next entry of the list. -/
def StepsAlong (rank : Entry K V → γ) (L : List (Entry K V)) (step : Option (Entry K V) → Option (Entry K V)) : Prop :=
  ∀ x ∈ L, step (some x) = L.find? fun y => rank x < rank y

/-- Two iterators that go along the list and along the visible entries. -/
def followsList {step step' : Option (Entry K V) → Option (Entry K V)} {size size' : ℕ} (hL : Increasing rank L)
    (hstep : StepsAlong rank L step) (hstep' : StepsAlong rank (visibleEntries s L) step') (hsize : L.length = size)
    (hsize' : (visibleEntries s L).length = size') : Follows s id step size id step' size' (Ahead rank s L) where
  atEnd {m m'} h hnone := by
    have hm : m = none := hnone
    rw [hm] at h
    exact h.eq
  visible h hx hs := by
    cases hx
    exact h.eq_some hL hs
  advance h hx hs := by
    cases hx
    have hmem := h.mem _ rfl
    rw [h.eq_some hL hs, hstep _ hmem, hstep' _ (mem_visibleEntries.mpr ⟨hmem, hs⟩)]
    exact ahead_find?_lt hL _
  skip h hx hs := by
    cases hx
    rw [hstep _ (h.mem _ rfl)]
    exact h.skip hL hs
  left := aheadCount rank L
  left' := aheadCount rank (visibleEntries s L)
  left_le _ := ⟨hsize ▸ aheadCount_le rank _ _, hsize' ▸ aheadCount_le rank _ _⟩
  left_step h hx := by
    cases hx
    rw [hstep _ (h.mem _ rfl)]
    exact aheadCount_next (h.mem _ rfl)
  left_step' h hx := by
    cases hx
    rw [hstep' _ h.of_some.2]
    exact aheadCount_next h.of_some.2

end OneList

variable [LinearOrder K]

/-- Going backward from the position `p`, the first visible entry is `p'`. -/
abbrev Behind (s : ℕ) (L : List (Entry K V)) : Option (Entry K V) → Option (Entry K V) → Prop :=
  Ahead (OrderDual.toDual ∘ Entry.key) s L.reverse

/-! ### The operations on one list -/

section Operations

variable {s : ℕ} {L : List (Entry K V)}

theorem listOps_next (hL : Ordered L) : StepsAlong Entry.key L (listOps L).next := by
  intro x hx
  rw [← head?_tail_dropWhile hL hx]
  simp only [listOps, Option.bind_some, nodeNext, ne_eq, decide_not]

theorem listOps_prev (hL : Ordered L) (x : Entry K V) :
    (listOps L).prev (some x) = L.reverse.find? fun y => y.key < x.key :=
  getLast?_takeWhile hL fun _ _ hyz hz => decide_eq_true (hyz.trans_lt (of_decide_eq_true hz))

theorem turnForward_eq (hL : Ordered L) (k : InternalKey K) (p : Option (Entry K V)) :
    MergingIterator.turnForward L k p = L.find? fun y => k < y.key := by
  unfold MergingIterator.turnForward
  cases hseek : (listOps L).seek k p with
  | none =>
    have hnone : L.find? (fun y => k ≤ y.key) = none := hseek
    symm
    simp only [Option.any_none, Bool.false_eq_true, if_false, List.find?_eq_none, decide_eq_true_eq]
    exact fun y hy hlt => List.find?_eq_none.mp hnone y hy (decide_eq_true hlt.le)
  | some x =>
    obtain ⟨hx, hk, hleast⟩ := (find?_eq_some_iff hL).mp (show L.find? (fun y => k ≤ y.key) = some x from hseek)
    rw [decide_eq_true_eq] at hk
    simp only [Option.any_some, decide_eq_true_eq]
    split_ifs with heq
    · rw [listOps_next hL x hx, heq]
    · symm
      rw [find?_eq_some_iff hL]
      refine ⟨hx, decide_eq_true (lt_of_le_of_ne hk heq), fun y hy hlt => hleast y hy (decide_eq_true ?_)⟩
      exact (of_decide_eq_true hlt).le

theorem turnBack_eq (hL : Ordered L) (k : InternalKey K) (p : Option (Entry K V)) :
    MergingIterator.turnBack L k p = L.reverse.find? fun y => y.key < k := by
  unfold MergingIterator.turnBack
  cases hseek : (listOps L).seek k p with
  | none =>
    have hnone : ∀ y ∈ L, y.key < k := fun y hy =>
      not_le.mp fun hle => List.find?_eq_none.mp (show L.find? (fun y => k ≤ y.key) = none from hseek) y hy (decide_eq_true hle)
    simp only [Option.isSome_none, Bool.false_eq_true, if_false]
    have hall : ∀ y ∈ L.reverse, decide (y.key < k) = true := fun y hy => decide_eq_true (hnone y (List.mem_reverse.mp hy))
    change L.getLast? = _
    rw [List.getLast?_eq_head?_reverse]
    cases hrev : L.reverse with
    | nil => rfl
    | cons y l =>
      rw [hrev] at hall
      simp [hall y List.mem_cons_self]
  | some x =>
    obtain ⟨hx, hk, hleast⟩ := (find?_eq_some_iff hL).mp (show L.find? (fun y => k ≤ y.key) = some x from hseek)
    simp only [Option.isSome_some, if_true]
    rw [listOps_prev hL]
    refine List.find?_congr fun y hy => ?_
    rw [Bool.eq_iff_iff, decide_eq_true_eq, decide_eq_true_eq]
    rw [decide_eq_true_eq] at hk
    refine ⟨fun hlt => not_le.mp fun hle => ?_, fun hlt => hlt.trans_le hk⟩
    exact absurd (hleast y (List.mem_reverse.mp hy) (decide_eq_true hle)) (not_le.mpr hlt)

theorem ahead_turnForward (hL : Ordered L) (k : InternalKey K) (p p' : Option (Entry K V)) :
    Ahead Entry.key s L (MergingIterator.turnForward L k p) (MergingIterator.turnForward (visibleEntries s L) k p') := by
  rw [turnForward_eq hL, turnForward_eq (increasing_visible hL)]
  exact ahead_find?_lt hL k

theorem behind_turnBack (hL : Ordered L) (k : InternalKey K) (p p' : Option (Entry K V)) :
    Behind s L (MergingIterator.turnBack L k p) (MergingIterator.turnBack (visibleEntries s L) k p') := by
  rw [turnBack_eq hL, turnBack_eq (increasing_visible hL), ← visibleEntries_reverse]
  exact ahead_find?_lt hL.reverse (OrderDual.toDual k)

theorem behind_prev (hL : Ordered L) (x : Entry K V) :
    Behind s L ((listOps L).prev (some x)) ((listOps (visibleEntries s L)).prev (some x)) := by
  rw [listOps_prev hL, listOps_prev (increasing_visible hL), ← visibleEntries_reverse]
  exact ahead_find?_lt hL.reverse (OrderDual.toDual x.key)

theorem behind_seekToLast (hL : Ordered L) : Behind s L L.getLast? (visibleEntries s L).getLast? := by
  have h := ahead_head? (s := s) hL.reverse
  rwa [visibleEntries_reverse, List.head?_reverse, List.head?_reverse] at h

end Operations

/-- An internal iterator, and the one over the visible entries. -/
structure Simulation {S S' K V : Type} [LinearOrder K] (s : ℕ) (A : InternalOps S K V) (C : InternalOps S' K V)
    (Fwd Rev : S → S' → Prop) where
  fwd : Follows s A.current A.next A.size C.current C.next C.size Fwd
  rev : Follows s A.current A.prev A.size C.current C.prev C.size Rev
  turnForward : ∀ {m m' x}, Rev m m' → A.current m = some x → x.sequence ≤ s → Fwd (A.next m) (C.next m')
  turnBack : ∀ {m m' x}, Fwd m m' → A.current m = some x → x.sequence ≤ s → Rev (A.prev m) (C.prev m')
  rev_le : ∀ {m m' x y}, Rev m m' → A.current m = some x → C.current m' = some y → y.key ≤ x.key
  seekToFirst : ∀ m m', Fwd (A.seekToFirst m) (C.seekToFirst m')
  seek : ∀ k m m', Fwd (A.seek k m) (C.seek k m')
  seekToLast : ∀ m m', Rev (A.seekToLast m) (C.seekToLast m')

/-- A single list. -/
def simulationList {s : ℕ} {L : List (Entry K V)} (hL : Ordered L) :
    Simulation s (listOps L) (listOps (visibleEntries s L)) (Ahead Entry.key s L) (Behind s L) where
  fwd := followsList hL (listOps_next hL) (listOps_next (increasing_visible hL)) rfl rfl
  rev := followsList hL.reverse (fun x _ => listOps_prev hL x)
    (fun x _ => (listOps_prev (increasing_visible hL) x).trans (by rw [visibleEntries_reverse]; rfl)) List.length_reverse
    (by rw [visibleEntries_reverse, List.length_reverse]; rfl)
  turnForward h hx hs := by
    cases hx
    have hmem := List.mem_reverse.mp (h.mem _ rfl)
    rw [h.eq_some hL.reverse hs, listOps_next hL _ hmem,
      listOps_next (increasing_visible hL) _ (mem_visibleEntries.mpr ⟨hmem, hs⟩)]
    exact ahead_find?_lt hL _
  turnBack h hx hs := by
    cases hx
    rw [h.eq_some hL hs]
    exact behind_prev hL _
  rev_le h hx hy := by
    cases hx
    cases hy
    obtain ⟨⟨x, ⟨⟩, hle⟩, -⟩ := h.of_some
    exact hle
  seekToFirst _ _ := ahead_head? hL
  seek k _ _ := ahead_find?_le hL k
  seekToLast _ _ := behind_seekToLast hL

namespace MergingIterator

variable {n : ℕ} {contents : Fin n → List (Entry K V)} {s : ℕ} {m m' : MergingIterator n K V} {i : Fin n} {x : Entry K V}

section Side

omit [LinearOrder K]

variable {γ : Type} [LinearOrder γ] {rank : Entry K V → γ} {order : List (Fin n)} {dir : Direction}
  {children children' : Fin n → Option (Entry K V)}

/-- The choice of the current child, when one child stands on a visible entry and the others
on entries that are not better than before. -/
theorem firstMin_visible (hle : ∀ j y, children' j = some y → ∃ x, children j = some x ∧ rank x ≤ rank y)
    (heq : children' i = children i)
    (h : firstMin order (fun j => (children j).map rank) = some i) :
    firstMin order (fun j => (children' j).map rank) = some i := by
  refine firstMin_eq_some_of_le h (by rw [heq]) fun j b hb => ?_
  obtain ⟨y, hy, rfl⟩ := Option.map_eq_some_iff.mp hb
  obtain ⟨x, hx, hxy⟩ := hle j y hy
  exact ⟨rank x, hxy, by rw [hx]; rfl⟩

theorem firstMin_none (hle : ∀ j y, children' j = some y → ∃ x, children j = some x ∧ rank x ≤ rank y)
    (horder : ∀ j, j ∈ order) (h : firstMin order (fun j => (children j).map rank) = none) :
    firstMin order (fun j => (children' j).map rank) = none := by
  obtain ⟨hmin, -⟩ | ⟨j, y, -, hy, -⟩ := firstMin_map_cases horder children' rank
  · exact hmin
  · obtain ⟨x, hx, -⟩ := hle j y hy
    have hnone := firstMin_eq_none h (horder j)
    rw [hx] at hnone
    cases hnone

/-- In a direction, every child is ahead of the one over its visible entries. -/
structure Side (rank : Entry K V → γ) (order : List (Fin n)) (dir : Direction) (s : ℕ)
    (contents : Fin n → List (Entry K V)) (m m' : MergingIterator n K V) : Prop where
  direction : m.direction = dir
  direction' : m'.direction = dir
  current : m.current = firstMin order fun i => (m.children i).map rank
  current' : m'.current = firstMin order fun i => (m'.children i).map rank
  ahead : ∀ i, Ahead rank s (contents i) (m.children i) (m'.children i)

/-- The iterator after its children have moved. -/
def advance (rank : Entry K V → γ) (order : List (Fin n)) (dir : Direction) (children : Fin n → Option (Entry K V)) :
    MergingIterator n K V := ⟨children, firstMin order fun i => (children i).map rank, dir⟩

/-- The iterator after the current child `i` has moved on from `x`. -/
def moved (rank : Entry K V → γ) (order : List (Fin n)) (dir : Direction) (contents : Fin n → List (Entry K V))
    (m : MergingIterator n K V) (i : Fin n) (x : Entry K V) : MergingIterator n K V :=
  advance rank order dir (Function.update m.children i ((contents i).find? fun y => rank x < rank y))

theorem currentChild_eq_some_iff : m.currentChild = some (i, x) ↔ m.current = some i ∧ m.children i = some x := by
  simp only [currentChild, Option.bind_eq_some_iff, Option.map_eq_some_iff, Prod.mk.injEq]
  constructor
  · rintro ⟨j, hj, y, hy, rfl, rfl⟩
    exact ⟨hj, hy⟩
  · rintro ⟨hi, hx⟩
    exact ⟨i, hi, x, hx, rfl, rfl⟩

/-- A child that is current stands on an entry. -/
theorem current_eq_none (hcur : m.current = firstMin order fun i => (m.children i).map rank) :
    m.currentChild = none ↔ m.current = none := by
  constructor
  · intro h
    cases hi : m.current with
    | none => rfl
    | some i =>
      obtain ⟨b, hb⟩ := exists_of_firstMin (hcur ▸ hi)
      obtain ⟨y, hy, -⟩ := Option.map_eq_some_iff.mp hb
      rw [currentChild_eq_some_iff.mpr ⟨hi, hy⟩] at h
      cases h
  · intro h
    simp [currentChild, h]

/-- A relation between the children, where one of them has moved. -/
theorem update_rel {R : Fin n → Option (Entry K V) → Option (Entry K V) → Prop} {p p' : Option (Entry K V)} (hi : R i p p')
    (hrest : ∀ j ≠ i, R j (children j) (children' j)) (j : Fin n) :
    R j (Function.update children i p j) (Function.update children' i p' j) := by
  by_cases hj : j = i
  · subst hj
    rwa [Function.update_self, Function.update_self]
  · rw [Function.update_of_ne hj, Function.update_of_ne hj]
    exact hrest j hj

/-- A sum over the children, where one of them has less left. -/
theorem sum_update_lt (count : (i : Fin n) → Option (Entry K V) → ℕ) {p : Option (Entry K V)}
    (hlt : count i p < count i (children i)) :
    ∑ j, count j (Function.update children i p j) < ∑ j, count j (children j) := by
  refine Finset.sum_lt_sum (fun j _ => ?_) ⟨i, Finset.mem_univ i, by rwa [Function.update_self]⟩
  by_cases hj : j = i
  · subst hj
    rw [Function.update_self]
    exact hlt.le
  · rw [Function.update_of_ne hj]

namespace Side

variable (h : Side rank order dir s contents m m')
include h

theorem le (j : Fin n) (y : Entry K V) (hy : m'.children j = some y) :
    ∃ x, m.children j = some x ∧ rank x ≤ rank y := by
  have hj := h.ahead j
  rw [hy] at hj
  exact hj.of_some.1

theorem visible (hL : ∀ i, Increasing rank (contents i))
    (hx : m.currentChild = some (i, x)) (hs : x.sequence ≤ s) : m'.currentChild = some (i, x) := by
  obtain ⟨hi, hxi⟩ := currentChild_eq_some_iff.mp hx
  have hxi' : m'.children i = some x := (hxi ▸ h.ahead i).eq_some (hL i) hs
  refine currentChild_eq_some_iff.mpr ⟨?_, hxi'⟩
  rw [h.current']
  exact firstMin_visible h.le (hxi'.trans hxi.symm) (h.current.symm.trans hi)

theorem atEnd (horder : ∀ j, j ∈ order) (hnone : m.currentChild = none) :
    m'.currentChild = none := by
  rw [current_eq_none h.current']
  rw [current_eq_none h.current, h.current] at hnone
  rw [h.current']
  exact firstMin_none h.le horder hnone

theorem next (hL : ∀ i, Increasing rank (contents i)) (i : Fin n)
    (x : Entry K V) : Side rank order dir s contents (moved rank order dir contents m i x)
      (moved rank order dir (fun i => visibleEntries s (contents i)) m' i x) :=
  ⟨rfl, rfl, rfl, rfl,
    update_rel (R := fun j => Ahead rank s (contents j)) (ahead_find?_lt (hL i) _) fun j _ => h.ahead j⟩

theorem skip (hL : ∀ i, Increasing rank (contents i))
    (hx : m.currentChild = some (i, x)) (hs : ¬ x.sequence ≤ s) :
    Side rank order dir s contents (moved rank order dir contents m i x) m' := by
  have hxi := (currentChild_eq_some_iff.mp hx).2
  refine ⟨rfl, h.direction', rfl, h.current', fun j => ?_⟩
  have hstep := update_rel (R := fun j => Ahead rank s (contents j)) ((hxi ▸ h.ahead i).skip (hL i) hs) (fun j _ => h.ahead j) j
  rwa [Function.update_eq_self] at hstep

theorem mem (hx : m.currentChild = some (i, x)) : x ∈ contents i :=
  (h.ahead i).mem x (currentChild_eq_some_iff.mp hx).2

theorem mem' (hx : m'.currentChild = some (i, x)) :
    x ∈ visibleEntries s (contents i) := by
  have hi := h.ahead i
  rw [(currentChild_eq_some_iff.mp hx).2] at hi
  exact hi.of_some.2

theorem insert {contents' : Fin n → List (Entry K V)}
    (hmem : ∀ i, ∀ x ∈ contents i, x ∈ contents' i)
    (hvisible : ∀ i, visibleEntries s (contents' i) = visibleEntries s (contents i)) : Side rank order dir s contents' m m' :=
  { h with ahead := fun i => (h.ahead i).insert (hmem i) (hvisible i) }

end Side

theorem sum_moved_lt (hx : m.currentChild = some (i, x)) (hmem : x ∈ contents i) :
    ∑ j, aheadCount rank (contents j) ((moved rank order dir contents m i x).children j) <
      ∑ j, aheadCount rank (contents j) (m.children j) := by
  refine sum_update_lt (fun j => aheadCount rank (contents j)) ?_
  rw [(currentChild_eq_some_iff.mp hx).2]
  exact aheadCount_next hmem

/-- `next` moves the current child. -/
def Moves (rank : Entry K V → γ) (order : List (Fin n)) (dir : Direction) (contents : Fin n → List (Entry K V))
    (next : MergingIterator n K V → MergingIterator n K V) : Prop :=
  ∀ ⦃m i x⦄, m.direction = dir → m.currentChild = some (i, x) → x ∈ contents i → next m = moved rank order dir contents m i x

/-- Two iterators that go in the same direction. -/
def followsSide {next next' : MergingIterator n K V → MergingIterator n K V} {size size' : ℕ}
    (hL : ∀ i, Increasing rank (contents i)) (horder : ∀ j, j ∈ order) (hnext : Moves rank order dir contents next)
    (hnext' : Moves rank order dir (fun i => visibleEntries s (contents i)) next') (hsize : ∑ i, (contents i).length = size)
    (hsize' : ∑ i, (visibleEntries s (contents i)).length = size') :
    Follows s (fun m => m.currentChild.map Prod.snd) next size (fun m => m.currentChild.map Prod.snd) next' size'
      (Side rank order dir s contents) where
  atEnd h hnone := by
    rw [Option.map_eq_none_iff] at hnone ⊢
    exact h.atEnd horder hnone
  visible h hx hs := by
    obtain ⟨⟨i, x⟩, hi, rfl⟩ := Option.map_eq_some_iff.mp hx
    rw [h.visible hL hi hs]
    rfl
  advance h hx hs := by
    obtain ⟨⟨i, x⟩, hi, rfl⟩ := Option.map_eq_some_iff.mp hx
    have hi' := h.visible hL hi hs
    rw [hnext h.direction hi (h.mem hi), hnext' h.direction' hi' (h.mem' hi')]
    exact h.next hL i x
  skip h hx hs := by
    obtain ⟨⟨i, x⟩, hi, rfl⟩ := Option.map_eq_some_iff.mp hx
    rw [hnext h.direction hi (h.mem hi)]
    exact h.skip hL hi hs
  left m := ∑ j, aheadCount rank (contents j) (m.children j)
  left' m := ∑ j, aheadCount rank (visibleEntries s (contents j)) (m.children j)
  left_le _ := ⟨hsize ▸ Finset.sum_le_sum fun _ _ => aheadCount_le rank _ _,
    hsize' ▸ Finset.sum_le_sum fun _ _ => aheadCount_le rank _ _⟩
  left_step h hx := by
    obtain ⟨⟨i, x⟩, hi, rfl⟩ := Option.map_eq_some_iff.mp hx
    rw [hnext h.direction hi (h.mem hi)]
    exact sum_moved_lt hi (h.mem hi)
  left_step' h hx := by
    obtain ⟨⟨i, x⟩, hi, rfl⟩ := Option.map_eq_some_iff.mp hx
    rw [hnext' h.direction' hi (h.mem' hi)]
    exact sum_moved_lt hi (h.mem' hi)

end Side

/-- Going forward. -/
abbrev Fwd (s : ℕ) (contents : Fin n → List (Entry K V)) : MergingIterator n K V → MergingIterator n K V → Prop :=
  Side Entry.key (List.finRange n) .forward s contents

/-- Going backward. -/
abbrev Rev (s : ℕ) (contents : Fin n → List (Entry K V)) : MergingIterator n K V → MergingIterator n K V → Prop :=
  Side (OrderDual.toDual ∘ Entry.key) (List.finRange n).reverse .reverse s fun i => (contents i).reverse

theorem ops_next (hx : m.currentChild = some (i, x)) : (ops contents).next m = m.nextAt contents i x := by
  simp [ops, hx]

theorem ops_prev (hx : m.currentChild = some (i, x)) : (ops contents).prev m = m.prevAt contents i x := by
  simp [ops, hx]

theorem moves_next (hL : ∀ i, Ordered (contents i)) :
    Moves Entry.key (List.finRange n) .forward contents (ops contents).next := by
  intro m i x hd hx hmem
  simp only [ops_next hx, nextAt, hd, (currentChild_eq_some_iff.mp hx).2, listOps_next (hL i) x hmem]
  rfl

theorem moves_prev (hL : ∀ i, Ordered (contents i)) :
    Moves (OrderDual.toDual ∘ Entry.key) (List.finRange n).reverse .reverse (fun i => (contents i).reverse)
      (ops contents).prev := by
  intro m i x hd hx hmem
  simp only [ops_prev hx, prevAt, hd, (currentChild_eq_some_iff.mp hx).2, listOps_prev (hL i)]
  rfl

/-- `Next` after moving backward. -/
theorem Rev.turn (h : Rev s contents m m') (hL : ∀ i, Ordered (contents i)) (hx : m.currentChild = some (i, x))
    (hs : x.sequence ≤ s) :
    Fwd s contents (m.nextAt contents i x) (m'.nextAt (fun i => visibleEntries s (contents i)) i x) := by
  have hmem := List.mem_reverse.mp (h.mem hx)
  have hxi := (currentChild_eq_some_iff.mp hx).2
  have hxi' := (currentChild_eq_some_iff.mp (h.visible (fun i => (hL i).reverse) hx hs)).2
  refine ⟨rfl, rfl, rfl, rfl, ?_⟩
  simp only [nextAt, h.direction, h.direction']
  refine update_rel (R := fun j => Ahead Entry.key s (contents j)) ?_ fun j hj => ?_
  · rw [if_pos trivial, if_pos trivial, hxi, hxi', listOps_next (hL i) x hmem,
      listOps_next (increasing_visible (hL i)) x (mem_visibleEntries.mpr ⟨hmem, hs⟩)]
    exact ahead_find?_lt (hL i) _
  · rw [if_neg hj, if_neg hj]
    exact ahead_turnForward (hL j) _ _ _

/-- `Prev` after moving forward. -/
theorem Fwd.turn (h : Fwd s contents m m') (hL : ∀ i, Ordered (contents i)) (hx : m.currentChild = some (i, x))
    (hs : x.sequence ≤ s) :
    Rev s contents (m.prevAt contents i x) (m'.prevAt (fun i => visibleEntries s (contents i)) i x) := by
  have hxi := (currentChild_eq_some_iff.mp hx).2
  have hxi' := (currentChild_eq_some_iff.mp (h.visible hL hx hs)).2
  refine ⟨rfl, rfl, rfl, rfl, ?_⟩
  simp only [prevAt, h.direction, h.direction']
  refine update_rel (R := fun j => Behind s (contents j)) ?_ fun j hj => ?_
  · rw [if_pos trivial, if_pos trivial, hxi, hxi']
    exact behind_prev (hL i) x
  · rw [if_neg hj, if_neg hj]
    exact behind_turnBack (hL j) _ _ _

/-- The child that stands on a later entry than the current one is not the largest. -/
theorem Rev.key_le (h : Rev s contents m m') {y : Entry K V} (hx : (ops contents).current m = some x)
    (hy : (ops fun i => visibleEntries s (contents i)).current m' = some y) : y.key ≤ x.key := by
  obtain ⟨⟨i, x⟩, hi, rfl⟩ := Option.map_eq_some_iff.mp hx
  obtain ⟨⟨j, y⟩, hj, rfl⟩ := Option.map_eq_some_iff.mp hy
  obtain ⟨hi, hxi⟩ := currentChild_eq_some_iff.mp hi
  obtain ⟨-, hyj⟩ := currentChild_eq_some_iff.mp hj
  obtain ⟨z, hz, hzy⟩ := h.le j y hyj
  have hzx : OrderDual.toDual x.key ≤ OrderDual.toDual z.key :=
    le_of_firstMin (h.current.symm.trans hi) (List.mem_reverse.mpr (List.mem_finRange j)) (by rw [hxi]; rfl) (by rw [hz]; rfl)
  exact le_trans (show y.key ≤ z.key from hzy) hzx

def simulation (hL : ∀ i, Ordered (contents i)) : Simulation s (ops contents) (ops fun i => visibleEntries s (contents i))
    (Fwd s contents) (Rev s contents) where
  fwd := followsSide hL List.mem_finRange (moves_next hL) (moves_next fun i => increasing_visible (hL i)) rfl rfl
  rev := followsSide (fun i => (hL i).reverse) (fun j => List.mem_reverse.mpr (List.mem_finRange j)) (moves_prev hL)
    (by simpa only [visibleEntries_reverse] using moves_prev fun i => increasing_visible (hL i))
    (by simp only [List.length_reverse]; rfl) (by simp only [visibleEntries_reverse, List.length_reverse]; rfl)
  turnForward h hx hs := by
    obtain ⟨⟨i, x⟩, hi, rfl⟩ := Option.map_eq_some_iff.mp hx
    rw [ops_next hi, ops_next (h.visible (fun i => (hL i).reverse) hi hs)]
    exact h.turn hL hi hs
  turnBack h hx hs := by
    obtain ⟨⟨i, x⟩, hi, rfl⟩ := Option.map_eq_some_iff.mp hx
    rw [ops_prev hi, ops_prev (h.visible hL hi hs)]
    exact h.turn hL hi hs
  rev_le h hx hy := h.key_le hx hy
  seekToFirst _ _ := ⟨rfl, rfl, rfl, rfl, fun i => ahead_head? (hL i)⟩
  seek k _ _ := ⟨rfl, rfl, rfl, rfl, fun i => ahead_find?_le (hL i) k⟩
  seekToLast _ _ := ⟨rfl, rfl, rfl, rfl, fun i => behind_seekToLast (hL i)⟩

end MergingIterator

/-! ### Internal iterators -/

section Internal

variable {s : ℕ}

/-- The relations between an internal iterator and the one over the visible entries. -/
def InternalFwd (s : ℕ) : {n : ℕ} → (Fin n → List (Entry K V)) → InternalIterator K V n → InternalIterator K V n → Prop
  | 0, contents => MergingIterator.Fwd s contents
  | 1, contents => Ahead Entry.key s (contents (Fin.last 0))
  | _ + 2, contents => MergingIterator.Fwd s contents

def InternalRev (s : ℕ) : {n : ℕ} → (Fin n → List (Entry K V)) → InternalIterator K V n → InternalIterator K V n → Prop
  | 0, contents => MergingIterator.Rev s contents
  | 1, contents => Behind s (contents (Fin.last 0))
  | _ + 2, contents => MergingIterator.Rev s contents

def internalSimulation : {n : ℕ} → {contents : Fin n → List (Entry K V)} → (∀ i, Ordered (contents i)) →
    Simulation s (internalOps contents) (internalOps fun i => visibleEntries s (contents i)) (InternalFwd s contents)
      (InternalRev s contents)
  | 0, _, hL => MergingIterator.simulation hL
  | 1, _, hL => simulationList (hL (Fin.last 0))
  | _ + 2, _, hL => MergingIterator.simulation hL

/-- The memtable gets an entry. -/
def insertEntry {n : ℕ} (live : Fin n) (e : Entry K V) (contents : Fin n → List (Entry K V)) : Fin n → List (Entry K V) :=
  Function.update contents live (insertSorted Entry.key e (contents live))

section Insert

variable {n : ℕ} {live : Fin n} {e : Entry K V} {contents : Fin n → List (Entry K V)} {m m' : InternalIterator K V n}

theorem mem_insertEntry (i : Fin n) (x : Entry K V) (hx : x ∈ contents i) : x ∈ insertEntry live e contents i := by
  unfold insertEntry
  by_cases hi : i = live
  · subst hi
    rw [Function.update_self]
    exact mem_insertSorted.mpr (Or.inr hx)
  · rwa [Function.update_of_ne hi]

theorem visibleEntries_insertEntry (he : s < e.sequence) (i : Fin n) :
    visibleEntries s (insertEntry live e contents i) = visibleEntries s (contents i) := by
  unfold insertEntry
  by_cases hi : i = live
  · subst hi
    rw [Function.update_self]
    exact filter_insertSorted (by simpa using he)
  · rw [Function.update_of_ne hi]

/-- The positions of the iterators are not changed by an entry that is not visible. -/
theorem InternalFwd.insert (he : s < e.sequence) (h : InternalFwd s contents m m') :
    InternalFwd s (insertEntry live e contents) m m' := by
  rcases n with _ | _ | n
  · exact MergingIterator.Side.insert h mem_insertEntry (visibleEntries_insertEntry he)
  · exact Ahead.insert h (mem_insertEntry _) (visibleEntries_insertEntry he _)
  · exact MergingIterator.Side.insert h mem_insertEntry (visibleEntries_insertEntry he)

theorem InternalRev.insert (he : s < e.sequence) (h : InternalRev s contents m m') :
    InternalRev s (insertEntry live e contents) m m' := by
  have hmem : ∀ i, ∀ x ∈ (contents i).reverse, x ∈ (insertEntry live e contents i).reverse := by
    simpa using mem_insertEntry
  have hvisible : ∀ i, visibleEntries s (insertEntry live e contents i).reverse = visibleEntries s (contents i).reverse :=
    fun i => by rw [visibleEntries_reverse, visibleEntries_reverse, visibleEntries_insertEntry he]
  rcases n with _ | _ | n
  · exact MergingIterator.Side.insert h hmem hvisible
  · exact Ahead.insert h (hmem _) (hvisible _)
  · exact MergingIterator.Side.insert h hmem hvisible

theorem ordered_insertEntry (hL : ∀ i, Ordered (contents i)) (he : ∀ x ∈ contents live, x.key ≠ e.key) (i : Fin n) :
    Ordered (insertEntry live e contents i) := by
  unfold insertEntry
  by_cases hi : i = live
  · subst hi
    rw [Function.update_self]
    exact increasing_insertSorted (hL i) he
  · rw [Function.update_of_ne hi]
    exact hL i

end Insert

end Internal

end TLevelDB.Db
