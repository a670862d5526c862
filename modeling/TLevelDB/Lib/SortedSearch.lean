import Mathlib.Data.List.Find
import Mathlib.Data.List.MinMax
import Mathlib.Data.List.TakeWhile
import Mathlib.Order.OrderDual

/-!
# Searching sorted lists

In a list with increasing keys, the first element that satisfies a predicate is the
smallest such element (`find?_eq_some_iff`). A search among some of the elements for the
first that is high enough can be done in two steps, first among all of them and then for one
of the right kind (`find?_bind_find?`). Backward searches are searches in the reversed list,
which increases in the dual order.

`firstMin` chooses among several keys the smallest, and of equal ones the first.
-/

namespace TLevelDB.SortedSearch

variable {α β ι : Type}

/-! ### Lists in an order -/

section Pairwise

variable {lt : α → α → Prop} {l : List α} {p : α → Bool} {e : α}

/-- The elements up to the first that is too high are all that are low enough. -/
theorem takeWhile_eq_filter (h : l.Pairwise lt) (hp : ∀ x y, lt x y → p y → p x) : l.takeWhile p = l.filter p := by
  induction l with
  | nil => rfl
  | cons a l ih =>
    obtain ⟨ha, hl⟩ := List.pairwise_cons.mp h
    by_cases hpa : p a
    · rw [List.takeWhile_cons_of_pos hpa, List.filter_cons_of_pos hpa, ih hl]
    · rw [List.takeWhile_cons_of_neg hpa, List.filter_cons_of_neg hpa]
      symm
      rw [List.filter_eq_nil_iff]
      exact fun y hy hpy => hpa (hp a y (ha y hy) hpy)

theorem mem_takeWhile_cons_dropWhile {x : α} : x ∈ l.takeWhile p ++ e :: l.dropWhile p ↔ x = e ∨ x ∈ l := by
  rw [List.mem_append, List.mem_cons, or_left_comm, ← List.mem_append, List.takeWhile_append_dropWhile]

/-- An element is put before the first that is not below it. -/
theorem pairwise_takeWhile_cons_dropWhile (htrans : ∀ x y z, lt x y → lt y z → lt x z) (h : l.Pairwise lt)
    (hpos : ∀ x ∈ l, p x → lt x e) (hneg : ∀ x ∈ l, ¬ p x → lt e x) :
    (l.takeWhile p ++ e :: l.dropWhile p).Pairwise lt := by
  induction l with
  | nil => exact List.pairwise_singleton _ _
  | cons a l ih =>
    obtain ⟨ha, hl⟩ := List.pairwise_cons.mp h
    obtain ⟨hposa, hpos⟩ := List.forall_mem_cons.mp hpos
    obtain ⟨hnega, hneg⟩ := List.forall_mem_cons.mp hneg
    by_cases hpa : p a
    · rw [List.takeWhile_cons_of_pos hpa, List.dropWhile_cons_of_pos hpa]
      refine List.pairwise_cons.mpr ⟨fun x hx => ?_, ih hl hpos hneg⟩
      rcases mem_takeWhile_cons_dropWhile.mp hx with rfl | hx
      · exact hposa hpa
      · exact ha x hx
    · rw [List.takeWhile_cons_of_neg hpa, List.dropWhile_cons_of_neg hpa]
      refine List.pairwise_cons.mpr ⟨fun x hx => ?_, h⟩
      rcases List.mem_cons.mp hx with rfl | hx
      · exact hnega hpa
      · exact htrans _ _ _ (hnega hpa) (ha x hx)

/-- A predicate that fails for an element more holds for fewer. -/
theorem countP_lt {q : α → Bool} {x : α} (h : ∀ y ∈ l, q y → p y) (hx : x ∈ l) (hp : p x) (hq : ¬ q x) :
    l.countP q < l.countP p := by
  obtain ⟨before, after, rfl⟩ := List.append_of_mem hx
  have hbefore := List.countP_mono_left fun y hy => h y (List.mem_append_left _ hy)
  have hafter := List.countP_mono_left fun y hy => h y (List.mem_append_right _ (List.mem_cons_of_mem _ hy))
  rw [List.countP_append, List.countP_append, List.countP_cons_of_neg hq, List.countP_cons_of_pos hp]
  omega

end Pairwise

variable [LinearOrder β] {key : α → β}

/-- The keys increase along the list. -/
abbrev Increasing (key : α → β) (l : List α) : Prop := l.Pairwise fun x y => key x < key y

/-! ### The first element that satisfies a predicate -/

section Find

variable {l : List α} {p q : α → Bool} {x y : α}

theorem Increasing.reverse (h : Increasing key l) : Increasing (OrderDual.toDual ∘ key) l.reverse :=
  List.pairwise_reverse.mpr h

/-- The first element that satisfies a predicate is the smallest one. -/
theorem find?_eq_some_iff (h : Increasing key l) :
    l.find? p = some x ↔ x ∈ l ∧ p x ∧ ∀ y ∈ l, p y → key x ≤ key y := by
  rw [List.find?_eq_some_iff_append]
  constructor
  · rintro ⟨hpx, before, after, rfl, hbefore⟩
    refine ⟨by simp, hpx, fun y hy hpy => ?_⟩
    rcases List.mem_append.mp hy with hy | hy
    · simpa [hpy] using hbefore y hy
    · rcases List.mem_cons.mp hy with rfl | hy
      · exact le_rfl
      · exact ((List.pairwise_cons.mp (List.pairwise_append.mp h).2.1).1 y hy).le
  · rintro ⟨hx, hpx, hleast⟩
    obtain ⟨before, after, rfl⟩ := List.append_of_mem hx
    refine ⟨hpx, before, after, rfl, fun y hy => ?_⟩
    have hlt := (List.pairwise_append.mp h).2.2 y hy x List.mem_cons_self
    cases hpy : p y with
    | false => rfl
    | true => exact absurd (hleast y (List.mem_append_left _ hy) hpy) (not_le.mpr hlt)

theorem Increasing.eq_of_key (h : Increasing key l) (hx : x ∈ l) (hy : y ∈ l) (hk : key x = key y) : x = y := by
  have hfind : ∀ z ∈ l, key z = key y → l.find? (fun z => key z = key y) = some z := fun z hz hzy =>
    (find?_eq_some_iff h).mpr ⟨hz, decide_eq_true hzy, fun w _ hw => (hzy.trans (of_decide_eq_true hw).symm).le⟩
  exact Option.some.inj ((hfind x hx hk).symm.trans (hfind y hy rfl))

/-- A search in two steps: for the first element that is high enough, and from there for one
that satisfies `q`. -/
theorem find?_bind_find? (h : Increasing key l) (hp : ∀ x y, key x ≤ key y → p x → p y) :
    ((l.find? p).bind fun x => l.find? fun y => decide (key x ≤ key y) && q y) = (l.filter q).find? p := by
  rw [List.find?_filter]
  cases hfind : l.find? p with
  | none =>
    symm
    rw [Option.bind_none, List.find?_eq_none]
    intro y hy hpy
    exact List.find?_eq_none.mp hfind y hy (by simpa using (of_decide_eq_true hpy).2)
  | some x =>
    obtain ⟨-, hpx, hleast⟩ := (find?_eq_some_iff h).mp hfind
    rw [Option.bind_some]
    refine List.find?_congr fun y hy => ?_
    rw [Bool.eq_iff_iff]
    simp only [Bool.and_eq_true, decide_eq_true_eq]
    exact ⟨fun hxy => ⟨hxy.2, hp x y hxy.1 hpx⟩, fun hxy => ⟨hleast y hy hxy.2, hxy.1⟩⟩

/-- What follows an element is the first one above it. -/
theorem head?_tail_dropWhile (h : Increasing key l) (hx : x ∈ l) :
    (l.dropWhile fun y => decide (key y ≠ key x)).tail.head? = l.find? fun y => key x < key y := by
  induction l with
  | nil => cases hx
  | cons a l ih =>
    obtain ⟨ha, hl⟩ := List.pairwise_cons.mp h
    rcases List.mem_cons.mp hx with rfl | hx
    · have hall : ∀ y ∈ l, decide (key x < key y) = true := fun y hy => decide_eq_true (ha y hy)
      rw [List.find?_cons_of_neg (by simp), List.dropWhile_cons_of_neg (by simp), List.tail_cons]
      cases l with
      | nil => rfl
      | cons b l => simp [hall b List.mem_cons_self]
    · have hax := ha x hx
      rw [List.find?_cons_of_neg (by simpa using hax.le), List.dropWhile_cons_of_pos (by simpa using hax.ne), ih hl hx]

/-- The last element before the first that is too high. -/
theorem getLast?_takeWhile (h : Increasing key l) (hp : ∀ x y, key x ≤ key y → p y → p x) :
    (l.takeWhile p).getLast? = l.reverse.find? p := by
  rw [takeWhile_eq_filter h fun x y hlt => hp x y hlt.le, List.getLast?_eq_head?_reverse, ← List.filter_reverse, List.head?_filter]

/-- Going on by one leaves fewer elements ahead. -/
theorem countP_find?_lt (hx : x ∈ l) (hy : l.find? (fun y => key x < key y) = some y) :
    l.countP (fun z => key y ≤ key z) < l.countP fun z => key x ≤ key z := by
  have hxy : key x < key y := by simpa using List.find?_some hy
  refine countP_lt (fun z _ hz => ?_) hx (by simp) (by simpa using hxy)
  rw [decide_eq_true_eq] at hz ⊢
  exact hxy.le.trans hz

end Find

/-! ### Insertion -/

section Insert

variable {l : List α} {p : α → Bool} {e : α}

/-- The element before the first one that is not below it. -/
def insertSorted (key : α → β) (e : α) (l : List α) : List α :=
  l.takeWhile (fun x => key x < key e) ++ e :: l.dropWhile fun x => key x < key e

theorem mem_insertSorted {x : α} : x ∈ insertSorted key e l ↔ x = e ∨ x ∈ l := mem_takeWhile_cons_dropWhile

theorem filter_insertSorted (hp : ¬ p e) : (insertSorted key e l).filter p = l.filter p := by
  rw [insertSorted, List.filter_append, List.filter_cons_of_neg hp, ← List.filter_append, List.takeWhile_append_dropWhile]

theorem increasing_insertSorted (h : Increasing key l) (he : ∀ x ∈ l, key x ≠ key e) :
    Increasing key (insertSorted key e l) := by
  refine pairwise_takeWhile_cons_dropWhile (fun _ _ _ => lt_trans) h (fun x _ hlt => of_decide_eq_true hlt) fun x hx hlt => ?_
  exact lt_of_le_of_ne (not_lt.mp fun hlt' => hlt (decide_eq_true hlt')) (he x hx).symm

end Insert

/-! ### The smallest of several keys -/

section FirstMin

variable {f g : ι → Option β} {order : List ι} {i j : ι}

/-- The better of what was found so far and the next one. -/
def firstMinStep (f : ι → Option β) (best : Option ι) (i : ι) : Option ι :=
  match f i, best.bind f with
  | none, _ => best
  | some _, none => some i
  | some a, some b => if a < b then some i else best

/-- The index of the smallest key, and of equal ones of the first. -/
def firstMin (order : List ι) (f : ι → Option β) : Option ι := order.foldl (firstMinStep f) none

/-- An index without a key counts as the largest. -/
def rankOf (f : ι → Option β) (i : ι) : WithTop β := (f i).elim ⊤ WithTop.some

omit [LinearOrder β] in
theorem rankOf_eq_top : rankOf f i = ⊤ ↔ f i = none := by
  cases hi : f i <;> simp [rankOf, hi]

theorem rankOf_le_iff {a b : β} (ha : f i = some a) (hb : g j = some b) : rankOf f i ≤ rankOf g j ↔ a ≤ b := by
  simp [rankOf, ha, hb]

theorem firstMin_eq_argmin (order : List ι) (f : ι → Option β) :
    firstMin order f = (order.argmin (rankOf f)).filter fun i => (f i).isSome := by
  induction order using List.reverseRecOn with
  | nil => rfl
  | append_singleton order i ih =>
    rw [firstMin, List.foldl_append, List.foldl_cons, List.foldl_nil, ← firstMin, ih, List.argmin_concat]
    cases order.argmin (rankOf f) with
    | none => cases hi : f i <;> simp [firstMinStep, Option.filter_some, hi]
    | some c =>
      cases hi : f i <;> cases hc : f c <;> simp [firstMinStep, rankOf, Option.filter_some, hi, hc]
      split_ifs <;> simp [Option.filter_some, hi, hc]

theorem firstMin_eq_some_iff : firstMin order f = some i ↔ i ∈ order.argmin (rankOf f) ∧ (f i).isSome := by
  rw [firstMin_eq_argmin, Option.filter_eq_some_iff]
  rfl

theorem firstMin_eq_none (h : firstMin order f = none) (hi : i ∈ order) : f i = none := by
  cases hmin : order.argmin (rankOf f) with
  | none => simp [List.argmin_eq_none.mp hmin] at hi
  | some c =>
    have hc : f c = none := by simpa [firstMin_eq_argmin, hmin] using h
    exact rankOf_eq_top.mp (top_le_iff.mp (rankOf_eq_top.mpr hc ▸ List.le_of_mem_argmin hi hmin))

theorem exists_of_firstMin (h : firstMin order f = some i) : ∃ a, f i = some a :=
  Option.isSome_iff_exists.mp (firstMin_eq_some_iff.mp h).2

theorem le_of_firstMin {a b : β} (h : firstMin order f = some i) (hj : j ∈ order) (ha : f i = some a)
    (hb : f j = some b) : a ≤ b :=
  (rankOf_le_iff ha hb).mp (List.le_of_mem_argmin hj (firstMin_eq_some_iff.mp h).1)

/-- The choice among ranks of what there is. -/
theorem firstMin_map_cases {α : Type*} (horder : ∀ i, i ∈ order) (x : ι → Option α) (rank : α → β) :
    (firstMin order (fun i => (x i).map rank) = none ∧ ∀ i, x i = none) ∨
      ∃ i a, firstMin order (fun i => (x i).map rank) = some i ∧ x i = some a ∧ ∀ j b, x j = some b → rank a ≤ rank b := by
  cases hmin : firstMin order fun i => (x i).map rank with
  | none => exact .inl ⟨rfl, fun i => by simpa using firstMin_eq_none hmin (horder i)⟩
  | some i =>
    obtain ⟨c, hc⟩ := exists_of_firstMin hmin
    obtain ⟨a, ha, rfl⟩ := Option.map_eq_some_iff.mp hc
    exact .inr ⟨i, a, rfl, ha, fun j b hb => le_of_firstMin hmin (horder j) hc (by rw [hb]; rfl)⟩

/-- Larger keys at the other indices do not change the choice. -/
theorem firstMin_eq_some_of_le (h : firstMin order f = some i) (hi : g i = f i)
    (hle : ∀ j b, g j = some b → ∃ a ≤ b, f j = some a) : firstMin order g = some i := by
  classical
  obtain ⟨hmin, hsome⟩ := firstMin_eq_some_iff.mp h
  obtain ⟨hmem, hleast, hfirst⟩ := List.mem_argmin_iff.mp hmin
  have hrank : ∀ j, rankOf f j ≤ rankOf g j := by
    intro j
    cases hj : g j with
    | none => exact le_top.trans_eq (rankOf_eq_top.mpr hj).symm
    | some b =>
      obtain ⟨a, hab, ha⟩ := hle j b hj
      exact (rankOf_le_iff ha hj).mpr hab
  have heq : rankOf g i = rankOf f i := by rw [rankOf, rankOf, hi]
  refine firstMin_eq_some_iff.mpr ⟨List.mem_argmin_iff.mpr ⟨hmem, ?_, ?_⟩, hi ▸ hsome⟩
  · intro j hj
    exact heq.trans_le ((hleast j hj).trans (hrank j))
  · intro j hj hji
    exact hfirst j hj ((hrank j).trans (hji.trans_eq heq))

end FirstMin

end TLevelDB.SortedSearch
