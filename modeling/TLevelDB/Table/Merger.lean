import TLevelDB.Table.TwoLevel
import TLevelDB.Lib.UnionCursor
import Mathlib.Data.List.FinRange

/-!
# `MergingIterator` in all directions

A `MergingIterator` stands on the smallest of the entries that its children stand on, or on
the largest after it was moved backward (`table/merger.cc`). Going forward, every other child
is at its first entry after the current one, and going backward at its last entry before it;
where the direction changes, all the other children are sought anew.

If the children are cursors over sorted lists that have no key in common, the iterator is a
cursor over the sorted list of all their entries (`implements_cursorOps`).

Keys are compared by a rank in a linear order, as any comparator compares them that is a
total order up to keys that count as equal.
-/

namespace TLevelDB.Table.Merger

open Cursors SortedSearch

/-! ### The model -/

/-- `MergingIterator::Direction`. -/
inductive Direction where
  | forward
  | reverse
deriving DecidableEq

/-- `MergingIterator` over `n` children. -/
structure MergingIterator (n : ℕ) (ι : Type) where
  children : Fin n → ι
  current : Option (Fin n) := none
  direction : Direction := .forward

variable {ρ ι κ ν β : Type} [LinearOrder β] {n : ℕ}

/-- A call to one of the children. -/
def onChild (i : Fin n) (f : ρ × ι → ρ × ι) (s : ρ × (Fin n → ι)) : ρ × (Fin n → ι) :=
  ((f (s.1, s.2 i)).1, Function.update s.2 i (f (s.1, s.2 i)).2)

/-- The loops over the children. -/
def forChildren (f : Fin n → ρ × ι → ρ × ι) (s : ρ × (Fin n → ι)) : ρ × (Fin n → ι) :=
  (List.finRange n).foldl (fun s i => onChild i (f i) s) s

variable (rank : κ → β) (ops : Fin n → CursorOps ρ ι κ ν)

/-- The first of the children with the smallest key. -/
def findSmallest (children : Fin n → ι) : Option (Fin n) :=
  firstMin (List.finRange n) fun i => ((ops i).current (children i)).map fun e => rank e.1

/-- The last of the children with the largest key. -/
def findLargest (children : Fin n → ι) : Option (Fin n) :=
  firstMin (List.finRange n).reverse fun i => ((ops i).current (children i)).map fun e => OrderDual.toDual (rank e.1)

omit [LinearOrder β] in
/-- The current child, and the entry that it stands on. -/
def MergingIterator.currentChild (m : MergingIterator n ι) : Option (Fin n × κ × ν) :=
  m.current.bind fun i => ((ops i).current (m.children i)).map fun e => (i, e)

/-- What `Next` does with the other children after going backward. -/
def turnForward (child : CursorOps ρ ι κ ν) (key : κ) (s : ρ × ι) : ρ × ι :=
  let s := child.seek key s
  if (child.current s.2).any fun e => rank key = rank e.1 then child.next s else s

omit [LinearOrder β] in
/-- What `Prev` does with the other children after going forward. -/
def turnBack (child : CursorOps ρ ι κ ν) (key : κ) (s : ρ × ι) : ρ × ι :=
  let s := child.seek key s
  -- at the first entry from the key on; one back is below it
  if (child.current s.2).isSome then child.prev s
  -- no entries from the key on
  else child.seekToLast s

/-- The first part of `Next`, where the current child is `i` and has this key: all children
are positioned after the key. -/
def faceForward (i : Fin n) (key : κ) (s : ρ × MergingIterator n ι) : ρ × (Fin n → ι) :=
  match s.2.direction with
  | .forward => (s.1, s.2.children)
  | .reverse => forChildren (fun j => if j = i then id else turnForward rank (ops j) key) (s.1, s.2.children)

omit [LinearOrder β] in
/-- The first part of `Prev`: all children are positioned before the key. -/
def faceBack (i : Fin n) (key : κ) (s : ρ × MergingIterator n ι) : ρ × (Fin n → ι) :=
  match s.2.direction with
  | .reverse => (s.1, s.2.children)
  | .forward => forChildren (fun j => if j = i then id else turnBack (ops j) key) (s.1, s.2.children)

/-- `Next`, where the current child is `i` and has this key. -/
def nextAt (i : Fin n) (key : κ) (s : ρ × MergingIterator n ι) : ρ × MergingIterator n ι :=
  let t := onChild i (ops i).next (faceForward rank ops i key s)
  (t.1, ⟨t.2, findSmallest rank ops t.2, .forward⟩)

/-- `Prev`, where the current child is `i` and has this key. -/
def prevAt (i : Fin n) (key : κ) (s : ρ × MergingIterator n ι) : ρ × MergingIterator n ι :=
  let t := onChild i (ops i).prev (faceBack ops i key s)
  (t.1, ⟨t.2, findLargest rank ops t.2, .reverse⟩)

/-- The operations. `Next` and `Prev` assert that the iterator is valid. -/
def cursorOps : CursorOps ρ (MergingIterator n ι) κ ν where
  current m := (m.currentChild ops).map Prod.snd
  status m := (List.finRange n).findSome? fun i => (ops i).status (m.children i)
  seekToFirst s :=
    let t := forChildren (fun i => (ops i).seekToFirst) (s.1, s.2.children)
    (t.1, ⟨t.2, findSmallest rank ops t.2, .forward⟩)
  seekToLast s :=
    let t := forChildren (fun i => (ops i).seekToLast) (s.1, s.2.children)
    (t.1, ⟨t.2, findLargest rank ops t.2, .reverse⟩)
  seek target s :=
    let t := forChildren (fun i => (ops i).seek target) (s.1, s.2.children)
    (t.1, ⟨t.2, findSmallest rank ops t.2, .forward⟩)
  next s := (s.2.currentChild ops).elim s fun p => nextAt rank ops p.1 p.2.1 s
  prev s := (s.2.currentChild ops).elim s fun p => prevAt rank ops p.1 p.2.1 s

/-! ### The loops over the children -/

section Loops

variable {Inv : ρ → Prop} {S : Fin n → ι → Cursor (κ × ν) → Prop} {c c' : Fin n → Cursor (κ × ν)}
  {f : Fin n → ρ × ι → ρ × ι} {s : ρ × (Fin n → ι)}

/-- The children are these cursors. -/
structure Follows (Inv : ρ → Prop) (S : Fin n → ι → Cursor (κ × ν) → Prop) (s : ρ × (Fin n → ι))
    (c : Fin n → Cursor (κ × ν)) : Prop where
  inv : Inv s.1
  child : ∀ j, S j (s.2 j) (c j)

/-- A call makes of the cursor `c` the cursor `c'`. -/
def Moves (Inv : ρ → Prop) (S : ι → Cursor (κ × ν) → Prop) (f : ρ × ι → ρ × ι) (c c' : Cursor (κ × ν)) : Prop :=
  ∀ r it, Inv r → S it c → Inv (f (r, it)).1 ∧ S (f (r, it)).2 c'

theorem Follows.onChild (h : Follows Inv S s c) {i : Fin n} {d : Cursor (κ × ν)} {g : ρ × ι → ρ × ι}
    (hg : Moves Inv (S i) g (c i) d) : Follows Inv S (onChild i g s) (Function.update c i d) := by
  obtain ⟨hinv, hchild⟩ := hg s.1 (s.2 i) h.inv (h.child i)
  refine ⟨hinv, fun j => ?_⟩
  by_cases hj : j = i
  · subst hj
    simpa [Merger.onChild] using hchild
  · simpa [Merger.onChild, hj] using h.child j

/-- A loop moves every child. -/
theorem Follows.forChildren (h : Follows Inv S s c) (hf : ∀ j, Moves Inv (S j) (f j) (c j) (c' j)) :
    Follows Inv S (forChildren f s) c' := by
  -- along the list of the children, those that were passed have moved
  have hloop : ∀ l : List (Fin n), l.Nodup → ∀ s c, Follows Inv S s c → (∀ j ∈ l, Moves Inv (S j) (f j) (c j) (c' j)) →
      (∀ j, j ∉ l → c j = c' j) → Follows Inv S (l.foldl (fun s i => Merger.onChild i (f i) s) s) c' := by
    intro l hl
    induction l with
    | nil =>
      intro s c h _ heq
      obtain rfl : c = c' := funext fun j => heq j List.not_mem_nil
      exact h
    | cons i l ih =>
      obtain ⟨hi, hl⟩ := List.nodup_cons.mp hl
      intro s c h hf heq
      refine ih hl _ _ (h.onChild (hf i List.mem_cons_self)) ?_ ?_
      · intro j hj
        rw [Function.update_of_ne (by rintro rfl; exact hi hj)]
        exact hf j (List.mem_cons_of_mem _ hj)
      · intro j hj
        by_cases hji : j = i
        · subst hji
          exact Function.update_self ..
        · rw [Function.update_of_ne hji]
          exact heq j (by simp [hji, hj])
  exact hloop _ (List.nodup_finRange n) s c h (fun j _ => hf j) fun j hj => absurd (List.mem_finRange j) hj

end Loops

/-! ### Positions -/

/-- A key that `Seek` may stop at. -/
def NotBelow (a target : κ) : Prop := rank target ≤ rank a

instance : DecidableRel (NotBelow rank) := fun a target => inferInstanceAs (Decidable (rank target ≤ rank a))

section Positions

variable (S : Fin n → ι → Cursor (κ × ν) → Prop) (contents : Fin n → List (κ × ν)) (U : List (κ × ν))

/-- The iterator is on an entry, and the children are ahead of it or behind it. -/
structure On (m : MergingIterator n ι) (z : Zipper (κ × ν)) (c : Fin n → Cursor (κ × ν)) : Prop where
  child : ∀ j, S j (m.children j) (c j)
  toList : z.toList = U
  current : ∃ i w, m.current = some i ∧ c i = some w ∧ w.cur = z.cur
  forward : m.direction = .forward → ∀ j, c j = seek (fun e => rank z.cur.1 ≤ rank e.1) (contents j)
  reverse : m.direction = .reverse → ∀ j, c j = seekBack (fun e => rank e.1 ≤ rank z.cur.1) (contents j)

/-- The position of the iterator; where it is nowhere, the children may be anywhere. -/
inductive Stands (m : MergingIterator n ι) : Cursor (κ × ν) → Prop where
  | nowhere {c : Fin n → Cursor (κ × ν)} : (∀ j, S j (m.children j) (c j)) → m.current = none → Stands m none
  | on {z : Zipper (κ × ν)} {c : Fin n → Cursor (κ × ν)} : On rank S contents U m z c → Stands m (some z)

variable {rank ops S contents U} {Inv : ρ → Prop}

theorem Stands.child {m : MergingIterator n ι} {d : Cursor (κ × ν)} (h : Stands rank S contents U m d) :
    ∃ c : Fin n → Cursor (κ × ν), ∀ j, S j (m.children j) (c j) := by
  cases h with
  | nowhere hchild _ => exact ⟨_, hchild⟩
  | on h => exact ⟨_, h.child⟩

variable (hU : IsUnion (fun e : κ × ν => rank e.1) contents U)
  (hops : ∀ i, (ops i).Implements (NotBelow rank) Inv (contents i) (S i))
include hU hops

/-- `FindSmallest` after the same search in all children. -/
theorem stands_findSmallest {p : κ × ν → Prop} [DecidablePred p] {children : Fin n → ι}
    (hp : ∀ x y : κ × ν, rank x.1 ≤ rank y.1 → p x → p y) (hchild : ∀ j, S j (children j) (seek p (contents j))) :
    Stands rank S contents U ⟨children, findSmallest rank ops children, .forward⟩ (seek p U) := by
  have hcurrent : ∀ j, (ops j).current (children j) = (seek p (contents j)).map Zipper.cur :=
    fun j => (hops j).current (hchild j)
  unfold findSmallest
  obtain ⟨hfind, hnone⟩ | ⟨i, e, hfind, he, hleast⟩ :=
    firstMin_map_cases List.mem_finRange (fun j => (ops j).current (children j)) fun e => rank e.1
  · rw [hfind, hU.seek_eq_none fun j => by simpa [hcurrent] using hnone j]
    exact .nowhere hchild rfl
  · obtain ⟨w, hw, rfl⟩ : ∃ w, seek p (contents i) = some w ∧ w.cur = e := by simpa [hcurrent] using he
    obtain ⟨z, hz, hcur⟩ := hU.seek_eq_some hw fun j v hv => hleast j v.cur (by simp [hcurrent, hv])
    rw [hfind, hz]
    refine .on ⟨hchild, ((seek_eq_some_iff p).mp hz).1, ⟨i, w, rfl, hw, hcur.symm⟩, ?_, fun hreverse => by cases hreverse⟩
    intro _ j
    exact hU.seek_at hp hz j

/-- `FindLargest` after the same search backward in all children. -/
theorem stands_findLargest {p : κ × ν → Prop} [DecidablePred p] {children : Fin n → ι}
    (hp : ∀ x y : κ × ν, rank x.1 ≤ rank y.1 → p y → p x) (hchild : ∀ j, S j (children j) (seekBack p (contents j))) :
    Stands rank S contents U ⟨children, findLargest rank ops children, .reverse⟩ (seekBack p U) := by
  have hcurrent : ∀ j, (ops j).current (children j) = (seekBack p (contents j)).map Zipper.cur :=
    fun j => (hops j).current (hchild j)
  unfold findLargest
  obtain ⟨hfind, hnone⟩ | ⟨i, e, hfind, he, hgreatest⟩ :=
    firstMin_map_cases (fun j => List.mem_reverse.mpr (List.mem_finRange j)) (fun j => (ops j).current (children j))
      fun e => OrderDual.toDual (rank e.1)
  · rw [hfind, hU.seekBack_eq_none fun j => by simpa [hcurrent] using hnone j]
    exact .nowhere hchild rfl
  · obtain ⟨w, hw, rfl⟩ : ∃ w, seekBack p (contents i) = some w ∧ w.cur = e := by simpa [hcurrent] using he
    obtain ⟨z, hz, hcur⟩ := hU.seekBack_eq_some hw fun j v hv => hgreatest j v.cur (by simp [hcurrent, hv])
    rw [hfind, hz]
    refine .on ⟨hchild, ((seekBack_eq_some_iff p).mp hz).1, ⟨i, w, rfl, hw, hcur.symm⟩, nofun, ?_⟩
    intro _ j
    exact hU.seekBack_at hp hz j

end Positions

/-! ### The other children when the direction changes -/

section Turn

variable {rank} {S : ι → Cursor (κ × ν) → Prop} {L : List (κ × ν)} {Inv : ρ → Prop} {child : CursorOps ρ ι κ ν}
  (h : child.Implements (NotBelow rank) Inv L S) (hL : Increasing (fun e : κ × ν => rank e.1) L)
include h hL

theorem moves_turnForward (key : κ) (c : Cursor (κ × ν)) :
    Moves Inv S (turnForward rank child key) c (seek (fun e => rank key < rank e.1) L) := by
  intro r it hr hs
  obtain ⟨hr₁, hs₁⟩ := h.seek key hr hs
  generalize hst : child.seek key (r, it) = st at hr₁ hs₁
  have hcurrent := h.current hs₁
  simp only [turnForward, hst]
  cases hfound : seek (fun e : κ × ν => NotBelow rank e.1 key) L with
  | none =>
    have hnone : seek (fun e : κ × ν => rank key < rank e.1) L = none := by
      rw [seek_eq_none_iff] at hfound ⊢
      intro x hx hlt
      exact hfound x hx hlt.le
    rw [hfound] at hcurrent hs₁
    rw [hcurrent, hnone, if_neg (by simp)]
    exact ⟨hr₁, hs₁⟩
  | some z =>
    obtain ⟨hz, hle, hleast⟩ := (seek_eq_some_iff_least hL).mp hfound
    rw [hfound] at hcurrent hs₁
    rw [hcurrent]
    by_cases heq : rank key = rank z.cur.1
    · rw [if_pos (by simpa using heq)]
      have hnext : next (some z) = seek (fun e : κ × ν => rank key < rank e.1) L := by
        rw [next_eq_seek (fun x y : κ × ν => lt_asymm (a := rank x.1)) hL hz, heq]
      rw [← hnext]
      exact h.next hr₁ hs₁
    · rw [if_neg (by simpa using heq)]
      -- there is no entry with the key itself
      have hsame : seek (fun e : κ × ν => rank key < rank e.1) L = some z := by
        rw [← hfound]
        refine seek_congr fun x hx => ⟨le_of_lt, fun hx' => ?_⟩
        exact (lt_of_le_of_ne hle heq).trans_le (hleast x hx hx')
      rw [hsame]
      exact ⟨hr₁, hs₁⟩

theorem moves_turnBack (key : κ) (c : Cursor (κ × ν)) :
    Moves Inv S (turnBack child key) c (seekBack (fun e => rank e.1 < rank key) L) := by
  intro r it hr hs
  obtain ⟨hr₁, hs₁⟩ := h.seek key hr hs
  generalize hst : child.seek key (r, it) = st at hr₁ hs₁
  have hcurrent := h.current hs₁
  simp only [turnBack, hst]
  cases hfound : seek (fun e : κ × ν => NotBelow rank e.1 key) L with
  | none =>
    have hlast : seekToLast L = seekBack (fun e : κ × ν => rank e.1 < rank key) L := by
      refine seekBack_congr fun x hx => ⟨fun _ => ?_, fun _ => trivial⟩
      exact not_le.mp ((seek_eq_none_iff _).mp hfound x hx)
    rw [hfound] at hcurrent hs₁
    rw [hcurrent, if_neg (by simp), ← hlast]
    exact h.seekToLast hr₁ hs₁
  | some z =>
    obtain ⟨hz, hle, hleast⟩ := (seek_eq_some_iff_least hL).mp hfound
    have hprev : prev (some z) = seekBack (fun e : κ × ν => rank e.1 < rank key) L := by
      rw [prev_eq_seekBack (fun x y : κ × ν => lt_asymm (a := rank x.1)) hL hz]
      refine seekBack_congr fun x hx => ⟨fun hlt => ?_, fun hlt => hlt.trans_le hle⟩
      by_contra hge
      exact absurd (hleast x hx (not_lt.mp hge)) (not_le.mpr hlt)
    rw [hfound] at hcurrent hs₁
    rw [hcurrent, if_pos (by simp), ← hprev]
    exact h.prev hr₁ hs₁

end Turn

/-! ### The calls -/

section Calls

variable {rank ops} {S : Fin n → ι → Cursor (κ × ν) → Prop} {contents : Fin n → List (κ × ν)} {U : List (κ × ν)}
  {Inv : ρ → Prop} {r : ρ} {m : MergingIterator n ι} {z w : Zipper (κ × ν)} {c : Fin n → Cursor (κ × ν)} {i : Fin n}
  (hU : IsUnion (fun e : κ × ν => rank e.1) contents U)
  (hops : ∀ i, (ops i).Implements (NotBelow rank) Inv (contents i) (S i))

/-- All children are where `p` says, but the current one has not moved yet. -/
structure Facing (Inv : ρ → Prop) (S : Fin n → ι → Cursor (κ × ν) → Prop) (i : Fin n) (w : Zipper (κ × ν))
    (p : Fin n → Cursor (κ × ν)) (s : ρ × (Fin n → ι)) : Prop where
  inv : Inv s.1
  current : S i (s.2 i) (some w)
  other : ∀ j, j ≠ i → S j (s.2 j) (p j)

/-- The call to the current child puts it where the others are. -/
theorem Facing.onChild {p : Fin n → Cursor (κ × ν)} {s : ρ × (Fin n → ι)} (h : Facing Inv S i w p s) {g : ρ × ι → ρ × ι}
    (hg : Moves Inv (S i) g (some w) (p i)) : Follows Inv S (onChild i g s) p := by
  classical
  have hfollows : Follows Inv S s (Function.update p i (some w)) := by
    refine ⟨h.inv, fun j => ?_⟩
    by_cases hj : j = i
    · subst hj
      rw [Function.update_self]
      exact h.current
    · rw [Function.update_of_ne hj]
      exact h.other j hj
  have hmoved := hfollows.onChild (i := i) (g := g) (d := p i) (by rwa [Function.update_self])
  rwa [Function.update_idem, Function.update_eq_self] at hmoved

/-- A loop over the other children. -/
theorem facing_forChildren {p : Fin n → Cursor (κ × ν)} {f : Fin n → ρ × ι → ρ × ι} (hr : Inv r)
    (hchild : ∀ j, S j (m.children j) (c j)) (hw : c i = some w) (hf : ∀ j, j ≠ i → Moves Inv (S j) (f j) (c j) (p j)) :
    Facing Inv S i w p (forChildren (fun j => if j = i then id else f j) (r, m.children)) := by
  have hloop : Follows Inv S (forChildren (fun j => if j = i then id else f j) (r, m.children))
      fun j => if j = i then some w else p j := by
    refine Follows.forChildren ⟨hr, hchild⟩ fun j => ?_
    by_cases hj : j = i
    · subst hj
      rw [if_pos rfl, if_pos rfl, hw]
      exact fun r it hr hs => ⟨hr, hs⟩
    · rw [if_neg hj, if_neg hj]
      exact hf j hj
  refine ⟨hloop.inv, ?_, fun j hj => ?_⟩
  · simpa using hloop.child i
  · simpa [hj] using hloop.child j

include hops

theorem On.currentChild (h : On rank S contents U m z c) :
    ∃ i w, c i = some w ∧ w.cur = z.cur ∧ m.currentChild ops = some (i, z.cur) := by
  obtain ⟨i, w, hi, hw, hcur⟩ := h.current
  refine ⟨i, w, hw, hcur, ?_⟩
  rw [MergingIterator.currentChild, hi, Option.bind_some, (hops i).current (h.child i), hw]
  simp [hcur]

theorem On.cur_mem (h : On rank S contents U m z c) (hw : c i = some w) (hcur : w.cur = z.cur) :
    w.toList = contents i ∧ z.cur ∈ contents i := by
  have hlist := (hops i).toList (hw ▸ h.child i)
  exact ⟨hlist, hlist ▸ hcur ▸ w.cur_mem⟩

include hU

theorem On.facing_faceForward (hr : Inv r) (h : On rank S contents U m z c) (hw : c i = some w) (hcur : w.cur = z.cur) :
    Facing Inv S i w (fun j => seek (fun e : κ × ν => rank z.cur.1 < rank e.1) (contents j))
      (faceForward rank ops i z.cur.1 (r, m)) := by
  have hmem := (h.cur_mem hops hw hcur).2
  unfold faceForward
  cases hd : m.direction with
  | forward =>
    refine ⟨hr, hw ▸ h.child i, fun j hj => ?_⟩
    -- the others have no entry with the current key
    have hsame : seek (fun e : κ × ν => rank z.cur.1 < rank e.1) (contents j) = c j := by
      rw [h.forward hd j]
      refine seek_congr fun x hx => ⟨le_of_lt, fun hle => ?_⟩
      exact lt_of_le_of_ne hle (hU.disjoint i j (Ne.symm hj) _ hmem x hx)
    rw [hsame]
    exact h.child j
  | reverse => exact facing_forChildren hr h.child hw fun j _ => moves_turnForward (hops j) (hU.each j) _ _

theorem On.facing_faceBack (hr : Inv r) (h : On rank S contents U m z c) (hw : c i = some w) (hcur : w.cur = z.cur) :
    Facing Inv S i w (fun j => seekBack (fun e : κ × ν => rank e.1 < rank z.cur.1) (contents j))
      (faceBack ops i z.cur.1 (r, m)) := by
  have hmem := (h.cur_mem hops hw hcur).2
  unfold faceBack
  cases hd : m.direction with
  | reverse =>
    refine ⟨hr, hw ▸ h.child i, fun j hj => ?_⟩
    have hsame : seekBack (fun e : κ × ν => rank e.1 < rank z.cur.1) (contents j) = c j := by
      rw [h.reverse hd j]
      refine seekBack_congr fun x hx => ⟨le_of_lt, fun hle => ?_⟩
      exact lt_of_le_of_ne hle (hU.disjoint j i hj x hx _ hmem)
    rw [hsame]
    exact h.child j
  | forward => exact facing_forChildren hr h.child hw fun j _ => moves_turnBack (hops j) (hU.each j) _ _

theorem On.next (hr : Inv r) (h : On rank S contents U m z c) (hw : c i = some w) (hcur : w.cur = z.cur) :
    Inv (nextAt rank ops i z.cur.1 (r, m)).1 ∧
      Stands rank S contents U (nextAt rank ops i z.cur.1 (r, m)).2 (Cursors.next (some z)) := by
  have hirr : ∀ x y : κ × ν, rank x.1 < rank y.1 → ¬ rank y.1 < rank x.1 := fun x y => lt_asymm
  have hnext := next_eq_seek hirr (hU.each i) (h.cur_mem hops hw hcur).1
  rw [hcur] at hnext
  have hmoved := (h.facing_faceForward hU hops hr hw hcur).onChild (g := (ops i).next) fun r it hr hs =>
    hnext ▸ (hops i).next hr hs
  refine ⟨hmoved.inv, ?_⟩
  rw [next_eq_seek hirr hU.sorted h.toList]
  exact stands_findSmallest hU hops (fun x y hxy hx => hx.trans_le hxy) hmoved.child

theorem On.prev (hr : Inv r) (h : On rank S contents U m z c) (hw : c i = some w) (hcur : w.cur = z.cur) :
    Inv (prevAt rank ops i z.cur.1 (r, m)).1 ∧
      Stands rank S contents U (prevAt rank ops i z.cur.1 (r, m)).2 (Cursors.prev (some z)) := by
  have hirr : ∀ x y : κ × ν, rank x.1 < rank y.1 → ¬ rank y.1 < rank x.1 := fun x y => lt_asymm
  have hprev := prev_eq_seekBack hirr (hU.each i) (h.cur_mem hops hw hcur).1
  rw [hcur] at hprev
  have hmoved := (h.facing_faceBack hU hops hr hw hcur).onChild (g := (ops i).prev) fun r it hr hs =>
    hprev ▸ (hops i).prev hr hs
  refine ⟨hmoved.inv, ?_⟩
  rw [prev_eq_seekBack hirr hU.sorted h.toList]
  exact stands_findLargest hU hops (fun x y hxy hy => hxy.trans_lt hy) hmoved.child

theorem implements_cursorOps : (cursorOps rank ops).Implements (NotBelow rank) Inv U (Stands rank S contents U) where
  toList h := by
    cases h with
    | on h => exact h.toList
  current {m d} h := by
    cases h with
    | nowhere _ hnone => simp [cursorOps, MergingIterator.currentChild, hnone]
    | on h =>
      obtain ⟨i, w, -, -, hchild⟩ := h.currentChild hops
      simp [cursorOps, hchild]
  status {m d} h := by
    obtain ⟨c, hc⟩ := h.child
    exact List.findSome?_eq_none_iff.mpr fun i _ => (hops i).status (hc i)
  call {r m d} hr h call hlegal := by
    obtain ⟨c, hc⟩ := h.child
    have hfollows : Follows Inv S (r, m.children) c := ⟨hr, hc⟩
    cases call with
    | seekToFirst =>
      have hmoved := hfollows.forChildren fun j r it hr hs => (hops j).seekToFirst hr hs
      exact ⟨hmoved.inv, stands_findSmallest hU hops (fun _ _ _ _ => trivial) hmoved.child⟩
    | seekToLast =>
      have hmoved := hfollows.forChildren fun j r it hr hs => (hops j).seekToLast hr hs
      exact ⟨hmoved.inv, stands_findLargest hU hops (fun _ _ _ _ => trivial) hmoved.child⟩
    | seek target =>
      have hmoved := hfollows.forChildren fun j r it hr hs => (hops j).seek target hr hs
      exact ⟨hmoved.inv, stands_findSmallest hU hops (fun _ _ hxy hx => le_trans hx hxy) hmoved.child⟩
    | next =>
      cases h with
      | nowhere => cases hlegal
      | on h =>
        obtain ⟨i, w, hw, hcur, hchild⟩ := h.currentChild hops
        have hnext := h.next hU hops hr hw hcur
        simpa [CursorOps.call, cursorOps, listCall, hchild] using hnext
    | prev =>
      cases h with
      | nowhere => cases hlegal
      | on h =>
        obtain ⟨i, w, hw, hcur, hchild⟩ := h.currentChild hops
        have hprev := h.prev hU hops hr hw hcur
        simpa [CursorOps.call, cursorOps, listCall, hchild] using hprev

end Calls

/-! ### The sorted union -/

section Union

variable (contents : Fin n → List (κ × ν))

/-- All entries, in order. -/
def sortedUnion : List (κ × ν) :=
  ((List.finRange n).flatMap contents).mergeSort fun x y => decide (rank x.1 ≤ rank y.1)

variable {rank contents}

theorem isUnion_sortedUnion (hsorted : ∀ i, Increasing (fun e : κ × ν => rank e.1) (contents i))
    (hdisjoint : ∀ i j, i ≠ j → ∀ x ∈ contents i, ∀ y ∈ contents j, rank x.1 ≠ rank y.1) :
    IsUnion (fun e : κ × ν => rank e.1) contents (sortedUnion rank contents) where
  sorted := by
    have hle : (sortedUnion rank contents).Pairwise fun x y => rank x.1 ≤ rank y.1 := by
      have h := @List.pairwise_mergeSort _ (fun x y : κ × ν => decide (rank x.1 ≤ rank y.1))
        (fun x y z hxy hyz => decide_eq_true ((of_decide_eq_true hxy).trans (of_decide_eq_true hyz)))
        (fun x y => by simpa using le_total (rank x.1) (rank y.1)) ((List.finRange n).flatMap contents)
      exact h.imp of_decide_eq_true
    have hne : (sortedUnion rank contents).Pairwise fun x y => rank x.1 ≠ rank y.1 := by
      refine ((List.mergeSort_perm _ _).pairwise_iff fun h => h.symm).mpr ?_
      rw [List.pairwise_flatMap]
      refine ⟨fun i _ => (hsorted i).imp fun h => h.ne, ?_⟩
      exact (List.nodup_finRange n).imp fun {i j} hij x hx y hy => hdisjoint i j hij x hx y hy
    exact hle.imp₂ (fun _ _ h h' => lt_of_le_of_ne h h') hne
  each := hsorted
  mem_iff x := by
    rw [sortedUnion, List.mem_mergeSort, List.mem_flatMap]
    exact exists_congr fun i => and_iff_right (List.mem_finRange i)
  disjoint := hdisjoint

/-- **A `MergingIterator` is a cursor over the sorted union of its children**, whatever calls
are made. -/
theorem mergingIterator_correct {ops : Fin n → CursorOps ρ ι κ ν} {Inv : ρ → Prop} {S : Fin n → ι → Cursor (κ × ν) → Prop}
    (hops : ∀ i, (ops i).Implements (NotBelow rank) Inv (contents i) (S i))
    (hsorted : ∀ i, Increasing (fun e : κ × ν => rank e.1) (contents i))
    (hdisjoint : ∀ i j, i ≠ j → ∀ x ∈ contents i, ∀ y ∈ contents j, rank x.1 ≠ rank y.1)
    {r : ρ} {children : Fin n → ι} (hr : Inv r) (hchildren : ∀ i, ∃ c, S i (children i) c)
    {calls : List (IteratorCall κ)} (hlegal : (cursorOps rank ops).LegalCalls (r, { children := children }) calls) :
    (cursorOps rank ops).current (calls.foldl (cursorOps rank ops).call (r, { children := children })).2 =
      (calls.foldl (listCall (NotBelow rank) (sortedUnion rank contents)) none).map Zipper.cur := by
  have himpl := implements_cursorOps (isUnion_sortedUnion hsorted hdisjoint) hops
  choose c hc using hchildren
  exact himpl.current (himpl.calls hr (.nowhere hc rfl) hlegal)

/-- Two lists that interleave, and an empty one. -/
def threeLists : Fin 3 → List (ℕ × ℕ)
  | 0 => [(1, 10), (5, 50)]
  | 1 => []
  | 2 => [(3, 30)]

theorem threeLists_correct :
    (cursorOps id fun i => CursorOps.ofList (NotBelow id) Unit (threeLists i)).current
        ([IteratorCall.seek 2, .prev, .next, .next].foldl
          (cursorOps id fun i => CursorOps.ofList (NotBelow id) Unit (threeLists i)).call
          ((), { children := fun _ => none })).2 =
      ([IteratorCall.seek 2, .prev, .next, .next].foldl (listCall (NotBelow id) (sortedUnion id threeLists)) none).map
        Zipper.cur := by
  refine mergingIterator_correct (fun i => CursorOps.implements_ofList (NotBelow id) (fun _ => True) (threeLists i))
    ?_ ?_ trivial (fun i => ⟨none, rfl, nofun⟩) ?_
  · decide
  · decide
  · exact ⟨trivial, rfl, rfl, rfl, trivial⟩

end Union

end TLevelDB.Table.Merger
