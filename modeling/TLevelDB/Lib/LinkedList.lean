import Mathlib.Logic.Function.Basic
import Mathlib.Data.List.Nodup

/-!
# Singly linked lists in a memory

A linked list is a function `next` from addresses to addresses, a predicate
`null` on addresses, and a first address. `Chain null next a l` says that
following `next` from `a` visits exactly the addresses `l` and then arrives at a
null address.

The rules are those of the usual operations: a store outside the list changes
nothing (`chain_update_of_not_mem`), linking a new node after the last one
appends it (`Chain.link`), and making a node point past its successor removes
the successor (`Chain.unlink`).

`Path next a l` is for a list with a head `a` that is no entry of it; what a node points to
is a relation, since a node may be read where it has no link. `Path.insert` puts a node after
any other.
-/

namespace TLevelDB.LinkedList

variable {A : Type} {null : A → Prop} {next : A → A}

/-- Following `next` from `a` visits `l` and then arrives at a null address. -/
def Chain (null : A → Prop) (next : A → A) : A → List A → Prop
  | a, [] => null a
  | a, x :: xs => a = x ∧ ¬ null x ∧ Chain null next (next x) xs

@[simp] theorem chain_nil {a : A} : Chain null next a [] ↔ null a := Iff.rfl

@[simp] theorem chain_cons {a x : A} {xs : List A} :
    Chain null next a (x :: xs) ↔ a = x ∧ ¬ null x ∧ Chain null next (next x) xs := Iff.rfl

/-- What is visited is determined by where one starts. -/
theorem Chain.unique {a : A} {l l' : List A} (h : Chain null next a l) (h' : Chain null next a l') : l = l' := by
  induction l generalizing a l' with
  | nil =>
    cases l' with
    | nil => rfl
    | cons y ys => exact absurd (h'.1 ▸ h) h'.2.1
  | cons x xs ih =>
    obtain ⟨rfl, hx, hxs⟩ := h
    cases l' with
    | nil => exact absurd h' hx
    | cons y ys =>
      obtain ⟨rfl, -, hys⟩ := h'
      rw [ih hxs hys]

theorem Chain.not_null {a : A} {l : List A} (h : Chain null next a l) {x : A} (hx : x ∈ l) : ¬ null x := by
  induction l generalizing a with
  | nil => simp at hx
  | cons y ys ih =>
    rcases List.mem_cons.mp hx with rfl | hx
    · exact h.2.1
    · exact ih h.2.2 hx

/-- A list with two visited neighbours has the one point to the other. -/
theorem Chain.next_eq {a p n : A} {xs ys : List A} (h : Chain null next a (xs ++ p :: n :: ys)) : next p = n := by
  induction xs generalizing a with
  | nil => exact h.2.2.1
  | cons x xs ih => exact ih h.2.2

theorem Chain.null_next_last {a t : A} {xs : List A} (h : Chain null next a (xs ++ [t])) : null (next t) := by
  induction xs generalizing a with
  | nil => exact h.2.2
  | cons x xs ih => exact ih h.2.2

/-- A visited node that points to an address that is not null has it as its
neighbour in the list. -/
theorem Chain.exists_split {a p : A} {l : List A} (h : Chain null next a l) (hp : p ∈ l) (hn : ¬ null (next p)) :
    ∃ xs ys, l = xs ++ p :: next p :: ys := by
  obtain ⟨xs, zs, rfl⟩ := List.append_of_mem hp
  cases zs with
  | nil => exact absurd h.null_next_last hn
  | cons z ys =>
    have hz : next p = z := h.next_eq
    exact ⟨xs, ys, by rw [hz]⟩

theorem Chain.next_ne {a x : A} {l : List A} (h : Chain null next a l) (hd : l.Nodup) (hx : x ∈ l) : next x ≠ x := by
  intro e
  obtain ⟨xs, ys, rfl⟩ := h.exists_split hx (by rw [e]; exact h.not_null hx)
  simp [e, List.nodup_append] at hd

variable [DecidableEq A]

/-- A store to a node that is not visited changes nothing. -/
theorem chain_update_of_not_mem {q v a : A} {l : List A} (hq : q ∉ l) :
    Chain null (Function.update next q v) a l ↔ Chain null next a l := by
  induction l generalizing a with
  | nil => rfl
  | cons x xs ih =>
    simp only [List.mem_cons, not_or] at hq
    rw [chain_cons, chain_cons, Function.update_of_ne (Ne.symm hq.1), ih hq.2]

/-- Linking a node after the last one appends it. -/
theorem Chain.link {a t n : A} {xs : List A} (h : Chain null next a (xs ++ [t])) (hd : (xs ++ [t]).Nodup)
    (hn : n ∉ xs ++ [t]) (hnn : ¬ null n) (hnull : null (next n)) :
    Chain null (Function.update next t n) a (xs ++ [t] ++ [n]) := by
  induction xs generalizing a with
  | nil =>
    have hnt : n ≠ t := by simpa using hn
    obtain ⟨rfl, ht, -⟩ := h
    simpa [Function.update_of_ne hnt] using ⟨ht, hnn, hnull⟩
  | cons x xs ih =>
    obtain ⟨rfl, hx, hxs⟩ := h
    have hat : a ≠ t := by
      rintro rfl
      simp at hd
    simp only [List.cons_append, List.nodup_cons, List.mem_cons, not_or] at hd hn
    refine ⟨rfl, hx, ?_⟩
    rw [Function.update_of_ne hat]
    exact ih hxs hd.2 hn.2

/-- Making a node point past its successor removes the successor. -/
theorem Chain.unlink {a p n : A} {xs ys : List A} (h : Chain null next a (xs ++ p :: n :: ys))
    (hd : (xs ++ p :: n :: ys).Nodup) : Chain null (Function.update next p (next n)) a (xs ++ p :: ys) := by
  induction xs generalizing a with
  | nil =>
    obtain ⟨rfl, hp, -, -, hys⟩ := h
    have hpys : a ∉ ys := by simp only [List.nil_append, List.nodup_cons, List.mem_cons] at hd; tauto
    refine ⟨rfl, hp, ?_⟩
    rw [Function.update_self, chain_update_of_not_mem hpys]
    exact hys
  | cons x xs ih =>
    obtain ⟨rfl, hx, hxs⟩ := h
    have hax : a ≠ p := by
      rintro rfl
      simp at hd
    refine ⟨rfl, hx, ?_⟩
    rw [Function.update_of_ne hax]
    exact ih hxs (List.nodup_cons.mp hd).2

/-! ### Lists with a head -/

section Path

variable {A : Type} {next next' : A → Option A → Prop} {a x : A} {l : List A}

/-- Following the links from `a` visits `l` and then comes to a link that is null. -/
def Path (next : A → Option A → Prop) : A → List A → Prop
  | a, [] => next a none
  | a, x :: xs => next a (some x) ∧ Path next x xs

theorem Path.head? (h : Path next a l) : next a l.head? := by
  cases l with
  | nil => exact h
  | cons x xs => exact h.1

/-- The links of other nodes do not matter. -/
theorem Path.mono (h : Path next a l) (hsame : ∀ y ∈ a :: l, ∀ v, next y v → next' y v) : Path next' a l := by
  induction l generalizing a with
  | nil => exact hsame a List.mem_cons_self _ h
  | cons x xs ih =>
    exact ⟨hsame a List.mem_cons_self _ h.1, ih h.2 fun y hy => hsame y (List.mem_cons_of_mem _ hy)⟩

theorem Path.of_append {before rest : List A} (h : Path next a (before ++ rest)) : Path next (before.getLastD a) rest := by
  induction before generalizing a with
  | nil => exact h
  | cons x xs ih =>
    rw [List.getLastD_cons]
    exact ih h.2

/-- A node is put after another one: it points to what that one pointed to. -/
theorem Path.insert {before rest : List A} (h : Path next a (before ++ rest)) (hnodup : (a :: (before ++ rest)).Nodup)
    (hx : next' x rest.head?) (hbefore : next' (before.getLastD a) (some x))
    (hsame : ∀ y ∈ a :: (before ++ rest), y ≠ before.getLastD a → ∀ v, next y v → next' y v) :
    Path next' a (before ++ x :: rest) := by
  induction before generalizing a with
  | nil =>
    refine ⟨hbefore, ?_⟩
    cases rest with
    | nil => exact hx
    | cons y ys =>
      refine ⟨hx, h.2.mono ?_⟩
      intro z hz
      refine hsame z (List.mem_cons_of_mem _ hz) ?_
      rintro rfl
      exact (List.nodup_cons.mp hnodup).1 hz
  | cons y ys ih =>
    rw [List.getLastD_cons] at hbefore hsame
    obtain ⟨hnotin, hnodup⟩ := List.nodup_cons.mp hnodup
    refine ⟨hsame a List.mem_cons_self ?_ _ h.1, ih h.2 hnodup hbefore fun z hz => hsame z (List.mem_cons_of_mem _ hz)⟩
    rintro rfl
    refine hnotin ?_
    rw [List.cons_append, ← List.cons_append]
    exact List.mem_append_left _ List.getLastD_mem_cons

end Path

end TLevelDB.LinkedList
