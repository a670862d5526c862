import Mathlib.Data.List.Basic
import Mathlib.Order.Lattice

/-!
# Merging sorted lists

Several lists are merged by taking, again and again, the smallest of their first
elements, and of equal ones that of the earliest list. If the lists are sorted, so is
what is taken, and it is all of their elements.
-/

namespace TLevelDB.Merging

variable {α β : Type} [LinearOrder β] (key : α → β)

/-- The smallest first element, and the lists without it. -/
def popSmallest : List (List α) → Option (α × List (List α))
  | [] => none
  | [] :: ls => (popSmallest ls).map fun p => (p.1, [] :: p.2)
  | (x :: xs) :: ls =>
    match popSmallest ls with
    | none => some (x, xs :: ls)
    | some p => if key p.1 < key x then some (p.1, (x :: xs) :: p.2) else some (x, xs :: ls)

/-- The first `n` elements taken. -/
def mergeTake : ℕ → List (List α) → List α
  | 0, _ => []
  | n + 1, ls =>
    match popSmallest key ls with
    | none => []
    | some p => p.1 :: mergeTake n p.2

/-- All elements, as they are taken. -/
def mergeAll (ls : List (List α)) : List α := mergeTake key ls.flatten.length ls

/-- Sorted lists. -/
def Sorted (ls : List (List α)) : Prop := ∀ l ∈ ls, l.Pairwise fun x y => key x ≤ key y

variable {key} {ls : List (List α)}

theorem popSmallest_eq_none (h : popSmallest key ls = none) : ls.flatten = [] := by
  induction ls with
  | nil => rfl
  | cons l ls ih =>
    cases l with
    | nil => simpa using ih (by simpa [popSmallest] using h)
    | cons x xs =>
      rw [popSmallest] at h
      split at h
      · cases h
      · split_ifs at h

/-- What is taken and what is left are all the elements. -/
theorem popSmallest_perm {p : α × List (List α)} (h : popSmallest key ls = some p) :
    (p.1 :: p.2.flatten).Perm ls.flatten := by
  induction ls generalizing p with
  | nil => cases h
  | cons l ls ih =>
    cases l with
    | nil =>
      obtain ⟨q, hq, rfl⟩ := Option.map_eq_some_iff.mp h
      simpa using ih hq
    | cons x xs =>
      rw [popSmallest] at h
      split at h
      · cases h
        simp
      · next q hq =>
        split_ifs at h <;> cases h
        · have hperm := ih hq
          calc (q.1 :: ((x :: xs) :: q.2).flatten) = q.1 :: ((x :: xs) ++ q.2.flatten) := by simp
            _ |>.Perm ((x :: xs) ++ q.1 :: q.2.flatten) := List.perm_middle.symm
            _ |>.Perm ((x :: xs) ++ ls.flatten) := List.Perm.append_left _ hperm
        · simp

/-- What is taken is the smallest, and what is left is sorted. -/
theorem popSmallest_sorted {p : α × List (List α)} (hs : Sorted key ls)
    (h : popSmallest key ls = some p) : (∀ y ∈ ls.flatten, key p.1 ≤ key y) ∧ Sorted key p.2 := by
  induction ls generalizing p with
  | nil => cases h
  | cons l ls ih =>
    obtain ⟨hl, hls⟩ := List.forall_mem_cons.mp hs
    cases l with
    | nil =>
      obtain ⟨q, hq, rfl⟩ := Option.map_eq_some_iff.mp h
      obtain ⟨hle, hq2⟩ := ih hls hq
      exact ⟨by simpa using hle, List.forall_mem_cons.mpr ⟨.nil, hq2⟩⟩
    | cons x xs =>
      obtain ⟨hx, hxs⟩ := List.pairwise_cons.mp hl
      have hhead : ∀ y ∈ x :: xs, key x ≤ key y := List.forall_mem_cons.mpr ⟨le_rfl, hx⟩
      have hrest : Sorted key (xs :: ls) := List.forall_mem_cons.mpr ⟨hxs, hls⟩
      rw [popSmallest] at h
      rw [List.flatten_cons, List.forall_mem_append]
      split at h
      · next hnone =>
        cases h
        rw [popSmallest_eq_none hnone]
        exact ⟨⟨hhead, by simp⟩, hrest⟩
      · next q hq =>
        obtain ⟨hle, hq2⟩ := ih hls hq
        split_ifs at h with hlt <;> cases h
        · exact ⟨⟨fun y hy => hlt.le.trans (hhead y hy), hle⟩, List.forall_mem_cons.mpr ⟨hl, hq2⟩⟩
        · exact ⟨⟨hhead, fun y hy => (not_lt.mp hlt).trans (hle y hy)⟩, hrest⟩

theorem mergeTake_perm {n : ℕ} (hn : n = ls.flatten.length) : (mergeTake key n ls).Perm ls.flatten := by
  induction n generalizing ls with
  | zero => simp [mergeTake, List.length_eq_zero_iff.mp hn.symm]
  | succ n ih =>
    rw [mergeTake]
    split
    · next h => simp [popSmallest_eq_none h] at hn
    · next p h =>
      have hperm := popSmallest_perm h
      have hlen := hperm.length_eq
      simp only [List.length_cons] at hlen
      exact ((ih (by omega)).cons _).trans hperm

theorem mergeTake_sorted {n : ℕ} (hn : n = ls.flatten.length) (hs : Sorted key ls) :
    (mergeTake key n ls).Pairwise fun x y => key x ≤ key y := by
  induction n generalizing ls with
  | zero => simp [mergeTake]
  | succ n ih =>
    rw [mergeTake]
    split
    · exact List.Pairwise.nil
    · next p h =>
      obtain ⟨hle, hp⟩ := popSmallest_sorted hs h
      have hperm := popSmallest_perm h
      have hlen := hperm.length_eq
      simp only [List.length_cons] at hlen
      have hn' : n = p.2.flatten.length := by omega
      refine List.pairwise_cons.mpr ⟨fun y hy => hle y ?_, ih hn' hp⟩
      exact hperm.mem_iff.mp (List.mem_cons_of_mem _ ((mergeTake_perm hn').mem_iff.mp hy))

theorem mergeAll_perm (ls : List (List α)) : (mergeAll key ls).Perm ls.flatten := mergeTake_perm rfl

theorem mergeAll_sorted (hs : Sorted key ls) :
    (mergeAll key ls).Pairwise fun x y => key x ≤ key y := mergeTake_sorted rfl hs

end TLevelDB.Merging
