import TLevelDB.Util.Coding
import Mathlib.Data.List.Basic
import Mathlib.Data.List.GetD
import Mathlib.Tactic.Common

/-!
# Comparators

A `Comparator` compares keys, and shortens keys for the index of a table. What its
documentation demands of it is part of the structure: the order is total, a shortened
separator stays between the two keys, and a short successor is not below its key. Keys that
compare as equal need not be the same.

`bytewiseComparator` is the one of `BytewiseComparator()`.
-/

namespace TLevelDB.Coding

structure Comparator where
  compare : Slice → Slice → Ordering
  /-- The new `*start`. -/
  findShortestSeparator : Slice → Slice → Slice
  /-- The new `*key`. -/
  findShortSuccessor : Slice → Slice
  trans : Std.TransCmp compare
  separator : ∀ start limit, compare start limit = .lt →
    (compare start (findShortestSeparator start limit)).isLE ∧ compare (findShortestSeparator start limit) limit = .lt
  successor : ∀ key, (compare key (findShortSuccessor key)).isLE

instance (c : Comparator) : Std.TransCmp c.compare := c.trans

/-- The keys increase. -/
def Comparator.Increasing (c : Comparator) {ν : Type} (es : List (Slice × ν)) : Prop :=
  es.Pairwise fun x y => c.compare x.1 y.1 = .lt

instance (c : Comparator) {ν : Type} (es : List (Slice × ν)) : Decidable (c.Increasing es) :=
  inferInstanceAs (Decidable (es.Pairwise _))

/-! ### The bytewise comparator -/

/-- `memcmp` of as many bytes as both have. -/
def memcmp (a b : Slice) : Ordering :=
  let minLen := min a.length b.length
  List.compareLex Ord.compare (a.take minLen) (b.take minLen)

def sliceCompare (a b : Slice) : Ordering := (memcmp a b).then (Ord.compare a.length b.length)

theorem sliceCompare_eq (a b : Slice) : sliceCompare a b = List.compareLex Ord.compare a b := by
  unfold sliceCompare memcmp
  induction a generalizing b with
  | nil => cases b <;> simp [List.compareLex, Nat.compare_eq_ite_lt]
  | cons x a ih =>
    cases b with
    | nil => simp [List.compareLex, Nat.compare_eq_ite_lt]
    | cons y b =>
      have hlen : Ord.compare (a.length + 1) (b.length + 1) = Ord.compare a.length b.length := by
        simp [Nat.compare_eq_ite_lt]
      simp only [List.length_cons, Nat.succ_min_succ, List.take_succ_cons, List.compareLex_cons_cons, ← ih b,
        Ordering.then_assoc, hlen]

/-- The loops over the bytes that two strings have in common. -/
def commonPrefix : Slice → Slice → ℕ
  | x :: a, y :: b => if x = y then commonPrefix a b + 1 else 0
  | _, _ => 0

theorem commonPrefix_le (a b : Slice) : commonPrefix a b ≤ a.length ∧ commonPrefix a b ≤ b.length := by
  induction a, b using commonPrefix.induct with
  | case1 x a b ih => simpa [commonPrefix] using ih
  | case2 x a y b h => simp [commonPrefix, h]
  | case3 a b h => simp [commonPrefix]

theorem take_commonPrefix (a b : Slice) : a.take (commonPrefix a b) = b.take (commonPrefix a b) := by
  induction a, b using commonPrefix.induct with
  | case1 x a b ih => simpa [commonPrefix] using ih
  | case2 x a y b h => simp [commonPrefix, h]
  | case3 a b h => simp [commonPrefix]

def bytewiseSeparator (start limit : Slice) : Slice :=
  let diffIndex := commonPrefix start limit
  if min start.length limit.length ≤ diffIndex then start
  else
    let diffByte := start.getD diffIndex 0
    if diffByte < 0xff ∧ diffByte.toNat + 1 < (limit.getD diffIndex 0).toNat then
      start.take diffIndex ++ [diffByte + 1]
    else start

def bytewiseSuccessor : Slice → Slice
  | [] => []
  | byte :: key => if byte ≠ 0xff then [byte + 1] else byte :: bytewiseSuccessor key

theorem compareLex_append (c a b : Slice) :
    List.compareLex Ord.compare (c ++ a) (c ++ b) = List.compareLex Ord.compare a b := by
  induction c with
  | nil => rfl
  | cons x c ih => simpa [List.compareLex_cons_cons] using ih

theorem compareLex_cons_of_lt {x y : UInt8} (h : x < y) (a b : Slice) :
    List.compareLex Ord.compare (x :: a) (y :: b) = .lt := by
  rw [List.compareLex_cons_cons, Std.compare_eq_lt.mpr h]
  rfl

theorem lt_succ_of_lt {b : UInt8} (h : b < 0xff) : b < b + 1 := by
  rw [UInt8.lt_iff_toNat_lt, UInt8.toNat_add]
  have hb : b.toNat < 255 := UInt8.lt_iff_toNat_lt.mp h
  have h1 : (1 : UInt8).toNat = 1 := rfl
  omega

/-- A separator is either the key itself or comes right after the common part. -/
theorem bytewiseSeparator_cases (start limit : Slice) : bytewiseSeparator start limit = start ∨
    ∃ c x a y b, start = c ++ x :: a ∧ limit = c ++ y :: b ∧ x < x + 1 ∧ x + 1 < y ∧
      bytewiseSeparator start limit = c ++ [x + 1] := by
  unfold bytewiseSeparator
  simp only
  split
  · exact .inl rfl
  split
  · rename_i hlen h
    obtain ⟨hx, hy⟩ := h
    right
    have hs : commonPrefix start limit < start.length := by omega
    have hl : commonPrefix start limit < limit.length := by omega
    simp only [List.getD_eq_getElem _ _ hs, List.getD_eq_getElem _ _ hl] at hx hy ⊢
    refine ⟨start.take (commonPrefix start limit), _, start.drop (commonPrefix start limit + 1),
      limit[commonPrefix start limit], limit.drop (commonPrefix start limit + 1), ?_, ?_, lt_succ_of_lt hx, ?_, rfl⟩
    · rw [← List.drop_eq_getElem_cons hs, List.take_append_drop]
    · rw [take_commonPrefix, ← List.drop_eq_getElem_cons hl, List.take_append_drop]
    · have hb : start[commonPrefix start limit].toNat < 255 := UInt8.lt_iff_toNat_lt.mp hx
      rw [UInt8.lt_iff_toNat_lt, UInt8.toNat_add, show (1 : UInt8).toNat = 1 from rfl]
      omega
  · exact .inl rfl

theorem bytewiseSuccessor_isLE (key : Slice) : (List.compareLex Ord.compare key (bytewiseSuccessor key)).isLE := by
  induction key with
  | nil => rfl
  | cons byte key ih =>
    rw [bytewiseSuccessor]
    split
    · rename_i h
      have hlt : byte < 0xff := by
        rw [UInt8.lt_iff_toNat_lt]
        have hb := byte.toNat_lt
        have hne : byte.toNat ≠ (0xff : UInt8).toNat := fun heq => h (UInt8.toNat.inj heq)
        have h255 : (0xff : UInt8).toNat = 255 := rfl
        omega
      rw [compareLex_cons_of_lt (lt_succ_of_lt hlt)]
      rfl
    · simpa [List.compareLex_cons_cons] using ih

theorem commonPrefix_self (a : Slice) : commonPrefix a a = a.length := by
  induction a with
  | nil => rfl
  | cons x a ih => simp [commonPrefix, ih]

/-- Between equal keys there is nothing shorter. -/
theorem bytewiseSeparator_self (a : Slice) : bytewiseSeparator a a = a := by
  unfold bytewiseSeparator
  dsimp only
  rw [if_pos (by rw [commonPrefix_self, Nat.min_self])]

theorem eq_of_sliceCompare {a b : Slice} (h : sliceCompare a b = .eq) : a = b := by
  rw [sliceCompare_eq] at h
  exact Std.LawfulEqCmp.eq_of_compare h

/-- `BytewiseComparator()`. -/
def bytewiseComparator : Comparator where
  compare := sliceCompare
  findShortestSeparator := bytewiseSeparator
  findShortSuccessor := bytewiseSuccessor
  trans := by
    rw [show sliceCompare = List.compareLex Ord.compare from funext₂ sliceCompare_eq]
    infer_instance
  separator start limit h := by
    simp only [sliceCompare_eq] at h ⊢
    rcases bytewiseSeparator_cases start limit with heq | ⟨c, x, a, y, b, rfl, rfl, hx, hy, heq⟩
    · rw [heq]
      exact ⟨Std.ReflCmp.isLE_rfl, h⟩
    · rw [heq, compareLex_append, compareLex_append, compareLex_cons_of_lt hx, compareLex_cons_of_lt hy]
      exact ⟨rfl, rfl⟩
  successor key := by
    rw [sliceCompare_eq]
    exact bytewiseSuccessor_isLE key

theorem bytewise_compare : bytewiseComparator.compare = sliceCompare := rfl

instance : Std.TransCmp sliceCompare := bytewiseComparator.trans

theorem bytewise_findShortestSeparator : bytewiseComparator.findShortestSeparator = bytewiseSeparator := rfl

end TLevelDB.Coding
