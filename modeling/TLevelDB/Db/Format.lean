import TLevelDB.Lib.Versions
import Mathlib.Algebra.Ring.Nat
import Mathlib.Data.Prod.Lex

/-!
# Internal keys and entries

The keys and entries that memtables and tables hold (`dbformat`). A user key comes
from any type with a linear order, the one of the user's comparator. An internal key
adds the sequence number of the write and whether it puts or deletes, and internal keys
are ordered by increasing user key, then by decreasing sequence number and type, so
that the newest entry of a user key comes first.

## What a set of entries means

At sequence number `s` the entry that counts for a user key is the newest one with a
sequence number up to `s` (`Newest`); the user key has a value there if that entry is a
put (`Live`).
-/

namespace TLevelDB.Db

inductive ValueType where
  /-- `kTypeDeletion`. -/
  | deletion
  /-- `kTypeValue`. -/
  | value
deriving DecidableEq

/-- The number that encodes a type. -/
def ValueType.toNat : ValueType → ℕ
  | .deletion => 0x0
  | .value => 0x1

theorem ValueType.toNat_le (t : ValueType) : t.toNat ≤ 1 := by cases t <;> decide

theorem ValueType.toNat_injective : Function.Injective ValueType.toNat := by
  rintro (_ | _) (_ | _) h <;> first | rfl | exact absurd h (by decide)

def kValueTypeForSeek : ValueType := .value

def kMaxSequenceNumber : ℕ := 2 ^ 56 - 1

/-- `PackSequenceAndType`: the sequence number and the type in one number. -/
def packSequenceAndType (seq : ℕ) (t : ValueType) : ℕ := seq * 2 ^ 8 + t.toNat

variable {s s' : ℕ} {t t' : ValueType}

theorem packSequenceAndType_lt_iff :
    packSequenceAndType s t < packSequenceAndType s' t' ↔ s < s' ∨ s = s' ∧ t.toNat < t'.toNat := by
  have ht := t.toNat_le
  have ht' := t'.toNat_le
  unfold packSequenceAndType
  omega

theorem packSequenceAndType_inj (h : packSequenceAndType s t = packSequenceAndType s' t') : s = s' ∧ t = t' := by
  have ht := t.toNat_le
  have ht' := t'.toNat_le
  unfold packSequenceAndType at h
  exact ⟨by omega, ValueType.toNat_injective (by omega)⟩

theorem sequence_le_of_packed_le (h : packSequenceAndType s t ≤ packSequenceAndType s' t') : s ≤ s' := by
  have ht := t.toNat_le
  have ht' := t'.toNat_le
  unfold packSequenceAndType at h
  omega

/-! ### Internal keys -/

/-- `ParsedInternalKey`, and the `InternalKey` that encodes it. -/
@[ext] structure InternalKey (K : Type) where
  /-- The user's key. -/
  userKey : K
  /-- The sequence number of the write. -/
  sequence : ℕ
  /-- Whether the write puts or deletes. -/
  type : ValueType
deriving DecidableEq

section Order

variable {K : Type} [LinearOrder K]

/-- What `InternalKeyComparator::Compare` compares: increasing user keys, then
decreasing packed numbers. -/
def InternalKey.rank (a : InternalKey K) : K ×ₗ ℕᵒᵈ :=
  toLex (a.userKey, OrderDual.toDual (packSequenceAndType a.sequence a.type))

omit [LinearOrder K] in
theorem InternalKey.rank_injective : Function.Injective (InternalKey.rank (K := K)) := by
  intro a b h
  obtain ⟨hk, hp⟩ := Prod.ext_iff.mp (toLex.injective h)
  obtain ⟨hs, ht⟩ := packSequenceAndType_inj (OrderDual.toDual.injective hp)
  exact InternalKey.ext hk hs ht

/-- The order of `InternalKeyComparator`. -/
instance : LinearOrder (InternalKey K) := LinearOrder.lift' InternalKey.rank InternalKey.rank_injective

variable {a b : InternalKey K}

theorem InternalKey.lt_iff :
    a < b ↔ a.userKey < b.userKey ∨
      a.userKey = b.userKey ∧ (b.sequence < a.sequence ∨ b.sequence = a.sequence ∧ b.type.toNat < a.type.toNat) := by
  have hrank : a < b ↔ a.rank < b.rank := Iff.rfl
  rw [hrank, InternalKey.rank, InternalKey.rank, Prod.Lex.toLex_lt_toLex]
  simp only [OrderDual.toDual_lt_toDual, packSequenceAndType_lt_iff]

theorem InternalKey.userKey_le_of_lt (h : a < b) : a.userKey ≤ b.userKey := by
  rcases InternalKey.lt_iff.mp h with h | ⟨h, -⟩
  · exact h.le
  · exact h.le

theorem InternalKey.userKey_mono (h : a ≤ b) : a.userKey ≤ b.userKey := by
  rcases h.lt_or_eq with h | rfl
  · exact InternalKey.userKey_le_of_lt h
  · exact le_rfl

/-- Of two versions of a user key the smaller internal key is the newer one. -/
theorem InternalKey.sequence_le_of_lt (h : a < b) (hk : a.userKey = b.userKey) :
    b.sequence ≤ a.sequence := by
  rcases InternalKey.lt_iff.mp h with h | ⟨-, h | h⟩
  · exact absurd hk h.ne
  · exact h.le
  · exact h.1.le

theorem InternalKey.lt_of_userKey_lt (h : a.userKey < b.userKey) : a < b :=
  InternalKey.lt_iff.mpr (Or.inl h)

/-- The key that a lookup of `k` at sequence number `s` seeks: `LookupKey`. -/
def lookupKey (k : K) (s : ℕ) : InternalKey K := ⟨k, s, kValueTypeForSeek⟩

/-- The entries before a lookup's key have a smaller user key or are newer. -/
theorem InternalKey.lt_lookupKey_iff {k : K} :
    a < lookupKey k s ↔ a.userKey < k ∨ a.userKey = k ∧ s < a.sequence := by
  have ht : ¬ kValueTypeForSeek.toNat < a.type.toNat := by
    have := a.type.toNat_le
    change ¬ 1 < a.type.toNat
    omega
  rw [InternalKey.lt_iff]
  simp [lookupKey, ht]

end Order

/-! ### Entries -/

/-- An entry of a memtable or a table. -/
@[ext] structure Entry (K V : Type) where
  /-- Its internal key. -/
  key : InternalKey K
  /-- The value put; any value where the entry is a deletion. -/
  value : V
deriving DecidableEq

/-- The user key of an entry. -/
abbrev Entry.userKey {K V : Type} (e : Entry K V) : K := e.key.userKey

/-- The sequence number of an entry. -/
abbrev Entry.sequence {K V : Type} (e : Entry K V) : ℕ := e.key.sequence

section Meaning

variable {K V : Type}

/-- The entries have pairwise distinct pairs of user key and sequence number. -/
abbrev DistinctVersions (E : Set (Entry K V)) : Prop := Versions.Distinct Entry.userKey Entry.sequence E

/-- `e` is the newest entry of its user key at `s`. -/
abbrev Newest (s : ℕ) (E : Set (Entry K V)) (e : Entry K V) : Prop :=
  Versions.Newest Entry.userKey Entry.sequence s E e

/-- `e` gives its user key its value at `s`. -/
structure Live (s : ℕ) (E : Set (Entry K V)) (e : Entry K V) : Prop extends
    Versions.Newest Entry.userKey Entry.sequence s E e where
  put : e.key.type = .value

end Meaning

/-! ### Entries in order -/

/-- The entries as a set. -/
abbrev entrySet {K V : Type} (E : List (Entry K V)) : Set (Entry K V) := {e | e ∈ E}

section Sorted

variable {K V : Type} [LinearOrder K]

/-- Entries in the order of the internal key comparator, with distinct pairs of user key
and sequence number. -/
structure SortedEntries (E : List (Entry K V)) : Prop where
  sorted : E.Pairwise fun x y => x.key < y.key
  distinct : DistinctVersions (entrySet E)

theorem sortedEntries_nil : SortedEntries ([] : List (Entry K V)) := ⟨List.Pairwise.nil, by simp [Versions.Distinct]⟩

variable {E b a : List (Entry K V)} {x y : Entry K V}

/-- An entry before another one has a smaller user key, or the same and is newer. -/
theorem SortedEntries.before (h : SortedEntries E) (hE : b ++ x :: a = E) (hy : y ∈ b) :
    y.userKey < x.userKey ∨ y.userKey = x.userKey ∧ x.sequence < y.sequence := by
  subst hE
  have hlt : y.key < x.key := (List.pairwise_append.mp h.sorted).2.2 y hy x (by simp)
  rcases (InternalKey.userKey_le_of_lt hlt).lt_or_eq with hk | hk
  · exact Or.inl hk
  · refine Or.inr ⟨hk, (InternalKey.sequence_le_of_lt hlt hk).lt_of_ne fun hs => ?_⟩
    have hxy : y = x := h.distinct y (by simp [hy]) x (by simp) hk hs.symm
    exact absurd hlt (hxy ▸ lt_irrefl _)

theorem SortedEntries.userKey_le (h : SortedEntries E) (hE : b ++ x :: a = E) (hy : y ∈ a) :
    x.userKey ≤ y.userKey := by
  subst hE
  exact InternalKey.userKey_le_of_lt ((List.pairwise_cons.mp (List.pairwise_append.mp h.sorted).2.1).1 y hy)

/-- An entry after another one of the same user key is older. -/
theorem SortedEntries.after (h : SortedEntries E) (hE : b ++ x :: a = E) (hy : y ∈ a)
    (hk : y.userKey = x.userKey) : y.sequence ≤ x.sequence := by
  subst hE
  have hlt : x.key < y.key := (List.pairwise_cons.mp (List.pairwise_append.mp h.sorted).2.1).1 y hy
  exact InternalKey.sequence_le_of_lt hlt hk.symm

/-- A visible put with no visible entry of its user key before it gives the user key its
value. -/
theorem SortedEntries.live (h : SortedEntries E) (hE : b ++ x :: a = E) (hx : x.sequence ≤ s)
    (ht : x.key.type = .value) (hb : ∀ y ∈ b, y.sequence ≤ s → y.userKey ≠ x.userKey) : Live s (entrySet E) x := by
  refine ⟨⟨hE ▸ by simp, hx, fun y hy hk hs => ?_⟩, ht⟩
  have hy : y ∈ b ∨ y = x ∨ y ∈ a := by simpa [← hE] using hy
  rcases hy with hy | rfl | hy
  · exact absurd hk (hb y hy hs)
  · exact le_rfl
  · exact h.after hE hy hk

/-- A visible entry of the same user key before an entry takes its place. -/
theorem SortedEntries.not_live (h : SortedEntries E) (hE : b ++ x :: a = E) (hy : y ∈ b)
    (hs : y.sequence ≤ s) (hk : y.userKey = x.userKey) : ¬ Live s (entrySet E) x := by
  intro hl
  have hle := hl.newest y (by simp [← hE, hy]) hk hs
  rcases h.before hE hy with hlt | ⟨-, hlt⟩
  · exact hlt.ne hk
  · omega

end Sorted

end TLevelDB.Db
