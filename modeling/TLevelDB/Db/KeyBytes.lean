import TLevelDB.Db.Format
import TLevelDB.Util.Comparator

/-!
# Internal keys as strings

What `dbformat` makes of internal keys: the user key, and after it eight bytes for the
sequence number and the type (the tag). `internalCompare user` is
`InternalKeyComparator::Compare` over a user comparator; it is a total order on all strings,
since it only depends on the user key and the tag that it finds in them.

For the index of a table an internal key is shortened in its user key. The tag that is then
put after it is the greatest there is, so that the new key comes before all entries of its
user key. Over the bytewise comparator this keeps the contract of a `Comparator`
(`internalKeyComparator`).
-/

namespace TLevelDB.Db

open Coding

/-- `PackSequenceAndType`, of 64 bits. -/
def packTag (seq : UInt64) (t : ValueType) : UInt64 := (seq <<< 8) ||| UInt64.ofNat t.toNat

theorem toNat_packTag {seq : UInt64} (h : seq.toNat ≤ kMaxSequenceNumber) (t : ValueType) :
    (packTag seq t).toNat = packSequenceAndType seq.toNat t := by
  have ht := t.toNat_le
  have htype : (UInt64.ofNat t.toNat).toNat = t.toNat := by
    rw [UInt64.toNat_ofNat', Nat.mod_eq_of_lt (by omega)]
  have hshift : (seq <<< (8 : UInt64)).toNat = seq.toNat <<< 8 := by
    rw [UInt64.toNat_shiftLeft, Nat.shiftLeft_eq, Nat.shiftLeft_eq]
    refine Nat.mod_eq_of_lt ?_
    simp only [kMaxSequenceNumber] at h
    simp only [UInt64.toNat_ofNat, Nat.reducePow, Nat.reduceMod]
    omega
  rw [packTag, UInt64.toNat_or, htype, hshift, ← Nat.shiftLeft_add_eq_or_of_lt (by omega), Nat.shiftLeft_eq]
  rfl

theorem toNat_and_packTag {seq : UInt64} (h : seq.toNat ≤ kMaxSequenceNumber) (t : ValueType) :
    (packTag seq t &&& 0xff).toNat = t.toNat := by
  have htype := t.toNat_le
  have hmask : (0xff : UInt64).toNat = 2 ^ 8 - 1 := rfl
  rw [UInt64.toNat_and, toNat_packTag h, hmask, Nat.and_two_pow_sub_one_eq_mod, packSequenceAndType]
  omega

/-- `AppendInternalKey`, to nothing. -/
def internalKeyBytes (userKey : Slice) (seq : UInt64) (t : ValueType) : Slice := userKey ++ encodeFixed64 (packTag seq t)

def extractUserKey (internalKey : Slice) : Slice := internalKey.take (internalKey.length - 8)

/-- The tag of an internal key. -/
def extractTag (internalKey : Slice) : UInt64 := decodeFixed64 (internalKey.drop (internalKey.length - 8))

@[simp] theorem extractUserKey_append (userKey : Slice) (tag : UInt64) :
    extractUserKey (userKey ++ encodeFixed64 tag) = userKey := by
  simp [extractUserKey]

@[simp] theorem extractTag_append (userKey : Slice) (tag : UInt64) : extractTag (userKey ++ encodeFixed64 tag) = tag := by
  have hdecode := decodeFixed64_encodeFixed64 tag []
  rw [List.append_nil] at hdecode
  simp [extractTag, hdecode]

/-- `InternalKeyComparator::Compare`. -/
def internalCompare (user : Slice → Slice → Ordering) (akey bkey : Slice) : Ordering :=
  match user (extractUserKey akey) (extractUserKey bkey) with
  | .eq => if extractTag bkey < extractTag akey then .lt else if extractTag akey < extractTag bkey then .gt else .eq
  | r => r

theorem internalCompare_eq (user : Slice → Slice → Ordering) (a b : Slice) : internalCompare user a b =
    (user (extractUserKey a) (extractUserKey b)).then (compare (extractTag b).toNat (extractTag a).toNat) := by
  unfold internalCompare
  cases user (extractUserKey a) (extractUserKey b) with
  | eq =>
    rw [Ordering.eq_then, Nat.compare_eq_ite_lt]
    simp only [UInt64.lt_iff_toNat_lt]
  | _ => rfl

/-- An order on what is found in the strings. -/
theorem transCmp_comap {α β : Type} (f : α → β) (cmp : β → β → Ordering) [Std.TransCmp cmp] :
    Std.TransCmp fun a b => cmp (f a) (f b) where
  eq_swap := Std.OrientedCmp.eq_swap
  isLE_trans := Std.TransCmp.isLE_trans

instance (user : Slice → Slice → Ordering) [Std.TransCmp user] : Std.TransCmp (internalCompare user) := by
  have huser := transCmp_comap extractUserKey user
  have htag : Std.TransCmp fun a b => compare (extractTag b).toNat (extractTag a).toNat :=
    @Std.TransCmp.opposite _ _ (transCmp_comap (fun a => (extractTag a).toNat) compare)
  have hlex : internalCompare user = compareLex (fun a b => user (extractUserKey a) (extractUserKey b))
      fun a b => compare (extractTag b).toNat (extractTag a).toNat := by
    funext a b
    exact internalCompare_eq user a b
  rw [hlex]
  infer_instance

/-! ### Shorter keys -/

def parseInternalKey (internalKey : Slice) : Option (InternalKey Slice) :=
  if internalKey.length < 8 then none
  else
    let num := extractTag internalKey
    let c := (num &&& 0xff).toUInt8
    if c = 0 then some ⟨extractUserKey internalKey, (num >>> 8).toNat, .deletion⟩
    else if c = 1 then some ⟨extractUserKey internalKey, (num >>> 8).toNat, .value⟩
    else none

/-- A string that is an internal key. -/
def WellFormed (internalKey : Slice) : Prop := (parseInternalKey internalKey).isSome

instance (internalKey : Slice) : Decidable (WellFormed internalKey) := inferInstanceAs (Decidable (_ = true))

/-- The tag of the earliest entry that a user key can have. -/
def seekTag : UInt64 := packTag (UInt64.ofNat kMaxSequenceNumber) kValueTypeForSeek

/-- What the functions below do with the shortened user key: it is taken if it has become
shorter physically, but larger logically. -/
def takeShortened (user : Comparator) (key tmp : Slice) : Slice :=
  if tmp.length < (extractUserKey key).length ∧ user.compare (extractUserKey key) tmp = .lt then
    tmp ++ encodeFixed64 seekTag
  else key

/-- `InternalKeyComparator::FindShortestSeparator`. -/
def internalSeparator (user : Comparator) (start limit : Slice) : Slice :=
  takeShortened user start (user.findShortestSeparator (extractUserKey start) (extractUserKey limit))

/-- `InternalKeyComparator::FindShortSuccessor`. -/
def internalSuccessor (user : Comparator) (key : Slice) : Slice :=
  takeShortened user key (user.findShortSuccessor (extractUserKey key))

/-- Either nothing changes, or the user key is shorter and greater. -/
theorem takeShortened_cases (user : Comparator) (key tmp : Slice) : takeShortened user key tmp = key ∨
    takeShortened user key tmp = tmp ++ encodeFixed64 seekTag ∧ tmp.length < (extractUserKey key).length ∧
      user.compare (extractUserKey key) tmp = .lt := by
  unfold takeShortened
  split
  · rename_i h
    exact .inr ⟨rfl, h⟩
  · exact .inl rfl

theorem internalCompare_of_user {user : Slice → Slice → Ordering} {a b : Slice}
    (h : user (extractUserKey a) (extractUserKey b) = .lt) : internalCompare user a b = .lt := by
  rw [internalCompare_eq, h]
  rfl

theorem user_of_internalCompare {user : Slice → Slice → Ordering} {a b : Slice} (h : internalCompare user a b = .lt) :
    user (extractUserKey a) (extractUserKey b) = .lt ∨ user (extractUserKey a) (extractUserKey b) = .eq := by
  rw [internalCompare_eq] at h
  cases hu : user (extractUserKey a) (extractUserKey b) with
  | lt => exact .inl rfl
  | eq => exact .inr rfl
  | gt => simp [hu] at h

theorem isLE_takeShortened (user : Comparator) (key tmp : Slice) :
    (internalCompare user.compare key (takeShortened user key tmp)).isLE := by
  rcases takeShortened_cases user key tmp with heq | ⟨heq, -, hlt⟩
  · rw [heq]
    exact Std.ReflCmp.isLE_rfl
  · rw [heq, internalCompare_of_user (by rwa [extractUserKey_append])]
    rfl

theorem wellFormed_takeShortened {user : Comparator} {key : Slice} (h : WellFormed key) (tmp : Slice) :
    WellFormed (takeShortened user key tmp) := by
  rcases takeShortened_cases user key tmp with heq | ⟨heq, -, -⟩
  · rwa [heq]
  · have htype : (seekTag &&& 0xff).toUInt8 = 1 := by decide
    rw [heq, WellFormed, parseInternalKey, if_neg (by simp)]
    simp only [extractTag_append, htype]
    rfl

/-- What is in an internal key. -/
theorem parseInternalKey_eq_some {a : Slice} {ikey : InternalKey Slice} (h : parseInternalKey a = some ikey) :
    ikey.userKey = extractUserKey a ∧ packSequenceAndType ikey.sequence ikey.type = (extractTag a).toNat := by
  have hbyte : ((extractTag a &&& 0xff).toUInt8).toNat = (extractTag a).toNat % 256 := by
    rw [UInt64.toNat_toUInt8, UInt64.toNat_and, show (0xff : UInt64).toNat = 2 ^ 8 - 1 from rfl,
      Nat.and_two_pow_sub_one_eq_mod, Nat.mod_mod]
  have hshift : (extractTag a >>> 8).toNat = (extractTag a).toNat / 256 := by
    rw [UInt64.toNat_shiftRight, Nat.shiftRight_eq_div_pow]
    rfl
  unfold parseInternalKey at h
  dsimp only at h
  split at h
  · cases h
  split at h
  · rename_i hc
    rw [hc] at hbyte
    cases h
    refine ⟨rfl, ?_⟩
    simp only [packSequenceAndType, hshift, ValueType.toNat]
    have hzero : (0 : UInt8).toNat = 0 := rfl
    omega
  split at h
  · rename_i hc
    rw [hc] at hbyte
    cases h
    refine ⟨rfl, ?_⟩
    simp only [packSequenceAndType, hshift, ValueType.toNat]
    have hone : (1 : UInt8).toNat = 1 := rfl
    omega
  · cases h

/-- No entry comes before the shortened key among those of its user key. -/
theorem WellFormed.tag_le {key : Slice} (h : WellFormed key) : (extractTag key).toNat ≤ seekTag.toNat := by
  have hseek : seekTag.toNat = 2 ^ 64 - 255 := by decide
  have hlt := (extractTag key).toNat_lt
  obtain ⟨ikey, hikey⟩ := Option.isSome_iff_exists.mp h
  have htype := ikey.type.toNat_le
  have htag := (parseInternalKey_eq_some hikey).2
  rw [packSequenceAndType] at htag
  omega

/-- A shortened user key is below the user key of the limit. -/
theorem internalSeparator_cases {start limit : Slice} (h : internalCompare sliceCompare start limit = .lt) :
    internalSeparator bytewiseComparator start limit = start ∨
      sliceCompare (extractUserKey (internalSeparator bytewiseComparator start limit)) (extractUserKey limit) = .lt := by
  have hseparator := bytewiseComparator.separator (extractUserKey start) (extractUserKey limit)
  rw [bytewise_compare, bytewise_findShortestSeparator] at hseparator
  rw [internalSeparator, bytewise_findShortestSeparator]
  rcases takeShortened_cases bytewiseComparator start
    (bytewiseSeparator (extractUserKey start) (extractUserKey limit)) with heq | ⟨heq, hshort, -⟩
  · exact .inl heq
  · right
    rw [heq, extractUserKey_append]
    rcases user_of_internalCompare h with huser | huser
    · exact (hseparator huser).2
    · -- between equal user keys nothing is shortened
      rw [← eq_of_sliceCompare huser, bytewiseSeparator_self] at hshort
      exact absurd hshort (Nat.lt_irrefl _)

theorem internalSeparator_lt {start limit : Slice} (h : internalCompare sliceCompare start limit = .lt) :
    internalCompare sliceCompare (internalSeparator bytewiseComparator start limit) limit = .lt := by
  rcases internalSeparator_cases h with heq | hlt
  · rwa [heq]
  · exact internalCompare_of_user hlt

/-- `InternalKeyComparator`, over the bytewise comparator. -/
def internalKeyComparator : Comparator where
  compare := internalCompare sliceCompare
  findShortestSeparator := internalSeparator bytewiseComparator
  findShortSuccessor := internalSuccessor bytewiseComparator
  trans := inferInstance
  separator start _ h := ⟨isLE_takeShortened bytewiseComparator start _, internalSeparator_lt h⟩
  successor key := isLE_takeShortened bytewiseComparator key _

theorem internalKeyComparator_compare : internalKeyComparator.compare = internalCompare sliceCompare := rfl

theorem internalKeyComparator_findShortestSeparator :
    internalKeyComparator.findShortestSeparator = internalSeparator bytewiseComparator := rfl

/-- A shortened key comes before all entries of its user key, so it is not between two of
them; and it is not between two entries of another user key. -/
theorem not_between_shortened {x y : Slice} (tmp : Slice) (hx : WellFormed x) (hsame : extractUserKey x = extractUserKey y) :
    ¬ (internalCompare sliceCompare x (tmp ++ encodeFixed64 seekTag) = .lt ∧
      internalCompare sliceCompare (tmp ++ encodeFixed64 seekTag) y = .lt) := by
  rintro ⟨hbefore, hafter⟩
  have hle := user_of_internalCompare hafter
  rw [extractUserKey_append, ← hsame] at hle
  have hnot : sliceCompare (extractUserKey x) tmp ≠ .lt := by
    intro hlt
    rw [Std.OrientedCmp.gt_of_lt hlt] at hle
    simp at hle
  have heq := (user_of_internalCompare hbefore).resolve_left (by rwa [extractUserKey_append])
  rw [internalCompare_eq, heq, extractTag_append, Ordering.eq_then, Nat.compare_eq_lt] at hbefore
  exact absurd hx.tag_le (Nat.not_le.mpr hbefore)

/-- **Separators stay in range**, with and without tags. A separator of internal keys that is
not the first key itself does not come between two entries of one user key. -/
theorem separators_in_range :
    (∀ a b, sliceCompare a b = .lt →
      (sliceCompare a (bytewiseSeparator a b)).isLE ∧ sliceCompare (bytewiseSeparator a b) b = .lt) ∧
    (∀ k, (sliceCompare k (bytewiseSuccessor k)).isLE) ∧
    (∀ a b, WellFormed a → WellFormed b → internalCompare sliceCompare a b = .lt →
      let s := internalSeparator bytewiseComparator a b
      WellFormed s ∧ (internalCompare sliceCompare a s).isLE ∧ internalCompare sliceCompare s b = .lt ∧
        (extractUserKey a = extractUserKey b → s = a) ∧
        (s ≠ a → (extractUserKey s).length < (extractUserKey a).length ∧
          ∀ x y, WellFormed x → WellFormed y → extractUserKey x = extractUserKey y →
            ¬ (internalCompare sliceCompare x s = .lt ∧ internalCompare sliceCompare s y = .lt))) ∧
    ∀ k, WellFormed k →
      let t := internalSuccessor bytewiseComparator k
      WellFormed t ∧ (internalCompare sliceCompare k t).isLE ∧
        (t ≠ k → (extractUserKey t).length < (extractUserKey k).length) := by
  refine ⟨bytewiseComparator.separator, bytewiseComparator.successor, ?_, ?_⟩
  · intro a b ha hb hlt
    refine ⟨wellFormed_takeShortened ha _, isLE_takeShortened bytewiseComparator a _, internalSeparator_lt hlt, ?_, ?_⟩
    · intro hsame
      rcases takeShortened_cases bytewiseComparator a (bytewiseSeparator (extractUserKey a) (extractUserKey b)) with
        heq | ⟨-, hshort, -⟩
      · exact heq
      · rw [← hsame, bytewiseSeparator_self] at hshort
        exact absurd hshort (Nat.lt_irrefl _)
    · intro hne
      obtain ⟨heq, hshort, -⟩ := (takeShortened_cases bytewiseComparator a _).resolve_left hne
      rw [internalSeparator, heq, extractUserKey_append]
      exact ⟨hshort, fun x y hx _ hsame => not_between_shortened _ hx hsame⟩
  · intro k hk
    refine ⟨wellFormed_takeShortened hk _, isLE_takeShortened bytewiseComparator k _, fun hne => ?_⟩
    obtain ⟨heq, hshort, -⟩ := (takeShortened_cases bytewiseComparator k _).resolve_left hne
    rwa [internalSuccessor, heq, extractUserKey_append]

/-- Between the user keys `abc1` and `abz` comes `abd`. -/
theorem separators_in_range_shorter :
    internalSeparator bytewiseComparator (internalKeyBytes [97, 98, 99, 49] 5 .value)
        (internalKeyBytes [97, 98, 122] 4 .deletion) = [97, 98, 100] ++ encodeFixed64 seekTag ∧
      internalCompare sliceCompare ([97, 98, 100] ++ encodeFixed64 seekTag)
        (internalKeyBytes [97, 98, 122] 4 .deletion) = .lt := by
  have hsep : internalSeparator bytewiseComparator (internalKeyBytes [97, 98, 99, 49] 5 .value)
      (internalKeyBytes [97, 98, 122] 4 .deletion) = [97, 98, 100] ++ encodeFixed64 seekTag := by decide +kernel
  obtain ⟨-, -, hlt, -⟩ := separators_in_range.2.2.1 (internalKeyBytes [97, 98, 99, 49] 5 .value)
    (internalKeyBytes [97, 98, 122] 4 .deletion) (by decide +kernel) (by decide +kernel) (by decide +kernel)
  exact ⟨hsep, hsep ▸ hlt⟩

structure LookupKey where
  userKey : Slice
  sequence : UInt64

/-- `internal_key()`. -/
def LookupKey.internalKey (k : LookupKey) : Slice := internalKeyBytes k.userKey k.sequence kValueTypeForSeek

/-- `memtable_key()`. -/
def LookupKey.memtableKey (k : LookupKey) : Slice :=
  encodeVarint32 (UInt32.ofNat (k.userKey.length + 8)) ++ k.internalKey

namespace LookupKey

variable {user : Slice → Slice → Ordering} {k : LookupKey} {α : Type} {f : α → Slice} {p : α → Bool} {es : List α} {e x : α}

@[simp] theorem extractUserKey_internalKey (k : LookupKey) : extractUserKey k.internalKey = k.userKey :=
  extractUserKey_append _ _

theorem tag_internalKey (hk : k.sequence.toNat ≤ kMaxSequenceNumber) :
    (extractTag k.internalKey).toNat = packSequenceAndType k.sequence.toNat kValueTypeForSeek := by
  rw [internalKey, internalKeyBytes, extractTag_append, toNat_packTag hk]

/-- The tag of a lookup has the greatest type. -/
theorem le_tag_internalKey_iff (hk : k.sequence.toNat ≤ kMaxSequenceNumber) {seq : ℕ} {t : ValueType} :
    packSequenceAndType seq t ≤ (extractTag k.internalKey).toNat ↔ seq ≤ k.sequence.toNat := by
  have htype := t.toNat_le
  have hseek : kValueTypeForSeek.toNat = 1 := rfl
  rw [tag_internalKey hk, packSequenceAndType, packSequenceAndType]
  omega

theorem not_below_iff {a : Slice} : internalCompare user a k.internalKey ≠ .lt ↔
    user (extractUserKey a) k.userKey = .gt ∨
      user (extractUserKey a) k.userKey = .eq ∧ (extractTag a).toNat ≤ (extractTag k.internalKey).toNat := by
  rw [Ne, internalCompare_eq, extractUserKey_internalKey, Ordering.then_eq_lt, Nat.compare_eq_lt]
  cases user (extractUserKey a) k.userKey <;> simp

/-- **The first entry that is not below the key of a lookup** is the newest one of its user key
among those that are not too new, if there are such entries. -/
theorem newest_of_find [Std.TransCmp user] (hp : ∀ y, p y ↔ internalCompare user (f y) k.internalKey ≠ .lt)
    (hes : es.Pairwise fun x y => internalCompare user (f x) (f y) = .lt) (hfind : es.find? p = some e) (hx : x ∈ es)
    (huser : user (extractUserKey (f x)) k.userKey = .eq)
    (htag : (extractTag (f x)).toNat ≤ (extractTag k.internalKey).toNat) :
    user (extractUserKey (f e)) k.userKey = .eq ∧ (x = e ∨ (extractTag (f x)).toNat < (extractTag (f e)).toNat) := by
  obtain ⟨he, before, after, rfl, hbefore⟩ := List.find?_eq_some_iff_append.mp hfind
  have hpx : p x := (hp x).mpr (not_below_iff.mpr (.inr ⟨huser, htag⟩))
  rcases List.mem_append.mp hx with hx | hx
  · have hnot := hbefore x hx
    simp [hpx] at hnot
  rcases List.mem_cons.mp hx with rfl | hx
  · exact ⟨huser, .inl rfl⟩
  -- it comes after the first one, and so does its user key
  have hlt := (List.pairwise_cons.mp (List.pairwise_append.mp hes).2.1).1 x hx
  rw [internalCompare_eq, Std.TransCmp.congr_right huser, Ordering.then_eq_lt, Nat.compare_eq_lt] at hlt
  rcases not_below_iff.mp ((hp e).mp he) with hgt | ⟨heq, -⟩
  · simp [hgt] at hlt
  · exact ⟨heq, .inr (by simpa [heq] using hlt)⟩

end LookupKey

end TLevelDB.Db
