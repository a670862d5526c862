import TLevelDB.Db.KeyBytes

/-!
# Internal keys as versions

Internal keys are compared as strings, by a word that holds the sequence number and the type.
That is the order of versions: the user keys increase, then the sequence numbers and then the
types decrease. The key of a lookup has the greatest type, so the first entry that is not below
it is the newest one that the lookup may see.

The constructor of `LookupKey` writes its key into an array of its own, or into a new one if
that is too small. It never writes past the end (`construct_eq`).
-/

namespace TLevelDB.Db

open Coding

/-! ### Encodings -/

/-- The key, appended to `*result`. -/
def appendInternalKey (result : Slice) (key : InternalKey Slice) : Slice :=
  result ++ internalKeyBytes key.userKey (UInt64.ofNat key.sequence) key.type

namespace InternalKey

/-- The string of an `InternalKey`. -/
def encode (key : InternalKey Slice) : Slice := appendInternalKey [] key

variable {a b : InternalKey Slice} {user : Slice → Slice → Ordering}

theorem toNat_sequence (ha : a.sequence < 2 ^ 56) : (UInt64.ofNat a.sequence).toNat = a.sequence := by
  rw [UInt64.toNat_ofNat', Nat.mod_eq_of_lt (by omega)]

theorem sequence_le (ha : a.sequence < 2 ^ 56) : (UInt64.ofNat a.sequence).toNat ≤ kMaxSequenceNumber := by
  rw [toNat_sequence ha]
  exact Nat.le_sub_one_of_lt ha

@[simp] theorem extractUserKey_encode (a : InternalKey Slice) : extractUserKey a.encode = a.userKey :=
  extractUserKey_append _ _

theorem tag_encode (ha : a.sequence < 2 ^ 56) :
    (extractTag a.encode).toNat = packSequenceAndType a.sequence a.type := by
  rw [encode, appendInternalKey, List.nil_append, internalKeyBytes, extractTag_append, toNat_packTag (sequence_le ha),
    toNat_sequence ha]

/-- The word that holds the sequence number and the type is compared as the two are. -/
theorem compare_packed (s s' : ℕ) (t t' : ValueType) :
    compare (packSequenceAndType s t) (packSequenceAndType s' t') = (compare s s').then (compare t.toNat t'.toNat) := by
  rcases lt_trichotomy s s' with h | rfl | h
  · rw [Nat.compare_eq_lt.mpr h, Nat.compare_eq_lt.mpr (packSequenceAndType_lt_iff.mpr (.inl h))]
    rfl
  · rw [Nat.compare_eq_eq.mpr rfl, Ordering.eq_then, packSequenceAndType, packSequenceAndType]
    simp [Nat.compare_eq_ite_lt]
  · rw [Nat.compare_eq_gt.mpr h, Nat.compare_eq_gt.mpr (packSequenceAndType_lt_iff.mpr (.inl h))]
    rfl

theorem compare_encode (ha : a.sequence < 2 ^ 56) (hb : b.sequence < 2 ^ 56) :
    internalCompare user a.encode b.encode =
      (user a.userKey b.userKey).then ((compare b.sequence a.sequence).then (compare b.type.toNat a.type.toNat)) := by
  rw [internalCompare_eq, extractUserKey_encode, extractUserKey_encode, tag_encode ha, tag_encode hb, compare_packed]

theorem parse_encode (ha : a.sequence < 2 ^ 56) : parseInternalKey a.encode = some a := by
  have hlength : ¬ a.encode.length < 8 := by simp [encode, appendInternalKey, internalKeyBytes]
  have htag : extractTag a.encode = packTag (UInt64.ofNat a.sequence) a.type := extractTag_append _ _
  have htype : (extractTag a.encode &&& 0xff).toUInt8 = UInt8.ofNat a.type.toNat := by
    apply UInt8.toNat.inj
    rw [htag, UInt64.toNat_toUInt8, toNat_and_packTag (sequence_le ha), UInt8.toNat_ofNat']
  have hsequence : (extractTag a.encode >>> 8).toNat = a.sequence := by
    have hle := a.type.toNat_le
    rw [UInt64.toNat_shiftRight, tag_encode ha, Nat.shiftRight_eq_div_pow, packSequenceAndType]
    change (a.sequence * 2 ^ 8 + a.type.toNat) / 2 ^ 8 = _
    omega
  rw [parseInternalKey, if_neg hlength]
  dsimp only
  rw [htype, hsequence, extractUserKey_encode]
  obtain ⟨userKey, sequence, type⟩ := a
  cases type <;> rfl

end InternalKey

namespace LookupKey

/-! ### The constructor -/

/-- The bytes are copied to `dst`, and nothing is written past the end of the array. -/
def store (array : Slice) (dst : ℕ) (bytes : Slice) : Option Slice :=
  if dst + bytes.length ≤ array.length then some (array.take dst ++ bytes ++ array.drop (dst + bytes.length)) else none

/-- The members of a `LookupKey`. `start_` is where the array begins. -/
structure Members where
  /-- The array is `space_`, and not a new one. -/
  inSpace : Bool
  array : Slice
  /-- `kstart_ - start_`. -/
  kstart : ℕ
  /-- `end_ - start_`. -/
  stop : ℕ

/-- The size of `space_`. -/
def spaceSize : ℕ := 200

/-- `LookupKey::LookupKey`, where the arrays hold these bytes before. -/
def construct (garbage : ℕ → UInt8) (userKey : Slice) (s : UInt64) : Option Members := do
  let usize := userKey.length
  let needed := usize + 13
  let inSpace := decide (needed ≤ spaceSize)
  let array := (List.range (if inSpace then spaceSize else needed)).map garbage
  let klength := encodeVarint32 (UInt32.ofNat (usize + 8))
  let array ← store array 0 klength
  let array ← store array klength.length userKey
  let array ← store array (klength.length + usize) (encodeFixed64 (packTag s kValueTypeForSeek))
  return ⟨inSpace, array, klength.length, klength.length + usize + 8⟩

namespace Members

/-- `memtable_key()`. -/
def memtableKey (k : Members) : Slice := k.array.take k.stop

/-- `internal_key()`. -/
def internalKey (k : Members) : Slice := (k.array.drop k.kstart).take (k.stop - k.kstart)

/-- `user_key()`. -/
def userKey (k : Members) : Slice := (k.array.drop k.kstart).take (k.stop - k.kstart - 8)

end Members

theorem store_append (done : Slice) {rest bytes : Slice} {dst : ℕ} (hdst : dst = done.length)
    (h : bytes.length ≤ rest.length) : store (done ++ rest) dst bytes = some (done ++ bytes ++ rest.drop bytes.length) := by
  rw [store, if_pos (by rw [List.length_append]; omega), hdst, List.take_left, List.drop_append, Nat.add_sub_cancel_left,
    List.drop_eq_nil_of_le (by omega), List.nil_append]

/-- **Nothing is written past the end of the array**, and the three keys are in it. -/
theorem construct_eq (garbage : ℕ → UInt8) (userKey : Slice) (s : UInt64) :
    ∃ k, construct garbage userKey s = some k ∧ k.memtableKey = (mk userKey s).memtableKey ∧
      k.internalKey = (mk userKey s).internalKey ∧ k.userKey = userKey := by
  unfold construct
  dsimp only
  generalize hsize : (List.range (if decide (userKey.length + 13 ≤ spaceSize) then spaceSize
    else userKey.length + 13)).map garbage = array
  have hlength : userKey.length + 13 ≤ array.length := by
    rw [← hsize, List.length_map, List.length_range]
    split
    · rename_i h
      exact of_decide_eq_true h
    · exact le_rfl
  have hvarint : (encodeVarint32 (UInt32.ofNat (userKey.length + 8))).length ≤ 5 := by
    rw [encodeVarint32_eq_loop]
    exact (length_encodeVarintLoop 4 _).2
  generalize hklength : encodeVarint32 (UInt32.ofNat (userKey.length + 8)) = klength at hvarint
  have hfirst : store ([] ++ array) 0 klength = _ := store_append [] rfl (by omega)
  have hsecond : store (klength ++ array.drop klength.length) klength.length userKey = _ :=
    store_append klength rfl (by rw [List.length_drop]; omega)
  have hthird : store (klength ++ userKey ++ (array.drop klength.length).drop userKey.length)
      (klength.length + userKey.length) (encodeFixed64 (packTag s kValueTypeForSeek)) = _ :=
    store_append (klength ++ userKey) (List.length_append).symm
      (by rw [length_encodeFixed64, List.length_drop, List.length_drop]; omega)
  rw [List.nil_append, List.nil_append] at hfirst
  rw [hfirst, Option.bind_eq_bind, Option.bind_some, hsecond, Option.bind_some, hthird]
  refine ⟨_, rfl, ?_, ?_, ?_⟩
  · rw [Members.memtableKey, memtableKey, internalKey, internalKeyBytes, hklength, ← List.append_assoc]
    exact List.take_left' (by simp only [List.length_append, length_encodeFixed64])
  · rw [Members.internalKey, internalKey, internalKeyBytes, List.append_assoc klength, List.append_assoc klength,
      List.drop_left]
    exact List.take_left' (by simp only [List.length_append, length_encodeFixed64]; omega)
  · rw [Members.userKey, List.append_assoc klength, List.append_assoc klength, List.drop_left, List.append_assoc userKey]
    exact List.take_left' (by dsimp only; omega)

end LookupKey

/-! ### The order of versions -/

open InternalKey

/-- The newest version of a user key up to `s`. -/
structure IsNewest (user : Slice → Slice → Ordering) (u : Slice) (s : ℕ) (es : List (InternalKey Slice))
    (e : InternalKey Slice) : Prop where
  mem : e ∈ es
  userKey : user e.userKey u = .eq
  sequence : e.sequence ≤ s
  newest : ∀ x ∈ es, user x.userKey u = .eq → x.sequence ≤ s →
    x = e ∨ x.sequence < e.sequence ∨ x.sequence = e.sequence ∧ x.type.toNat < e.type.toNat

variable {user : Slice → Slice → Ordering} {k : LookupKey} {es : List (InternalKey Slice)} {e : InternalKey Slice}

theorem not_below_encode_iff (hk : k.sequence.toNat < 2 ^ 56) (he : e.sequence < 2 ^ 56) :
    internalCompare user e.encode k.internalKey ≠ .lt ↔
      user e.userKey k.userKey = .gt ∨ user e.userKey k.userKey = .eq ∧ e.sequence ≤ k.sequence.toNat := by
  rw [LookupKey.not_below_iff, extractUserKey_encode, tag_encode he,
    LookupKey.le_tag_internalKey_iff (Nat.le_sub_one_of_lt hk)]

theorem isNewest_of_find [Std.TransCmp user] (hk : k.sequence.toNat < 2 ^ 56) (hes : ∀ e ∈ es, e.sequence < 2 ^ 56)
    (hsorted : es.Pairwise fun x y => internalCompare user x.encode y.encode = .lt)
    (hfind : es.find? (fun e => internalCompare user e.encode k.internalKey ≠ .lt) = some e)
    {x : InternalKey Slice} (hx : x ∈ es) (huser : user x.userKey k.userKey = .eq) (hseq : x.sequence ≤ k.sequence.toNat) :
    IsNewest user k.userKey k.sequence.toNat es e := by
  have he := List.mem_of_find?_eq_some hfind
  have hnewest {x : InternalKey Slice} (hx : x ∈ es) (huser : user x.userKey k.userKey = .eq)
      (hseq : x.sequence ≤ k.sequence.toNat) := LookupKey.newest_of_find (k := k) (by simp) hsorted hfind hx
    (by rwa [extractUserKey_encode])
    (by rwa [tag_encode (hes x hx), LookupKey.le_tag_internalKey_iff (Nat.le_sub_one_of_lt hk)])
  have heq : user e.userKey k.userKey = .eq := by
    have h := (hnewest hx huser hseq).1
    rwa [extractUserKey_encode] at h
  refine ⟨he, heq, ?_, fun y hy huser hseq => (hnewest hy huser hseq).2.imp_right fun hlt => ?_⟩
  · rcases (not_below_encode_iff hk (hes e he)).mp (by simpa using List.find?_some hfind) with hgt | ⟨-, hle⟩
    · simp [heq] at hgt
    · exact hle
  · rw [tag_encode (hes y hy), tag_encode (hes e he)] at hlt
    exact packSequenceAndType_lt_iff.mp hlt

/-- **Internal keys are ordered as versions.** Encodings are ordered by increasing user keys, then
by decreasing sequence numbers and types, and `ParseInternalKey` gets the parts back. The first
entry that is not below the key of a lookup is the newest one that the lookup may see. If there is
none, it is an entry of a greater user key. -/
theorem internal_keys_ordered (user : Slice → Slice → Ordering) [Std.TransCmp user] :
    (∀ a b : InternalKey Slice, a.sequence < 2 ^ 56 → b.sequence < 2 ^ 56 → internalCompare user a.encode b.encode =
      (user a.userKey b.userKey).then ((compare b.sequence a.sequence).then (compare b.type.toNat a.type.toNat))) ∧
    (∀ a : InternalKey Slice, internalCompare user a.encode a.encode ≠ .lt) ∧
    (∀ a b c : InternalKey Slice, internalCompare user a.encode b.encode = .lt →
      internalCompare user b.encode c.encode = .lt → internalCompare user a.encode c.encode = .lt) ∧
    (Std.LawfulEqCmp user → ∀ a b : InternalKey Slice, a.sequence < 2 ^ 56 → b.sequence < 2 ^ 56 →
      internalCompare user a.encode b.encode = .lt ∨ a = b ∨ internalCompare user b.encode a.encode = .lt) ∧
    (∀ (result : Slice) (a : InternalKey Slice), a.sequence < 2 ^ 56 →
      parseInternalKey ((appendInternalKey result a).drop result.length) = some a) ∧
    ∀ (garbage : ℕ → UInt8) (u : Slice) (s : UInt64), s.toNat < 2 ^ 56 →
      ∃ k, LookupKey.construct garbage u s = some k ∧
        ∀ es : List (InternalKey Slice), (∀ e ∈ es, e.sequence < 2 ^ 56) →
          es.Pairwise (fun x y => internalCompare user x.encode y.encode = .lt) →
          let first := es.find? fun e => internalCompare user e.encode k.internalKey ≠ .lt
          ((∃ x ∈ es, user x.userKey u = .eq ∧ x.sequence ≤ s.toNat) →
            ∃ e, first = some e ∧ IsNewest user u s.toNat es e) ∧
          ((¬ ∃ x ∈ es, user x.userKey u = .eq ∧ x.sequence ≤ s.toNat) →
            ∀ e, first = some e → e ∈ es ∧ user e.userKey u = .gt) := by
  refine ⟨fun a b ha hb => compare_encode ha hb, fun a => ?_, fun a b c hab hbc => Std.TransCmp.lt_trans hab hbc,
    fun hlawful a b ha hb => ?_, fun result a ha => ?_, fun garbage u s hs => ?_⟩
  · have hself : internalCompare user a.encode a.encode = .eq := Std.ReflCmp.compare_self
    rw [hself]
    decide
  · cases hcompare : internalCompare user a.encode b.encode with
    | lt => exact .inl rfl
    | gt => exact .inr (.inr (Std.OrientedCmp.gt_iff_lt.mp hcompare))
    | eq =>
      rw [compare_encode ha hb, Ordering.then_eq_eq, Ordering.then_eq_eq, Nat.compare_eq_eq, Nat.compare_eq_eq] at hcompare
      exact .inr (.inl (InternalKey.ext (Std.LawfulEqCmp.eq_of_compare hcompare.1) hcompare.2.1.symm
        (ValueType.toNat_injective hcompare.2.2.symm)))
  · rw [appendInternalKey, List.drop_left]
    exact parse_encode ha
  · obtain ⟨k, hk, -, hkey, -⟩ := LookupKey.construct_eq garbage u s
    refine ⟨k, hk, fun es hes hsorted => ?_⟩
    rw [hkey]
    have hs : (LookupKey.mk u s).sequence.toNat < 2 ^ 56 := hs
    constructor
    · rintro ⟨x, hx, huser, hseq⟩
      cases hfirst : es.find? fun e => internalCompare user e.encode (LookupKey.mk u s).internalKey ≠ .lt with
      | none =>
        have hbelow := List.find?_eq_none.mp hfirst x hx
        exact absurd ((not_below_encode_iff hs (hes x hx)).mpr (.inr ⟨huser, hseq⟩)) (by simpa using hbelow)
      | some e => exact ⟨e, rfl, isNewest_of_find hs hes hsorted hfirst hx huser hseq⟩
    · intro hnone e hfirst
      have he := List.mem_of_find?_eq_some hfirst
      refine ⟨he, ((not_below_encode_iff hs (hes e he)).mp ?_).resolve_right fun h => hnone ⟨e, he, h⟩⟩
      simpa using List.find?_some hfirst

/-- Two versions of a user key, looked up between them. -/
theorem internal_keys_ordered_between :
    ∃ k, LookupKey.construct (fun _ => 0) [97] 5 = some k ∧ ∃ e,
      [InternalKey.mk [97] 7 .value, InternalKey.mk [97] 3 .deletion].find?
        (fun e => internalCompare sliceCompare e.encode k.internalKey ≠ .lt) = some e ∧
      IsNewest sliceCompare [97] 5 [⟨[97], 7, .value⟩, ⟨[97], 3, .deletion⟩] e := by
  obtain ⟨k, hk, hlookup⟩ := (internal_keys_ordered sliceCompare).2.2.2.2.2 (fun _ => 0) [97] 5 (by decide)
  exact ⟨k, hk, (hlookup [⟨[97], 7, .value⟩, ⟨[97], 3, .deletion⟩] (by decide) (by decide)).1
    ⟨⟨[97], 3, .deletion⟩, by decide⟩⟩

end TLevelDB.Db
