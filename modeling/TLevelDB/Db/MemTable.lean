import TLevelDB.Db.SkipList
import TLevelDB.Db.KeyBytes
import Mathlib.Data.List.MinMax
import Mathlib.Data.List.Pairwise

/-!
# Memtables

`MemTable` over a user comparator. An entry of the skip list is one string: the internal key
and the value, each after its length. What a `char*` points to is the string from there on, so
that a comparison reads the length and then as many bytes.

`Get` looks for the first entry that is not before the lookup key. It finds the newest entry
of the user key with a sequence number up to the one of the lookup key (`get_addAll`).
-/

namespace TLevelDB.Db

open Coding

namespace MemTable

/-- `GetLengthPrefixedSlice` of `memtable.cc`; a length can be read from all that is in a memtable. -/
def getLengthPrefixedSlice (data : Slice) : Slice :=
  match getVarint32Ptr data with
  | some (len, p) => p.take len.toNat
  | none => []

/-- `KeyComparator::operator()`. -/
def keyComparator (user : Slice → Slice → Ordering) (aptr bptr : Slice) : Ordering :=
  internalCompare user (getLengthPrefixedSlice aptr) (getLengthPrefixedSlice bptr)

instance (user : Slice → Slice → Ordering) [Std.TransCmp user] : Std.TransCmp (keyComparator user) :=
  transCmp_comap getLengthPrefixedSlice (internalCompare user)

/-- The arguments of `Add`. -/
structure Operation where
  sequence : UInt64
  type : ValueType
  key : Slice
  value : Slice
  deriving DecidableEq

/-- The string that `Add` puts into the skip list. -/
def Operation.entry (op : Operation) : Slice :=
  encodeVarint32 (UInt32.ofNat (op.key.length + 8)) ++ (op.key ++ encodeFixed64 (packTag op.sequence op.type) ++
    (encodeVarint32 (UInt32.ofNat op.value.length) ++ op.value))

end MemTable

structure MemTable where
  userComparator : Slice → Slice → Ordering
  table : SkipList Slice

namespace MemTable

def create (user : Slice → Slice → Ordering) : MemTable := ⟨user, .create []⟩

def add (m : MemTable) (op : Operation) (choice : SkipList.Choice) : Option MemTable :=
  (m.table.insert (keyComparator m.userComparator) op.entry choice).map fun table => { m with table }

def addAll (m : MemTable) (ops : List (Operation × SkipList.Choice)) : Option MemTable :=
  ops.foldlM (fun m op => m.add op.1 op.2) m

/-- What `Get` returns and stores. -/
inductive GetResult where
  /-- `true`, with the value. -/
  | found (value : Slice)
  /-- `true`, with `Status::NotFound`. -/
  | deleted
  /-- `false`. -/
  | missing
  deriving DecidableEq

def get (m : MemTable) (key : LookupKey) : Option GetResult := do
  match ← m.table.findGreaterOrEqual (keyComparator m.userComparator) key.memtableKey fun _ => SkipList.head with
  | (none, _) => some .missing
  | (some node, _) =>
    let entry ← m.table.key node
    let (keyLength, keyPtr) ← getVarint32Ptr entry
    if m.userComparator (keyPtr.take (keyLength - 8).toNat) key.userKey = .eq then
      let tag := decodeFixed64 (keyPtr.drop (keyLength - 8).toNat)
      match (tag &&& 0xff).toNat with
      | 0x1 => some (.found (getLengthPrefixedSlice (keyPtr.drop keyLength.toNat)))
      | 0x0 => some .deleted
      | _ => some .missing
    else some .missing

/-! ### What is in an entry -/

/-- The sizes and the sequence number that `Add` can encode. -/
structure Operation.Valid (op : Operation) : Prop where
  key_size : op.key.length + 8 < 2 ^ 32
  value_size : op.value.length < 2 ^ 32
  sequence_le : op.sequence.toNat ≤ kMaxSequenceNumber

theorem getLengthPrefixedSlice_append {s : Slice} (h : s.length < 2 ^ 32) (rest : Slice) :
    getLengthPrefixedSlice (encodeVarint32 (UInt32.ofNat s.length) ++ (s ++ rest)) = s := by
  rw [getLengthPrefixedSlice, getVarint32Ptr_encodeVarint32]
  dsimp only
  rw [UInt32.toNat_ofNat', Nat.mod_eq_of_lt h, List.take_left]

variable {op op' : Operation}

theorem getLengthPrefixedSlice_entry (h : op.Valid) :
    getLengthPrefixedSlice op.entry = op.key ++ encodeFixed64 (packTag op.sequence op.type) := by
  have hlen : op.key.length + 8 = (op.key ++ encodeFixed64 (packTag op.sequence op.type)).length := by simp
  have hsize := h.key_size
  rw [hlen] at hsize
  rw [Operation.entry, hlen]
  exact getLengthPrefixedSlice_append hsize _

variable {k : LookupKey} {m : MemTable}

theorem getLengthPrefixedSlice_memtableKey (h : k.userKey.length + 8 < 2 ^ 32) :
    getLengthPrefixedSlice k.memtableKey = k.internalKey := by
  have hlen : k.userKey.length + 8 = k.internalKey.length := by simp [LookupKey.internalKey, internalKeyBytes]
  rw [hlen] at h
  rw [LookupKey.memtableKey, hlen]
  have happend := getLengthPrefixedSlice_append h []
  rwa [List.append_nil] at happend

variable {user : Slice → Slice → Ordering}

/-- Entries are compared by user key, and then the newer one comes first. -/
theorem keyComparator_entry (h : op.Valid) (h' : op'.Valid) : keyComparator user op.entry op'.entry =
    (user op.key op'.key).then
      (compare (packSequenceAndType op'.sequence.toNat op'.type) (packSequenceAndType op.sequence.toNat op.type)) := by
  rw [keyComparator, getLengthPrefixedSlice_entry h, getLengthPrefixedSlice_entry h', internalCompare_eq,
    extractUserKey_append, extractUserKey_append, extractTag_append, extractTag_append, toNat_packTag h.sequence_le,
    toNat_packTag h'.sequence_le]

/-- What is not before a lookup key: the entries of greater user keys, and those of its user key
that are not too new. -/
theorem not_below_memtableKey_iff (h : op.Valid) (hsize : k.userKey.length + 8 < 2 ^ 32)
    (hseq : k.sequence.toNat ≤ kMaxSequenceNumber) : keyComparator user op.entry k.memtableKey ≠ .lt ↔
      user op.key k.userKey = .gt ∨ user op.key k.userKey = .eq ∧ op.sequence ≤ k.sequence := by
  rw [keyComparator, getLengthPrefixedSlice_entry h, getLengthPrefixedSlice_memtableKey hsize, LookupKey.not_below_iff,
    extractUserKey_append, extractTag_append, toNat_packTag h.sequence_le, LookupKey.le_tag_internalKey_iff hseq,
    UInt64.le_iff_toNat_le]

/-- What a reader of the entry returns. -/
def Operation.result (op : Operation) : GetResult :=
  match op.type with
  | .value => .found op.value
  | .deletion => .deleted

theorem get_of_found {x : ℕ} (h : op.Valid)
    (hfound : (m.table.findGreaterOrEqual (keyComparator m.userComparator) k.memtableKey fun _ => SkipList.head).map
      Prod.fst = some (some x)) (hkey : m.table.key x = some op.entry) :
    m.get k = some (if m.userComparator op.key k.userKey = .eq then op.result else .missing) := by
  obtain ⟨⟨node, prev⟩, hfind, hnode⟩ := Option.map_eq_some_iff.mp hfound
  cases hnode
  have hsize := h.key_size
  have hlen : (UInt32.ofNat (op.key.length + 8)).toNat = op.key.length + 8 := by
    rw [UInt32.toNat_ofNat', Nat.mod_eq_of_lt hsize]
  have hsub : (UInt32.ofNat (op.key.length + 8) - 8).toNat = op.key.length := by
    rw [UInt32.toNat_sub_of_le _ _ (by rw [UInt32.le_iff_toNat_le, hlen]; exact Nat.le_add_left 8 _), hlen]
    rfl
  have hdrop : (op.key ++ encodeFixed64 (packTag op.sequence op.type) ++
      (encodeVarint32 (UInt32.ofNat op.value.length) ++ op.value)).drop (op.key.length + 8) =
        encodeVarint32 (UInt32.ofNat op.value.length) ++ op.value := List.drop_left' (by simp)
  have hvalue : getLengthPrefixedSlice (encodeVarint32 (UInt32.ofNat op.value.length) ++ op.value) = op.value := by
    have happend := getLengthPrefixedSlice_append h.value_size []
    rwa [List.append_nil] at happend
  rw [get, hfind]
  simp only [Option.bind_eq_bind, Option.bind_some, hkey, Operation.entry, getVarint32Ptr_encodeVarint32, hsub, hlen,
    hdrop, hvalue]
  rw [List.append_assoc, List.take_left, List.drop_left, decodeFixed64_encodeFixed64, toNat_and_packTag h.sequence_le]
  split
  · unfold Operation.result
    cases op.type <;> rfl
  · rfl

/-! ### Adding entries -/

/-- Two entries that a memtable may hold together. -/
def Distinct (user : Slice → Slice → Ordering) (op op' : Operation) : Prop :=
  ¬ (user op.key op'.key = .eq ∧ op.sequence = op'.sequence)

theorem keyComparator_ne_eq (h : op.Valid) (h' : op'.Valid) (hne : Distinct user op op') :
    keyComparator user op.entry op'.entry ≠ .eq := by
  rw [keyComparator_entry h h']
  intro heq
  obtain ⟨huser, htag⟩ := Ordering.then_eq_eq.mp heq
  exact hne ⟨huser, UInt64.toNat.inj (packSequenceAndType_inj (Nat.compare_eq_eq.mp htag)).1.symm⟩

/-- The table holds these entries. -/
def Contains (m : MemTable) (ops : List Operation) : Prop :=
  ∃ keys, SkipList.Reaches (keyComparator m.userComparator) [] keys ⟨m.table, none⟩ ∧
    ∀ key, key ∈ keys ↔ key ∈ ops.map Operation.entry

variable {ops : List Operation}

theorem Contains.add [Std.TransCmp m.userComparator] (h : m.Contains ops)
    (hvalid : ∀ o ∈ ops, o.Valid) (hop : op.Valid) (hnew : ∀ o ∈ ops, Distinct m.userComparator o op)
    (choice : SkipList.Choice) :
    ∃ m', m.add op choice = some m' ∧ m'.userComparator = m.userComparator ∧ m'.Contains (op :: ops) := by
  obtain ⟨keys, hreaches, hkeys⟩ := h
  have hfresh : ∀ k ∈ keys, keyComparator m.userComparator k op.entry ≠ .eq := by
    intro k hk
    obtain ⟨o, ho, rfl⟩ := List.mem_map.mp ((hkeys k).mp hk)
    exact keyComparator_ne_eq (hvalid o ho) hop (hnew o ho)
  obtain ⟨table, hinsert, hreaches⟩ := SkipList.insert_spec hreaches hfresh choice
  refine ⟨{ m with table }, by rw [MemTable.add, hinsert]; rfl, rfl, op.entry :: keys, hreaches, ?_⟩
  intro k
  rw [List.map_cons, List.mem_cons, List.mem_cons, hkeys k]

theorem Contains.addAll [Std.TransCmp m.userComparator] {done : List Operation}
    {ops : List (Operation × SkipList.Choice)} (h : m.Contains done) (hvalid : ∀ o ∈ ops.map Prod.fst ++ done, o.Valid)
    (hnew : ∀ o ∈ done, ∀ o' ∈ ops.map Prod.fst, Distinct m.userComparator o o')
    (hdistinct : (ops.map Prod.fst).Pairwise (Distinct m.userComparator)) :
    ∃ m', m.addAll ops = some m' ∧ m'.userComparator = m.userComparator ∧
      m'.Contains (ops.map Prod.fst ++ done) := by
  induction ops generalizing m done with
  | nil => exact ⟨m, rfl, rfl, h⟩
  | cons o ops ih =>
    rw [List.map_cons, List.pairwise_cons] at hdistinct
    simp only [List.map_cons, List.cons_append, List.mem_cons, List.mem_append, forall_eq_or_imp] at hvalid hnew
    obtain ⟨ho, hvalid⟩ := hvalid
    obtain ⟨m', hadd, hcmp, hcontains⟩ := h.add (fun o ho => hvalid o (.inr ho)) ho (fun d hd => (hnew d hd).1) o.2
    have htrans : Std.TransCmp m'.userComparator := by
      rw [hcmp]
      infer_instance
    obtain ⟨m'', hall, hcmp', hcontains'⟩ := ih hcontains
      (by
        intro d hd
        rcases List.mem_append.mp hd with hd | hd
        · exact hvalid d (.inl hd)
        · rcases List.mem_cons.mp hd with rfl | hd
          · exact ho
          · exact hvalid d (.inr hd))
      (by
        rw [hcmp]
        intro d hd
        rcases List.mem_cons.mp hd with rfl | hd
        · exact hdistinct.1
        · exact (hnew d hd).2)
      (by
        rw [hcmp]
        exact hdistinct.2)
    refine ⟨m'', ?_, hcmp'.trans hcmp, ?_⟩
    · rw [MemTable.addAll, List.foldlM_cons, hadd]
      exact hall
    · obtain ⟨keys, hreaches, hkeys⟩ := hcontains'
      refine ⟨keys, hreaches, fun k => (hkeys k).trans ?_⟩
      simp only [List.map_append, List.map_cons, List.mem_append, List.mem_cons]
      tauto

/-! ### Looking a key up -/

/-- The newest entry of a user key with a sequence number up to `s`. -/
def newest (user : Slice → Slice → Ordering) (ops : List Operation) (k : LookupKey) : Option Operation :=
  (ops.filter fun op => user op.key k.userKey = .eq ∧ op.sequence ≤ k.sequence).argmax fun op => op.sequence.toNat

/-- What `Get` should return. -/
def lookup (user : Slice → Slice → Ordering) (ops : List Operation) (k : LookupKey) : GetResult :=
  match newest user ops k with
  | some op => op.result
  | none => .missing

/-- The entry that counts is the only one with its sequence number. -/
theorem newest_eq_some [Std.TransCmp user]
    (hdistinct : ∀ a ∈ ops, ∀ b ∈ ops, user a.key b.key = .eq → a.sequence = b.sequence → a = b) (hop : op ∈ ops)
    (huser : user op.key k.userKey = .eq) (hle : op.sequence ≤ k.sequence)
    (hmax : ∀ a ∈ ops, user a.key k.userKey = .eq → a.sequence ≤ k.sequence → a.sequence ≤ op.sequence) :
    newest user ops k = some op := by
  have hmem : op ∈ ops.filter fun op => user op.key k.userKey = .eq ∧ op.sequence ≤ k.sequence := by
    simp [hop, huser, hle]
  have hothers : ∀ a ∈ ops.filter fun op => user op.key k.userKey = .eq ∧ op.sequence ≤ k.sequence,
      a.sequence.toNat ≤ op.sequence.toNat := by
    intro a ha
    simp only [List.mem_filter, decide_eq_true_eq] at ha
    exact UInt64.le_iff_toNat_le.mp (hmax a ha.1 ha.2.1 ha.2.2)
  refine List.argmax_eq_some_iff.mpr ⟨hmem, hothers, ?_⟩
  intro a ha hge
  have hseq : a.sequence = op.sequence := UInt64.toNat.inj (Nat.le_antisymm (hothers a ha) hge)
  simp only [List.mem_filter, decide_eq_true_eq] at ha
  have heq := hdistinct a ha.1 op hop (Std.TransCmp.eq_trans ha.2.1 (Std.OrientedCmp.eq_symm huser)) hseq
  rw [heq]

theorem newest_eq_none
    (h : ∀ a ∈ ops, user a.key k.userKey = .eq → ¬ a.sequence ≤ k.sequence) : newest user ops k = none := by
  refine List.argmax_eq_none.mpr (List.filter_eq_nil_iff.mpr ?_)
  intro a ha
  simpa using h a ha

theorem get_of_none
    (h : (m.table.findGreaterOrEqual (keyComparator m.userComparator) k.memtableKey fun _ => SkipList.head).map
      Prod.fst = some none) : m.get k = some .missing := by
  obtain ⟨⟨node, prev⟩, hfind, hnode⟩ := Option.map_eq_some_iff.mp h
  cases hnode
  rw [get, hfind]
  rfl

theorem Contains.get [Std.TransCmp m.userComparator] (h : m.Contains ops) (hvalid : ∀ o ∈ ops, o.Valid)
    (hdistinct : ∀ a ∈ ops, ∀ b ∈ ops, m.userComparator a.key b.key = .eq → a.sequence = b.sequence → a = b)
    (hsize : k.userKey.length + 8 < 2 ^ 32) (hseq : k.sequence.toNat ≤ kMaxSequenceNumber) :
    m.get k = some (lookup m.userComparator ops k) := by
  obtain ⟨keys, hreaches, hcontents⟩ := h
  obtain ⟨L, hkeys, hholds⟩ := hreaches.inv
  have hkeys : ∀ key, key ∈ (L 0).map Prod.snd ↔ key ∈ ops.map Operation.entry := fun key => (hkeys key).trans (hcontents key)
  have hmem {o : Operation} (ho : o ∈ ops) : ∃ x, (x, o.entry) ∈ L 0 := by
    obtain ⟨⟨x, entry⟩, hx, rfl⟩ := List.mem_map.mp ((hkeys o.entry).mpr (List.mem_map_of_mem ho))
    exact ⟨x, hx⟩
  have hfind := (SkipList.Holds.finds hholds).findGreaterOrEqual k.memtableKey fun _ => SkipList.head
  cases hfirst : (L 0).find? fun e => keyComparator m.userComparator e.2 k.memtableKey ≠ .lt with
  | none =>
    rw [hfirst] at hfind
    rw [get_of_none hfind, lookup, newest_eq_none]
    intro a ha huser hle
    obtain ⟨x, hx⟩ := hmem ha
    have hlt := List.find?_eq_none.mp hfirst _ hx
    exact hlt (by simpa using (not_below_memtableKey_iff (hvalid a ha) hsize hseq).mpr (.inr ⟨huser, hle⟩))
  | some e =>
    rw [hfirst] at hfind
    have he : e ∈ L 0 := List.mem_of_find?_eq_some hfirst
    obtain ⟨op, hop, hentry⟩ := List.mem_map.mp ((hkeys e.2).mp (List.mem_map_of_mem he))
    have hkey := hholds.key 0 (by decide) e he
    have hnot : keyComparator m.userComparator op.entry k.memtableKey ≠ .lt := by
      rw [hentry]
      simpa using List.find?_some hfirst
    have hnewest {a : Operation} (ha : a ∈ ops) (huser : m.userComparator a.key k.userKey = .eq)
        (hle : a.sequence ≤ k.sequence) : m.userComparator op.key k.userKey = .eq ∧ a.sequence ≤ op.sequence := by
      obtain ⟨x, hx⟩ := hmem ha
      have hp : ∀ y : ℕ × Slice, decide (keyComparator m.userComparator y.2 k.memtableKey ≠ .lt) ↔
          internalCompare m.userComparator (getLengthPrefixedSlice y.2) k.internalKey ≠ .lt := by
        simp [keyComparator, getLengthPrefixedSlice_memtableKey hsize]
      obtain ⟨heq, hlater⟩ := LookupKey.newest_of_find hp (hholds.nested.sorted 0 (by decide)) hfirst hx
        (by rwa [getLengthPrefixedSlice_entry (hvalid a ha), extractUserKey_append])
        (by rwa [getLengthPrefixedSlice_entry (hvalid a ha), extractTag_append, toNat_packTag (hvalid a ha).sequence_le,
          LookupKey.le_tag_internalKey_iff hseq, ← UInt64.le_iff_toNat_le])
      have htag : (extractTag (getLengthPrefixedSlice a.entry)).toNat ≤ (extractTag (getLengthPrefixedSlice e.2)).toNat :=
        hlater.elim (fun hsame => hsame ▸ le_rfl) Nat.le_of_lt
      rw [← hentry, getLengthPrefixedSlice_entry (hvalid op hop), extractUserKey_append] at heq
      rw [← hentry, getLengthPrefixedSlice_entry (hvalid op hop), getLengthPrefixedSlice_entry (hvalid a ha),
        extractTag_append, extractTag_append, toNat_packTag (hvalid a ha).sequence_le,
        toNat_packTag (hvalid op hop).sequence_le] at htag
      exact ⟨heq, UInt64.le_iff_toNat_le.mpr (sequence_le_of_packed_le htag)⟩
    rw [get_of_found (hvalid op hop) hfind (hkey.trans (by rw [hentry]))]
    split
    · rename_i huser
      have hle : op.sequence ≤ k.sequence := by
        rcases (not_below_memtableKey_iff (hvalid op hop) hsize hseq).mp hnot with hgt | ⟨-, hle⟩
        · simp [huser] at hgt
        · exact hle
      rw [lookup, newest_eq_some hdistinct hop huser hle fun a ha hua hla => (hnewest ha hua hla).2]
    · rename_i huser
      rw [lookup, newest_eq_none]
      intro a ha hua hla
      exact huser (hnewest ha hua hla).1

/-- `Get` returns what the newest entry of the user key says, whatever else is in the memtable
and however high its nodes are. -/
theorem get_addAll [Std.TransCmp user] {ops : List (Operation × SkipList.Choice)} (hvalid : ∀ op ∈ ops, op.1.Valid)
    (hdistinct : (ops.map Prod.fst).Pairwise (Distinct user)) {k : LookupKey} (hsize : k.userKey.length + 8 < 2 ^ 32)
    (hseq : k.sequence.toNat ≤ kMaxSequenceNumber) :
    ∃ m, (create user).addAll ops = some m ∧ m.get k = some (lookup user (ops.map Prod.fst) k) := by
  have hempty : (create user).Contains [] := ⟨[], .create, by simp⟩
  have hvalid' : ∀ op ∈ ops.map Prod.fst, op.Valid := by
    intro op hop
    obtain ⟨p, hp, rfl⟩ := List.mem_map.mp hop
    exact hvalid p hp
  have htrans : Std.TransCmp (create user).userComparator := inferInstanceAs (Std.TransCmp user)
  obtain ⟨m, hall, hcmp, hcontains⟩ := hempty.addAll (by simpa using hvalid') (by simp) hdistinct
  rw [List.append_nil] at hcontains
  have hcmp : m.userComparator = user := hcmp
  subst hcmp
  have hsymm : Std.Symm (Distinct m.userComparator) :=
    ⟨fun a b hne heq => hne ⟨Std.OrientedCmp.eq_symm heq.1, heq.2.symm⟩⟩
  refine ⟨m, hall, hcontains.get hvalid' ?_ hsize hseq⟩
  intro a ha b hb huser hsequence
  by_contra hne
  exact hdistinct.forall ha hb hne ⟨huser, hsequence⟩

/-- A node of height one. -/
def lowNode : SkipList.Choice := ⟨1, fun _ => 0, [none], by decide, by decide, rfl⟩

/-- A value that was deleted later, looked up at the earlier sequence number. -/
theorem get_addAll_deleted_later :
    ∃ m, (create bytewiseComparator.compare).addAll
        [(⟨1, .value, [97], [120]⟩, lowNode), (⟨2, .deletion, [97], []⟩, lowNode)] = some m ∧
      m.get ⟨[97], 1⟩ = some (.found [120]) := by
  obtain ⟨m, hall, hget⟩ := @get_addAll bytewiseComparator.compare _
    [(⟨1, .value, [97], [120]⟩, lowNode), (⟨2, .deletion, [97], []⟩, lowNode)]
    (by simp only [List.mem_cons, List.not_mem_nil, or_false, forall_eq_or_imp, forall_eq]
        exact ⟨⟨by decide, by decide, by decide⟩, ⟨by decide, by decide, by decide⟩⟩)
    (by simp [Distinct]) ⟨[97], 1⟩ (by decide) (by decide)
  exact ⟨m, hall, hget.trans (by decide)⟩

end MemTable

end TLevelDB.Db
