import TLevelDB.Db.WriteBatch

/-!
# Streams of coded items

What is put together by the `Put` functions of `util/coding`, one item after the other, is read
back by the `Get` functions, whatever follows it (`getItems_putItems`), and an item that is cut off
is not read.

A varint can also be longer than `EncodeVarint` makes it. What the bytes of a varint denote is
the sum of their low seven bits at growing places. The last byte that the loops accept is shifted
so far that its upper bits are lost, and nothing looks at these: the value is what the bytes
denote only if that byte is small enough (`getVarint_exact_iff`).
-/

namespace TLevelDB.Coding

open Db.WriteBatch Log

/-! ### The bytes of a varint -/

/-- What the bytes of a varint denote. -/
def denoted : Slice → ℕ
  | [] => 0
  | byte :: p => byte.toNat % 128 + 128 * denoted p

theorem denoted_append (p q : Slice) : denoted (p ++ q) = denoted p + 128 ^ p.length * denoted q := by
  induction p with
  | nil => simp [denoted]
  | cons byte p ih =>
    rw [List.cons_append, denoted, denoted, ih, List.length_cons, pow_succ]
    ring

theorem denoted_lt (p : Slice) : denoted p < 128 ^ p.length := by
  induction p with
  | nil => simp [denoted]
  | cons byte p ih =>
    rw [denoted, List.length_cons, pow_succ]
    omega

/-- Bytes of which all but the last say that there are more. -/
structure Terminated (init : Slice) (last : UInt8) : Prop where
  more : ∀ byte ∈ init, 128 ≤ byte.toNat
  last_lt : last.toNat < 128

section Loop

variable {w turns shift result : ℕ} {p init rest : Slice} {last : UInt8} {r : ℕ × Slice}

theorem getVarintLoop_of_terminated (h : Terminated init last) (hlt : init.length < turns) :
    getVarintLoop w turns shift result (init ++ last :: rest) =
      some ((result + denoted (init ++ [last]) * 2 ^ shift) % 2 ^ w, rest) := by
  induction init generalizing turns shift result with
  | nil =>
    obtain ⟨turns, rfl⟩ : ∃ t, turns = t + 1 := ⟨turns - 1, by simp at hlt; omega⟩
    rw [List.nil_append, getVarintLoop, if_neg (Nat.not_le.mpr h.last_lt)]
    simp [denoted, Nat.mod_eq_of_lt h.last_lt]
  | cons byte init ih =>
    obtain ⟨turns, rfl⟩ : ∃ t, turns = t + 1 := ⟨turns - 1, by simp at hlt; omega⟩
    obtain ⟨hbyte, hinit⟩ := List.forall_mem_cons.mp h.more
    rw [List.cons_append, getVarintLoop, if_pos hbyte, ih ⟨hinit, h.last_lt⟩ (by simpa using hlt), List.cons_append, denoted,
      Nat.mod_add_mod, pow_add]
    congr 3
    ring

/-- Whatever is read is such bytes, and the value is what they denote without what a number of
`w` bits cannot hold. -/
theorem terminated_of_getVarintLoop (h : getVarintLoop w turns shift result p = some r) :
    ∃ init last, p = init ++ last :: r.2 ∧ Terminated init last ∧ init.length < turns ∧
      r.1 = (result + denoted (init ++ [last]) * 2 ^ shift) % 2 ^ w := by
  have hsplit : ∃ init last rest, p = init ++ last :: rest ∧ Terminated init last ∧ init.length < turns := by
    induction turns generalizing shift result p with
    | zero => cases h
    | succ turns ih =>
      cases p with
      | nil => cases h
      | cons byte p =>
        rw [getVarintLoop] at h
        split at h
        · rename_i hbyte
          obtain ⟨init, last, rest, rfl, hterm, hlt⟩ := ih h
          exact ⟨byte :: init, last, rest, rfl, ⟨List.forall_mem_cons.mpr ⟨hbyte, hterm.more⟩, hterm.last_lt⟩,
            by simpa using hlt⟩
        · rename_i hbyte
          exact ⟨[], byte, p, rfl, ⟨by simp, Nat.not_le.mp hbyte⟩, Nat.succ_pos _⟩
  obtain ⟨init, last, rest, rfl, hterm, hlt⟩ := hsplit
  rw [getVarintLoop_of_terminated hterm hlt] at h
  cases h
  exact ⟨init, last, rfl, hterm, hlt, rfl⟩

end Loop

/-! ### Values -/

/-- What is read from the string is what the bytes that are taken denote. -/
def Exact {α : Type} (toNat : α → ℕ) (get : Slice → Option (α × Slice)) (p : Slice) : Prop :=
  ∀ v rest, get p = some (v, rest) → toNat v = denoted (p.take (p.length - rest.length))

/-- If the string begins with a varint of `k + 1` bytes, the last of them is below `c`. -/
def LastFits (k c : ℕ) (p : Slice) : Prop :=
  ∀ init last rest, p = init ++ last :: rest → init.length = k → Terminated init last → last.toNat < c

variable {k v : ℕ} {q : Slice}

/-- A varint denotes a number of `w` bits exactly if its last byte is small enough, where it is
the last one that a loop accepts. -/
theorem denoted_lt_iff {w c : ℕ} (hw : 128 ^ k * c = 2 ^ w) (hc : 0 < c) {init : Slice} {last : UInt8}
    (h : Terminated init last) (hlt : init.length < k + 1) :
    denoted (init ++ [last]) < 2 ^ w ↔ (init.length = k → last.toNat < c) := by
  rcases Nat.lt_or_eq_of_le (Nat.le_of_lt_succ hlt) with hshort | rfl
  · refine ⟨fun _ heq => absurd heq hshort.ne, fun _ => ?_⟩
    calc denoted (init ++ [last])
        < 128 ^ (init.length + 1) := by simpa using denoted_lt (init ++ [last])
      _ ≤ 128 ^ k := Nat.pow_le_pow_right (by decide) hshort
      _ ≤ 128 ^ k * c := Nat.le_mul_of_pos_right _ hc
      _ = 2 ^ w := hw
  · have hlast : denoted [last] = last.toNat := by simp [denoted, Nat.mod_eq_of_lt h.last_lt]
    have hinit := denoted_lt init
    rw [denoted_append, hlast, ← hw]
    constructor
    · intro hsum _
      exact Nat.lt_of_mul_lt_mul_left (lt_of_le_of_lt (Nat.le_add_left _ _) hsum)
    · intro hl
      have hle := Nat.mul_le_mul_left (128 ^ init.length) (Nat.succ_le_of_lt (hl rfl))
      rw [Nat.succ_eq_add_one, Nat.mul_add, Nat.mul_one] at hle
      omega

/-- The loops read what the bytes denote exactly if the last byte is small enough. -/
theorem getVarintLoop_exact_iff {w c : ℕ} (hw : 128 ^ k * c = 2 ^ w) (hc : 0 < c) (p : Slice) :
    Exact id (getVarintLoop w (k + 1) 0 0) p ↔ LastFits k c p := by
  have htaken : ∀ (init rest : Slice) (last : UInt8),
      (init ++ last :: rest).take ((init ++ last :: rest).length - rest.length) = init ++ [last] := by
    intro init rest last
    rw [List.append_cons, List.length_append, Nat.add_sub_cancel, List.take_left]
  constructor
  · rintro h init last rest rfl hlen hterm
    have hlt : init.length < k + 1 := by omega
    have hread := h _ _ (getVarintLoop_of_terminated hterm hlt)
    rw [htaken, id, Nat.zero_add, pow_zero, Nat.mul_one] at hread
    refine (denoted_lt_iff hw hc hterm hlt).mp ?_ hlen
    rw [← hread]
    exact Nat.mod_lt _ (Nat.two_pow_pos w)
  · intro h v rest hread
    obtain ⟨init, last, rfl, hterm, hlt, hv⟩ := terminated_of_getVarintLoop hread
    have hfits := (denoted_lt_iff hw hc hterm hlt).mpr fun hlen => h init last rest rfl hlen hterm
    rw [Nat.zero_add, pow_zero, Nat.mul_one, Nat.mod_eq_of_lt hfits] at hv
    rw [htaken]
    exact hv

/-- What is read as a number of fewer bits is exact when the number is. -/
theorem exact_map_iff {α : Type} {toNat : α → ℕ} {ofNat : ℕ → α} {get : Slice → Option (ℕ × Slice)} {p : Slice}
    (h : ∀ r, get p = some r → toNat (ofNat r.1) = r.1) :
    Exact toNat (fun p => (get p).map fun r => (ofNat r.1, r.2)) p ↔ Exact id get p := by
  constructor
  · intro hexact v rest hget
    have hv := hexact (ofNat v) rest (by simp [hget])
    rwa [h _ hget] at hv
  · intro hexact v rest hget
    obtain ⟨r, hr, heq⟩ := Option.map_eq_some_iff.mp hget
    cases heq
    rw [h _ hr]
    exact hexact r.1 r.2 hr

theorem lt_of_getVarintLoop {w turns : ℕ} {p : Slice} {r : ℕ × Slice} (h : getVarintLoop w turns 0 0 p = some r) :
    r.1 < 2 ^ w := by
  obtain ⟨init, last, -, -, -, hv⟩ := terminated_of_getVarintLoop h
  rw [hv]
  exact Nat.mod_lt _ (Nat.two_pow_pos w)

/-- On the fast path and in the fallback, `GetVarint32` gets what the bytes denote exactly if a
fifth byte is below 16, and `GetVarint64` exactly if a tenth byte is below 2. -/
theorem getVarint_exact_iff (p : Slice) : (Exact UInt32.toNat getVarint32Ptr p ↔ LastFits 4 16 p) ∧
    (Exact UInt32.toNat getVarint32PtrFallback p ↔ LastFits 4 16 p) ∧
    (Exact UInt64.toNat getVarint64 p ↔ LastFits 9 2 p) := by
  have hfallback : Exact UInt32.toNat getVarint32PtrFallback p ↔ LastFits 4 16 p :=
    (exact_map_iff fun r hr => by rw [UInt32.toNat_ofNat', Nat.mod_eq_of_lt (lt_of_getVarintLoop hr)]).trans
      (getVarintLoop_exact_iff (w := 32) (by decide) (by decide) p)
  have h64 : Exact UInt64.toNat getVarint64 p ↔ LastFits 9 2 p :=
    (exact_map_iff fun r hr => by rw [UInt64.toNat_ofNat', Nat.mod_eq_of_lt (lt_of_getVarintLoop hr)]).trans
      (getVarintLoop_exact_iff (w := 64) (by decide) (by decide) p)
  refine ⟨?_, hfallback, h64⟩
  rw [show getVarint32Ptr = getVarint32PtrFallback from funext getVarint32Ptr_eq_fallback]
  exact hfallback

/-- Five bytes that denote 2³² are read as 0 and ten bytes that denote 2⁶⁴ as 0. -/
theorem not_exact_overflow :
    getVarint32Ptr [128, 128, 128, 128, 16] = some (0, []) ∧ denoted [128, 128, 128, 128, 16] = 2 ^ 32 ∧
    ¬ Exact UInt32.toNat getVarint32Ptr [128, 128, 128, 128, 16] ∧
    ¬ Exact UInt64.toNat getVarint64 [128, 128, 128, 128, 128, 128, 128, 128, 128, 2] := by
  refine ⟨by decide, by decide, fun h => ?_, fun h => ?_⟩
  · exact absurd (h 0 [] (by decide)) (by decide)
  · exact absurd (h 0 [] (by decide)) (by decide)

/-! ### Lengths and prefixes -/

def varintLength (v : ℕ) : ℕ := if 128 ≤ v then varintLength (v / 2 ^ 7) + 1 else 1
termination_by v
decreasing_by omega

/-- A number that needs no more turns than there are is written in `VarintLength` bytes. -/
theorem length_encodeVarintLoop_eq (h : v < 2 ^ (7 * (k + 1))) : (encodeVarintLoop k v).length = varintLength v := by
  induction k generalizing v with
  | zero => rw [encodeVarintLoop, varintLength, if_neg (by omega), List.length_singleton]
  | succ k ih =>
    have hdiv : v / 2 ^ 7 < 2 ^ (7 * (k + 1)) := by
      rw [Nat.div_lt_iff_lt_mul (by decide), ← pow_add]
      exact h
    rw [encodeVarintLoop, varintLength]
    split_ifs
    · rw [List.length_cons, ih hdiv]
    · rfl

theorem encodeVarintLoop_terminated (h : v < 2 ^ (7 * (k + 1))) :
    ∃ init last, encodeVarintLoop k v = init ++ [last] ∧ Terminated init last := by
  have hlast : ∀ u, u < 128 → Terminated [] (UInt8.ofNat u) := fun u hu =>
    ⟨by simp, by rw [UInt8.toNat_ofNat']; omega⟩
  induction k generalizing v with
  | zero => exact ⟨[], UInt8.ofNat v, rfl, hlast v h⟩
  | succ k ih =>
    rw [encodeVarintLoop]
    split_ifs with hmore
    · have hdiv : v / 2 ^ 7 < 2 ^ (7 * (k + 1)) := by
        rw [Nat.div_lt_iff_lt_mul (by decide), ← pow_add]
        exact h
      obtain ⟨init, last, heq, hterm⟩ := ih hdiv
      refine ⟨more v :: init, last, by rw [heq, List.cons_append], ⟨List.forall_mem_cons.mpr ⟨?_, hterm.more⟩, hterm.last_lt⟩⟩
      rw [toNat_more]
      exact Nat.le_add_left _ _
    · exact ⟨[], UInt8.ofNat v, rfl, hlast v (by omega)⟩

theorem getVarintLoop_of_prefix {w turns : ℕ} (h : v < 2 ^ (7 * (k + 1))) (hq : q <+: encodeVarintLoop k v)
    (hne : q ≠ encodeVarintLoop k v) : getVarintLoop w turns 0 0 q = none := by
  obtain ⟨init, last, heq, hterm⟩ := encodeVarintLoop_terminated h
  rw [heq] at hq hne
  have hinit : q <+: init := (List.prefix_concat_iff.mp hq).resolve_left hne
  -- every byte says that there are more
  refine Option.eq_none_iff_forall_ne_some.mpr fun r hr => ?_
  obtain ⟨init', last', rfl, hterm', -⟩ := terminated_of_getVarintLoop hr
  have hmore := hterm.more last' (hinit.subset (by simp))
  exact absurd hterm'.last_lt (Nat.not_lt.mpr hmore)

/-! ### Items -/

/-- What the `Put` functions write. -/
inductive Item where
  | varint32 (v : UInt32)
  | varint64 (v : UInt64)
  | fixed32 (v : UInt32)
  | fixed64 (v : UInt64)
  | slice (s : Slice)

/-- What a `Get` function reads. -/
inductive Kind where
  | varint32
  | varint64
  | fixed32
  | fixed64
  | slice
deriving DecidableEq

namespace Item

def kind : Item → Kind
  | varint32 _ => .varint32
  | varint64 _ => .varint64
  | fixed32 _ => .fixed32
  | fixed64 _ => .fixed64
  | slice _ => .slice

/-- `PutVarint32`, `PutVarint64`, `PutFixed32`, `PutFixed64` and `PutLengthPrefixedSlice`: what is
appended. -/
def put : Item → Slice
  | varint32 v => encodeVarint32 v
  | varint64 v => encodeVarint64 v
  | fixed32 v => encodeFixed32 v
  | fixed64 v => encodeFixed64 v
  | slice s => putLengthPrefixedSlice s

/-- The length of a string is a number of 32 bits. -/
def Fits : Item → Prop
  | slice s => s.length < 2 ^ 32
  | _ => True

end Item

/-- `GetVarint32`, `GetVarint64` and `GetLengthPrefixedSlice`. A number of fixed length is read by
`DecodeFixed`, which does not look where the string ends. -/
def Kind.get : Kind → Slice → Option (Item × Slice)
  | .varint32, p => (getVarint32Ptr p).map fun r => (.varint32 r.1, r.2)
  | .varint64, p => (getVarint64 p).map fun r => (.varint64 r.1, r.2)
  | .fixed32, p => some (.fixed32 (decodeFixed32 p), p.drop 4)
  | .fixed64, p => some (.fixed64 (decodeFixed64 p), p.drop 8)
  | .slice, p => (getLengthPrefixedSlice p).map fun r => (.slice r.1, r.2)

/-- Reading items of these kinds one after the other. -/
def getItems : List Kind → Slice → Option (List Item × Slice)
  | [], p => some ([], p)
  | kind :: kinds, p => do
    let (item, p) ← kind.get p
    let (items, p) ← getItems kinds p
    some (item :: items, p)

namespace Item

theorem get_put {i : Item} (h : i.Fits) (rest : Slice) : i.kind.get (i.put ++ rest) = some (i, rest) := by
  cases i with
  | varint32 v => simp [kind, put, Kind.get]
  | varint64 v => simp [kind, put, Kind.get]
  | fixed32 v =>
    have hdrop : (encodeFixed32 v ++ rest).drop 4 = rest := List.drop_left' (length_encodeFixed32 v)
    simp [kind, put, Kind.get, hdrop]
  | fixed64 v =>
    have hdrop : (encodeFixed64 v ++ rest).drop 8 = rest := List.drop_left' (length_encodeFixed64 v)
    simp [kind, put, Kind.get, hdrop]
  | slice s =>
    have hget := @getLengthPrefixedSlice_put s h rest
    simp [kind, put, Kind.get, hget]

/-- The number of bytes of a varint. -/
def VarintLengthEq : Item → Prop
  | varint32 v => (encodeVarint32 v).length = varintLength v.toNat
  | varint64 v => (encodeVarint64 v).length = varintLength v.toNat
  | _ => True

theorem varintLengthEq (i : Item) : i.VarintLengthEq := by
  cases i with
  | varint32 v =>
    have hv := v.toNat_lt
    rw [VarintLengthEq, encodeVarint32_eq_loop]
    exact length_encodeVarintLoop_eq (by omega)
  | varint64 v =>
    have hv := v.toNat_lt
    exact length_encodeVarintLoop_eq (k := 9) (by omega)
  | fixed32 | fixed64 | slice => trivial

theorem getVarint32Ptr_of_prefix {v : UInt32} (hq : q <+: encodeVarint32 v) (hne : q ≠ encodeVarint32 v) :
    getVarint32Ptr q = none := by
  have hv := v.toNat_lt
  rw [encodeVarint32_eq_loop] at hq hne
  rw [getVarint32Ptr_eq_fallback, getVarint32PtrFallback, getVarintLoop_of_prefix (by omega) hq hne]
  rfl

/-- A string that is cut off, in its length or after it, is not read. -/
theorem getLengthPrefixedSlice_of_prefix {s : Slice} (h : s.length < 2 ^ 32) (hq : q <+: putLengthPrefixedSlice s)
    (hne : q ≠ putLengthPrefixedSlice s) : getLengthPrefixedSlice q = none := by
  have hlen : (UInt32.ofNat s.length).toNat = s.length := by rw [UInt32.toNat_ofNat', Nat.mod_eq_of_lt h]
  unfold putLengthPrefixedSlice at hq hne
  unfold getLengthPrefixedSlice
  rcases List.prefix_or_prefix_of_prefix hq (List.prefix_append (encodeVarint32 (UInt32.ofNat s.length)) s) with hcut | hcut
  · by_cases heq : q = encodeVarint32 (UInt32.ofNat s.length)
    · -- the length is all there is
      have hs : s ≠ [] := fun hnil => hne (by rw [heq, hnil, List.append_nil])
      have hread := getVarint32Ptr_encodeVarint32 (UInt32.ofNat s.length) []
      rw [List.append_nil, ← heq] at hread
      simp [hread, hlen, hs]
    · simp [ getVarint32Ptr_of_prefix hcut heq]
  · obtain ⟨t, rfl⟩ := hcut
    rw [List.prefix_append_right_inj] at hq
    have ht : t.length < s.length := by
      refine lt_of_le_of_ne hq.length_le fun hl => hne ?_
      rw [hq.eq_of_length hl]
    simp [hlen, Nat.not_le.mpr ht]

/-- The encodings that say themselves where they end. -/
def Delimited : Item → Prop
  | fixed32 _ => False
  | fixed64 _ => False
  | _ => True

theorem get_of_prefix {i : Item} (h : i.Fits) (hd : i.Delimited) (hq : q <+: i.put) (hne : q ≠ i.put) :
    i.kind.get q = none := by
  cases i with
  | varint32 v => rw [kind, Kind.get, getVarint32Ptr_of_prefix hq hne]; rfl
  | varint64 v =>
    have hv := v.toNat_lt
    rw [kind, Kind.get, getVarint64, getVarintLoop_of_prefix (k := 9) (by omega) hq hne]
    rfl
  | fixed32 | fixed64 => cases hd
  | slice s => rw [kind, Kind.get, getLengthPrefixedSlice_of_prefix h hq hne]; rfl

end Item

/-- Items that were put one after the other are read back, and what follows is left. A varint
takes as many bytes as `VarintLength` says, and no varint or string is read from a part of it. -/
theorem getItems_putItems (items : List Item) (h : ∀ i ∈ items, i.Fits) (rest : Slice) :
    getItems (items.map Item.kind) (items.flatMap Item.put ++ rest) = some (items, rest) ∧
    (∀ i ∈ items, i.VarintLengthEq) ∧
    ∀ i ∈ items, i.Delimited → ∀ q, q <+: i.put → q ≠ i.put → i.kind.get q = none := by
  refine ⟨?_, fun i _ => i.varintLengthEq, fun i hi hd q hq hne => Item.get_of_prefix (h i hi) hd hq hne⟩
  induction items with
  | nil => rfl
  | cons i items ih =>
    obtain ⟨hi, hitems⟩ := List.forall_mem_cons.mp h
    rw [List.map_cons, List.flatMap_cons, List.append_assoc, getItems, Item.get_put hi]
    simp [ih hitems]

/-- A number in two bytes, one in four, and a string. -/
theorem getItems_putItems_three : getItems [.varint32, .fixed32, .slice]
    ([.varint32 300, .fixed32 7, .slice [1, 2]].flatMap Item.put ++ [9]) =
      some ([.varint32 300, .fixed32 7, .slice [1, 2]], [9]) :=
  (getItems_putItems [.varint32 300, .fixed32 7, .slice [1, 2]] (by simp [Item.Fits]) [9]).1

end TLevelDB.Coding
