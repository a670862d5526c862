import TLevelDB.Table.BlockCursor

/-!
# What `BlockBuilder` builds can be read

The entries are in the block one after the other, and every `interval`-th of them is a
restart point (`BlockBuilder.layout`). So the iterator over a block that was built of some
entries is a cursor over these entries.
-/

namespace TLevelDB.Table

open Coding Log Cursors Block

/-! ### An entry -/

theorem or_toNat_lt_iff (a b : UInt8) : (a ||| b).toNat < 128 ↔ a.toNat < 128 ∧ b.toNat < 128 := by
  rw [UInt8.toNat_or]
  constructor
  · exact fun h => ⟨Nat.left_le_or.trans_lt h, Nat.right_le_or.trans_lt h⟩
  · exact fun h => Nat.or_lt_two_pow (n := 7) h.1 h.2

/-- The fast path finds what the slow one does. -/
theorem decodeEntry_eq {p : Slice} (h : 3 ≤ p.length) : decodeEntry p = (decodeLengths p).bind DecodedEntry.check := by
  match p, h with
  | b₀ :: b₁ :: b₂ :: p, _ =>
    rw [decodeEntry]
    split
    · rename_i hfast
      obtain ⟨⟨h₀, h₁⟩, h₂⟩ : (b₀.toNat < 128 ∧ b₁.toNat < 128) ∧ b₂.toNat < 128 := by
        simpa only [or_toNat_lt_iff] using hfast
      simp [decodeLengths, getVarint32Ptr, h₀, h₁, h₂]
    · rfl

theorem decodeEntry_entryBytes {shared : ℕ} {key value rest : Slice}
    (h : (key.drop shared ++ value ++ rest).length < 2 ^ 32) :
    decodeEntry (BlockBuilder.entryBytes shared key value ++ rest) = some ⟨UInt32.ofNat shared,
      UInt32.ofNat (key.length - shared), UInt32.ofNat value.length, key.drop shared ++ value ++ rest⟩ := by
  have hlen : 3 ≤ (BlockBuilder.entryBytes shared key value ++ rest).length := by
    have h₀ := length_encodeVarint32 (UInt32.ofNat shared)
    have h₁ := length_encodeVarint32 (UInt32.ofNat (key.length - shared))
    have h₂ := length_encodeVarint32 (UInt32.ofNat value.length)
    simp only [BlockBuilder.entryBytes, List.length_append]
    omega
  have hlengths : decodeLengths (BlockBuilder.entryBytes shared key value ++ rest) = some ⟨UInt32.ofNat shared,
      UInt32.ofNat (key.length - shared), UInt32.ofNat value.length, key.drop shared ++ value ++ rest⟩ := by
    simp [decodeLengths, BlockBuilder.entryBytes]
  rw [decodeEntry_eq hlen, hlengths, Option.bind_some, DecodedEntry.check]
  simp only [List.length_append, List.length_drop] at h ⊢
  rw [if_neg]
  rw [UInt32.toNat_add, UInt32.toNat_ofNat', UInt32.toNat_ofNat']
  omega

/-- An array of fixed-length integers. -/
theorem decodeFixed32_drop_flatMap {l : List UInt32} {j : ℕ} (hj : j < l.length) (rest : Slice) :
    decodeFixed32 ((l.flatMap encodeFixed32 ++ rest).drop (j * 4)) = l[j] := by
  induction l generalizing j with
  | nil => cases hj
  | cons v l ih =>
    rw [List.flatMap_cons, List.append_assoc]
    cases j with
    | zero => rw [Nat.zero_mul, List.drop_zero, decodeFixed32_encodeFixed32]; rfl
    | succ j =>
      have hdrop : (j + 1) * 4 = (encodeFixed32 v).length + j * 4 := by
        rw [length_encodeFixed32]
        omega
      rw [hdrop, ← List.drop_drop, List.drop_left, ih (by simpa using hj)]
      rfl

theorem length_flatMap_encodeFixed32 (l : List UInt32) : (l.flatMap encodeFixed32).length = l.length * 4 := by
  induction l with
  | nil => rfl
  | cons v l ih =>
    rw [List.flatMap_cons, List.length_append, ih, length_encodeFixed32, List.length_cons]
    omega

namespace BlockBuilder

variable {interval i : ℕ} {es : List (Slice × Slice)}

/-! ### The builder after some entries -/

theorem addAll_snoc (es : List (Slice × Slice)) (e : Slice × Slice) :
    addAll interval (es ++ [e]) = (addAll interval es).add interval e.1 e.2 := by
  simp [addAll]

variable (interval) in
theorem shared_le (b : BlockBuilder) (key : Slice) :
    b.shared interval key ≤ b.lastKey.length ∧ b.shared interval key ≤ key.length := by
  rw [shared]
  split
  · exact commonPrefix_le _ _
  · exact ⟨Nat.zero_le _, Nat.zero_le _⟩

variable (interval) in
/-- What is shared is the same in both keys. -/
theorem take_shared (b : BlockBuilder) (key : Slice) :
    b.lastKey.take (b.shared interval key) = key.take (b.shared interval key) := by
  rw [shared]
  split
  · exact take_commonPrefix _ _
  · rfl

@[simp] theorem lastKey_add (b : BlockBuilder) (key value : Slice) : (b.add interval key value).lastKey = key := by
  rw [add, take_shared interval, List.take_append_drop]

variable (interval es) in
/-- The builder after the first `i` entries. -/
abbrev after (i : ℕ) : BlockBuilder := addAll interval (es.take i)

theorem after_succ (hi : i < es.length) : after interval es (i + 1) = (after interval es i).add interval es[i].1 es[i].2 := by
  rw [after, List.take_succ_eq_append_getElem hi, addAll_snoc]

theorem buffer_after_succ (hi : i < es.length) : (after interval es (i + 1)).buffer =
    (after interval es i).buffer ++ entryBytes ((after interval es i).shared interval es[i].1) es[i].1 es[i].2 := by
  rw [after_succ hi]
  rfl

theorem lastKey_after_succ (hi : i < es.length) : (after interval es (i + 1)).lastKey = es[i].1 := by
  rw [after_succ hi, lastKey_add]

theorem succ_mod (hpos : 0 < interval) (i : ℕ) :
    (i + 1) % interval = if i % interval + 1 < interval then i % interval + 1 else 0 := by
  have hlt := Nat.mod_lt i hpos
  split
  · rename_i h
    rw [Nat.add_mod, Nat.mod_eq_of_lt (a := 1) (by omega), Nat.mod_eq_of_lt h]
  · rename_i h
    have hdiv := Nat.div_add_mod i interval
    have heq : i + 1 = interval * (i / interval + 1) := by
      rw [Nat.mul_add]
      omega
    rw [heq, Nat.mul_mod_right]

theorem counter_after_succ (hpos : 0 < interval) (hi : i < es.length) :
    (after interval es (i + 1)).counter = i % interval + 1 := by
  induction i with
  | zero => rw [after_succ hi]; simp [add, addAll, hpos]
  | succ i ih =>
    rw [after_succ hi, add]
    simp only [ih (by omega), succ_mod hpos i]

/-- The entries at which the builder does not restart. -/
theorem counter_lt_iff (hpos : 0 < interval) (hi : i ≤ es.length) :
    (after interval es i).counter < interval ↔ i = 0 ∨ i % interval ≠ 0 := by
  cases i with
  | zero => simpa [addAll] using hpos
  | succ i =>
    rw [counter_after_succ hpos hi, succ_mod hpos i]
    split <;> simp_all

theorem shared_of_dvd (hpos : 0 < interval) (hi : i ≤ es.length) (h : i % interval = 0) (key : Slice) :
    (after interval es i).shared interval key = 0 := by
  rw [shared]
  split
  · rename_i hlt
    rcases (counter_lt_iff hpos hi).mp hlt with rfl | hne
    · simp [addAll, commonPrefix]
    · exact absurd h hne
  · rfl

variable (interval es) in
/-- The offset of an entry. -/
abbrev offset (i : ℕ) : ℕ := (after interval es i).buffer.length

theorem restarts_after (hpos : 0 < interval) (hi : i ≤ es.length) : (after interval es i).restarts =
    (List.range ((i - 1) / interval + 1)).map fun j => UInt32.ofNat (offset interval es (j * interval)) := by
  induction i with
  | zero => simp [offset, addAll]
  | succ i ih =>
    rw [after_succ hi, add]
    simp only [counter_lt_iff hpos (Nat.le_of_succ_le hi), ih (Nat.le_of_succ_le hi), Nat.add_sub_cancel]
    split
    · rename_i h
      have hdiv : (i - 1) / interval = i / interval := by
        cases i with
        | zero => rfl
        | succ i =>
          rw [Nat.add_sub_cancel, Nat.succ_div, if_neg]
          rfl
          exact fun hd => h.elim (by omega) fun hne => hne (Nat.mod_eq_zero_of_dvd hd)
      rw [hdiv]
    · rename_i h
      rw [not_or, not_not] at h
      obtain ⟨j, rfl⟩ := Nat.dvd_of_mod_eq_zero h.2
      cases j with
      | zero => exact absurd (Nat.mul_zero _) h.1
      | succ j =>
        have hdiv : (interval * (j + 1) - 1) / interval = j := by
          rw [Nat.mul_add, Nat.mul_one, Nat.add_sub_assoc hpos, Nat.mul_add_div hpos, Nat.div_eq_of_lt (by omega),
            Nat.add_zero]
        rw [hdiv, Nat.mul_div_cancel_left _ hpos, List.range_succ (n := j + 1), List.map_append,
          Nat.mul_comm interval (j + 1)]
        rfl

theorem restarts_addAll (hpos : 0 < interval) : (addAll interval es).restarts =
    (List.range ((es.length - 1) / interval + 1)).map fun j => UInt32.ofNat (offset interval es (j * interval)) := by
  have hr := restarts_after hpos (le_refl es.length)
  rwa [after, List.take_length] at hr

theorem restart_le (hpos : 0 < interval) {j : ℕ} (hj : j < (addAll interval es).restarts.length) :
    j * interval ≤ es.length - 1 := by
  rw [restarts_addAll hpos, List.length_map, List.length_range] at hj
  calc j * interval ≤ (es.length - 1) / interval * interval := Nat.mul_le_mul_right _ (by omega)
    _ ≤ es.length - 1 := Nat.div_mul_le_self _ _

/-! ### The layout -/

variable (interval) in
theorem buffer_after_isPrefix (hi : i ≤ es.length) :
    (after interval es i).buffer <+: (addAll interval es).buffer := by
  induction hn : es.length - i generalizing i with
  | zero =>
    rw [after, List.take_of_length_le (by omega)]
  | succ n ih =>
    have hlt : i < es.length := by omega
    refine List.IsPrefix.trans ?_ (ih (i := i + 1) hlt (by omega))
    rw [buffer_after_succ hlt]
    exact List.prefix_append _ _

variable (interval) in
/-- A key is no longer than what has been written with it. -/
theorem length_key_le (hi : i < es.length) : es[i].1.length ≤ offset interval es (i + 1) := by
  have hstep : ∀ i, ∀ h : i < es.length, es[i].1.length - (after interval es i).shared interval es[i].1 +
      offset interval es i ≤ offset interval es (i + 1) := by
    intro i h
    simp only [offset, buffer_after_succ h, entryBytes, List.length_append, List.length_drop]
    omega
  induction i with
  | zero =>
    have hle := hstep 0 hi
    have hshared := (shared_le interval (after interval es 0) es[0].1).1
    have hempty : (after interval es 0).lastKey.length = 0 := rfl
    omega
  | succ i ih =>
    have hprev := ih (by omega)
    have hle := hstep (i + 1) hi
    have hshared := (shared_le interval (after interval es (i + 1)) es[i + 1].1).1
    rw [lastKey_after_succ (by omega)] at hshared
    omega

theorem length_finish (b : BlockBuilder) : b.finish.length = b.buffer.length + b.restarts.length * 4 + 4 := by
  simp only [finish, List.length_append, length_flatMap_encodeFixed32, length_encodeFixed32]
  omega

variable (interval) in
theorem offset_le (hi : i ≤ es.length) : offset interval es i ≤ (addAll interval es).buffer.length :=
  (buffer_after_isPrefix interval hi).length_le

variable (interval) in
/-- An entry, and what follows it. -/
theorem drop_offset (hi : i < es.length) : (addAll interval es).buffer.drop (offset interval es i) =
    entryBytes ((after interval es i).shared interval es[i].1) es[i].1 es[i].2 ++
      (addAll interval es).buffer.drop (offset interval es (i + 1)) := by
  obtain ⟨t, ht⟩ := buffer_after_isPrefix interval (show i + 1 ≤ es.length from hi)
  rw [← ht, offset, offset, List.drop_left, buffer_after_succ hi, List.append_assoc, List.drop_left]

/-- What `DecodeEntry` finds at an entry. -/
def decodedAt (interval : ℕ) (es : List (Slice × Slice)) (i : ℕ) : DecodedEntry :=
  let e := es.getD i ([], [])
  let shared := (after interval es i).shared interval e.1
  ⟨UInt32.ofNat shared, UInt32.ofNat (e.1.length - shared), UInt32.ofNat e.2.length,
    e.1.drop shared ++ e.2 ++ (addAll interval es).buffer.drop (offset interval es (i + 1))⟩

section Bounded

variable (hsize : (addAll interval es).finish.length < 2 ^ 32)

include hsize in
/-- All that the block holds of an entry has its length in 32 bits. -/
theorem toNat_decodedAt (hi : i < es.length) :
    (decodedAt interval es i).shared.toNat = (after interval es i).shared interval es[i].1 ∧
      (decodedAt interval es i).nonShared.toNat = es[i].1.length - (after interval es i).shared interval es[i].1 ∧
      (decodedAt interval es i).valueLength.toNat = es[i].2.length ∧
      (decodedAt interval es i).keyDelta = es[i].1.drop ((after interval es i).shared interval es[i].1) ++ es[i].2 ++
        (addAll interval es).buffer.drop (offset interval es (i + 1)) := by
  have hle := offset_le interval (show i + 1 ≤ es.length from hi)
  have hkey := length_key_le interval hi
  have hshared := (shared_le interval (after interval es i) es[i].1).2
  have hvalue : es[i].2.length ≤ offset interval es (i + 1) := by
    simp only [offset, buffer_after_succ hi, entryBytes, List.length_append]
    omega
  rw [length_finish] at hsize
  simp only [decodedAt, List.getD_eq_getElem _ _ hi, UInt32.toNat_ofNat', and_true]
  refine ⟨Nat.mod_eq_of_lt ?_, Nat.mod_eq_of_lt ?_, Nat.mod_eq_of_lt ?_⟩ <;> omega

include hsize in
/-- The key that is stored in full or in part. -/
theorem take_keyDelta (hi : i < es.length) :
    (decodedAt interval es i).keyDelta.take (decodedAt interval es i).nonShared.toNat =
      es[i].1.drop ((after interval es i).shared interval es[i].1) := by
  obtain ⟨-, hnon, -, hdelta⟩ := toNat_decodedAt hsize hi
  rw [hnon, hdelta, List.append_assoc, List.take_left' (List.length_drop ..)]

include hsize in
theorem decodeEntry_drop (hi : i < es.length) :
    decodeEntry (((addAll interval es).finish.take (addAll interval es).buffer.length).drop (offset interval es i)) =
      some (decodedAt interval es i) := by
  rw [finish, List.take_left, drop_offset interval hi, decodeEntry_entryBytes, decodedAt, List.getD_eq_getElem _ _ hi]
  have hle := congrArg List.length (drop_offset interval hi)
  simp only [entryBytes, List.length_append] at hle ⊢
  rw [length_finish] at hsize
  simp only [List.length_drop] at hle ⊢
  omega

include hsize in
/-- Where the value of an entry is. -/
theorem valueStart (hi : i < es.length) : (addAll interval es).buffer.length - (decodedAt interval es i).keyDelta.length +
    (decodedAt interval es i).nonShared.toNat + (decodedAt interval es i).valueLength.toNat =
      offset interval es (i + 1) := by
  obtain ⟨-, hnon, hvalue, hdelta⟩ := toNat_decodedAt hsize hi
  have hle := offset_le interval (show i + 1 ≤ es.length from hi)
  have hentry : es[i].1.length - (after interval es i).shared interval es[i].1 + es[i].2.length ≤
      offset interval es (i + 1) := by
    simp only [offset, buffer_after_succ hi, entryBytes, List.length_append, List.length_drop]
    omega
  rw [hdelta, hnon, hvalue]
  simp only [List.length_append, List.length_drop]
  omega

include hsize in
theorem take_value (hi : i < es.length) : ((addAll interval es).finish.drop ((addAll interval es).buffer.length -
    (decodedAt interval es i).keyDelta.length + (decodedAt interval es i).nonShared.toNat)).take
      (decodedAt interval es i).valueLength.toNat = es[i].2 := by
  have hstart := valueStart hsize hi
  obtain ⟨-, -, hvalue, -⟩ := toNat_decodedAt hsize hi
  obtain ⟨t, ht⟩ := buffer_after_isPrefix interval (show i + 1 ≤ es.length from hi)
  obtain ⟨x, hx⟩ : ∃ x, (after interval es (i + 1)).buffer = x ++ es[i].2 :=
    ⟨_, by rw [buffer_after_succ hi, entryBytes, ← List.append_assoc, ← List.append_assoc, ← List.append_assoc,
      ← List.append_assoc]⟩
  have hlen : (addAll interval es).buffer.length - (decodedAt interval es i).keyDelta.length +
      (decodedAt interval es i).nonShared.toNat = x.length := by
    have hoff : offset interval es (i + 1) = x.length + es[i].2.length := by rw [offset, hx, List.length_append]
    omega
  rw [hlen, finish, ← ht, hx, List.append_assoc, List.append_assoc, List.drop_left, hvalue, List.take_left]

/-- Where the entries are. -/
def layout (hpos : 0 < interval) (hsize : (addAll interval es).finish.length < 2 ^ 32) :
    Layout (addAll interval es).finish (addAll interval es).buffer.length (addAll interval es).restarts.length es where
  offset := offset interval es
  restart j := j * interval
  decoded := decodedAt interval es
  offset_lt i hi := by
    have h₀ := length_encodeVarint32 (UInt32.ofNat ((after interval es i).shared interval es[i].1))
    simp only [offset, buffer_after_succ hi, entryBytes, List.length_append]
    omega
  offset_length := by rw [offset, after, List.take_length]
  restarts_lt := by
    rw [length_finish] at hsize
    omega
  numRestarts_pos := by simp [restarts_addAll hpos]
  numRestarts_lt := by
    rw [length_finish] at hsize
    omega
  restart_zero := Nat.zero_mul _
  restart_lt j _ := by
    rw [Nat.add_mul]
    omega
  restart_le j hj := restart_le hpos hj
  point j hj := by
    have hle := offset_le interval ((restart_le hpos hj).trans (Nat.sub_le es.length 1))
    have hget : (addAll interval es).restarts[j] = UInt32.ofNat (offset interval es (j * interval)) := by
      simp [restarts_addAll hpos]
    rw [length_finish] at hsize
    rw [finish, ← List.drop_drop, List.drop_left, decodeFixed32_drop_flatMap hj, hget, UInt32.toNat_ofNat',
      Nat.mod_eq_of_lt (by omega)]
  decode i hi := decodeEntry_drop hsize hi
  key_restart j _ hi := by
    obtain ⟨hshared, -⟩ := toNat_decodedAt hsize hi
    have hzero := shared_of_dvd hpos hi.le (Nat.mul_mod_left j interval) es[j * interval].1
    refine ⟨UInt32.toNat.inj (by rw [hshared, hzero]; rfl), ?_⟩
    rw [take_keyDelta hsize hi, hzero, List.drop_zero]
  key_succ i hi := by
    obtain ⟨hshared, -⟩ := toNat_decodedAt hsize hi
    have hle := shared_le interval (after interval es (i + 1)) es[i + 1].1
    have htake := take_shared interval (after interval es (i + 1)) es[i + 1].1
    rw [lastKey_after_succ (by omega)] at hle htake
    rw [hshared, take_keyDelta hsize hi, htake, List.take_append_drop]
    exact ⟨hle.1, rfl⟩
  value i hi := take_value hsize hi
  offset_succ i hi := valueStart hsize hi

end Bounded

/-- `Block` finds the restart points. -/
theorem new_finish (hsize : (addAll interval es).finish.length < 2 ^ 32) :
    Block.new (addAll interval es).finish = ⟨(addAll interval es).finish, (addAll interval es).finish.length,
      (addAll interval es).buffer.length⟩ ∧
    (Block.new (addAll interval es).finish).numRestarts = (addAll interval es).restarts.length := by
  have hnum : numRestartsAt (addAll interval es).finish (addAll interval es).finish.length =
      (addAll interval es).restarts.length := by
    have hdrop : (addAll interval es).finish.length - 4 =
        (addAll interval es).buffer.length + ((addAll interval es).restarts.flatMap encodeFixed32).length := by
      rw [length_finish, length_flatMap_encodeFixed32]
      omega
    rw [length_finish] at hsize
    rw [numRestartsAt, hdrop, finish, ← List.drop_drop, List.drop_left, List.drop_left,
      ← List.append_nil (encodeFixed32 _), decodeFixed32_encodeFixed32, UInt32.toNat_ofNat', Nat.mod_eq_of_lt (by omega)]
  have hnew : Block.new (addAll interval es).finish = ⟨(addAll interval es).finish, (addAll interval es).finish.length,
      (addAll interval es).buffer.length⟩ := by
    rw [Block.new]
    simp only [hnum]
    rw [length_finish] at hsize ⊢
    rw [if_neg (by omega), if_neg (by omega), Nat.mod_eq_of_lt (a := 1 + _) (by omega), Nat.mod_eq_of_lt (by omega)]
    congr 1
    omega
  exact ⟨hnew, by rw [hnew, numRestarts, hnum]⟩

end BlockBuilder

end TLevelDB.Table
