import TLevelDB.Db.Impl
import TLevelDB.Db.MemTable
import TLevelDB.Lib.Streams
import TLevelDB.Log.Format

/-!
# Write batches as strings

`WriteBatch` keeps its operations as one string: a sequence number of eight bytes, a count of
four, and then for each operation a type and the key and the value after their lengths.
`Iterate` goes through it and gives the operations to a handler one by one, so that what comes
before something malformed has been handled when it fails.

What `Put` and `Delete` have put together is what `InsertInto` adds to a memtable
(`insertInto_contents`).
-/

namespace TLevelDB.Db

open Coding Log Streams

namespace WriteBatch

def kHeader : ℕ := 12

/-- `GetLengthPrefixedSlice` of `coding.cc`, from a `Slice`. -/
def getLengthPrefixedSlice (input : Slice) : Option (Slice × Slice) := do
  let (len, rest) ← getVarint32Ptr input
  if len.toNat ≤ rest.length then some (rest.take len.toNat, rest.drop len.toNat) else none

def putLengthPrefixedSlice (value : Slice) : Slice := encodeVarint32 (UInt32.ofNat value.length) ++ value

def sequence (rep : Slice) : UInt64 := decodeFixed64 rep

def count (rep : Slice) : UInt32 := decodeFixed32 (rep.drop 8)

def setSequence (rep : Slice) (seq : UInt64) : Slice := encodeFixed64 seq ++ rep.drop 8

def setCount (rep : Slice) (n : UInt32) : Slice := rep.take 8 ++ encodeFixed32 n ++ rep.drop kHeader

def clear : Slice := List.replicate kHeader 0

/-- What `Put` and `Delete` append. -/
def opBytes : Op Slice Slice → Slice
  | .put key value => 1 :: (putLengthPrefixedSlice key ++ putLengthPrefixedSlice value)
  | .delete key => 0 :: putLengthPrefixedSlice key

/-- `Put` and `Delete`. -/
def add (rep : Slice) (op : Op Slice Slice) : Slice := setCount rep (count rep + 1) ++ opBytes op

/-- `WriteBatchInternal::Append`. -/
def append (dst src : Slice) : Slice := setCount dst (count dst + count src) ++ src.drop kHeader

/-- The loop of `Iterate`, in which every turn takes at least one byte: the operations that
the handler gets, and the error. -/
def iterateLoop (n : UInt32) : ℕ → Slice → ℕ → List (Op Slice Slice) × Option String
  | 0, _, _ => ([], none)
  | _ + 1, [], found => ([], if UInt32.ofNat found = n then none else some "WriteBatch has wrong count")
  | fuel + 1, tag :: input, found =>
    if tag = 1 then
      match getLengthPrefixedSlice input with
      | none => ([], some "bad WriteBatch Put")
      | some (key, input) =>
        match getLengthPrefixedSlice input with
        | none => ([], some "bad WriteBatch Put")
        | some (value, input) =>
          let rest := iterateLoop n fuel input (found + 1)
          (.put key value :: rest.1, rest.2)
    else if tag = 0 then
      match getLengthPrefixedSlice input with
      | none => ([], some "bad WriteBatch Delete")
      | some (key, input) =>
        let rest := iterateLoop n fuel input (found + 1)
        (.delete key :: rest.1, rest.2)
    else ([], some "unknown WriteBatch tag")

def iterate (rep : Slice) : List (Op Slice Slice) × Option String :=
  if rep.length < kHeader then ([], some "malformed WriteBatch (too small)")
  else iterateLoop (count rep) (rep.length + 1) (rep.drop kHeader) 0

/-- What `MemTableInserter` gives to `Add`. -/
def operation (seq : UInt64) : Op Slice Slice → MemTable.Operation
  | .put key value => ⟨seq, .value, key, value⟩
  | .delete key => ⟨seq, .deletion, key, []⟩

/-- `InsertInto`, of the bytes of a batch: what is added to the memtable, and the error. -/
def insertInto (rep : Slice) : List MemTable.Operation × Option String :=
  ((iterate rep).1.mapIdx fun i op => operation (sequence rep + UInt64.ofNat i) op, (iterate rep).2)

/-! ### Operations of a batch -/

/-- The sizes that a length can say. -/
def SizesFit : Op Slice Slice → Prop
  | .put key value => key.length < 2 ^ 32 ∧ value.length < 2 ^ 32
  | .delete key => key.length < 2 ^ 32

theorem getLengthPrefixedSlice_put {s : Slice} (h : s.length < 2 ^ 32) (rest : Slice) :
    getLengthPrefixedSlice (putLengthPrefixedSlice s ++ rest) = some (s, rest) := by
  have hlen : (UInt32.ofNat s.length).toNat = s.length := by rw [UInt32.toNat_ofNat', Nat.mod_eq_of_lt h]
  simp [getLengthPrefixedSlice, putLengthPrefixedSlice, hlen]

theorem leaves_getVarint32Ptr {n : ℕ} {input : Slice} (h : input.length ≤ n) : Leaves n (getVarint32Ptr input) :=
  fun _ hr => (suffix_of_getVarint32Ptr hr).2.trans_le h

theorem leaves_getLengthPrefixedSlice {n : ℕ} {input : Slice} (h : input.length ≤ n) :
    Leaves n (getLengthPrefixedSlice input) :=
  .bind (leaves_getVarint32Ptr h) fun len rest hrest => .ite (.some (by rw [List.length_drop]; omega)) .none

theorem opBytes_ne_nil (op : Op Slice Slice) : 0 < (opBytes op).length := by
  cases op <;> simp [opBytes]

theorem iterateLoop_opBytes {op : Op Slice Slice} (h : SizesFit op) (n : UInt32) (fuel : ℕ) (rest : Slice) (found : ℕ) :
    iterateLoop n (fuel + 1) (opBytes op ++ rest) found =
      (op :: (iterateLoop n fuel rest (found + 1)).1, (iterateLoop n fuel rest (found + 1)).2) := by
  cases op with
  | put key value =>
    have hkey := getLengthPrefixedSlice_put h.1 (putLengthPrefixedSlice value ++ rest)
    have hvalue := getLengthPrefixedSlice_put h.2 rest
    simp [opBytes, iterateLoop, hkey, hvalue]
  | delete key =>
    have hkey := @getLengthPrefixedSlice_put key h rest
    simp [opBytes, iterateLoop, hkey]

variable {ops : List (Op Slice Slice)} {rep : Slice}

theorem iterateLoop_flatMap (h : ∀ op ∈ ops, SizesFit op) {n : UInt32} {fuel : ℕ}
    (hfuel : ops.length < fuel) {found : ℕ} (hcount : UInt32.ofNat (found + ops.length) = n) :
    iterateLoop n fuel (ops.flatMap opBytes) found = (ops, none) := by
  induction ops generalizing fuel found with
  | nil =>
    obtain ⟨fuel, rfl⟩ := Nat.exists_eq_add_of_lt hfuel
    simpa [iterateLoop] using hcount
  | cons op ops ih =>
    obtain ⟨fuel, rfl⟩ : ∃ k, fuel = k + 1 := ⟨fuel - 1, by omega⟩
    rw [List.flatMap_cons, iterateLoop_opBytes (h op List.mem_cons_self),
      ih (fun op' hop' => h op' (List.mem_cons_of_mem op hop')) (by simpa using hfuel)
        (by rw [← hcount, List.length_cons, Nat.add_right_comm, Nat.add_assoc])]

/-- What a batch consists of. -/
structure Holds (rep : Slice) (ops : List (Op Slice Slice)) : Prop where
  length_le : kHeader ≤ rep.length
  count_eq : count rep = UInt32.ofNat ops.length
  body : rep.drop kHeader = ops.flatMap opBytes

theorem holds_clear : Holds clear [] := ⟨by decide, by decide, by decide⟩

/-- What `SetCount` and what is then appended do to a batch. -/
theorem setCount_append (h : kHeader ≤ rep.length) (n : UInt32) (more : Slice) :
    kHeader ≤ (setCount rep n ++ more).length ∧ count (setCount rep n ++ more) = n ∧
      (setCount rep n ++ more).drop kHeader = rep.drop kHeader ++ more := by
  have htake : (rep.take 8).length = 8 := by
    rw [kHeader] at h
    rw [List.length_take]
    omega
  have hcount : (setCount rep n ++ more).drop 8 = encodeFixed32 n ++ (rep.drop kHeader ++ more) := by
    rw [setCount, List.append_assoc, List.append_assoc, List.drop_left' htake]
  refine ⟨?_, ?_, ?_⟩
  · simp only [setCount, List.length_append, htake, length_encodeFixed32, kHeader]
    omega
  · rw [count, hcount, decodeFixed32_encodeFixed32]
  · have hdrop := congrArg (List.drop 4) hcount
    rwa [List.drop_drop, List.drop_left' (length_encodeFixed32 _)] at hdrop

theorem Holds.add (h : Holds rep ops) (op : Op Slice Slice) :
    Holds (add rep op) (ops ++ [op]) := by
  obtain ⟨hlen, hcount, hbody⟩ := setCount_append h.length_le (count rep + 1) (opBytes op)
  refine ⟨hlen, hcount.trans ?_, hbody.trans ?_⟩
  · rw [h.count_eq, List.length_append, List.length_singleton, UInt32.ofNat_add]
    rfl
  · rw [h.body, List.flatMap_append, List.flatMap_singleton]

theorem Holds.append {src : Slice} {ops' : List (Op Slice Slice)} (h : Holds rep ops) (h' : Holds src ops') :
    Holds (append rep src) (ops ++ ops') := by
  obtain ⟨hlen, hcount, hbody⟩ := setCount_append h.length_le (count rep + count src) (src.drop kHeader)
  refine ⟨hlen, hcount.trans ?_, hbody.trans ?_⟩
  · rw [h.count_eq, h'.count_eq, List.length_append, UInt32.ofNat_add]
  · rw [h.body, h'.body, List.flatMap_append]

theorem Holds.setSequence (h : Holds rep ops) (seq : UInt64) :
    Holds (setSequence rep seq) ops := by
  have hdrop : ∀ k, 8 ≤ k → (WriteBatch.setSequence rep seq).drop k = rep.drop k := by
    intro k hk
    obtain ⟨j, rfl⟩ := Nat.exists_eq_add_of_le hk
    rw [WriteBatch.setSequence, ← List.drop_drop, List.drop_left' (length_encodeFixed64 seq), List.drop_drop]
  constructor
  · have hlen := h.length_le
    rw [WriteBatch.setSequence, List.length_append, length_encodeFixed64, List.length_drop]
    omega
  · rw [count, hdrop 8 le_rfl]
    exact h.count_eq
  · rw [hdrop kHeader (by decide)]
    exact h.body

/-- The contents of a batch with these operations and this sequence number. -/
def contents (seq : UInt64) (ops : List (Op Slice Slice)) : Slice := setSequence (ops.foldl add clear) seq

theorem holds_contents (seq : UInt64) (ops : List (Op Slice Slice)) : Holds (contents seq ops) ops := by
  have hfold : ∀ (ops done : List (Op Slice Slice)) (rep : Slice), Holds rep done →
      Holds (ops.foldl add rep) (done ++ ops) := by
    intro ops
    induction ops with
    | nil =>
      intro done rep h
      rwa [List.append_nil]
    | cons op ops ih =>
      intro done rep h
      have hrest := ih (done ++ [op]) (add rep op) (h.add op)
      rwa [List.append_assoc] at hrest
  exact (hfold ops [] clear holds_clear).setSequence seq

/-- There are at least as many bytes as operations. -/
theorem length_le_flatMap_opBytes (ops : List (Op Slice Slice)) : ops.length ≤ (ops.flatMap opBytes).length := by
  rw [List.length_flatMap]
  induction ops with
  | nil => exact Nat.zero_le _
  | cons op ops ih =>
    have hpos := opBytes_ne_nil op
    rw [List.map_cons, List.sum_cons, List.length_cons]
    omega

theorem Holds.iterate (h : Holds rep ops) (hfit : ∀ op ∈ ops, SizesFit op) :
    iterate rep = (ops, none) := by
  have hfuel : ops.length < rep.length + 1 := by
    have hlen := length_le_flatMap_opBytes ops
    rw [← h.body, List.length_drop] at hlen
    omega
  rw [WriteBatch.iterate, if_neg h.length_le.not_gt, h.body, h.count_eq]
  exact iterateLoop_flatMap hfit hfuel (by rw [Nat.zero_add])

/-- **What was put into a batch is added to the memtable**, with numbers from the one of the
batch on. -/
theorem insertInto_contents (seq : UInt64) (h : ∀ op ∈ ops, SizesFit op) :
    insertInto (contents seq ops) = (ops.mapIdx fun i op => operation (seq + UInt64.ofNat i) op, none) := by
  have hseq : sequence (contents seq ops) = seq := decodeFixed64_encodeFixed64 seq _
  rw [insertInto, (holds_contents seq ops).iterate h, hseq]

end WriteBatch

end TLevelDB.Db
