import TLevelDB.Db.WriteBatch
import TLevelDB.Lib.Streams
import TLevelDB.Log.Intact

/-!
# Batches and their operations

A batch that is put together with `Put`, `Delete`, `Clear` and `Append` stands for a list of
operations: the empty batch for none, and `Append` for one list after the other
(`Built.holds`). `Iterate` and `InsertInto` go through this list.

A batch may also come from a log. What follows its header is then any string; `Iterate` hands
out the records that it begins with (`handled_iterate`), and returns OK if that is all of it and
their number is the one in the header.
-/

namespace TLevelDB.Db

open Coding Log Streams

namespace WriteBatch

/-! ### Batches that are put together -/

/-- How a batch was put together. -/
inductive Built where
  /-- `WriteBatch::WriteBatch`. -/
  | new
  | put (b : Built) (key value : Slice)
  | delete (b : Built) (key : Slice)
  | clear (b : Built)
  | append (b source : Built)

namespace Built

def rep : Built → Slice
  | .new => WriteBatch.clear
  | .put b key value => add b.rep (.put key value)
  | .delete b key => add b.rep (.delete key)
  | .clear _ => WriteBatch.clear
  | .append b source => WriteBatch.append b.rep source.rep

/-- The operations that survive. -/
def ops : Built → List (Op Slice Slice)
  | .new => []
  | .put b key value => b.ops ++ [.put key value]
  | .delete b key => b.ops ++ [.delete key]
  | .clear _ => []
  | .append b source => b.ops ++ source.ops

theorem holds (b : Built) : Holds b.rep b.ops := by
  induction b with
  | new => exact holds_clear
  | put b key value ih => exact ih.add _
  | delete b key ih => exact ih.add _
  | clear b ih => exact holds_clear
  | append b source ih ih' => exact ih.append ih'

end Built

/-! ### Batches of any bytes -/

/-- A record: `kTypeValue varstring varstring` or `kTypeDeletion varstring`, at the front of a
string. -/
def readRecord : Slice → Option (Op Slice Slice × Slice)
  | [] => none
  | tag :: input =>
    if tag = 1 then do
      let (key, input) ← getLengthPrefixedSlice input
      let (value, input) ← getLengthPrefixedSlice input
      some (.put key value, input)
    else if tag = 0 then do
      let (key, input) ← getLengthPrefixedSlice input
      some (.delete key, input)
    else none

theorem leaves_readRecord (input : Slice) : Leaves input.length (readRecord input) := by
  cases input with
  | nil => exact .none
  | cons tag input =>
    have hle := Nat.le_succ input.length
    exact .ite (.bind (leaves_getLengthPrefixedSlice hle) fun key p hp =>
        .bind (leaves_getLengthPrefixedSlice hp.le) fun value q hq => .some hq)
      (.ite (.bind (leaves_getLengthPrefixedSlice hle) fun key p hp => .some hp) .none)

/-- A turn of the loop that finds a record. -/
theorem iterateLoop_of_readRecord {input rest : Slice} {op : Op Slice Slice} (h : readRecord input = some (op, rest))
    (n : UInt32) (fuel found : ℕ) : iterateLoop n (fuel + 1) input found =
      (op :: (iterateLoop n fuel rest (found + 1)).1, (iterateLoop n fuel rest (found + 1)).2) := by
  cases input with
  | nil => cases h
  | cons tag input =>
    rw [readRecord] at h
    rw [iterateLoop]
    split_ifs at h ⊢
    · simp only [Option.bind_eq_bind, Option.bind_eq_some_iff, Option.some.injEq, Prod.mk.injEq] at h
      obtain ⟨⟨key, p⟩, hkey, ⟨value, q⟩, hvalue, rfl, rfl⟩ := h
      simp only [hkey, hvalue]
    · simp only [Option.bind_eq_bind, Option.bind_eq_some_iff, Option.some.injEq, Prod.mk.injEq] at h
      obtain ⟨⟨key, p⟩, hkey, rfl, rfl⟩ := h
      simp only [hkey]

/-- A turn that finds something else. -/
theorem iterateLoop_of_stuck {tag : UInt8} {input : Slice} (h : readRecord (tag :: input) = none) (n : UInt32)
    (fuel found : ℕ) : ∃ msg, iterateLoop n (fuel + 1) (tag :: input) found = ([], some msg) := by
  rw [readRecord] at h
  rw [iterateLoop]
  split_ifs at h ⊢
  · cases hkey : getLengthPrefixedSlice input with
    | none => exact ⟨_, rfl⟩
    | some r =>
      cases hvalue : getLengthPrefixedSlice r.2 with
      | none => exact ⟨"bad WriteBatch Put", by simp only [hvalue]⟩
      | some r' => simp [hkey, hvalue] at h
  · cases hkey : getLengthPrefixedSlice input with
    | none => exact ⟨_, rfl⟩
    | some r => simp [hkey] at h
  · exact ⟨_, rfl⟩

/-- What the loop hands out, and when it finds nothing wrong. -/
theorem handled_iterateLoop {n : UInt32} {fuel : ℕ} {input : Slice} (hfuel : input.length < fuel) (found : ℕ) :
    ∃ rest, Reads readRecord input (iterateLoop n fuel input found).1 rest ∧ readRecord rest = none ∧
      ((iterateLoop n fuel input found).2 = none ↔
        rest = [] ∧ UInt32.ofNat (found + (iterateLoop n fuel input found).1.length) = n) := by
  induction fuel generalizing input found with
  | zero => omega
  | succ fuel ih =>
    cases hread : readRecord input with
    | some r =>
      obtain ⟨op, next⟩ := r
      have hlt : next.length < input.length := leaves_readRecord input _ hread
      obtain ⟨rest, hreads, hstuck, hok⟩ := ih (show next.length < fuel by omega) (found + 1)
      rw [iterateLoop_of_readRecord hread]
      refine ⟨rest, .cons hread hreads, hstuck, hok.trans ?_⟩
      rw [List.length_cons, Nat.add_right_comm, Nat.add_assoc]
    | none =>
      cases input with
      | nil =>
        refine ⟨[], .nil [], rfl, ?_⟩
        simp [iterateLoop]
      | cons tag input =>
        obtain ⟨msg, hmsg⟩ := iterateLoop_of_stuck hread n fuel found
        rw [hmsg]
        refine ⟨tag :: input, .nil _, hread, ?_⟩
        simp

/-- `Iterate` hands out the records that the batch begins with, and finds nothing wrong if there
is nothing else and the count is right. -/
theorem handled_iterate (rep : Slice) :
    ∃ rest, Reads readRecord (rep.drop kHeader) (iterate rep).1 rest ∧ readRecord rest = none ∧
      ((iterate rep).2 = none ↔
        kHeader ≤ rep.length ∧ rest = [] ∧ UInt32.ofNat (iterate rep).1.length = count rep) := by
  rw [iterate]
  split
  · rename_i hshort
    refine ⟨[], ?_, rfl, ?_⟩
    · rw [List.drop_eq_nil_of_le hshort.le]
      exact .nil []
    · simp [hshort.not_ge]
  · rename_i hlong
    obtain ⟨rest, hreads, hstuck, hok⟩ := @handled_iterateLoop (count rep) (rep.length + 1) (rep.drop kHeader)
      (by rw [List.length_drop]; omega) 0
    rw [Nat.zero_add] at hok
    exact ⟨rest, hreads, hstuck, by rw [hok, and_iff_right (not_lt.mp hlong)]⟩

theorem ofNat_eq_count_iff (k : ℕ) (n : UInt32) : UInt32.ofNat k = n ↔ k % 2 ^ 32 = n.toNat := by
  rw [← UInt32.toNat_inj, UInt32.toNat_ofNat']

/-- **A log of batches that was cut off** is read as its first batches, no fewer than are there as a
whole. No corruption is reported, each record has its header, and `InsertInto` adds the operations
of its batch. -/
theorem insertInto_read {batches : List (UInt64 × List (Op Slice Slice))} {j : ℕ} {file : List UInt8}
    (hfit : ∀ b ∈ batches, ∀ op ∈ b.2, SizesFit op) (hj : j ≤ batches.length)
    (hle : Log.write ((batches.take j).map fun b => contents b.1 b.2) <+: file)
    (hge : file <+: Log.write (batches.map fun b => contents b.1 b.2)) :
    intact file = true ∧ (∀ record ∈ Log.read file, kHeader ≤ record.length) ∧
      ∃ k, j ≤ k ∧ k ≤ batches.length ∧ (Log.read file).map insertInto =
        (batches.take k).map fun b => (b.2.mapIdx fun i op => operation (b.1 + UInt64.ofNat i) op, none) := by
  refine ⟨intact_of_prefix_write hge, ?_⟩
  rw [← writeRecords_encodeRecord] at hle hge
  rw [List.map_take] at hle
  obtain ⟨k, hjk, hk, hread⟩ := recordFormat.decode_of_prefix (by rwa [List.length_map]) hle hge
  have hread : Log.read file = (batches.take k).map fun b => contents b.1 b.2 := hread.trans List.map_take.symm
  refine ⟨?_, k, hjk, by rwa [List.length_map] at hk, ?_⟩
  · rw [hread]
    intro record hrecord
    obtain ⟨b, -, rfl⟩ := List.mem_map.mp hrecord
    exact (holds_contents b.1 b.2).length_le
  · rw [hread, List.map_map]
    exact List.map_congr_left fun b hb => insertInto_contents b.1 (hfit b (List.mem_of_mem_take hb))

/-- Two batches. -/
def twoBatches : List (UInt64 × List (Op Slice Slice)) := [(1, [.put [7] [8], .delete [9]]), (3, [.put [5] [6]])]

/-- The log breaks off in the second batch. -/
theorem insertInto_read_torn :
    (Log.read ((Log.write (twoBatches.map fun b => contents b.1 b.2)).take 40)).map insertInto =
      [([⟨1, .value, [7], [8]⟩, ⟨2, .deletion, [9], []⟩], none)] := by
  have hle : (Log.write ((twoBatches.take 1).map fun b => contents b.1 b.2)).isPrefixOf
      ((Log.write (twoBatches.map fun b => contents b.1 b.2)).take 40) = true := by decide +kernel
  obtain ⟨-, -, k, -, -, hread⟩ := insertInto_read (by simp [twoBatches, SizesFit]) (by decide)
    (List.isPrefixOf_iff_prefix.mp hle) (List.take_prefix _ _)
  have hone : (Log.read ((Log.write (twoBatches.map fun b => contents b.1 b.2)).take 40)).length = 1 := by decide +kernel
  obtain rfl : k = 1 := by
    have hlen := congrArg List.length hread
    rw [List.length_map, hone, List.length_map, List.length_take, show twoBatches.length = 2 from rfl] at hlen
    omega
  exact hread

end WriteBatch

end TLevelDB.Db
