import TLevelDB.Db.WriteBatch
import TLevelDB.Log.Unchecked
import TLevelDB.Util.Comparator

/-!
# Salvaging a log

`Repairer::ConvertLogToTable` reads the batches of a log into a memtable and makes a table of
it. Records that are too small are left out, and of a batch that is malformed it keeps what
comes before. The comment says that the reader checks checksums, so that a corrupted commit is
skipped as a whole; but the reader is made with `false`, and takes whatever has a length that
fits.

So what is in the table comes from intact commits if no other damage is met than what a reader
finds without checksums (`mem_convertLogToTable`), and need not otherwise.
-/

namespace TLevelDB.Db.Repairer

open Coding Log

/-- The key and the value of an operation in a table. -/
def tableEntry (op : MemTable.Operation) : Slice × Slice := (internalKeyBytes op.key op.sequence op.type, op.value)

/-- What is added to the memtable for a record. An error of `InsertInto` is ignored. -/
def salvage (record : Slice) : List MemTable.Operation :=
  if record.length < 12 then [] else (WriteBatch.insertInto record).1

/-- `Add`, with the comparator of encoded keys: before the first entry that is not smaller. -/
def memTableAdd (user : Slice → Slice → Ordering) (mem : List (Slice × Slice)) (op : MemTable.Operation) :
    List (Slice × Slice) :=
  mem.orderedInsert (fun a b => internalCompare user a.1 b.1 ≠ .gt) (tableEntry op)

/-- `ConvertLogToTable`: the entries of the table. -/
def convertLogToTable (user : Slice → Slice → Ordering) (file : Slice) : List (Slice × Slice) :=
  ((readUnchecked file).flatMap salvage).foldl (memTableAdd user) []

variable {user : Slice → Slice → Ordering} {rs : List Slice} {file : Slice}

theorem mem_foldl_memTableAdd {ops : List MemTable.Operation} {mem : List (Slice × Slice)} {e : Slice × Slice} :
    e ∈ ops.foldl (memTableAdd user) mem ↔ e ∈ mem ∨ ∃ op ∈ ops, e = tableEntry op := by
  induction ops generalizing mem with
  | nil => simp
  | cons op ops ih =>
    rw [List.foldl_cons, ih, memTableAdd, List.mem_orderedInsert]
    simp only [List.mem_cons, exists_eq_or_imp]
    tauto

theorem mem_salvage {record : Slice} {op : MemTable.Operation} (h : op ∈ salvage record) :
    op ∈ (WriteBatch.insertInto record).1 := by
  unfold salvage at h
  split_ifs at h
  · cases h
  · exact h

/-- **Only intact commits are salvaged**, if all damage that is met shows without checksums. -/
theorem mem_convertLogToTable (hlen : file.length = (write rs).length) (hnoticed : Noticed rs file)
    (hmismatch : NoMismatch file) {e : Slice × Slice} (he : e ∈ convertLogToTable user file) :
    ∃ p ∈ recordPlaces 0 kBlockSize rs, (∀ o ∈ p.2, passes file o = true) ∧
      ∃ op ∈ (WriteBatch.insertInto p.1).1, e = tableEntry op := by
  rw [convertLogToTable, readUnchecked_eq hmismatch] at he
  obtain ⟨op, hop, rfl⟩ := (mem_foldl_memTableAdd.mp he).resolve_left List.not_mem_nil
  obtain ⟨record, hrecord, hop⟩ := List.mem_flatMap.mp hop
  have hpassing := (read_sublist_passingRecords hlen hnoticed).subset hrecord
  obtain ⟨p, hp, rfl⟩ := List.mem_map.mp hpassing
  obtain ⟨hp, hall⟩ := List.mem_filter.mp hp
  exact ⟨p, hp, List.all_eq_true.mp hall, op, mem_salvage hop, rfl⟩

/-- Two batches; the length of the second is damaged, and the first is salvaged. -/
theorem mem_convertLogToTable_first :
    ∃ (rs : List Slice) (file : Slice), Noticed rs file ∧ NoMismatch file ∧
      (convertLogToTable bytewiseComparator.compare file).length = 1 ∧
      ∀ e ∈ convertLogToTable bytewiseComparator.compare file,
        ∃ p ∈ recordPlaces 0 kBlockSize rs, (∀ o ∈ p.2, passes file o = true) ∧
          ∃ op ∈ (WriteBatch.insertInto p.1).1, e = tableEntry op := by
  let rs : List Slice := [WriteBatch.contents 1 [.put [97] [98]], WriteBatch.contents 2 [.delete [97]]]
  have hnoticed : Noticed rs ((write rs).set 28 255) := by decide +kernel
  have hmismatch : NoMismatch ((write rs).set 28 255) := by decide +kernel
  exact ⟨rs, (write rs).set 28 255, hnoticed, hmismatch, by decide +kernel,
    fun e he => mem_convertLogToTable List.length_set hnoticed hmismatch he⟩

/-- The value of a `Put` is changed in the log. The checksum tells, and the changed value is
salvaged. -/
theorem not_mem_convertLogToTable : ¬ ∀ (user : Slice → Slice → Ordering) (rs : List Slice) (file : Slice)
    (e : Slice × Slice), file.length = (write rs).length → Noticed rs file → e ∈ convertLogToTable user file →
      ∃ p ∈ recordPlaces 0 kBlockSize rs, (∀ o ∈ p.2, passes file o = true) ∧
        ∃ op ∈ (WriteBatch.insertInto p.1).1, e = tableEntry op := by
  intro h
  let rs : List Slice := [WriteBatch.contents 1 [.put [97] [98]]]
  have hnoticed : Noticed rs ((write rs).set 23 99) := by decide +kernel
  have hmem : tableEntry ⟨1, .value, [97], [99]⟩ ∈ convertLogToTable bytewiseComparator.compare ((write rs).set 23 99) := by
    decide +kernel
  obtain ⟨p, hp, -, op, hop, heq⟩ := h _ rs _ _ List.length_set hnoticed hmem
  have hnone : ∀ p ∈ recordPlaces 0 kBlockSize rs, ∀ op ∈ (WriteBatch.insertInto p.1).1, op.value = [98] := by
    decide +kernel
  have hvalue := hnone p hp op hop
  simp only [tableEntry, Prod.mk.injEq] at heq
  rw [← heq.2] at hvalue
  exact absurd hvalue (by decide)

end TLevelDB.Db.Repairer
