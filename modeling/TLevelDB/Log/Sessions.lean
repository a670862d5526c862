import TLevelDB.Log.Intact

/-!
# Logs written in several sessions and cut off

A log is closed and opened again with `Writer(dest, dest_length)`: the new writer goes on
in the block in which the file ends, so the file is the one that a single writer would
have written (`writeSessions_eq`). If it is then cut off at any byte, a reader returns the
records that lie before the cut as a whole, reads to the end of the file and reports
nothing, wherever the cut falls.
-/

namespace TLevelDB.Log

open Reader

/-- A writer that is opened on a log goes on with it. -/
theorem addRecords_reopen (rs more : List (List UInt8)) :
    ((Writer.reopen ⟨write rs, []⟩ (write rs).length).addRecords more).dest.bytes = write (rs ++ more) := by
  have hspec := Writer.addRecords_spec (w := Writer.reopen ⟨write rs, []⟩ (write rs).length)
    (Nat.mod_lt _ (by decide)).le rfl more
  rw [hspec, write_append]
  rfl

/-- The file after some sessions, each of which appends its records to what is there. -/
def writeSessions (sessions : List (List (List UInt8))) : List UInt8 :=
  sessions.foldl (fun file rs => ((Writer.reopen ⟨file, []⟩ file.length).addRecords rs).dest.bytes) []

theorem writeSessions_eq (sessions : List (List (List UInt8))) : writeSessions sessions = write sessions.flatten := by
  suffices hfold : ∀ rs : List (List UInt8), sessions.foldl (fun file rs =>
      ((Writer.reopen ⟨file, []⟩ file.length).addRecords rs).dest.bytes) (write rs) = write (rs ++ sessions.flatten) from
    hfold []
  induction sessions with
  | nil => simp
  | cons session sessions ih =>
    intro rs
    rw [List.foldl_cons, addRecords_reopen, ih, List.flatten_cons, List.append_assoc]

/-- **A log that was cut off**: of a log written in any number of sessions, of which the
first `t` bytes are there, a reader returns the records that are there as a whole, reads
to the end of the file and reports nothing. -/
theorem readAll_take_writeSessions (sessions : List (List (List UInt8))) (t : ℕ)
    (ht : t ≤ (writeSessions sessions).length) :
    let r := Reader.create ((writeSessions sessions).take t) true 0
    r.readAll.1 = wholeRecords sessions.flatten t ∧ r.readAll.2.unread = 0 ∧ r.readAll.2.reports = [] := by
  rw [writeSessions_eq] at ht ⊢
  obtain ⟨hreports, hunread⟩ := readAll_take ht
  exact ⟨read_take ht, hunread, hreports⟩

/-- Two sessions, of whose second record all but the last byte is there. -/
theorem readAll_take_writeSessions_two :
    15 ≤ (writeSessions [[[1]], [[2]]]).length ∧
      (Reader.create ((writeSessions [[[1]], [[2]]]).take 15) true 0).readAll.1 = wholeRecords [[1], [2]] 15 := by
  have hle : 15 ≤ (writeSessions [[[1]], [[2]]]).length := by decide +kernel
  exact ⟨hle, (readAll_take_writeSessions [[[1]], [[2]]] 15 hle).1⟩

end TLevelDB.Log
