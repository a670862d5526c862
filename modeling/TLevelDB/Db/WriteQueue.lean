import Mathlib.Algebra.Ring.Nat
import Mathlib.Data.List.Basic
import Mathlib.Data.List.Forall2
import Mathlib.Data.List.Induction
import Mathlib.Data.List.Infix
import Mathlib.Data.List.Range
import Mathlib.Tactic.Common

/-!
# The queue of writers

`DBImpl::Write` puts a `Writer` into `writers_` and waits until it is at the front or until
another writer has done its work. The writer at the front makes room in the memtable, builds
a group out of the first writers of the queue, logs and inserts it without the mutex, and
then takes the group off the queue.

A step is what one thread does while it holds the mutex, or one operation of the front
writer on the log and the memtable while it does not hold it. In the source, a call that finds
the queue empty leads at once, and the mutex is kept from there on through the turns of
`MakeRoomForWrite` that do not wait. Here other threads may come between these steps too, so
there are more runs than in the source. What the file system and the
background thread do is given by the events. `arrivals`, `finished`, `returned` and `switches` record
what has happened; no step depends on them but for the names of the writers.
-/

namespace TLevelDB.Db

variable {α : Type}

/-! ### The state -/

/-- A call of `Write`. -/
structure Writer (α : Type) where
  /-- Calls are named in the order in which they come into the queue. -/
  id : ℕ
  /-- `none` is `nullptr`. -/
  batch : Option (List α)
  sync : Bool

/-- The operations of a batch. -/
def Writer.ops (w : Writer α) : List α := w.batch.getD []

/-- A record of a log. -/
structure LogRecord (α : Type) where
  sequence : ℕ
  ops : List α
  /-- A `Sync` of the log has returned since the record was added. -/
  synced : Bool

/-- What `InsertInto` adds to the memtable for a record. -/
def LogRecord.entries (r : LogRecord α) : List (ℕ × α) := r.ops.mapIdx fun i x => (r.sequence + i, x)

/-- What `BuildBatchGroup` has put together. -/
structure BatchGroup (α : Type) where
  /-- The writers whose batches are in it. -/
  members : List (Writer α)
  lastWriter : ℕ
  /-- The result is `tmp_batch_`, not the batch of the first writer. -/
  inTmp : Bool
  tmpBatch : List α

/-- How far the writer at the front of the queue has come. -/
inductive Leading (α : Type) where
  /-- It has not noticed yet that it is at the front. -/
  | no
  /-- In the loop of `MakeRoomForWrite`. -/
  | makingRoom (force allowDelay : Bool)
  /-- It goes to log this. -/
  | logging (group : BatchGroup α) (record : LogRecord α)
  /-- The record is logged, and the log is to be synced if that was asked for. -/
  | logged (group : BatchGroup α) (record : LogRecord α)
  /-- The first `count` entries of the record are inserted. -/
  | inserting (group : BatchGroup α) (record : LogRecord α) (count : ℕ)
  /-- It goes to take the mutex, with this status; `syncError` says what went wrong. -/
  | ending (group : BatchGroup α) (record : LogRecord α) (ok syncError : Bool)

/-- A switch to a new memtable in `MakeRoomForWrite`. -/
structure Switch (α : Type) where
  /-- The writer at the front. -/
  writer : ℕ
  /-- `force` was set. -/
  forced : Bool
  /-- The writers that had finished, and the entries that were in memtables and tables. -/
  finished : List (Writer α × Bool)
  inserted : List (ℕ × α)

structure WriteState (α : Type) where
  writers : List (Writer α)
  leading : Leading α
  tmpBatch : List α
  lastSequence : ℕ
  /-- The records of the logs that are closed, and of the current log. -/
  closedLogs : List (List (LogRecord α))
  log : List (LogRecord α)
  mem : List (ℕ × α)
  imm : Option (List (ℕ × α))
  /-- The entries of memtables that were flushed. -/
  tables : List (ℕ × α)
  bgError : Bool
  arrivals : List (Writer α)
  /-- The writers that were taken off the queue, with their status. -/
  finished : List (Writer α × Bool)
  returned : List (Writer α × Bool)
  switches : List (Switch α)

def WriteState.init : WriteState α :=
  { writers := [], leading := .no, tmpBatch := [], lastSequence := 0, closedLogs := [], log := [], mem := [],
    imm := none, tables := [], bgError := false, arrivals := [], finished := [], returned := [], switches := [] }

/-! ### Steps -/

/-- The largest size of a group whose first batch has this size. -/
def maxSize (size : ℕ) : ℕ := if size ≤ 128 * 2 ^ 10 then size + 128 * 2 ^ 10 else 2 ^ 20

/-- The loop of `BuildBatchGroup`; `byteSize` is `WriteBatchInternal::ByteSize`. -/
def growGroup (byteSize : List α → ℕ) (first : Writer α) : ℕ → BatchGroup α → List (Writer α) → BatchGroup α
  | _, g, [] => g
  | size, g, w :: ws =>
    -- do not include a sync write into a batch handled by a non-sync write
    if w.sync && !first.sync then g
    else
      match w.batch with
      | none => growGroup byteSize first size { g with members := g.members ++ [w], lastWriter := w.id } ws
      | some b =>
        -- do not make the batch too big
        if maxSize (byteSize first.ops) < size + byteSize b then g
        else
          let tmpBatch := if g.inTmp then g.tmpBatch else g.tmpBatch ++ first.ops
          growGroup byteSize first (size + byteSize b) ⟨g.members ++ [w], w.id, true, tmpBatch ++ b⟩ ws

def buildBatchGroup (byteSize : List α → ℕ) (tmpBatch : List α) (first : Writer α) (rest : List (Writer α)) :
    BatchGroup α :=
  growGroup byteSize first (byteSize first.ops) ⟨[first], first.id, false, tmpBatch⟩ rest

/-- What a turn of the loop of `MakeRoomForWrite` finds. -/
structure RoomInput where
  /-- `kL0_SlowdownWritesTrigger` is reached. -/
  slowDown : Bool
  /-- `ApproximateMemoryUsage() <= write_buffer_size`. -/
  room : Bool
  /-- `kL0_StopWritesTrigger` is reached. -/
  stop : Bool
  newFileOk : Bool
  closeOk : Bool

inductive WriteEvent (α : Type) where
  /-- `Write` is called and its writer comes into the queue. -/
  | call (batch : Option (List α)) (sync : Bool)
  /-- The writer at the front wakes up. -/
  | lead
  /-- A turn of the loop of `MakeRoomForWrite`. -/
  | makeRoom (input : RoomInput)
  | addRecord (ok : Bool)
  | sync (ok : Bool)
  /-- One operation is inserted. -/
  | insert
  /-- The front writer takes the mutex again and the group off the queue. -/
  | finish
  /-- A writer that has finished returns. -/
  | ret (index : ℕ)
  /-- The background thread has flushed `imm_`. -/
  | flush
  /-- The background thread has failed. -/
  | bgError

namespace WriteState

/-- How many writers are taken off the queue, up to this one. -/
def popCount (s : WriteState α) (lastWriter : ℕ) : ℕ := (s.writers.takeWhile fun w => w.id != lastWriter).length + 1

/-- Takes the first writers off the queue, with this status. -/
def pop (s : WriteState α) (lastWriter : ℕ) (ok : Bool) : WriteState α :=
  { s with
    writers := s.writers.drop (s.popCount lastWriter)
    leading := .no
    finished := s.finished ++ (s.writers.take (s.popCount lastWriter)).map fun w => (w, ok) }

/-- All entries that were added to a memtable. -/
def inserted (s : WriteState α) : List (ℕ × α) := s.tables ++ s.imm.getD [] ++ s.mem

/-- The switch to a new memtable and a new log. -/
def switchMem (s : WriteState α) (writer : ℕ) (forced closeOk : Bool) : WriteState α :=
  { s with
    closedLogs := s.closedLogs ++ [s.log]
    log := []
    imm := some s.mem
    mem := []
    bgError := s.bgError || !closeOk
    switches := s.switches ++ [⟨writer, forced, s.finished, s.inserted⟩] }

/-- After `MakeRoomForWrite`: a null batch is done, another one is logged with its group. -/
def afterRoom (byteSize : List α → ℕ) (s : WriteState α) (w : Writer α) (rest : List (Writer α)) : WriteState α :=
  match w.batch with
  | none => s.pop w.id true
  | some b =>
    let g := buildBatchGroup byteSize s.tmpBatch w rest
    { s with
      tmpBatch := g.tmpBatch
      leading := .logging g ⟨s.lastSequence + 1, if g.inTmp then g.tmpBatch else b, false⟩ }

/-- A turn of the loop of `MakeRoomForWrite` for the writer at the front. -/
def makeRoomTurn (byteSize : List α → ℕ) (s : WriteState α) (w : Writer α) (rest : List (Writer α))
    (force allowDelay : Bool) (input : RoomInput) : WriteState α :=
  if s.bgError then s.pop w.id false
  else if allowDelay && input.slowDown then { s with leading := .makingRoom force false }
  else if !force && input.room then s.afterRoom byteSize w rest
  -- it waits until the background thread is done
  else if s.imm.isSome then s
  else if input.stop then s
  else if !input.newFileOk then s.pop w.id false
  else { s.switchMem w.id force input.closeOk with leading := .makingRoom false allowDelay }

def step (byteSize : List α → ℕ) (s : WriteState α) : WriteEvent α → Option (WriteState α)
  | .call batch sync =>
    let w : Writer α := ⟨s.arrivals.length, batch, sync⟩
    some { s with writers := s.writers ++ [w], arrivals := s.arrivals ++ [w] }
  | .lead =>
    match s.leading, s.writers with
    | .no, w :: _ => some { s with leading := .makingRoom w.batch.isNone w.batch.isSome }
    | _, _ => none
  | .makeRoom input =>
    match s.leading, s.writers with
    | .makingRoom force allowDelay, w :: rest => some (s.makeRoomTurn byteSize w rest force allowDelay input)
    | _, _ => none
  | .addRecord ok =>
    match s.leading with
    | .logging group record =>
      if ok then some { s with log := s.log ++ [record], leading := .logged group record }
      else some { s with leading := .ending group record false false }
    | _ => none
  | .sync ok =>
    match s.leading, s.writers with
    | .logged group record, w :: _ =>
      if !w.sync then some { s with leading := .inserting group record 0 }
      else if ok then
        some { s with
          log := s.log.map fun r => { r with synced := true }
          leading := .inserting group { record with synced := true } 0 }
      else some { s with leading := .ending group record false true }
    | _, _ => none
  | .insert =>
    match s.leading with
    | .inserting group record count =>
      match record.entries[count]? with
      | some e => some { s with mem := s.mem ++ [e], leading := .inserting group record (count + 1) }
      | none => some { s with leading := .ending group record true false }
    | _ => none
  | .finish =>
    match s.leading with
    | .ending group record ok syncError =>
      some { s.pop group.lastWriter ok with
        bgError := s.bgError || syncError
        tmpBatch := if group.inTmp then [] else s.tmpBatch
        lastSequence := s.lastSequence + record.ops.length }
    | _ => none
  | .ret index => s.finished[index]?.map fun f => { s with returned := s.returned ++ [f] }
  | .flush => s.imm.map fun entries => { s with tables := s.tables ++ entries, imm := none }
  | .bgError => some { s with bgError := true }

/-- A turn of the loop of `MakeRoomForWrite` finds room in the memtable. -/
def findsRoom (s : WriteState α) (force allowDelay : Bool) (input : RoomInput) : Bool :=
  !s.bgError && !(allowDelay && input.slowDown) && (!force && input.room)

/-- What a turn of the loop of `MakeRoomForWrite` can do. -/
theorem makeRoomTurn_cases (byteSize : List α → ℕ) (s : WriteState α) (w : Writer α) (rest : List (Writer α))
    (force allowDelay : Bool) (input : RoomInput) :
    (s.makeRoomTurn byteSize w rest force allowDelay input = s.pop w.id false ∧
        (s.bgError = true ∨ input.newFileOk = false)) ∨
      s.makeRoomTurn byteSize w rest force allowDelay input = { s with leading := .makingRoom force false } ∨
      (s.makeRoomTurn byteSize w rest force allowDelay input = s.afterRoom byteSize w rest ∧
        s.findsRoom force allowDelay input = true) ∨
      s.makeRoomTurn byteSize w rest force allowDelay input = s ∨
      (s.makeRoomTurn byteSize w rest force allowDelay input =
          { s.switchMem w.id force input.closeOk with leading := .makingRoom false allowDelay } ∧ s.imm = none) := by
  unfold makeRoomTurn
  split
  · rename_i hbg
    exact .inl ⟨rfl, .inl hbg⟩
  split
  · exact .inr (.inl rfl)
  split
  · rename_i hbg hdelay hroom
    exact .inr (.inr (.inl ⟨rfl, by simp only [findsRoom, hbg, hdelay, hroom]; rfl⟩))
  split
  · exact .inr (.inr (.inr (.inl rfl)))
  split
  · exact .inr (.inr (.inr (.inl rfl)))
  split
  · rename_i hfile
    exact .inl ⟨rfl, .inr (by simpa using hfile)⟩
  · rename_i himm _ _
    exact .inr (.inr (.inr (.inr ⟨rfl, by simpa using himm⟩)))

/-- All records that were added to a log. -/
def records (s : WriteState α) : List (LogRecord α) := s.closedLogs.flatten ++ s.log

end WriteState

/-- The states that steps with such events lead to; `P` may look at the state before the step. -/
inductive WriteRun (byteSize : List α → ℕ) (P : WriteState α → WriteEvent α → Prop) : WriteState α → Prop where
  | init : WriteRun byteSize P .init
  | step {s s' : WriteState α} {e : WriteEvent α} : WriteRun byteSize P s → P s e → s.step byteSize e = some s' →
      WriteRun byteSize P s'

/-- The state after these events, if each of them is possible and is as `P` says. -/
def runEvents (byteSize : List α → ℕ) (P : WriteState α → WriteEvent α → Prop) [∀ s e, Decidable (P s e)] :
    WriteState α → List (WriteEvent α) → Option (WriteState α)
  | s, [] => some s
  | s, e :: es => if P s e then (s.step byteSize e).bind fun s' => runEvents byteSize P s' es else none

theorem WriteRun.runEvents {byteSize : List α → ℕ} {P : WriteState α → WriteEvent α → Prop}
    [∀ s e, Decidable (P s e)] {s s' : WriteState α} {es : List (WriteEvent α)} (h : WriteRun byteSize P s)
    (hrun : Db.runEvents byteSize P s es = some s') : WriteRun byteSize P s' := by
  induction es generalizing s with
  | nil =>
    cases hrun
    exact h
  | cons e es ih =>
    rw [Db.runEvents] at hrun
    split at hrun
    · rename_i hP
      obtain ⟨s₁, hstep, hrest⟩ := Option.bind_eq_some_iff.mp hrun
      exact ih (h.step hP hstep) hrest
    · cases hrun

end TLevelDB.Db
