import TLevelDB.Db.Recovery
import TLevelDB.Db.Reads

/-!
# The database and its files

A process that has the database open, with the calls it makes on the files. A writer logs
its batch group before it inserts it, and syncs the log if it was asked to. The
background thread makes tables, writes the edit that installs them to the MANIFEST, syncs
that, installs the edit in memory, and removes files that are no longer needed. Both make
their calls one by one, and the events of the two come in any order.

A call can fail. Then the writer gives up its batch group, or the background thread its
job, and the process may go on. An error of the background thread, and one of a writer
after which the log is not what it should be, is kept (`Process.bgError`): no write, flush
or compaction begins after that.

`DBRun` are the states that a process reaches after `DB::Open` of any directory.
-/

namespace TLevelDB.Db

open TLevelDB.Storage

variable {K V β : Type} [LinearOrder K]

/-! ### Edits -/

omit [LinearOrder K] in
/-- What a job does in memory. -/
def Job.action : Job K V → Action K V
  | .flush => .flush
  | .move reason => .move reason
  | .install => .install

/-- The edit that a job will install. -/
def DBState.edit (o : Options K V) (st : DBState K V) : Job K V → Option (VersionEdit K V)
  | .flush =>
    match st.imm with
    | none => none
    | some imm =>
      if st.compaction.all (fun cs => !cs.input.isEmpty) then
        match buildTable o st.nextFileNumber imm with
        | none => some {}
        | some f => some (addFileEdit (st.version.tableLevel o f) f)
      else none
  | .move reason =>
    if st.compaction.isNone then
      match st.version.pickCompaction o st.compactPointer reason with
      | none => none
      | some c => if c.isTrivialMove o then c.inputs0.head?.map fun f => c.moveEdit f else none
    else none
  | .install =>
    match st.compaction with
    | none => none
    | some cs => if cs.input.isEmpty then some (cs.compaction.installEdit (cs.finishOutput o).outputs) else none

/-! ### The calls of a compaction -/

omit [LinearOrder K] in
/-- `FinishCompactionOutputFile`, where an output is being built. -/
def Formats.finishOutputCalls (F : Formats K V β) (cs : CompactionState K V) : List (EnvCall β) :=
  match cs.builder with
  | none => []
  | some b => [.append (.table b.number) (F.table.finish b.table), .sync (.table b.number)]

omit [LinearOrder K] in
/-- `OpenCompactionOutputFile` if necessary, and adding an entry. -/
def Formats.addCalls (F : Formats K V β) (cs : CompactionState K V) (next : ℕ) (e : Entry K V) : List (EnvCall β) :=
  match cs.builder with
  | none => [.create (.table next), .append (.table next) (F.table.add [] e)]
  | some b => [.append (.table b.number) (F.table.add b.table e)]

/-- The calls of the loop of `DoCompactionWork` for one entry. -/
def Formats.compactEntryCalls (F : Formats K V β) (o : Options K V) (cs : CompactionState K V) (next : ℕ)
    (e : Entry K V) : List (EnvCall β) :=
  let stop := cs.shouldStopBefore o e.key
  let stopCalls := if stop.1 then F.finishOutputCalls stop.2 else []
  let cs := if stop.1 then stop.2.finishOutput o else stop.2
  let dropped := cs.dropEntry e
  if dropped.1 then stopCalls
  else
    let added := dropped.2.add next e
    stopCalls ++ F.addCalls dropped.2 next e ++
      if added.1.builder.any (fun b => o.maxFileSize ≤ o.builderSize b.table) then F.finishOutputCalls added.1 else []

/-- The calls of a turn. -/
def Formats.turnCalls (F : Formats K V β) (o : Options K V) (cs : CompactionState K V) (next : ℕ) : List (EnvCall β) :=
  match cs.input with
  | [] => []
  | e :: input => F.compactEntryCalls o { cs with input := input } next e

/-! ### Events -/

/-- What can happen next. -/
inductive Event (K V : Type) where
  /-- A writer begins to log its batch group. -/
  | beginWrite (batch : List (Op K V)) (sync : Bool)
  /-- The writer makes its next call. -/
  | writerCall
  /-- The first bytes of it reach the file. -/
  | writerPart (k : ℕ)
  /-- It fails, after `k` bytes if it is an append; the log counts `offset` bytes then. -/
  | writerFail (k offset : ℕ)
  /-- The writer inserts the next operation into the memtable. -/
  | insert
  /-- The group becomes visible; `Write` returns. -/
  | endWrite
  /-- `MakeRoomForWrite` switches to a new memtable and a new log; closing the old one may
  fail. -/
  | switchMem (closed : Bool)
  /-- `GetSnapshot`. -/
  | newSnapshot
  | releaseSnapshot (s : ℕ)
  /-- `Get` or a new iterator refers to the current version. -/
  | ref
  /-- One of these references is given up. -/
  | unref (i : ℕ)
  /-- A compaction is picked and `DoCompactionWork` begins. -/
  | start (reason : PickReason K V)
  /-- A manual compaction begins. -/
  | manual (level : ℕ) (b e : Option (InternalKey K))
  /-- The loop of `DoCompactionWork` makes a turn. -/
  | turn
  /-- A flush or the end of a compaction begins, with the tables it needs. A trivial move
  needs none and goes on to `LogAndApply`. -/
  | prepare (job : Job K V)
  /-- `LogAndApply` begins. -/
  | logEdit
  /-- `LogAndApply` ends, and `RemoveObsoleteFiles` begins. -/
  | applyEdit
  /-- The background thread makes its next call. -/
  | call
  /-- The first bytes of it reach the file. -/
  | part (k : ℕ)
  /-- It fails, after `k` bytes if it is an append; the MANIFEST counts `offset` bytes then.
  `BuildTable` removes the table if it can. -/
  | callFail (k offset : ℕ) (removed : Bool)
  /-- The job fails between two calls: a table cannot be read, or the database is closed. -/
  | abort (removed : Bool)

/-- The reason of an event to compact is one that the version can have. -/
def Event.Legal (v : Version K V) : Event K V → Prop
  | .start reason => reason.Legal v
  | .prepare job => job.action.Legal v
  | _ => True

instance [DecidableEq K] [DecidableEq V] (v : Version K V) : DecidablePred (Event.Legal v) := fun ev => by
  cases ev with
  | start reason => exact inferInstanceAs (Decidable (reason.Legal v))
  | prepare job => exact inferInstanceAs (Decidable (job.action.Legal v))
  | _ => exact .isTrue trivial

section

omit [LinearOrder K]

/-- The first call of a list. -/
def nextCall (d : Disk β) : List (EnvCall β) → Option (List (EnvCall β) × Disk β)
  | [] => none
  | c :: calls => some (calls, d.exec c)

/-- The first `k` bytes of the first call of a list. -/
def nextPart (d : Disk β) (k : ℕ) : List (EnvCall β) → Option (List (EnvCall β) × Disk β)
  | .append n bs :: calls => some (.append n (bs.drop k) :: calls, d.exec (.append n (bs.take k)))
  | _ => none

/-- What a call that fails leaves behind. -/
def failCall (d : Disk β) (k : ℕ) : EnvCall β → Disk β
  | .append n bs => d.exec (.append n (bs.take k))
  | _ => d

/-- A batch group that is not written. Its sequence numbers are taken all the same. -/
def DBState.failWrite (st : DBState K V) (batch : List (Op K V)) : DBState K V :=
  { st with lastSequence := st.lastSequence + batch.length, writing := none }

end

namespace Process

section

omit [LinearOrder K]

/-- The background thread can begin something. -/
def isIdle (p : Process K V β) : Bool := p.calls.isEmpty && p.phase matches .idle

/-- The background thread is flushing a memtable. -/
def isFlushing (p : Process K V β) : Bool :=
  match p.phase with
  | .building .flush => true
  | .logging .flush => true
  | _ => false

/-- The log number of an edit. -/
def editLogNumber (p : Process K V β) : Job K V → ℕ
  | .flush => p.logfileNumber
  | _ => p.logNumber

/-- The previous log number of an edit. -/
def editPrevLogNumber (p : Process K V β) : Job K V → ℕ
  | .flush => 0
  | _ => p.prevLogNumber

/-- `next_file_number_` when an edit is logged: the number of a flushed table is taken. -/
def editNextFile (p : Process K V β) : Job K V → ℕ
  | .flush => p.db.nextFileNumber + 1
  | _ => p.db.nextFileNumber

/-- The record of an edit. -/
def editRecord (p : Process K V β) (job : Job K V) (edit : VersionEdit K V) : ManifestRecord K V :=
  logRecord edit (p.editLogNumber job) (p.editPrevLogNumber job) (p.editNextFile job) p.db.lastSequence

/-- `LogAndApply` up to the point where the record is in the MANIFEST. -/
def beginLog (F : Formats K V β) (p : Process K V β) (job : Job K V) (edit : VersionEdit K V) : Process K V β :=
  let n := FileName.descriptor p.manifestFileNumber
  let bytes := F.manifest.encode p.manifestOffset (p.editRecord job edit)
  { p with phase := .logging job, calls := [.append n bytes, .sync n], manifestOffset := p.manifestOffset + bytes.length }

/-- `pending_outputs_` without some numbers. -/
def erasePending (p : Process K V β) (numbers : List ℕ) : Process K V β :=
  { p with pendingOutputs := p.pendingOutputs.filter fun n => n ∉ numbers }

/-- The numbers of the outputs of the compaction that is going on. -/
def outputs (p : Process K V β) : List ℕ := p.db.compaction.elim [] CompactionState.outputNumbers

/-- What a job does to `pending_outputs_` before `LogAndApply` begins: `WriteLevel0Table` has
returned. -/
def beforeLog (p : Process K V β) : Job K V → Process K V β
  | .flush => p.erasePending [p.db.nextFileNumber]
  | _ => p

/-- `CleanupCompaction` after a compaction that is installed. -/
def cleanup (p : Process K V β) : Job K V → Process K V β
  | .install => p.erasePending p.outputs
  | _ => p

/-- `RemoveObsoleteFiles` after a job; a trivial move does without. -/
def removeCalls (p : Process K V β) (d : Disk β) : Job K V → List (EnvCall β)
  | .move _ => []
  | _ => p.obsoleteCalls d

/-- A compaction ends with an error. -/
def dropCompaction (p : Process K V β) : Process K V β :=
  { p.erasePending p.outputs with db := { p.db with compaction := none, isManual := false } }

/-- A flush ends with an error. The memtable stays, and so does a compaction in whose loop it
was done; the number of the table is taken. -/
def dropFlush (p : Process K V β) : Process K V β :=
  { p.erasePending [p.db.nextFileNumber] with db := { p.db with nextFileNumber := p.db.nextFileNumber + 1 } }

/-- The job of the background thread ends with an error. -/
def failJob (p : Process K V β) (offset : ℕ) : Process K V β :=
  let p' := { p with bgError := true, phase := .idle, calls := [] }
  match p.phase with
  | .idle => p'.dropCompaction
  | .building .flush => p'.dropFlush
  | .building _ => p'.dropCompaction
  | .logging .flush => { p'.dropFlush with manifestOffset := offset }
  | .logging (.move _) => { p' with manifestOffset := offset }
  | .logging .install => { p'.dropCompaction with manifestOffset := offset }

/-- `BuildTable` removes the table it could not finish. -/
def removeUnfinished (p : Process K V β) (d : Disk β) (removed : Bool) : Disk β :=
  match p.phase with
  | .building .flush => if removed then d.exec (.remove (.table p.db.nextFileNumber)) else d
  | _ => d

end

variable [Inhabited V]

/-- The begin of a flush, of the end of a compaction, or of a trivial move. -/
def prepare (F : Formats K V β) (o : Options K V) (p : Process K V β) : Job K V → Option (Process K V β)
  | .flush =>
    -- by itself only if there is no error; in the loop of a compaction this is not asked
    if p.isIdle ∧ (p.db.edit o .flush).isSome ∧ (p.db.compaction.isSome ∨ p.bgError = false) then
      some { p with
        phase := .building .flush
        calls := F.buildTableCalls p.db.nextFileNumber (p.db.imm.getD [])
        pendingOutputs := p.pendingOutputs ++ [p.db.nextFileNumber] }
    else none
  | .install =>
    if p.isIdle ∧ (p.db.edit o .install).isSome then
      some { p with phase := .building .install, calls := p.db.compaction.elim [] F.finishOutputCalls }
    else none
  | .move reason =>
    -- the mutex is held from the check of `bg_error_` until the record is written
    if p.isIdle ∧ p.bgError = false ∧ p.db.imm = none then (p.db.edit o (.move reason)).map (p.beginLog F (.move reason))
    else none

/-- The next state and the files, if the event can happen. -/
def step (F : Formats K V β) (o : Options K V) (p : Process K V β) (d : Disk β) :
    Event K V → Option (Process K V β × Disk β)
  | .beginWrite batch sync =>
    if p.bgError then none
    else
      (p.db.step o (.beginWrite batch)).map fun db =>
        let n := FileName.log p.logfileNumber
        let record := F.log.encode p.logOffset (p.db.lastSequence + 1, batch)
        ({ p with
            db := db
            sync := sync
            logOffset := p.logOffset + record.length
            writerCalls := .append n record :: if sync then [.sync n] else [] }, d)
  | .writerCall => (nextCall d p.writerCalls).map fun r => ({ p with writerCalls := r.1 }, r.2)
  | .writerPart k => (nextPart d k p.writerCalls).map fun r => ({ p with writerCalls := r.1 }, r.2)
  | .writerFail k offset =>
    match p.db.writing, p.writerCalls with
    | some (batch, _), .append n bs :: _ =>
      some ({ p with db := p.db.failWrite batch, writerCalls := [], logOffset := offset }, failCall d k (.append n bs))
    | some (batch, _), _ :: _ =>
      -- the record may or may not show up later, so no write is accepted any more
      some ({ p with db := p.db.failWrite batch, writerCalls := [], bgError := true }, d)
    | _, _ => none
  | .insert => if p.writerCalls.isEmpty then (p.db.step o .insert).map fun db => ({ p with db := db }, d) else none
  | .endWrite => if p.writerCalls.isEmpty then (p.db.step o .endWrite).map fun db => ({ p with db := db }, d) else none
  | .switchMem closed =>
    if p.bgError then none
    else
      (p.db.step o .switchMem).map fun db =>
        ({ p with db := db, logfileNumber := p.db.nextFileNumber, logOffset := 0, bgError := !closed },
          d.exec (.create (.log p.db.nextFileNumber)))
  | .newSnapshot => (p.db.step o .newSnapshot).map fun db => ({ p with db := db }, d)
  | .releaseSnapshot s => (p.db.step o (.releaseSnapshot s)).map fun db => ({ p with db := db }, d)
  | .ref => some ({ p with readers := p.readers ++ [p.db.version] }, d)
  | .unref i => some ({ p with readers := p.readers.eraseIdx i }, d)
  | .start reason =>
    if p.isIdle ∧ p.bgError = false then (p.db.step o (.start reason)).map fun db => ({ p with db := db }, d) else none
  | .manual level b e =>
    if p.isIdle ∧ p.bgError = false then (p.db.step o (.manual level b e)).map fun db => ({ p with db := db }, d)
    else none
  | .turn =>
    if p.isIdle then
      (p.db.step o .turn).map fun db =>
        let p' := { p with db := db, calls := p.db.compaction.elim [] fun cs => F.turnCalls o cs p.db.nextFileNumber }
        ({ p' with pendingOutputs := p.pendingOutputs ++ p'.outputs }, d)
    else none
  | .prepare job => (p.prepare F o job).map fun p' => (p', d)
  | .logEdit =>
    match p.phase with
    | .building job =>
      if p.calls.isEmpty then (p.db.edit o job).map fun edit => ((p.beforeLog job).beginLog F job edit, d) else none
    | _ => none
  | .applyEdit =>
    match p.phase with
    | .logging job =>
      if p.calls.isEmpty then
        (p.db.step o job.action).map fun db =>
          let p' := { p.cleanup job with
            db := db
            logNumber := p.editLogNumber job
            prevLogNumber := p.editPrevLogNumber job
            phase := .idle }
          ({ p' with calls := p'.removeCalls d job }, d)
      else none
    | _ => none
  | .call => (nextCall d p.calls).map fun r => ({ p with calls := r.1 }, r.2)
  | .part k => (nextPart d k p.calls).map fun r => ({ p with calls := r.1 }, r.2)
  | .callFail k offset removed =>
    match p.calls with
    | [] => none
    -- the result of `RemoveFile` is ignored
    | .remove _ :: calls => some ({ p with calls := calls }, d)
    | c :: _ => some (p.failJob offset, p.removeUnfinished (failCall d k c) removed)
  | .abort removed =>
    match p.calls, p.phase with
    | [], .idle => if p.db.compaction.isSome then some (p.failJob p.manifestOffset, d) else none
    | [], .building _ => some (p.failJob p.manifestOffset, p.removeUnfinished d removed)
    | _, _ => none

end Process

/-! ### Fields -/

namespace Process

variable (p : Process K V β) (job : Job K V)

section

omit [LinearOrder K]

@[simp] theorem db_beforeLog : (p.beforeLog job).db = p.db := by cases job <;> rfl

@[simp] theorem bgError_beforeLog : (p.beforeLog job).bgError = p.bgError := by cases job <;> rfl

@[simp] theorem bgError_cleanup : (p.cleanup job).bgError = p.bgError := by cases job <;> rfl

/-- What the background thread leaves as it is until an edit is applied. -/
structure SameData (p p' : Process K V β) : Prop where
  mem : p'.db.mem = p.db.mem
  imm : p'.db.imm = p.db.imm
  version : p'.db.version = p.db.version
  readers : p'.readers = p.readers
  logfileNumber : p'.logfileNumber = p.logfileNumber
  logNumber : p'.logNumber = p.logNumber
  prevLogNumber : p'.prevLogNumber = p.prevLogNumber
  manifestFileNumber : p'.manifestFileNumber = p.manifestFileNumber
  writerCalls : p'.writerCalls = p.writerCalls
  nextFileNumber_le : p.db.nextFileNumber ≤ p'.db.nextFileNumber

theorem sameData_failJob (offset : ℕ) : p.SameData (p.failJob offset) := by
  unfold failJob
  split <;> exact ⟨rfl, rfl, rfl, rfl, rfl, rfl, rfl, rfl, rfl, by simp [dropFlush, dropCompaction, erasePending]⟩

theorem sameData_beginLog (F : Formats K V β) (edit : VersionEdit K V) :
    p.SameData ((p.beforeLog job).beginLog F job edit) := by
  cases job <;> exact ⟨rfl, rfl, rfl, rfl, rfl, rfl, rfl, rfl, rfl, le_rfl⟩

@[simp] theorem phase_failJob (offset : ℕ) : (p.failJob offset).phase = .idle := by
  unfold failJob
  split <;> rfl

@[simp] theorem calls_failJob (offset : ℕ) : (p.failJob offset).calls = [] := by
  unfold failJob
  split <;> rfl

end

end Process

/-! ### What an event does -/

section Inversion

variable [Inhabited V] {F : Formats K V β} {o : Options K V} {p p' : Process K V β} {d d' : Disk β} {ev : Event K V}

/-- One constructor for each way in which an event can happen. -/
inductive ProcessStep (F : Formats K V β) (o : Options K V) (p : Process K V β) (d : Disk β) :
    Event K V → Process K V β → Disk β → Prop where
  | beginWrite {batch sync record} : p.bgError = false → p.db.writing = none →
      record = F.log.encode p.logOffset (p.db.lastSequence + 1, batch) →
      ProcessStep F o p d (.beginWrite batch sync) { p with
        db := { p.db with writing := some (batch, 0) }
        sync := sync
        logOffset := p.logOffset + record.length
        writerCalls := .append (.log p.logfileNumber) record :: if sync then [.sync (.log p.logfileNumber)] else [] } d
  | writerCall {c calls} : p.writerCalls = c :: calls →
      ProcessStep F o p d .writerCall { p with writerCalls := calls } (d.exec c)
  | writerPart {k n bs calls} : p.writerCalls = .append n bs :: calls →
      ProcessStep F o p d (.writerPart k) { p with writerCalls := .append n (bs.drop k) :: calls }
        (d.exec (.append n (bs.take k)))
  | appendFail {k offset i batch n bs calls} :
      p.db.writing = some (batch, i) → p.writerCalls = .append n bs :: calls →
      ProcessStep F o p d (.writerFail k offset)
        { p with db := p.db.failWrite batch, writerCalls := [], logOffset := offset } (d.exec (.append n (bs.take k)))
  | syncFail {k offset i batch c calls} :
      p.db.writing = some (batch, i) → p.writerCalls = c :: calls → (∀ n bs, c ≠ .append n bs) →
      ProcessStep F o p d (.writerFail k offset)
        { p with db := p.db.failWrite batch, writerCalls := [], bgError := true } d
  | insert {db} : p.writerCalls = [] → Transition o p.db .insert db →
      ProcessStep F o p d .insert { p with db := db } d
  | endWrite {db} : p.writerCalls = [] → Transition o p.db .endWrite db →
      ProcessStep F o p d .endWrite { p with db := db } d
  | switchMem {closed} : p.bgError = false → p.db.writing = none → p.db.imm = none →
      ProcessStep F o p d (.switchMem closed) { p with
        db := { p.db with mem := [], imm := some p.db.mem, nextFileNumber := p.db.nextFileNumber + 1 }
        logfileNumber := p.db.nextFileNumber
        logOffset := 0
        bgError := !closed } (d.exec (.create (.log p.db.nextFileNumber)))
  | newSnapshot {db} : Transition o p.db .newSnapshot db →
      ProcessStep F o p d .newSnapshot { p with db := db } d
  | releaseSnapshot {s db} : Transition o p.db (.releaseSnapshot s) db →
      ProcessStep F o p d (.releaseSnapshot s) { p with db := db } d
  | ref : ProcessStep F o p d .ref { p with readers := p.readers ++ [p.db.version] } d
  | unref {i} : ProcessStep F o p d (.unref i) { p with readers := p.readers.eraseIdx i } d
  | start {reason db} : p.calls = [] → p.phase = .idle → p.bgError = false →
      Transition o p.db (.start reason) db → ProcessStep F o p d (.start reason) { p with db := db } d
  | manual {level b e db} : p.calls = [] → p.phase = .idle →
      p.bgError = false → Transition o p.db (.manual level b e) db →
      ProcessStep F o p d (.manual level b e) { p with db := db } d
  | turn {cs r} : p.calls = [] → p.phase = .idle →
      p.db.compaction = some cs → cs.turn o p.db.nextFileNumber = some r →
      ProcessStep F o p d .turn { p with
        db := { p.db with compaction := some r.1, nextFileNumber := r.2 }
        calls := F.turnCalls o cs p.db.nextFileNumber
        pendingOutputs := p.pendingOutputs ++ r.1.outputNumbers } d
  | flush {imm} : p.calls = [] → p.phase = .idle → p.db.imm = some imm →
      (∀ cs ∈ p.db.compaction, cs.input ≠ []) → (p.db.compaction = none → p.bgError = false) →
      ProcessStep F o p d (.prepare .flush) { p with
        phase := .building .flush
        calls := F.buildTableCalls p.db.nextFileNumber imm
        pendingOutputs := p.pendingOutputs ++ [p.db.nextFileNumber] } d
  | install {cs} : p.calls = [] → p.phase = .idle → p.db.compaction = some cs → cs.input = [] →
      ProcessStep F o p d (.prepare .install)
        { p with phase := .building .install, calls := F.finishOutputCalls cs } d
  | move {reason edit} : p.calls = [] → p.phase = .idle → p.bgError = false →
      p.db.imm = none → p.db.edit o (.move reason) = some edit →
      ProcessStep F o p d (.prepare (.move reason)) (p.beginLog F (.move reason) edit) d
  | logEdit {job edit} : p.phase = .building job → p.calls = [] →
      p.db.edit o job = some edit → ProcessStep F o p d .logEdit ((p.beforeLog job).beginLog F job edit) d
  | applyEdit {job db applied} : p.phase = .logging job → p.calls = [] →
      Transition o p.db job.action db →
      applied = { p.cleanup job with
        db := db
        logNumber := p.editLogNumber job
        prevLogNumber := p.editPrevLogNumber job
        phase := .idle } →
      ProcessStep F o p d .applyEdit { applied with calls := applied.removeCalls d job } d
  | call {c calls} : p.calls = c :: calls →
      ProcessStep F o p d .call { p with calls := calls } (d.exec c)
  | part {k n bs calls} : p.calls = .append n bs :: calls →
      ProcessStep F o p d (.part k) { p with calls := .append n (bs.drop k) :: calls } (d.exec (.append n (bs.take k)))
  | removeFail {k offset removed n calls} : p.calls = .remove n :: calls →
      ProcessStep F o p d (.callFail k offset removed) { p with calls := calls } d
  | callFail {k offset removed c calls} : p.calls = c :: calls →
      (∀ n, c ≠ .remove n) →
      ProcessStep F o p d (.callFail k offset removed) (p.failJob offset) (p.removeUnfinished (failCall d k c) removed)
  | abort {removed} : p.calls = [] → (p.phase = .idle ∧ p.db.compaction.isSome ∨ ∃ job, p.phase = .building job) →
      ProcessStep F o p d (.abort removed) (p.failJob p.manifestOffset) (p.removeUnfinished d removed)

section

omit [LinearOrder K] [Inhabited V]

theorem Process.isIdle_iff : p.isIdle = true ↔ p.calls = [] ∧ p.phase = .idle := by
  cases hphase : p.phase <;> simp [Process.isIdle, hphase, List.isEmpty_iff]

theorem nextCall_eq_some {calls : List (EnvCall β)} {r : List (EnvCall β) × Disk β} (h : nextCall d calls = some r) :
    ∃ c rest, calls = c :: rest ∧ r = (rest, d.exec c) := by
  cases calls with
  | nil => cases h
  | cons c rest => exact ⟨c, rest, rfl, (Option.some.inj h).symm⟩

theorem nextPart_eq_some {k : ℕ} {calls : List (EnvCall β)} {r : List (EnvCall β) × Disk β}
    (h : nextPart d k calls = some r) :
    ∃ n bs rest, calls = .append n bs :: rest ∧ r = (.append n (bs.drop k) :: rest, d.exec (.append n (bs.take k))) := by
  unfold nextPart at h
  split at h
  next n bs rest => exact ⟨n, bs, rest, rfl, (Option.some.inj h).symm⟩
  · cases h

end

omit [Inhabited V] in
theorem edit_flush_isSome (h : (p.db.edit o .flush).isSome) :
    ∃ imm, p.db.imm = some imm ∧ ∀ cs ∈ p.db.compaction, cs.input ≠ [] := by
  simp only [DBState.edit] at h
  split at h
  · cases h
  next imm himm =>
    split at h
    next hall =>
      refine ⟨imm, himm, fun cs hcs => ?_⟩
      rw [Option.mem_def.mp hcs] at hall
      simpa using hall
    · cases h

omit [Inhabited V] in
theorem edit_install_isSome (h : (p.db.edit o .install).isSome) : ∃ cs, p.db.compaction = some cs ∧ cs.input = [] := by
  simp only [DBState.edit] at h
  split at h
  · cases h
  next cs hcs =>
    split at h
    next hempty => exact ⟨cs, hcs, by simpa using hempty⟩
    · cases h

theorem processStep_of_prepare {job : Job K V} (h : p.prepare F o job = some p') :
    ProcessStep F o p d (.prepare job) p' d := by
  cases job with
  | flush =>
    simp only [Process.prepare, Option.ite_none_right_eq_some, Option.some.injEq, Process.isIdle_iff] at h
    obtain ⟨⟨⟨hcalls, hphase⟩, hedit, herr⟩, rfl⟩ := h
    obtain ⟨imm, himm, hinput⟩ := edit_flush_isSome hedit
    have herr' : p.db.compaction = none → p.bgError = false := fun hnone => by simpa [hnone] using herr
    simpa only [himm, Option.getD_some] using ProcessStep.flush hcalls hphase himm hinput herr'
  | install =>
    simp only [Process.prepare, Option.ite_none_right_eq_some, Option.some.injEq, Process.isIdle_iff] at h
    obtain ⟨⟨⟨hcalls, hphase⟩, hedit⟩, rfl⟩ := h
    obtain ⟨cs, hcs, hinput⟩ := edit_install_isSome hedit
    simpa only [hcs, Option.elim_some] using ProcessStep.install hcalls hphase hcs hinput
  | move reason =>
    simp only [Process.prepare, Option.ite_none_right_eq_some, Option.map_eq_some_iff, Process.isIdle_iff] at h
    obtain ⟨⟨⟨hcalls, hphase⟩, herr, himm⟩, edit, hedit, rfl⟩ := h
    exact .move hcalls hphase herr himm hedit

/-- **Inversion.** What `Process.step` does is one of these. -/
theorem processStep_of_step (h : p.step F o d ev = some (p', d')) : ProcessStep F o p d ev p' d' := by
  cases ev with
  | beginWrite batch sync =>
    simp only [Process.step, Option.ite_none_left_eq_some, Option.map_eq_some_iff, Prod.mk.injEq] at h
    obtain ⟨herr, db, hdb, rfl, rfl⟩ := h
    cases transition_of_step hdb with
    | beginWrite hw => exact .beginWrite (by simpa using herr) hw rfl
  | writerCall =>
    obtain ⟨r, hr, heq⟩ := Option.map_eq_some_iff.mp h
    obtain ⟨c, rest, hcalls, rfl⟩ := nextCall_eq_some hr
    cases heq
    exact .writerCall hcalls
  | writerPart k =>
    obtain ⟨r, hr, heq⟩ := Option.map_eq_some_iff.mp h
    obtain ⟨n, bs, rest, hcalls, rfl⟩ := nextPart_eq_some hr
    cases heq
    exact .writerPart hcalls
  | writerFail k offset =>
    simp only [Process.step] at h
    split at h
    next hw hcalls =>
      cases h
      exact .appendFail hw hcalls
    next hne hw hcalls =>
      cases h
      exact .syncFail hw hcalls fun n bs heq => hne n bs heq
    · cases h
  | insert =>
    simp only [Process.step, Option.ite_none_right_eq_some, Option.map_eq_some_iff, Prod.mk.injEq,
      List.isEmpty_iff] at h
    obtain ⟨hcalls, db, hdb, rfl, rfl⟩ := h
    exact .insert hcalls (transition_of_step hdb)
  | endWrite =>
    simp only [Process.step, Option.ite_none_right_eq_some, Option.map_eq_some_iff, Prod.mk.injEq,
      List.isEmpty_iff] at h
    obtain ⟨hcalls, db, hdb, rfl, rfl⟩ := h
    exact .endWrite hcalls (transition_of_step hdb)
  | switchMem closed =>
    simp only [Process.step, Option.ite_none_left_eq_some, Option.map_eq_some_iff, Prod.mk.injEq] at h
    obtain ⟨herr, db, hdb, rfl, rfl⟩ := h
    cases transition_of_step hdb with
    | switchMem hw himm => exact .switchMem (by simpa using herr) hw himm
  | newSnapshot =>
    simp only [Process.step, Option.map_eq_some_iff, Prod.mk.injEq] at h
    obtain ⟨db, hdb, rfl, rfl⟩ := h
    exact .newSnapshot (transition_of_step hdb)
  | releaseSnapshot s =>
    simp only [Process.step, Option.map_eq_some_iff, Prod.mk.injEq] at h
    obtain ⟨db, hdb, rfl, rfl⟩ := h
    exact .releaseSnapshot (transition_of_step hdb)
  | ref =>
    cases h
    exact .ref
  | unref i =>
    cases h
    exact .unref
  | start reason =>
    simp only [Process.step, Option.ite_none_right_eq_some, Option.map_eq_some_iff, Prod.mk.injEq,
      Process.isIdle_iff] at h
    obtain ⟨⟨⟨hcalls, hphase⟩, herr⟩, db, hdb, rfl, rfl⟩ := h
    exact .start hcalls hphase herr (transition_of_step hdb)
  | manual level b e =>
    simp only [Process.step, Option.ite_none_right_eq_some, Option.map_eq_some_iff, Prod.mk.injEq,
      Process.isIdle_iff] at h
    obtain ⟨⟨⟨hcalls, hphase⟩, herr⟩, db, hdb, rfl, rfl⟩ := h
    exact .manual hcalls hphase herr (transition_of_step hdb)
  | turn =>
    simp only [Process.step, Option.ite_none_right_eq_some, Option.map_eq_some_iff, Prod.mk.injEq,
      Process.isIdle_iff] at h
    obtain ⟨⟨hcalls, hphase⟩, db, hdb, rfl, rfl⟩ := h
    cases transition_of_step hdb with
    | turn hcs hturn => simpa only [hcs, Option.elim_some, Process.outputs] using ProcessStep.turn hcalls hphase hcs hturn
  | prepare job =>
    obtain ⟨p₁, hp₁, heq⟩ := Option.map_eq_some_iff.mp h
    cases heq
    exact processStep_of_prepare hp₁
  | logEdit =>
    simp only [Process.step] at h
    split at h
    next job hphase =>
      simp only [Option.ite_none_right_eq_some, Option.map_eq_some_iff, Prod.mk.injEq, List.isEmpty_iff] at h
      obtain ⟨hcalls, edit, hedit, rfl, rfl⟩ := h
      exact .logEdit hphase hcalls hedit
    · cases h
  | applyEdit =>
    simp only [Process.step] at h
    split at h
    next job hphase =>
      simp only [Option.ite_none_right_eq_some, Option.map_eq_some_iff, Prod.mk.injEq, List.isEmpty_iff] at h
      obtain ⟨hcalls, db, hdb, rfl, rfl⟩ := h
      exact .applyEdit hphase hcalls (transition_of_step hdb) rfl
    · cases h
  | call =>
    obtain ⟨r, hr, heq⟩ := Option.map_eq_some_iff.mp h
    obtain ⟨c, rest, hcalls, rfl⟩ := nextCall_eq_some hr
    cases heq
    exact .call hcalls
  | part k =>
    obtain ⟨r, hr, heq⟩ := Option.map_eq_some_iff.mp h
    obtain ⟨n, bs, rest, hcalls, rfl⟩ := nextPart_eq_some hr
    cases heq
    exact .part hcalls
  | callFail k offset removed =>
    simp only [Process.step] at h
    split at h
    · cases h
    next hcalls =>
      cases h
      exact .removeFail hcalls
    next hne hcalls =>
      cases h
      exact .callFail hcalls fun n heq => hne n heq
  | abort removed =>
    simp only [Process.step] at h
    split at h
    next hcalls hphase =>
      simp only [Option.ite_none_right_eq_some, Option.some.injEq, Prod.mk.injEq] at h
      obtain ⟨hc, rfl, rfl⟩ := h
      have hsame : p.removeUnfinished d removed = d := by rw [Process.removeUnfinished, hphase]
      simpa only [hsame] using @ProcessStep.abort K V β _ _ F o p d removed hcalls (.inl ⟨hphase, hc⟩)
    next job hcalls hphase =>
      cases h
      exact .abort hcalls (.inr ⟨job, hphase⟩)
    · cases h

end Inversion

/-! ### Runs -/

/-- What was written to which log, and what has left the tables. -/
structure Ledger (K V : Type) where
  /-- The entries of each log: those that were inserted after they were logged there, and
  those that `DB::Open` has read from it. -/
  updates : Set (ℕ × Entry K V)
  /-- The entries that an edit has taken out of the current version. -/
  replaced : Set (Entry K V)

variable [Inhabited V]

omit [LinearOrder K] in
/-- The entries in the logs that `DB::Open` replays. -/
def Formats.logEntries (F : Formats K V β) (d : Disk β) (vs : VersionSet K V) : Set (ℕ × Entry K V) :=
  {u | u.1 ∈ logsToRecover d vs.logNumber vs.prevLogNumber ∧ ∃ batch ∈ F.readLog d u.1, u.2 ∈ batchEntries batch.1 batch.2}

/-- The ledger when `DB::Open` has returned. -/
def openLedger (F : Formats K V β) (d : Disk β) : Ledger K V where
  updates := {u | ∃ vs, F.readManifest (F.createdDB d) = some vs ∧ u ∈ F.logEntries (F.createdDB d) vs}
  replaced := ∅

omit [LinearOrder K] [Inhabited V] in
/-- The ledger after an event. What is in the memtable was logged in the current log. -/
def Ledger.after (l : Ledger K V) (p : Process K V β) (ev : Event K V) (p' : Process K V β) : Ledger K V where
  updates := l.updates ∪ {u | ev = .insert ∧ u.1 = p.logfileNumber ∧ u.2 ∈ p'.db.mem}
  replaced := l.replaced ∪ {e | e ∈ p.db.version.entries ∧ e ∉ p'.db.version.entries}

/-- The states that a process reaches after `DB::Open` of the directory `d₀`, by events each of
which satisfies `P` where it happens. -/
inductive DBRun (F : Formats K V β) (o : OpenOptions K V) (P : Process K V β → Event K V → Prop) (d₀ : Disk β) :
    Process K V β → Disk β → Ledger K V → Prop where
  /-- `DB::Open` has succeeded. -/
  | opened {calls p} : openDB F o d₀ = some (calls, p) →
      DBRun F o P d₀ p (d₀.execAll calls) (openLedger F d₀)
  /-- One more event. -/
  | step {p p' d d' l ev} : DBRun F o P d₀ p d l →
      ev.Legal p.db.version → P p ev → p.step F o.toOptions d ev = some (p', d') → DBRun F o P d₀ p' d' (l.after p ev p')

/-- The state that a list of events leads to after `DB::Open`, if each satisfies `Q` where it
happens. -/
def runProcess [DecidableEq V] (F : Formats K V β) (o : OpenOptions K V) (Q : Process K V β → Event K V → Prop)
    [∀ p ev, Decidable (Q p ev)] (d : Disk β) (events : List (Event K V)) : Option (Process K V β × Disk β) := do
  let r ← openDB F o d
  events.foldlM
    (fun s ev => if ev.Legal s.1.db.version ∧ Q s.1 ev then s.1.step F o.toOptions s.2 ev else none) (r.2, d.execAll r.1)

theorem dbRun_of_runProcess [DecidableEq V] {F : Formats K V β} {o : OpenOptions K V}
    {P Q : Process K V β → Event K V → Prop} [∀ p ev, Decidable (Q p ev)] (hQ : ∀ p ev, Q p ev → P p ev)
    {d d' : Disk β} {p : Process K V β} {events : List (Event K V)} (h : runProcess F o Q d events = some (p, d')) :
    ∃ l, DBRun F o P d p d' l := by
  obtain ⟨r, hopen, hrest⟩ := Option.bind_eq_some_iff.mp h
  refine foldlM_induct (I := fun s : Process K V β × Disk β => ∃ l, DBRun F o P d s.1 s.2 l) ?_ ⟨_, .opened hopen⟩ hrest
  rintro s ev s' ⟨l, hl⟩ hstep
  split_ifs at hstep with ht
  exact ⟨_, hl.step ht.1 (hQ s.1 ev ht.2) hstep⟩

/-- Options with which small databases are opened. -/
def smallOpenOptions : OpenOptions ℕ ℕ :=
  { smallOptions with
    createIfMissing := true
    errorIfExists := false
    paranoidChecks := false
    reuseLogs := false
    appendable := false
    memTableFull := fun _ => false }

omit [LinearOrder K] [Inhabited V] in
/-- The events of a `Put`. -/
def putEvents (k : K) (v : V) : List (Event K V) := [.beginWrite [.put k v] false, .writerCall, .insert, .endWrite]

omit [LinearOrder K] [Inhabited V] in
/-- The events with which a memtable that is not empty is switched and its table is made. -/
def buildEvents : List (Event K V) := [.switchMem true, .prepare .flush, .call, .call, .call]

end TLevelDB.Db
