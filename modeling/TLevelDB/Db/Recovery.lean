import TLevelDB.Db.LogAndApply

/-!
# Opening a database

The files of a database, and what `DB::Open` does with them: it reads the MANIFEST that
CURRENT names, replays the logs that are not older than the log number in it into tables of
level 0, makes a new log and a new MANIFEST, and lets CURRENT name that. With `reuse_logs` it
goes on with the last log and its memtable, and with the MANIFEST.

Nothing else changes the files meanwhile, so what is to be done and the process that
results are a function of the directory (`openDB`). The calls are made one after the
other and can be stopped anywhere. What is left to do at the end, removing the files that
are no longer needed, are the first calls of the process.
-/

namespace TLevelDB.Db

open TLevelDB.Storage

variable {K V β : Type}

/-! ### Files -/

/-- What `DB::Open` reads of `Options`. -/
structure OpenOptions (K V : Type) extends Options K V where
  createIfMissing : Bool
  errorIfExists : Bool
  paranoidChecks : Bool
  reuseLogs : Bool
  /-- Whether `NewAppendableFile` succeeds. -/
  appendable : Bool
  /-- `ApproximateMemoryUsage` of such a memtable is above `write_buffer_size`. -/
  memTableFull : List (Entry K V) → Bool

/-- The numbers of the files of a version, as `AddLiveFiles` finds them. -/
def Version.numbers (v : Version K V) : List ℕ :=
  (List.range kNumLevels).flatMap fun level => (v.files level).map FileMetaData.number

/-- `BuildTable`: its calls. -/
def Formats.buildTableCalls (F : Formats K V β) (number : ℕ) (mem : List (Entry K V)) : List (EnvCall β) :=
  if mem.isEmpty then [.remove (.table number)]
  else [.create (.table number), .append (.table number) (F.table.table mem), .sync (.table number)]

/-- Whether `RemoveObsoleteFiles` keeps a file. -/
def keepFile (live : List ℕ) (logNumber prevLogNumber manifestFileNumber : ℕ) : FileName → Bool
  | .log n => logNumber ≤ n ∨ n = prevLogNumber
  | .descriptor n => manifestFileNumber ≤ n
  | .table n => n ∈ live
  | .temp n => n ∈ live
  | .current => true

def removeObsoleteFiles (d : Disk β) (live : List ℕ) (logNumber prevLogNumber manifestFileNumber : ℕ) :
    List (EnvCall β) :=
  (d.children.filter fun n => !keepFile live logNumber prevLogNumber manifestFileNumber n).map .remove

/-! ### Reading -/

/-- The table of a file as it is in the directory. -/
def FileMetaData.fill (F : Formats K V β) (d : Disk β) (f : FileMetaData K V) : FileMetaData K V :=
  { f with table := ((d.bytes (.table f.number)).bind F.table.read).getD [] }

/-- The version with the tables as they are in the directory. -/
def Version.fill (F : Formats K V β) (d : Disk β) (v : Version K V) : Version K V :=
  ⟨fun level => (v.files level).map (FileMetaData.fill F d)⟩

/-- The check of `DBImpl::Recover` that no file is missing, by number. -/
def Version.allPresent (d : Disk β) (v : Version K V) : Bool :=
  v.numbers.all fun n => n ∈ d.children.map FileName.number

/-- The logs that `DBImpl::Recover` replays, in their order. -/
def logsToRecover (d : Disk β) (minLog prevLog : ℕ) : List ℕ :=
  (d.children.filterMap fun
    | .log n => if minLog ≤ n ∨ n = prevLog then some n else none
    | _ => none).insertionSort (· ≤ ·)

/-- The records of a log. -/
def Formats.readLog (F : Formats K V β) (d : Disk β) (n : ℕ) : List (ℕ × List (Op K V)) :=
  F.log.decode ((d.bytes (.log n)).getD [])

/-- The reader of a log reports no corruption. -/
def Formats.intactLog (F : Formats K V β) (d : Disk β) (n : ℕ) : Bool := F.log.intact ((d.bytes (.log n)).getD [])

/-- `ReuseManifest`: the MANIFEST that is gone on with, and its length. -/
def Formats.reuseManifest (F : Formats K V β) (o : OpenOptions K V) (d : Disk β) : Option (ℕ × ℕ) := do
  let n ← F.currentManifest d
  let bytes ← d.bytes (.descriptor n)
  if o.reuseLogs ∧ o.appendable ∧ bytes.length < o.maxFileSize then some (n, bytes.length) else none

variable [LinearOrder K]

/-! ### Replaying logs -/

section Replay

variable [Inhabited V]

omit [LinearOrder K] in
/-- The entries of a batch with this sequence number. -/
def batchEntries (s : ℕ) (ops : List (Op K V)) : List (Entry K V) := ops.mapIdx fun i op => op.entry (s + i)

/-- `WriteBatchInternal::InsertInto`, of a batch that has been decoded. -/
def insertInto (mem : List (Entry K V)) (batch : ℕ × List (Op K V)) : List (Entry K V) :=
  (batchEntries batch.1 batch.2).foldl memTableAdd mem

omit [LinearOrder K] [Inhabited V] in
/-- What `DBImpl::Recover` and `RecoverLogFile` keep while they replay logs. -/
structure Replay (K V β : Type) where
  mem : Option (List (Entry K V))
  compactions : ℕ
  /-- The files added to the edit, all at level 0. -/
  files : List (FileMetaData K V)
  nextFileNumber : ℕ
  maxSequence : ℕ
  saveManifest : Bool
  /-- `logfile_number_` and `mem_`, when the last log is reused. -/
  reused : Option (ℕ × List (Entry K V))
  /-- The calls made. -/
  calls : List (EnvCall β)

omit [LinearOrder K] [Inhabited V] in
/-- `WriteLevel0Table` without a base version. -/
def Replay.writeLevel0Table (F : Formats K V β) (o : OpenOptions K V) (r : Replay K V β) (mem : List (Entry K V)) :
    Replay K V β :=
  { r with
    mem := none
    files := r.files ++ (buildTable o.toOptions r.nextFileNumber mem).toList
    nextFileNumber := r.nextFileNumber + 1
    saveManifest := true
    calls := r.calls ++ F.buildTableCalls r.nextFileNumber mem }

/-- The loop of `RecoverLogFile` for one record. -/
def Replay.record (F : Formats K V β) (o : OpenOptions K V) (r : Replay K V β) (batch : ℕ × List (Op K V)) : Replay K V β :=
  let mem := insertInto (r.mem.getD []) batch
  let r' := { r with mem := some mem, maxSequence := max r.maxSequence (batch.1 + batch.2.length - 1) }
  if o.memTableFull mem then { r'.writeLevel0Table F o mem with compactions := r.compactions + 1 } else r'

omit [LinearOrder K] [Inhabited V] in
/-- The end of `RecoverLogFile`: the last log may be reused, with its memtable; otherwise what
is left in the memtable goes to a table. -/
def Replay.endOfLog (F : Formats K V β) (o : OpenOptions K V) (n : ℕ) (lastLog : Bool) (r : Replay K V β) : Replay K V β :=
  if o.reuseLogs ∧ lastLog ∧ r.compactions = 0 ∧ o.appendable then { r with mem := none, reused := some (n, r.mem.getD []) }
  else
    match r.mem with
    | none => r
    | some mem => r.writeLevel0Table F o mem

/-- `RecoverLogFile`, and marking its number as used. -/
def Replay.logFile (F : Formats K V β) (o : OpenOptions K V) (d : Disk β) (lastLog : Option ℕ) (r : Replay K V β) (n : ℕ) :
    Replay K V β :=
  let r' := ((F.readLog d n).foldl (Replay.record F o) { r with compactions := 0 }).endOfLog F o n (lastLog = some n)
  { r' with nextFileNumber := max r'.nextFileNumber (n + 1) }

/-- All logs. -/
def replayLogs (F : Formats K V β) (o : OpenOptions K V) (d : Disk β) (vs : VersionSet K V) (saveManifest : Bool) :
    Replay K V β :=
  let logs := logsToRecover d vs.logNumber vs.prevLogNumber
  logs.foldl (Replay.logFile F o d logs.getLast?) ⟨none, 0, [], vs.nextFileNumber, 0, saveManifest, none, []⟩

end Replay

/-! ### The process -/

/-- What the background thread does with a `VersionEdit`. -/
inductive Job (K V : Type) where
  /-- `CompactMemTable`. -/
  | flush
  /-- A trivial move. -/
  | move (reason : PickReason K V)
  /-- The end of `DoCompactionWork`. -/
  | install

/-- What the background thread is about. -/
inductive Phase (K V : Type) where
  /-- Nothing, or the loop of a compaction. -/
  | idle
  /-- It is making the tables of an edit. -/
  | building (job : Job K V)
  /-- It is in `LogAndApply` and writes the edit to the MANIFEST. -/
  | logging (job : Job K V)

/-- A process that has the database open. -/
structure Process (K V β : Type) where
  /-- The database in memory. -/
  db : DBState K V
  logfileNumber : ℕ
  /-- How much has been written to the log, as `log_` counts it. -/
  logOffset : ℕ
  /-- `log_number_` of the `VersionSet`. -/
  logNumber : ℕ
  prevLogNumber : ℕ
  manifestFileNumber : ℕ
  /-- How much has been written to the MANIFEST, as `descriptor_log_` counts it. -/
  manifestOffset : ℕ
  pendingOutputs : List ℕ
  /-- The versions to which iterators and calls of `Get` refer. -/
  readers : List (Version K V)
  /-- Whether `bg_error_` is set. -/
  bgError : Bool
  /-- `options.sync` of the batch group that is being written. -/
  sync : Bool
  /-- The calls that the writer has to make before it goes on. -/
  writerCalls : List (EnvCall β)
  /-- What the background thread is about. -/
  phase : Phase K V
  /-- The calls that the background thread has to make before it goes on. -/
  calls : List (EnvCall β)

section

omit [LinearOrder K]

/-- The versions that are referred to: the current one, those of readers, and the one a
compaction takes its inputs from. -/
def Process.referenced (p : Process K V β) : List (Version K V) :=
  p.db.version :: (p.readers ++ (p.db.compaction.map fun cs => cs.compaction.inputVersion).toList)

/-- The live files of `RemoveObsoleteFiles`. -/
def Process.live (p : Process K V β) : List ℕ := p.pendingOutputs ++ p.referenced.flatMap Version.numbers

/-- `RemoveObsoleteFiles` does nothing after a background error. -/
def Process.obsoleteCalls (p : Process K V β) (d : Disk β) : List (EnvCall β) :=
  if p.bgError then [] else removeObsoleteFiles d p.live p.logNumber p.prevLogNumber p.manifestFileNumber

end

/-! ### `DB::Open` -/

section Open

namespace Replay

variable (r : Replay K V β)

section

omit [LinearOrder K]

/-- `logfile_number_`: a new log is made if none is reused. -/
def logfileNumber : ℕ := r.reused.elim r.nextFileNumber Prod.fst

/-- `next_file_number_` after that. -/
def nextFile : ℕ := if r.reused.isSome then r.nextFileNumber else r.nextFileNumber + 1

/-- The call that makes a new log. -/
def newLogCalls : List (EnvCall β) := if r.reused.isSome then [] else [.create (.log r.nextFileNumber)]

/-- The edit. -/
def edit : VersionEdit K V where
  newFiles := r.files.map fun f => (0, f)

end

end Replay

omit [LinearOrder K] in
/-- A process that has just opened the database. -/
def Process.opened (r : Replay K V β) (version : Version K V) (compactPointer : ℕ → Option (InternalKey K))
    (lastSequence logOffset logNumber prevLogNumber manifestFileNumber manifestOffset : ℕ) : Process K V β where
  db := {
    mem := r.reused.elim [] Prod.snd
    imm := none
    version := version
    compactPointer := compactPointer
    nextFileNumber := r.nextFile
    lastSequence := lastSequence
    snapshots := []
    writing := none
    compaction := none
    isManual := false }
  logfileNumber := r.logfileNumber
  logOffset := logOffset
  logNumber := logNumber
  prevLogNumber := prevLogNumber
  manifestFileNumber := manifestFileNumber
  manifestOffset := manifestOffset
  pendingOutputs := []
  readers := []
  bgError := false
  sync := false
  writerCalls := []
  phase := .idle
  calls := []

variable [Inhabited V]

/-- `DB::Open` after the version set is recovered: its calls and the process, before obsolete
files are removed. -/
def recoverLogs (F : Formats K V β) (o : OpenOptions K V) (d : Disk β) (vs : VersionSet K V) :
    List (EnvCall β) × Process K V β :=
  let reused := F.reuseManifest o d
  let r := replayLogs F o d vs reused.isNone
  let version := vs.version.fill F d
  let lastSequence := max vs.lastSequence r.maxSequence
  let logOffset := r.reused.elim 0 fun log => ((d.bytes (.log log.1)).getD []).length
  let record := logRecord r.edit r.logfileNumber 0 r.nextFile lastSequence
  match reused with
  | none =>
    let snapshot : ManifestRecord K V := { toVersionEdit := (snapshotEdit vs.compactPointer version).bare }
    (r.calls ++ r.newLogCalls ++ F.newManifestCalls vs.manifestFileNumber snapshot record,
      .opened r (version.apply r.edit) vs.compactPointer lastSequence logOffset r.logfileNumber 0 vs.manifestFileNumber
        (F.manifest.write [snapshot, record]).length)
  | some (m, offset) =>
    if r.saveManifest then
      (r.calls ++ r.newLogCalls ++ [.append (.descriptor m) (F.manifest.encode offset record), .sync (.descriptor m)],
        .opened r (version.apply r.edit) vs.compactPointer lastSequence logOffset r.logfileNumber 0 m
          (offset + (F.manifest.encode offset record).length))
    else
      (r.calls ++ r.newLogCalls,
        .opened r version vs.compactPointer lastSequence logOffset vs.logNumber vs.prevLogNumber m offset)

/-- `DB::Open` from a directory that has a CURRENT. It ends with `RemoveObsoleteFiles`. -/
def recoverDB (F : Formats K V β) (o : OpenOptions K V) (d : Disk β) : Option (List (EnvCall β) × Process K V β) := do
  let vs ← F.readManifest d
  let logs := logsToRecover d vs.logNumber vs.prevLogNumber
  if vs.version.allPresent d ∧ (o.paranoidChecks → logs.all (F.intactLog d)) then
    let r := recoverLogs F o d vs
    some (r.1, { r.2 with calls := r.2.obsoleteCalls (d.execAll r.1) })
  else none

omit [LinearOrder K] [Inhabited V] in
/-- The directory from which the version set is recovered: a new database is made where there
is none. -/
def Formats.createdDB (F : Formats K V β) (d : Disk β) : Disk β :=
  if (d.get .current).isSome then d else d.execAll F.newDBCalls

/-- `DB::Open`: the calls it makes up to `RemoveObsoleteFiles`, and the process. -/
def openDB (F : Formats K V β) (o : OpenOptions K V) (d : Disk β) : Option (List (EnvCall β) × Process K V β) :=
  if (d.get .current).isSome then if o.errorIfExists then none else recoverDB F o d
  else if o.createIfMissing then
    (recoverDB F o (F.createdDB d)).map fun r => (F.newDBCalls ++ r.1, r.2)
  else none

section

variable {F : Formats K V β} {o : OpenOptions K V} {d : Disk β} {vs : VersionSet K V} {calls : List (EnvCall β)}
  {p : Process K V β}

theorem recoverDB_spec (h : recoverDB F o d = some (calls, p)) :
    ∃ vs, F.readManifest d = some vs ∧ calls = (recoverLogs F o d vs).1 ∧
      p = { (recoverLogs F o d vs).2 with calls := (recoverLogs F o d vs).2.obsoleteCalls (d.execAll calls) } := by
  obtain ⟨vs, hvs, hrest⟩ := Option.bind_eq_some_iff.mp h
  simp only [Option.ite_none_right_eq_some, Option.some.injEq, Prod.mk.injEq] at hrest
  obtain ⟨-, rfl, rfl⟩ := hrest
  exact ⟨vs, hvs, rfl, rfl⟩

/-- `DB::Open` recovers the version set, replays the logs and removes obsolete files. -/
theorem openDB_spec (h : openDB F o d = some (calls, p)) :
    ∃ vs, F.readManifest (F.createdDB d) = some vs ∧
      d.execAll calls = (F.createdDB d).execAll (recoverLogs F o (F.createdDB d) vs).1 ∧
      p = { (recoverLogs F o (F.createdDB d) vs).2 with
        calls := (recoverLogs F o (F.createdDB d) vs).2.obsoleteCalls (d.execAll calls) } := by
  simp only [openDB] at h
  split_ifs at h with hcurrent hexists hcreate
  · have hd : F.createdDB d = d := by simp [Formats.createdDB, hcurrent]
    rw [hd]
    obtain ⟨vs, hvs, rfl, rfl⟩ := recoverDB_spec h
    exact ⟨vs, hvs, rfl, rfl⟩
  · have hd : F.createdDB d = d.execAll F.newDBCalls := by simp [Formats.createdDB, hcurrent]
    obtain ⟨r, hr, heq⟩ := Option.map_eq_some_iff.mp h
    obtain ⟨vs, hvs, hcalls, hp⟩ := recoverDB_spec hr
    cases heq
    have hexec : d.execAll (F.newDBCalls ++ r.1) = (F.createdDB d).execAll r.1 := by rw [Dir.execAll_append, hd]
    refine ⟨vs, hvs, by rw [hexec, hcalls], ?_⟩
    rw [hexec]
    exact hp

/-- The process is one that has just opened the database. -/
theorem recoverLogs_opened (F : Formats K V β) (o : OpenOptions K V) (d : Disk β) (vs : VersionSet K V) :
    ∃ r version last logOffset logNumber prevLogNumber manifest offset, (recoverLogs F o d vs).2 =
      .opened r version vs.compactPointer last logOffset logNumber prevLogNumber manifest offset := by
  simp only [recoverLogs]
  cases F.reuseManifest o d with
  | none => exact ⟨_, _, _, _, _, _, _, _, rfl⟩
  | some reused =>
    dsimp only
    split <;> exact ⟨_, _, _, _, _, _, _, _, rfl⟩

end

end Open

end TLevelDB.Db
