import TLevelDB.Lib.Formats
import TLevelDB.Lib.Storage
import TLevelDB.Db.Manifest

/-!
# Installing an edit

`VersionSet::LogAndApply` writes an edit to the MANIFEST before it installs the version that
results. The first call of a process begins a new MANIFEST with a snapshot of the version,
and lets CURRENT name it when it is complete; later calls append to it. `VersionSet::Recover`
reads the MANIFEST that CURRENT names.

So a call takes effect for whoever recovers the files at one point: when CURRENT is renamed,
or when the last byte of the record is in the file. Wherever the call fails or is stopped, the
records of the MANIFEST have a next file number that is above the numbers of their files
(`ManifestRun.inv`).

How records, tables and the name in CURRENT are written as bytes is a parameter.
-/

namespace TLevelDB.Db

open TLevelDB.Storage

variable {K V β : Type}

/-! ### Files -/

/-- The names of the files of a database. -/
inductive FileName where
  /-- `kLogFile`. -/
  | log (n : ℕ)
  /-- `kTableFile`. -/
  | table (n : ℕ)
  /-- `kDescriptorFile`. -/
  | descriptor (n : ℕ)
  /-- `kTempFile`. -/
  | temp (n : ℕ)
  /-- `kCurrentFile`. -/
  | current
deriving DecidableEq

/-- The number that `ParseFileName` finds. -/
def FileName.number : FileName → ℕ
  | .log n => n
  | .table n => n
  | .descriptor n => n
  | .temp n => n
  | .current => 0

/-- The directory of a database. -/
abbrev Disk (β : Type) := Dir FileName β

/-- A call of `Env`. -/
abbrev EnvCall (β : Type) := Call FileName β

/-- How the files are written. A record of a log is a batch with its sequence number. -/
structure Formats (K V β : Type) where
  /-- Log files. -/
  log : LogFormat (ℕ × List (Op K V)) β
  /-- MANIFEST files. -/
  manifest : LogFormat (ManifestRecord K V) β
  /-- Tables. -/
  table : TableFormat (Entry K V) β
  /-- The contents of CURRENT: the name of a MANIFEST. -/
  currentContents : ℕ → List β
  /-- The number of the MANIFEST that CURRENT names. -/
  readCurrent : List β → Option ℕ
  readCurrent_contents : ∀ n, readCurrent (currentContents n) = some n

/-- The symbols of a format in which everything is written as it is. -/
inductive Symbol (K V : Type) where
  /-- A record of a log. -/
  | batch (b : ℕ × List (Op K V))
  /-- A record of a MANIFEST. -/
  | edit (r : ManifestRecord K V)
  /-- An entry of a table. -/
  | entry (e : Entry K V)
  /-- The end of a table. -/
  | footer
  /-- The contents of CURRENT. -/
  | name (n : ℕ)

/-- The format of these symbols. -/
def Formats.symbols (K V : Type) : Formats K V (Symbol K V) where
  log := .ofSymbol .batch (fun | .batch b => some b | _ => none) fun _ => rfl
  manifest := .ofSymbol .edit (fun | .edit r => some r | _ => none) fun _ => rfl
  table := .ofSymbol .entry (fun | .entry e => some e | _ => none) .footer (fun | .footer => true | _ => false)
    (fun _ => rfl) ⟨rfl, rfl⟩
  currentContents n := [.name n]
  readCurrent bs := bs.head?.bind fun | .name n => some n | _ => none
  readCurrent_contents _ := rfl

namespace Formats

/-- `SetCurrentFile`. -/
def setCurrentFileCalls (F : Formats K V β) (number : ℕ) : List (EnvCall β) :=
  [.create (.temp number), .append (.temp number) (F.currentContents number), .sync (.temp number),
    .rename (.temp number) .current]

/-- `LogAndApply` when it begins a new MANIFEST: a snapshot of the version before, the
edit, and CURRENT. -/
def newManifestCalls (F : Formats K V β) (number : ℕ) (snapshot record : ManifestRecord K V) : List (EnvCall β) :=
  [.create (.descriptor number), .append (.descriptor number) (F.manifest.encode 0 snapshot),
    .append (.descriptor number) (F.manifest.encode (F.manifest.write [snapshot]).length record),
    .sync (.descriptor number)] ++ F.setCurrentFileCalls number

/-- The number of the MANIFEST that CURRENT names. -/
def currentManifest (F : Formats K V β) (d : Disk β) : Option ℕ := (d.bytes .current).bind F.readCurrent

/-- `VersionSet::Recover`. It fails if the reader of the MANIFEST reports a corruption. -/
def readManifest [LinearOrder K] (F : Formats K V β) (d : Disk β) : Option (VersionSet K V) := do
  let n ← F.currentManifest d
  let bytes ← d.bytes (.descriptor n)
  if F.manifest.intact bytes then VersionSet.recover (F.manifest.decode bytes) else none

end Formats

/-- The first record of a new database. -/
def newDBRecord : ManifestRecord K V where
  logNumber := some 0
  nextFileNumber := some 2
  lastSequence := some 0

/-- `NewDB`. -/
def Formats.newDBCalls (F : Formats K V β) : List (EnvCall β) :=
  [.create (.descriptor 1), .append (.descriptor 1) (F.manifest.encode 0 newDBRecord), .sync (.descriptor 1)] ++
    F.setCurrentFileCalls 1

/-! ### `LogAndApply` -/

namespace VersionSet

/-- The record that `LogAndApply` writes for an edit: numbers that are not set are filled in. -/
def editRecord (vs : VersionSet K V) (edit : ManifestRecord K V) : ManifestRecord K V :=
  logRecord edit.toVersionEdit (edit.logNumber.getD vs.logNumber) (edit.prevLogNumber.getD vs.prevLogNumber)
    vs.nextFileNumber vs.lastSequence

/-- `WriteSnapshot`. The builder has applied the edit and so has set its compaction pointers. -/
def snapshotRecord (vs : VersionSet K V) (edit : ManifestRecord K V) : ManifestRecord K V where
  toVersionEdit := (snapshotEdit (setCompactPointers vs.compactPointer edit.compactPointers) vs.version).bare

/-- What `LogAndApply` installs. -/
def install [LinearOrder K] (vs : VersionSet K V) (edit : ManifestRecord K V) : VersionSet K V :=
  { vs with
    version := ((⟨vs.version, [], []⟩ : Builder K V).apply edit.toVersionEdit).saveTo
    compactPointer := setCompactPointers vs.compactPointer edit.compactPointers
    logNumber := edit.logNumber.getD vs.logNumber
    prevLogNumber := edit.prevLogNumber.getD vs.prevLogNumber }

end VersionSet

/-- The `VersionSet` of a process. -/
structure Session (K V : Type) extends VersionSet K V where
  /-- How much `descriptor_log_` has written, if there is one. -/
  descriptorLog : Option ℕ

namespace Session

/-- The calls of `LogAndApply`. `AddRecord` does not look at the status of the append of a block's
trailer; here the trailer is a part of the record's append, and fails with it. -/
def calls (F : Formats K V β) (s : Session K V) (edit : ManifestRecord K V) : List (EnvCall β) :=
  match s.descriptorLog with
  | none => F.newManifestCalls s.manifestFileNumber (s.snapshotRecord edit) (s.editRecord edit)
  | some offset =>
    [.append (.descriptor s.manifestFileNumber) (F.manifest.encode offset (s.editRecord edit)),
      .sync (.descriptor s.manifestFileNumber)]

/-- The calls of `RemoveFile` after a failure. Those for the temporary file are made in
`WriteStringToFileSync` and `SetCurrentFile`, if it got there. -/
def cleanupCalls (s : Session K V) : List (EnvCall β) :=
  match s.descriptorLog with
  | none =>
    [.remove (.temp s.manifestFileNumber), .remove (.temp s.manifestFileNumber),
      .remove (.descriptor s.manifestFileNumber)]
  | some _ => []

/-- How much `descriptor_log_` has written after a call. -/
def offsetAfter (F : Formats K V β) (s : Session K V) (edit : ManifestRecord K V) : ℕ :=
  match s.descriptorLog with
  | none => (F.manifest.write [s.snapshotRecord edit, s.editRecord edit]).length
  | some offset => offset + (F.manifest.encode offset (s.editRecord edit)).length

/-- The `VersionSet` after a call that succeeds. -/
def logAndApply [LinearOrder K] (F : Formats K V β) (s : Session K V) (edit : ManifestRecord K V) : Session K V where
  toVersionSet := s.install edit
  descriptorLog := some (s.offsetAfter F edit)

/-- The edits that are given to `LogAndApply`: their files have numbers that `NewFileNumber`
has returned. -/
def Accepts (s : Session K V) (edit : ManifestRecord K V) : Prop :=
  ∀ nf ∈ edit.newFiles, nf.2.number < s.nextFileNumber

end Session

/-- CURRENT and the MANIFEST that it names are the same in both directories. -/
def SameManifest (F : Formats K V β) (d d' : Disk β) : Prop :=
  d'.get .current = d.get .current ∧ ∀ n, F.currentManifest d = some n → d'.get (.descriptor n) = d.get (.descriptor n)

/-- The directories, with the `VersionSet` of the process if there is one, that are reached
from a new database by processes that recover it and call `LogAndApply`. -/
inductive ManifestRun [LinearOrder K] (F : Formats K V β) : Option (Session K V) → Disk β → Prop where
  /-- A new database. -/
  | newDB (d : Disk β) : ManifestRun F none (d.execAll F.newDBCalls)
  /-- A process recovers the version set. -/
  | recover {d vs} : ManifestRun F none d → F.readManifest d = some vs →
      ManifestRun F (some ⟨vs, none⟩) d
  /-- A call of `LogAndApply` succeeds. -/
  | logAndApply {s d edit} : ManifestRun F (some s) d →
      s.Accepts edit → ManifestRun F (some (s.logAndApply F edit)) (d.execAll (s.calls F edit))
  /-- The process is stopped in a call. -/
  | stop {s d d' edit rest} :
      ManifestRun F (some s) d → s.Accepts edit → d.Reaches (s.calls F edit) d' rest → ManifestRun F none d'
  /-- A call fails, and is the last of the process. What fails is a call of `Env`, which leaves
  nothing behind but perhaps some bytes of an append. -/
  | fail {s d d' edit c rest removed} :
      ManifestRun F (some s) d → s.Accepts edit → d.Reaches (s.calls F edit) d' (c :: rest) →
      removed.Sublist s.cleanupCalls → ManifestRun F none (d'.execAll removed)
  /-- The process ends between two calls. -/
  | exit {s d} : ManifestRun F (some s) d → ManifestRun F none d
  /-- Between two calls other files change, file numbers and sequence numbers are taken, and
  compactions are picked. -/
  | work {s d d' next last p} : ManifestRun F (some s) d →
      SameManifest F d d' → s.nextFileNumber ≤ next → ManifestRun F
        (some { s with nextFileNumber := next, lastSequence := last, compactPointer := p }) d'
  /-- Other files change while there is no process. -/
  | away {d d'} : ManifestRun F none d → SameManifest F d d' → ManifestRun F none d'

/-! ### What the records of a MANIFEST say -/

section Records

variable [LinearOrder K] {rs : List (ManifestRecord K V)} {next : ℕ} {vs : VersionSet K V}

/-- The records set the next file number, and add files with numbers below it. -/
structure NumbersBelow (rs : List (ManifestRecord K V)) (next : ℕ) : Prop where
  nextFile : (rs.foldl Recovering.read Recovering.start).nextFile = some next
  number_lt : ∀ r ∈ rs, ∀ nf ∈ r.newFiles, nf.2.number < next

/-- The files of the version that is recovered have such numbers. -/
theorem NumbersBelow.recover (h : NumbersBelow rs next) (hvs : VersionSet.recover rs = some vs) :
    vs.manifestFileNumber = next ∧ vs.nextFileNumber = next + 1 ∧
      ∀ level, ∀ f ∈ vs.version.files level, f.number < next := by
  unfold VersionSet.recover at hvs
  simp only [h.nextFile] at hvs
  split at hvs
  next hnext _ _ =>
    cases hnext
    cases hvs
    refine ⟨rfl, rfl, fun level f hf => ?_⟩
    obtain ⟨r, hr, hf⟩ := mem_recovered hf
    exact h.number_lt r hr _ hf
  next => cases hvs

omit [LinearOrder K] in
/-- One more record, after records that may not have set the number yet. -/
theorem numbersBelow_snoc (rs : List (ManifestRecord K V)) {edit : VersionEdit K V}
    (hold : ∀ r ∈ rs, ∀ nf ∈ r.newFiles, nf.2.number < next)
    (hnew : ∀ nf ∈ edit.newFiles, nf.2.number < next) (logNumber prevLogNumber last : ℕ) :
    NumbersBelow (rs ++ [logRecord edit logNumber prevLogNumber next last]) next where
  nextFile := by
    rw [List.foldl_append]
    rfl
  number_lt r hr nf hnf := by
    rcases List.mem_append.mp hr with hr | hr
    · exact hold r hr nf hnf
    · rw [List.mem_singleton.mp hr] at hnf
      obtain ⟨nf', hnf', rfl⟩ := List.mem_map.mp hnf
      exact hnew nf' hnf'

end Records

/-! ### What is in the directory -/

section Directory

variable [LinearOrder K] {F : Formats K V β} {d d' : Disk β} {rs : List (ManifestRecord K V)} {m n : ℕ}

/-- CURRENT names the MANIFEST `m`, and these are its records. -/
structure Names (F : Formats K V β) (d : Disk β) (m : ℕ) (rs : List (ManifestRecord K V)) : Prop where
  current : F.currentManifest d = some m
  manifest : ∃ bytes, d.bytes (.descriptor m) = some bytes ∧ F.manifest.intact bytes = true ∧ F.manifest.decode bytes = rs

theorem Names.readManifest_eq (h : Names F d m rs) : F.readManifest d = VersionSet.recover rs := by
  obtain ⟨bytes, hbytes, hintact, rfl⟩ := h.manifest
  simp [Formats.readManifest, h.current, hbytes, hintact]

section

omit [LinearOrder K]

theorem names_of_write (hcurrent : F.currentManifest d = some m)
    (hbytes : d.bytes (.descriptor m) = some (F.manifest.write rs)) : Names F d m rs :=
  ⟨hcurrent, _, hbytes, F.manifest.intact_write rs, F.manifest.decode_write_eq rs⟩

theorem Names.congr (h : Names F d m rs) (hs : SameManifest F d d') : Names F d' m rs where
  current := by rw [Formats.currentManifest, Dir.bytes, hs.1]; exact h.current
  manifest := by
    obtain ⟨bytes, hbytes, hrest⟩ := h.manifest
    refine ⟨bytes, ?_, hrest⟩
    rw [Dir.bytes, hs.2 m h.current]
    exact hbytes

theorem sameManifest_of_get (hcurrent : d'.get .current = d.get .current) (h : Names F d m rs)
    (hm : d'.get (.descriptor m) = d.get (.descriptor m)) : SameManifest F d d' := by
  refine ⟨hcurrent, fun n hn => ?_⟩
  obtain rfl : m = n := Option.some.inj (h.current.symm.trans hn)
  exact hm

theorem currentManifest_of_get {unsynced : List β} (h : d.get .current = some ⟨F.currentContents n, unsynced⟩)
    (hu : unsynced = []) : F.currentManifest d = some n := by
  simp [Formats.currentManifest, Dir.bytes, h, hu, File.bytes, F.readCurrent_contents]

end

/-- The calls that begin a new MANIFEST, without the last. -/
def Formats.manifestCalls (F : Formats K V β) (n : ℕ) (snapshot record : ManifestRecord K V) : List (EnvCall β) :=
  [.create (.descriptor n), .append (.descriptor n) (F.manifest.encode 0 snapshot),
    .append (.descriptor n) (F.manifest.encode (F.manifest.write [snapshot]).length record), .sync (.descriptor n),
    .create (.temp n), .append (.temp n) (F.currentContents n), .sync (.temp n)]

section NewManifest

variable {snapshot record : ManifestRecord K V}

section

omit [LinearOrder K]

theorem newManifestCalls_eq (F : Formats K V β) (n : ℕ) (snapshot record : ManifestRecord K V) :
    F.newManifestCalls n snapshot record = F.manifestCalls n snapshot record ++ [.rename (.temp n) .current] := rfl

theorem manifestCalls_not_writes {name : FileName} (hd : name ≠ .descriptor n) (ht : name ≠ .temp n) :
    ∀ c ∈ F.manifestCalls n snapshot record, ¬ c.Writes name := by
  simp only [Formats.manifestCalls, List.forall_mem_cons, Call.Writes]
  simp [hd.symm, ht.symm]

theorem get_manifestCalls (d : Disk β) :
    (d.execAll (F.manifestCalls n snapshot record)).get (.descriptor n) =
        some ⟨F.manifest.write [snapshot, record], []⟩ ∧
      (d.execAll (F.manifestCalls n snapshot record)).get (.temp n) = some ⟨F.currentContents n, []⟩ := by
  have hwrite : F.manifest.write [snapshot, record] = F.manifest.encode 0 snapshot ++
      F.manifest.encode (F.manifest.write [snapshot]).length record := by
    have hsnoc := F.manifest.write_snoc [] snapshot
    have hsnoc' := F.manifest.write_snoc [snapshot] record
    simp only [List.nil_append, LogFormat.write_nil, List.length_nil] at hsnoc
    rw [List.singleton_append] at hsnoc'
    rw [hsnoc', hsnoc]
  simp [Formats.manifestCalls, hwrite, File.append, File.sync, File.bytes, File.empty]

theorem get_newManifestCalls (d : Disk β) :
    (d.execAll (F.newManifestCalls n snapshot record)).get .current = some ⟨F.currentContents n, []⟩ ∧
      (d.execAll (F.newManifestCalls n snapshot record)).get (.descriptor n) =
        some ⟨F.manifest.write [snapshot, record], []⟩ := by
  obtain ⟨hdesc, htemp⟩ := @get_manifestCalls K V β F n snapshot record d
  rw [newManifestCalls_eq, Dir.execAll_append, Dir.execAll_cons, Dir.execAll_nil, Dir.get_exec_rename htemp,
    Dir.get_exec_rename htemp]
  simp [hdesc]

/-- Until CURRENT is renamed, a new MANIFEST is not seen. -/
theorem sameManifest_of_reaches {rest : List (EnvCall β)} (hnames : Names F d m rs) (hne : m ≠ n)
    (h : d.Reaches (F.newManifestCalls n snapshot record) d' rest) :
    SameManifest F d d' ∨ rest = [] ∧ d' = d.execAll (F.newManifestCalls n snapshot record) := by
  have hdesc : ∀ c ∈ F.manifestCalls n snapshot record, ¬ c.Writes (.descriptor m) :=
    manifestCalls_not_writes (by simpa using hne) (by simp)
  have hcurrent : ∀ c ∈ F.manifestCalls n snapshot record, ¬ c.Writes .current :=
    manifestCalls_not_writes (by simp) (by simp)
  rw [newManifestCalls_eq] at h ⊢
  rcases h.of_append with ⟨rest', hr, -⟩ | hr
  · exact Or.inl (sameManifest_of_get (hr.get_eq hcurrent).1 hnames (hr.get_eq hdesc).1)
  · rcases hr.of_singleton (by simp) with ⟨rfl, -⟩ | ⟨rfl, hrest⟩
    · exact Or.inl (sameManifest_of_get (Dir.get_execAll_of_not_writes hcurrent d) hnames
        (Dir.get_execAll_of_not_writes hdesc d))
    · exact Or.inr ⟨hrest, by rw [Dir.execAll_append]; rfl⟩

end

end NewManifest

omit [LinearOrder K] in
/-- A record that is appended to a MANIFEST is seen when it is there as a whole. -/
theorem names_of_reaches {record : ManifestRecord K V} {rest : List (EnvCall β)}
    (hcurrent : F.currentManifest d = some m) (hbytes : d.bytes (.descriptor m) = some (F.manifest.write rs))
    (h : d.Reaches [.append (.descriptor m) (F.manifest.encode (F.manifest.write rs).length record),
      .sync (.descriptor m)] d' rest) : Names F d' m rs ∨ Names F d' m (rs ++ [record]) := by
  obtain ⟨f, hf, hfbytes⟩ := Option.map_eq_some_iff.mp hbytes
  obtain ⟨f', f'', hf', hf'', hle, hge⟩ := h.grows (n := .descriptor m) (by simp [Call.Grows]) hf
  have hfinal : f''.bytes = F.manifest.write (rs ++ [record]) := by
    rw [F.manifest.write_snoc]
    simp only [Dir.execAll_cons, Dir.execAll_nil, Dir.get_exec_sync, Dir.get_exec_append, hf, if_true,
      Option.map_some, Option.some.injEq] at hf''
    rw [← hf'', File.bytes_sync, File.bytes_append, hfbytes]
  rw [hfbytes] at hle
  rw [hfinal] at hge
  have hsame : F.currentManifest d' = some m := by
    rw [Formats.currentManifest, Dir.bytes, (h.get_eq (n := .current) (by simp [Call.Writes])).1]
    exact hcurrent
  obtain ⟨k, hk, hk', hdec⟩ := F.manifest.decode_of_prefix (j := rs.length) (by simp) (by simpa using hle) hge
  have hnames : Names F d' m ((rs ++ [record]).take k) :=
    ⟨hsame, f'.bytes, by simp [Dir.bytes, hf'], F.manifest.intact_of_prefix _ _ hge, hdec⟩
  rw [List.length_append, List.length_singleton] at hk'
  rcases Nat.lt_or_eq_of_le hk' with hlt | rfl
  · obtain rfl : k = rs.length := by omega
    left
    simpa using hnames
  · right
    rwa [List.take_of_length_le (by simp)] at hnames

end Directory

/-! ### Runs -/

section Runs

variable [LinearOrder K] {F : Formats K V β} {s : Session K V} {d d' : Disk β} {edit : ManifestRecord K V}
  {rest removed : List (EnvCall β)}

/-- The directory while there is no process. -/
def DirectoryInv (F : Formats K V β) (d : Disk β) : Prop :=
  ∃ m rs next, Names F d m rs ∧ NumbersBelow rs next ∧ m < next

/-- The directory and what a process has in memory. -/
inductive SessionInv (F : Formats K V β) (s : Session K V) (d : Disk β) : Prop where
  /-- Before its first call of `LogAndApply`. -/
  | closed {m rs} : s.descriptorLog = none → Names F d m rs → NumbersBelow rs s.manifestFileNumber →
      (∀ level, ∀ f ∈ s.version.files level, f.number < s.manifestFileNumber) → m < s.manifestFileNumber →
      s.manifestFileNumber < s.nextFileNumber → SessionInv F s d
  /-- After it. -/
  | opened {next rs} : s.descriptorLog = some (F.manifest.write rs).length →
      F.currentManifest d = some s.manifestFileNumber →
      d.bytes (.descriptor s.manifestFileNumber) = some (F.manifest.write rs) → NumbersBelow rs next →
      s.manifestFileNumber < next → next ≤ s.nextFileNumber → SessionInv F s d

omit [LinearOrder K] in
theorem SessionInv.directoryInv (h : SessionInv F s d) : DirectoryInv F d := by
  cases h with
  | closed _ hnames hbelow _ hlt => exact ⟨_, _, _, hnames, hbelow, hlt⟩
  | opened _ hcurrent hbytes hbelow hlt => exact ⟨_, _, _, names_of_write hcurrent hbytes, hbelow, hlt⟩

omit [LinearOrder K] in
theorem SessionInv.lt (h : SessionInv F s d) : s.manifestFileNumber < s.nextFileNumber := by
  cases h with
  | closed _ _ _ _ _ hlt => exact hlt
  | opened _ _ _ _ hlt hle => exact hlt.trans_le hle

omit [LinearOrder K] in
/-- The record of an edit after those that a process has written. -/
theorem NumbersBelow.snoc {rs : List (ManifestRecord K V)} {next : ℕ} (h : NumbersBelow rs next) (he : s.Accepts edit)
    (hle : next ≤ s.nextFileNumber) : NumbersBelow (rs ++ [s.editRecord edit]) s.nextFileNumber :=
  numbersBelow_snoc rs (fun r hr nf hnf => (h.number_lt r hr nf hnf).trans_le hle) he _ _ _

omit [LinearOrder K] in
/-- What a call that succeeds leaves in the directory. -/
theorem SessionInv.after (h : SessionInv F s d) (he : s.Accepts edit) : ∃ rs,
    F.currentManifest (d.execAll (s.calls F edit)) = some s.manifestFileNumber ∧
    (d.execAll (s.calls F edit)).bytes (.descriptor s.manifestFileNumber) = some (F.manifest.write rs) ∧
    s.offsetAfter F edit = (F.manifest.write rs).length ∧ NumbersBelow rs s.nextFileNumber := by
  cases h with
  | closed hlog hnames hbelow hfiles hlt hnext =>
    refine ⟨[s.snapshotRecord edit, s.editRecord edit], ?_, ?_, ?_,
      numbersBelow_snoc [s.snapshotRecord edit] (fun r hr nf hnf => ?_) he _ _ _⟩
    · rw [Session.calls, hlog]
      exact currentManifest_of_get (get_newManifestCalls d).1 rfl
    · rw [Session.calls, hlog, Dir.bytes]
      simp only [(get_newManifestCalls d).2]
      simp [File.bytes]
    · rw [Session.offsetAfter, hlog]
    · rw [List.mem_singleton.mp hr] at hnf
      obtain ⟨nf', hnf', rfl⟩ := List.mem_map.mp hnf
      exact (hfiles _ _ (mem_newFiles_snapshotEdit hnf')).trans hnext
  | @opened next rs hlog hcurrent hbytes hbelow hlt hle =>
    refine ⟨rs ++ [s.editRecord edit], ?_, ?_, ?_, hbelow.snoc he hle⟩
    · rw [Session.calls, hlog, Formats.currentManifest, Dir.bytes,
        Dir.get_execAll_of_not_writes (by simp [Call.Writes])]
      exact hcurrent
    · obtain ⟨f, hf, hfbytes⟩ := Option.map_eq_some_iff.mp hbytes
      rw [Session.calls, hlog, F.manifest.write_snoc]
      simp [Dir.bytes, hf, hfbytes]
    · rw [Session.offsetAfter, hlog, F.manifest.write_snoc, List.length_append]

theorem SessionInv.logAndApply (h : SessionInv F s d) (he : s.Accepts edit) :
    SessionInv F (s.logAndApply F edit) (d.execAll (s.calls F edit)) := by
  obtain ⟨rs, hcurrent, hbytes, hoffset, hbelow⟩ := h.after he
  exact .opened (congrArg some hoffset) hcurrent hbytes hbelow h.lt le_rfl

theorem SessionInv.stop (h : SessionInv F s d) (he : s.Accepts edit) (hr : d.Reaches (s.calls F edit) d' rest) :
    DirectoryInv F d' := by
  have hafter := (h.logAndApply he).directoryInv
  cases h with
  | closed hlog hnames hbelow hfiles hlt hnext =>
    simp only [Session.calls, hlog] at hr hafter
    rcases sameManifest_of_reaches hnames hlt.ne hr with hs | ⟨-, rfl⟩
    · exact ⟨_, _, _, hnames.congr hs, hbelow, hlt⟩
    · exact hafter
  | opened hlog hcurrent hbytes hbelow hlt hle =>
    rw [Session.calls, hlog] at hr
    rcases names_of_reaches hcurrent hbytes hr with hnames | hnames
    · exact ⟨_, _, _, hnames, hbelow, hlt⟩
    · exact ⟨_, _, _, hnames, hbelow.snoc he hle, hlt.trans_le hle⟩

theorem SessionInv.fail (h : SessionInv F s d) (he : s.Accepts edit) {c : EnvCall β}
    (hr : d.Reaches (s.calls F edit) d' (c :: rest)) (hremoved : removed.Sublist s.cleanupCalls) :
    DirectoryInv F (d'.execAll removed) := by
  cases hlog : s.descriptorLog with
  | some offset =>
    rw [Session.cleanupCalls, hlog, List.sublist_nil] at hremoved
    subst hremoved
    exact h.stop he hr
  | none =>
    cases h with
    | opened hlog' => rw [hlog] at hlog'; cases hlog'
    | @closed m rs _ hnames hbelow hfiles hlt =>
      rw [Session.calls, hlog] at hr
      rw [Session.cleanupCalls, hlog] at hremoved
      rcases sameManifest_of_reaches hnames hlt.ne hr with hs | ⟨hrest, -⟩
      · have hframe : ∀ name : FileName, name ≠ .temp s.manifestFileNumber → name ≠ .descriptor s.manifestFileNumber →
            (d'.execAll removed).get name = d'.get name := by
          intro name ht hd
          refine Dir.get_execAll_of_not_writes (fun c hc => ?_) d'
          have hc := hremoved.subset hc
          simp only [List.mem_cons, List.not_mem_nil, or_false, or_self_left] at hc
          rcases hc with rfl | rfl
          · exact ht.symm
          · exact hd.symm
        have hsame := sameManifest_of_get ((hframe _ (by simp) (by simp)).trans hs.1) hnames
          ((hframe _ (by simp) (by simpa using hlt.ne)).trans (hs.2 m hnames.current))
        exact ⟨_, _, _, hnames.congr hsame, hbelow, hlt⟩
      · cases hrest

omit [LinearOrder K] in
theorem SessionInv.work (h : SessionInv F s d) (hs : SameManifest F d d') {next last : ℕ} (hle : s.nextFileNumber ≤ next)
    (p : ℕ → Option (InternalKey K)) :
    SessionInv F { s with nextFileNumber := next, lastSequence := last, compactPointer := p } d' := by
  cases h with
  | closed hlog hnames hbelow hfiles hlt hnext =>
    exact .closed hlog (hnames.congr hs) hbelow hfiles hlt (hnext.trans_le hle)
  | opened hlog hcurrent hbytes hbelow hlt hnext =>
    have hnames := (names_of_write hcurrent hbytes).congr hs
    exact .opened hlog hnames.current (by rw [Dir.bytes, hs.2 _ hcurrent]; exact hbytes) hbelow hlt (hnext.trans hle)

omit [LinearOrder K] in
theorem get_newDBCalls (F : Formats K V β) (d : Disk β) :
    (d.execAll F.newDBCalls).get .current = some ⟨F.currentContents 1, []⟩ ∧
      (d.execAll F.newDBCalls).get (.descriptor 1) = some ⟨F.manifest.write [newDBRecord], []⟩ := by
  have hwrite := F.manifest.write_snoc [] newDBRecord
  simp only [List.nil_append, LogFormat.write_nil, List.length_nil] at hwrite
  simp [Formats.newDBCalls, Formats.setCurrentFileCalls, Dir.get_exec_rename, hwrite, File.append, File.sync,
    File.bytes, File.empty]

omit [LinearOrder K] in
theorem names_newDB (F : Formats K V β) (d : Disk β) : Names F (d.execAll F.newDBCalls) 1 [newDBRecord] := by
  obtain ⟨hcurrent, hmanifest⟩ := get_newDBCalls F d
  exact names_of_write (currentManifest_of_get hcurrent rfl) (by simp [Dir.bytes, hmanifest, File.bytes])

omit [LinearOrder K] in
theorem directoryInv_newDB (F : Formats K V β) (d : Disk β) : DirectoryInv F (d.execAll F.newDBCalls) :=
  ⟨1, [newDBRecord], 2, names_newDB F d, ⟨rfl, by simp [newDBRecord]⟩, by decide⟩

theorem ManifestRun.inv {s : Option (Session K V)} (h : ManifestRun F s d) :
    s.elim (DirectoryInv F d) (SessionInv F · d) := by
  induction h with
  | newDB d => exact directoryInv_newDB F d
  | recover hrun hvs ih =>
    obtain ⟨m, rs, next, hnames, hbelow, hlt⟩ := ih
    obtain ⟨rfl, hnext, hfiles⟩ := hbelow.recover (hnames.readManifest_eq.symm.trans hvs)
    exact .closed rfl hnames hbelow hfiles hlt (hnext ▸ Nat.lt_succ_self _)
  | logAndApply _ he ih => exact ih.logAndApply he
  | stop _ he hr ih => exact ih.stop he hr
  | fail _ he hr hremoved ih => exact ih.fail he hr hremoved
  | exit _ ih => exact ih.directoryInv
  | work _ hs hle ih => exact ih.work hs hle _
  | away _ hs ih =>
    obtain ⟨m, rs, next, hnames, hbelow, hlt⟩ := ih
    exact ⟨m, rs, next, hnames.congr hs, hbelow, hlt⟩

end Runs

end TLevelDB.Db
