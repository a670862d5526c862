import TLevelDB.Db.Format
import Mathlib.Data.List.Sort

/-!
# Versions

The files of a version and what is computed from them (`version_set`): which file of a
level may hold a key, which files overlap a range, the level a flushed memtable goes to,
a lookup, and the version that an edit makes of another one.

A file is immutable, so its description carries the entries of its table. The files of
level 0 may overlap; those of the other levels are meant to be sorted and disjoint by
internal key, which is what `FindFile` and the overlap test rely on.
-/

namespace TLevelDB.Db

/-! ### Options -/

/-- `config::kNumLevels`. -/
def kNumLevels : ℕ := 7

/-- `config::kMaxMemCompactLevel`. -/
def kMaxMemCompactLevel : ℕ := 2

/-- What is read of `Options`, and the sizes a `TableBuilder` reports, which depend on
the table format. -/
structure Options (K V : Type) where
  maxFileSize : ℕ
  /-- `FileSize` of a builder to which these entries have been added. -/
  builderSize : List (Entry K V) → ℕ
  /-- `FileSize` of the finished table of these entries. -/
  tableSize : List (Entry K V) → ℕ

variable {K V : Type}

def Options.maxGrandParentOverlapBytes (o : Options K V) : ℕ := 10 * o.maxFileSize

def Options.expandedCompactionByteSizeLimit (o : Options K V) : ℕ := 25 * o.maxFileSize

/-! ### Files -/

/-- `FileMetaData`, with the entries of the table. -/
@[ext] structure FileMetaData (K V : Type) where
  number : ℕ
  fileSize : ℕ
  smallest : InternalKey K
  largest : InternalKey K
  /-- The entries of the table, in order. -/
  table : List (Entry K V)
deriving DecidableEq

/-- `Version`: the files of each level. -/
structure Version (K V : Type) where
  files : ℕ → List (FileMetaData K V)

/-- A version without files. -/
def Version.empty : Version K V := ⟨fun _ => []⟩

/-- `TotalFileSize`, without the bounds of its `int64_t`. -/
def totalFileSize (files : List (FileMetaData K V)) : ℕ := (files.map FileMetaData.fileSize).sum

variable [LinearOrder K]

/-! ### Which files may hold a key, or overlap a range -/

/-- The loop of `FindFile`, which halves `right - left`. -/
def findFileLoop (files : List (FileMetaData K V)) (key : InternalKey K) : ℕ → ℕ → ℕ → ℕ
  | 0, _, right => right
  | n + 1, left, right =>
    if left < right then
      let mid := (left + right) / 2
      match files[mid]? with
      | some f => if f.largest < key then findFileLoop files key n (mid + 1) right else findFileLoop files key n left mid
      | none => right
    else right

/-- `FindFile`: the index of the first file whose largest key is at least `key`. -/
def findFile (files : List (FileMetaData K V)) (key : InternalKey K) : ℕ :=
  findFileLoop files key files.length 0 files.length

/-- `AfterFile`: the user key is after the file; a null one is before all keys. -/
def afterFile (userKey : Option K) (f : FileMetaData K V) : Bool :=
  match userKey with
  | none => false
  | some k => f.largest.userKey < k

/-- `BeforeFile`: the user key is before the file; a null one is after all keys. -/
def beforeFile (userKey : Option K) (f : FileMetaData K V) : Bool :=
  match userKey with
  | none => false
  | some k => k < f.smallest.userKey

def someFileOverlapsRange (disjointSortedFiles : Bool) (files : List (FileMetaData K V)) (smallest largest : Option K) :
    Bool :=
  if disjointSortedFiles then
    let index :=
      match smallest with
      | none => 0
      | some k => findFile files ⟨k, kMaxSequenceNumber, kValueTypeForSeek⟩
    match files[index]? with
    | none => false
    | some f => !beforeFile largest f
  else files.any fun f => !(afterFile smallest f || beforeFile largest f)

/-- `Version::OverlapInLevel`. -/
def Version.overlapInLevel (v : Version K V) (level : ℕ) (smallest largest : Option K) : Bool :=
  someFileOverlapsRange (0 < level) (v.files level) smallest largest

/-- One pass of `GetOverlappingInputs` over the files of a level: the files that overlap
the range, or, on level 0, the range that an overlapping file makes larger. -/
def scanOverlapping (level : ℕ) (b e : Option K) :
    List (FileMetaData K V) → List (FileMetaData K V) → (Option K × Option K) ⊕ List (FileMetaData K V)
  | [], inputs => .inr inputs
  | f :: files, inputs =>
    if afterFile b f then scanOverlapping level b e files inputs
    else if beforeFile e f then scanOverlapping level b e files inputs
    else if level = 0 ∧ b.any (f.smallest.userKey < ·) then .inl (some f.smallest.userKey, e)
    else if level = 0 ∧ e.any (· < f.largest.userKey) then .inl (b, some f.largest.userKey)
    else scanOverlapping level b e files (inputs ++ [f])

/-- The passes of `GetOverlappingInputs`: it starts again each time the range has grown. -/
def overlappingLoop (level : ℕ) (files : List (FileMetaData K V)) : ℕ → Option K → Option K → List (FileMetaData K V)
  | 0, _, _ => []
  | n + 1, b, e =>
    match scanOverlapping level b e files [] with
    | .inl (b', e') => overlappingLoop level files n b' e'
    | .inr inputs => inputs

/-- `Version::GetOverlappingInputs`. Each pass but the last moves an end of the range past
that end of a file, so there are at most two passes for each file and one more. -/
def Version.getOverlappingInputs (v : Version K V) (level : ℕ) (b e : Option (InternalKey K)) :
    List (FileMetaData K V) :=
  overlappingLoop level (v.files level) (2 * (v.files level).length + 1) (b.map InternalKey.userKey)
    (e.map InternalKey.userKey)

/-- The loop of `PickLevelForMemTableOutput`, with the number of levels left to push down. -/
def Version.pickLevelLoop (o : Options K V) (v : Version K V) (smallest largest : K) : ℕ → ℕ → ℕ
  | 0, level => level
  | n + 1, level =>
    if v.overlapInLevel (level + 1) (some smallest) (some largest) then level
    else if level + 2 < kNumLevels ∧ o.maxGrandParentOverlapBytes <
        totalFileSize (v.getOverlappingInputs (level + 2) (some ⟨smallest, kMaxSequenceNumber, kValueTypeForSeek⟩)
          (some ⟨largest, 0, .deletion⟩)) then level
    else v.pickLevelLoop o smallest largest n (level + 1)

/-- `Version::PickLevelForMemTableOutput`. -/
def Version.pickLevelForMemTableOutput (o : Options K V) (v : Version K V) (smallest largest : K) : ℕ :=
  if v.overlapInLevel 0 (some smallest) (some largest) then 0
  else v.pickLevelLoop o smallest largest kMaxMemCompactLevel 0

/-! ### Lookups -/

/-- What a lookup in a memtable or a file finds: `SaverState`, without `kCorrupt`. -/
inductive Lookup (V : Type) where
  | notFound
  | found (v : V)
  | deleted
deriving DecidableEq

/-- `SaveValue`, and the end of `MemTable::Get`: what an entry says about a user key. -/
def saveValue (userKey : K) (e : Entry K V) : Lookup V :=
  if e.userKey = userKey then
    match e.key.type with
    | .value => .found e.value
    | .deletion => .deleted
  else .notFound

/-- A lookup in sorted entries, as `MemTable::Get` and `TableCache::Get` make it: what
the first entry from the lookup's key on says. -/
def lookupIn (entries : List (Entry K V)) (userKey : K) (s : ℕ) : Lookup V :=
  match entries.find? (fun e => lookupKey userKey s ≤ e.key) with
  | none => .notFound
  | some e => saveValue userKey e

/-- The files of level 0 that `ForEachOverlapping` visits, newest first. -/
def Version.overlappingLevel0 (v : Version K V) (userKey : K) : List (FileMetaData K V) :=
  ((v.files 0).filter fun f => f.smallest.userKey ≤ userKey ∧ userKey ≤ f.largest.userKey).insertionSort
    fun f g => g.number ≤ f.number

/-- The file of another level that `ForEachOverlapping` visits. -/
def Version.overlappingFile (v : Version K V) (userKey : K) (key : InternalKey K) (level : ℕ) :
    Option (FileMetaData K V) :=
  match (v.files level)[findFile (v.files level) key]? with
  | none => none
  | some f => if userKey < f.smallest.userKey then none else some f

/-- The files that `Version::ForEachOverlapping` visits, with their levels, in order. -/
def Version.forEachOverlapping (v : Version K V) (userKey : K) (key : InternalKey K) : List (ℕ × FileMetaData K V) :=
  (v.overlappingLevel0 userKey).map (fun f => (0, f)) ++
    ((List.range kNumLevels).drop 1).filterMap fun level => (v.overlappingFile userKey key level).map fun f => (level, f)

/-- The visits of `Version::Get`: the value found, if any, and the file to charge the seek
to, which is the first one read when there is a second. -/
def searchFiles (userKey : K) (s : ℕ) :
    List (ℕ × FileMetaData K V) → Option (ℕ × FileMetaData K V) → Option (ℕ × FileMetaData K V) →
      Option V × Option (ℕ × FileMetaData K V)
  | [], _, seekFile => (none, seekFile)
  | (level, f) :: files, lastFileRead, seekFile =>
    let seekFile := if seekFile.isNone then lastFileRead else seekFile
    match lookupIn f.table userKey s with
    | .notFound => searchFiles userKey s files (some (level, f)) seekFile
    | .found v => (some v, seekFile)
    | .deleted => (none, seekFile)

/-- `Version::Get`: the value, none for `NotFound`, and `stats`. -/
def Version.get (v : Version K V) (userKey : K) (s : ℕ) : Option V × Option (ℕ × FileMetaData K V) :=
  searchFiles userKey s (v.forEachOverlapping userKey (lookupKey userKey s)) none none

/-! ### Edits -/

/-- `VersionEdit`: the changes of files and compaction pointers. -/
structure VersionEdit (K V : Type) where
  compactPointers : List (ℕ × InternalKey K) := []
  /-- `deleted_files_`: levels and numbers. -/
  deletedFiles : List (ℕ × ℕ) := []
  newFiles : List (ℕ × FileMetaData K V) := []

/-- `Builder::BySmallestKey`. -/
def bySmallestKey (f g : FileMetaData K V) : Prop :=
  f.smallest < g.smallest ∨ f.smallest = g.smallest ∧ f.number < g.number

instance (f g : FileMetaData K V) : Decidable (bySmallestKey f g) := inferInstanceAs (Decidable (_ ∨ _))

omit [LinearOrder K] in
/-- The new files of a level. -/
def VersionEdit.newAt (edit : VersionEdit K V) (level : ℕ) : List (FileMetaData K V) :=
  (edit.newFiles.filter fun nf => nf.1 = level).map Prod.snd

/-- `added_files` of a level, in its order. -/
def VersionEdit.addedFiles (edit : VersionEdit K V) (level : ℕ) : List (FileMetaData K V) :=
  (edit.newAt level).insertionSort fun f g => ¬ bySmallestKey g f

instance decidableMemDeleted (d : ℕ × ℕ) (deletedFiles : List (ℕ × ℕ)) : Decidable (d ∈ deletedFiles) := inferInstance

omit [LinearOrder K] in
/-- Whether a file is in `deleted_files` of a level after all changes are applied. -/
def VersionEdit.deleted (edit : VersionEdit K V) (level number : ℕ) : Bool :=
  (level, number) ∈ edit.deletedFiles ∧ number ∉ (edit.newAt level).map FileMetaData.number

/-- The merge of `Builder::SaveTo`: each added file comes after the base files that are
not greater. -/
def mergeFiles : List (FileMetaData K V) → List (FileMetaData K V) → List (FileMetaData K V)
  | base, [] => base
  | base, a :: added =>
    base.takeWhile (fun b => ¬ bySmallestKey a b) ++ a :: mergeFiles (base.dropWhile fun b => ¬ bySmallestKey a b) added

/-- `Builder::SaveTo` after `Builder::Apply`: the version that an edit makes of `v`. -/
def Version.apply (v : Version K V) (edit : VersionEdit K V) : Version K V :=
  ⟨fun level => (mergeFiles (v.files level) (edit.addedFiles level)).filter fun f => !edit.deleted level f.number⟩

/-- The test at the end of `Builder::SaveTo`, and of `MaybeAddFile` as the files are added:
each file ends before the next one begins. -/
def noOverlap : List (FileMetaData K V) → Bool
  | [] => true
  | [_] => true
  | f :: g :: files => f.largest < g.smallest && noOverlap (g :: files)

end TLevelDB.Db
