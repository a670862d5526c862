import TLevelDB.Db.Version
import TLevelDB.Lib.Merge

/-!
# Compactions

How a compaction is chosen and what it does (`VersionSet::PickCompaction`,
`VersionSet::CompactRange`, `DBImpl::DoCompactionWork`). A compaction merges files of
one level with the files of the next that they overlap, drops the entries that no
snapshot can see, and cuts what is left into new files of the next level.

A pointer into a vector of files (`grandparent_index_`, `level_ptrs_`) is modelled by the
files from it on.
-/

namespace TLevelDB.Db

variable {K V : Type} [LinearOrder K]

/-! ### Choosing the inputs -/

/-- `VersionSet::GetRange`: the smallest and the largest key of some files. -/
def getRange : List (FileMetaData K V) → Option (InternalKey K × InternalKey K)
  | [] => none
  | f :: files => some (files.foldl (fun r g => (min g.smallest r.1, max g.largest r.2)) (f.smallest, f.largest))

def findLargestKey : List (FileMetaData K V) → Option (InternalKey K)
  | [] => none
  | f :: files => some (files.foldl (fun l g => max g.largest l) f.largest)

/-- `FindSmallestBoundaryFile`: of the files that begin after `largestKey` with its user
key, the one that begins first. -/
def findSmallestBoundaryFile (levelFiles : List (FileMetaData K V)) (largestKey : InternalKey K) :
    Option (FileMetaData K V) :=
  levelFiles.foldl (fun best f =>
    if largestKey < f.smallest ∧ f.smallest.userKey = largestKey.userKey then
      match best with
      | none => some f
      | some b => if f.smallest < b.smallest then some f else some b
    else best) none

/-- The loop of `AddBoundaryInputs`; each turn but the last adds another file of the level. -/
def addBoundaryLoop (levelFiles : List (FileMetaData K V)) :
    ℕ → InternalKey K → List (FileMetaData K V) → List (FileMetaData K V)
  | 0, _, files => files
  | n + 1, largestKey, files =>
    match findSmallestBoundaryFile levelFiles largestKey with
    | none => files
    | some f => addBoundaryLoop levelFiles n f.largest (files ++ [f])

def addBoundaryInputs (levelFiles compactionFiles : List (FileMetaData K V)) : List (FileMetaData K V) :=
  match findLargestKey compactionFiles with
  | none => compactionFiles
  | some largestKey => addBoundaryLoop levelFiles levelFiles.length largestKey compactionFiles

/-- The files of a level that overlap the range of `files`. -/
def Version.overlapping (v : Version K V) (level : ℕ) (files : List (FileMetaData K V)) : List (FileMetaData K V) :=
  v.getOverlappingInputs level ((getRange files).map Prod.fst) ((getRange files).map Prod.snd)

/-- The files of a level that overlap the range of `files`, with their boundary files. -/
def Version.overlappingClosed (v : Version K V) (level : ℕ) (files : List (FileMetaData K V)) :
    List (FileMetaData K V) :=
  addBoundaryInputs (v.files level) (v.overlapping level files)

structure Compaction (K V : Type) where
  level : ℕ
  /-- `inputs_[0]`, of the level. -/
  inputs0 : List (FileMetaData K V)
  /-- `inputs_[1]`, of the next level. -/
  inputs1 : List (FileMetaData K V)
  grandparents : List (FileMetaData K V)
  inputVersion : Version K V
  /-- The compaction pointer that `edit_` sets. -/
  compactPointer : Option (InternalKey K)

/-- The growing of the inputs in `SetupOtherInputs`, where the files of the next level
stay as many. -/
def Version.expandInputs (o : Options K V) (v : Version K V) (level : ℕ) (inputs0 inputs1 : List (FileMetaData K V)) :
    List (FileMetaData K V) × List (FileMetaData K V) :=
  match inputs1 with
  | [] => (inputs0, [])
  | _ :: _ =>
    let expanded0 := v.overlappingClosed level (inputs0 ++ inputs1)
    let expanded1 := v.overlappingClosed (level + 1) expanded0
    if inputs0.length < expanded0.length ∧
        totalFileSize inputs1 + totalFileSize expanded0 < o.expandedCompactionByteSizeLimit ∧
        expanded1.length = inputs1.length then (expanded0, expanded1)
    else (inputs0, inputs1)

/-- `VersionSet::SetupOtherInputs`, for a compaction with `inputs0` at `level`. -/
def Version.setupOtherInputs (o : Options K V) (v : Version K V) (level : ℕ) (inputs0 : List (FileMetaData K V)) :
    Compaction K V :=
  let inputs0 := addBoundaryInputs (v.files level) inputs0
  let inputs1 := v.overlappingClosed (level + 1) inputs0
  let inputs := v.expandInputs o level inputs0 inputs1
  { level := level, inputs0 := inputs.1, inputs1 := inputs.2
    grandparents := if level + 2 < kNumLevels then v.overlapping (level + 2) (inputs.1 ++ inputs.2) else []
    inputVersion := v
    compactPointer := (getRange inputs.1).map Prod.snd }

/-- Why `PickCompaction` compacts: the level with the best score, or a file that has been
seeked too often. -/
inductive PickReason (K V : Type) where
  /-- `compaction_score_ >= 1`, at `compaction_level_`. -/
  | size (level : ℕ)
  /-- `file_to_compact_`, at `file_to_compact_level_`. -/
  | seek (level : ℕ) (f : FileMetaData K V)

/-- The level of the compaction. -/
def PickReason.level : PickReason K V → ℕ
  | .size level => level
  | .seek level _ => level

/-- A reason that the version can have: not the last level, and a level with a score has
files; a file to compact is one of the version's. -/
def PickReason.Legal (v : Version K V) : PickReason K V → Prop
  | .size level => level + 1 < kNumLevels ∧ v.files level ≠ []
  | .seek level f => level + 1 < kNumLevels ∧ f ∈ v.files level

instance [DecidableEq K] [DecidableEq V] (v : Version K V) : DecidablePred (PickReason.Legal v)
  | .size level => inferInstanceAs (Decidable (level + 1 < kNumLevels ∧ v.files level ≠ []))
  | .seek level f => inferInstanceAs (Decidable (level + 1 < kNumLevels ∧ f ∈ v.files level))

/-- The first file `PickCompaction` takes: the first one after the compaction pointer, or
the first of all; or the file to compact. -/
def PickReason.file (v : Version K V) (compactPointer : ℕ → Option (InternalKey K)) :
    PickReason K V → Option (FileMetaData K V)
  | .size level =>
    match (v.files level).find? fun f => (compactPointer level).all (· < f.largest) with
    | some f => some f
    | none => (v.files level).head?
  | .seek _ f => some f

/-- `VersionSet::PickCompaction`. -/
def Version.pickCompaction (o : Options K V) (v : Version K V) (compactPointer : ℕ → Option (InternalKey K))
    (reason : PickReason K V) : Option (Compaction K V) :=
  (reason.file v compactPointer).map fun f =>
    v.setupOtherInputs o reason.level
      (if reason.level = 0 then v.getOverlappingInputs 0 (some f.smallest) (some f.largest) else [f])

omit [LinearOrder K] in
/-- The first files whose sizes together reach the limit. -/
def truncateInputs (limit : ℕ) : ℕ → List (FileMetaData K V) → List (FileMetaData K V)
  | _, [] => []
  | total, f :: files =>
    if limit ≤ total + f.fileSize then [f] else f :: truncateInputs limit (total + f.fileSize) files

/-- `VersionSet::CompactRange`. -/
def Version.compactRange (o : Options K V) (v : Version K V) (level : ℕ) (b e : Option (InternalKey K)) :
    Option (Compaction K V) :=
  match v.getOverlappingInputs level b e with
  | [] => none
  | f :: files =>
    some (v.setupOtherInputs o level
      (if 0 < level then truncateInputs o.maxFileSize 0 (f :: files) else f :: files))

omit [LinearOrder K] in
/-- `Compaction::IsTrivialMove`. -/
def Compaction.isTrivialMove (o : Options K V) (c : Compaction K V) : Bool :=
  c.inputs0.length = 1 ∧ c.inputs1.length = 0 ∧ totalFileSize c.grandparents ≤ o.maxGrandParentOverlapBytes

/-! ### The work -/

/-- The lists that `VersionSet::MakeInputIterator` merges: on level 0 each file, otherwise
all files of the level one after the other; then those of the next level. -/
def Compaction.inputLists (c : Compaction K V) : List (List (Entry K V)) :=
  (if c.level = 0 then c.inputs0.map FileMetaData.table else [c.inputs0.flatMap FileMetaData.table]) ++
    [c.inputs1.flatMap FileMetaData.table]

/-- What the input iterator yields. -/
def Compaction.makeInputIterator (c : Compaction K V) : List (Entry K V) :=
  Merging.mergeAll Entry.key c.inputLists

/-- An output that is being built: `current_output()` and the entries of `builder`. -/
structure Output (K V : Type) where
  number : ℕ
  smallest : InternalKey K
  largest : InternalKey K
  /-- The entries added so far. -/
  table : List (Entry K V)

/-- `CompactionState`, with the local variables of `DoCompactionWork` and what moves in
its `Compaction`. -/
structure CompactionState (K V : Type) where
  compaction : Compaction K V
  smallestSnapshot : ℕ
  /-- What the input iterator has left. -/
  input : List (Entry K V)
  /-- `current_user_key`, where there is one. -/
  currentUserKey : Option K
  lastSequenceForKey : ℕ
  /-- The files of each level from `level_ptrs_` on. -/
  levelPtrs : ℕ → List (FileMetaData K V)
  /-- The grandparents from `grandparent_index_` on. -/
  grandparentsLeft : List (FileMetaData K V)
  seenKey : Bool
  /-- `overlapped_bytes_`, without the bounds of its `int64_t`. -/
  overlappedBytes : ℕ
  /-- The outputs that are finished. -/
  outputs : List (FileMetaData K V)
  /-- The output that is being built. -/
  builder : Option (Output K V)

/-- The state in which `DoCompactionWork` enters its loop. -/
def Compaction.start (c : Compaction K V) (smallestSnapshot : ℕ) : CompactionState K V where
  compaction := c
  smallestSnapshot := smallestSnapshot
  input := c.makeInputIterator
  currentUserKey := none
  lastSequenceForKey := kMaxSequenceNumber
  levelPtrs := c.inputVersion.files
  grandparentsLeft := c.grandparents
  seenKey := false
  overlappedBytes := 0
  outputs := []
  builder := none

/-- The loop of `Compaction::IsBaseLevelForKey`, over the levels below the next. -/
def isBaseLoop (userKey : K) : List ℕ → (ℕ → List (FileMetaData K V)) → Bool × (ℕ → List (FileMetaData K V))
  | [], ptrs => (true, ptrs)
  | level :: levels, ptrs =>
    let files := (ptrs level).dropWhile fun f => f.largest.userKey < userKey
    let ptrs := Function.update ptrs level files
    match files with
    | [] => isBaseLoop userKey levels ptrs
    | f :: _ => if f.smallest.userKey ≤ userKey then (false, ptrs) else isBaseLoop userKey levels ptrs

/-- `Compaction::IsBaseLevelForKey`. -/
def CompactionState.isBaseLevelForKey (cs : CompactionState K V) (userKey : K) :
    Bool × (ℕ → List (FileMetaData K V)) :=
  isBaseLoop userKey ((List.range kNumLevels).drop (cs.compaction.level + 2)) cs.levelPtrs

/-- The loop of `Compaction::ShouldStopBefore`: the grandparents left and the bytes
overlapped. -/
def skipGrandparents (key : InternalKey K) (seenKey : Bool) :
    List (FileMetaData K V) → ℕ → List (FileMetaData K V) × ℕ
  | [], bytes => ([], bytes)
  | g :: files, bytes =>
    if g.largest < key then skipGrandparents key seenKey files (if seenKey then bytes + g.fileSize else bytes)
    else (g :: files, bytes)

/-- `Compaction::ShouldStopBefore`. -/
def CompactionState.shouldStopBefore (o : Options K V) (cs : CompactionState K V) (key : InternalKey K) :
    Bool × CompactionState K V :=
  let r := skipGrandparents key cs.seenKey cs.grandparentsLeft cs.overlappedBytes
  if o.maxGrandParentOverlapBytes < r.2 then
    (true, { cs with grandparentsLeft := r.1, seenKey := true, overlappedBytes := 0 })
  else (false, { cs with grandparentsLeft := r.1, seenKey := true, overlappedBytes := r.2 })

omit [LinearOrder K] in
/-- `FinishCompactionOutputFile`, where an output is being built. -/
def CompactionState.finishOutput (o : Options K V) (cs : CompactionState K V) : CompactionState K V :=
  match cs.builder with
  | none => cs
  | some b =>
    { cs with outputs := cs.outputs ++ [⟨b.number, o.tableSize b.table, b.smallest, b.largest, b.table⟩], builder := none }

omit [LinearOrder K] in
/-- `OpenCompactionOutputFile` if necessary, and adding an entry; `next` is the next file
number. -/
def CompactionState.add (cs : CompactionState K V) (next : ℕ) (e : Entry K V) : CompactionState K V × ℕ :=
  match cs.builder with
  | none => ({ cs with builder := some ⟨next, e.key, e.key, [e]⟩ }, next + 1)
  | some b => ({ cs with builder := some { b with largest := e.key, table := b.table ++ [e] } }, next)

/-- The part of the loop that decides whether to drop an entry. -/
def CompactionState.dropEntry (cs : CompactionState K V) (e : Entry K V) : Bool × CompactionState K V :=
  let last := if cs.currentUserKey = some e.userKey then cs.lastSequenceForKey else kMaxSequenceNumber
  let cs' := { cs with currentUserKey := some e.userKey, lastSequenceForKey := e.sequence }
  if last ≤ cs.smallestSnapshot then (true, cs')
  else if e.key.type = .deletion ∧ e.sequence ≤ cs.smallestSnapshot then
    let r := cs.isBaseLevelForKey e.userKey
    (r.1, { cs' with levelPtrs := r.2 })
  else (false, cs')

/-- The loop of `DoCompactionWork` for one entry. -/
def CompactionState.compactEntry (o : Options K V) (cs : CompactionState K V) (next : ℕ) (e : Entry K V) :
    CompactionState K V × ℕ :=
  let stop := cs.shouldStopBefore o e.key
  let cs := if stop.1 then stop.2.finishOutput o else stop.2
  let dropped := cs.dropEntry e
  if dropped.1 then (dropped.2, next)
  else
    let added := dropped.2.add next e
    -- the output is closed when it is big enough
    if added.1.builder.any (fun b => o.maxFileSize ≤ o.builderSize b.table) then (added.1.finishOutput o, added.2)
    else added

/-- One turn of the loop, with the entry the input iterator stands on. -/
def CompactionState.turn (o : Options K V) (cs : CompactionState K V) (next : ℕ) : Option (CompactionState K V × ℕ) :=
  match cs.input with
  | [] => none
  | e :: input => some (CompactionState.compactEntry o { cs with input := input } next e)

/-- All turns, on what the input iterator has left. -/
def CompactionState.run (o : Options K V) (cs : CompactionState K V) (next : ℕ) : List (Entry K V) → CompactionState K V
  | [] => cs.finishOutput o
  | e :: input => let r := CompactionState.compactEntry o { cs with input := input } next e; r.1.run o r.2 input

/-- The outputs of `DoCompactionWork` when nothing else takes file numbers. -/
def Compaction.outputs (o : Options K V) (c : Compaction K V) (smallestSnapshot next : ℕ) : List (FileMetaData K V) :=
  ((c.start smallestSnapshot).run o next c.makeInputIterator).outputs

section

omit [LinearOrder K]

/-- What `AddInputDeletions` puts into the edit. -/
def Compaction.inputDeletions (c : Compaction K V) : List (ℕ × ℕ) :=
  c.inputs0.map (fun f => (c.level, f.number)) ++ c.inputs1.map fun f => (c.level + 1, f.number)

/-- The compaction pointer in the edit. -/
def Compaction.compactPointers (c : Compaction K V) : List (ℕ × InternalKey K) :=
  c.compactPointer.toList.map fun k => (c.level, k)

/-- The edit of `InstallCompactionResults`. -/
def Compaction.installEdit (c : Compaction K V) (outputs : List (FileMetaData K V)) : VersionEdit K V where
  compactPointers := c.compactPointers
  deletedFiles := c.inputDeletions
  newFiles := outputs.map fun f => (c.level + 1, f)

/-- The edit of a trivial move of `f`. -/
def Compaction.moveEdit (c : Compaction K V) (f : FileMetaData K V) : VersionEdit K V where
  compactPointers := c.compactPointers
  deletedFiles := [(c.level, f.number)]
  newFiles := [(c.level + 1, f)]

end

end TLevelDB.Db
