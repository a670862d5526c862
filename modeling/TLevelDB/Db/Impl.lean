import TLevelDB.Db.Install

/-!
# The database

The state of `DBImpl` and what its calls and its background thread do to it, one action
at a time. A write takes sequence numbers for its batch group, inserts the operations
into the memtable one by one while readers may run, and then makes them visible. The
memtable is switched when it is full, and a flush makes a table of the immutable one. A
compaction is picked, goes through its input one entry at a time, with flushes in
between, and is installed. All steps of the background thread that hold the mutex from
one to the other are one action.

How full a memtable is, which level has the best score and which file was seeked too
often only decide when something is done. The actions may come in any order that the
source allows.
-/

namespace TLevelDB.Db

variable {K V : Type}

/-! ### Operations -/

/-- An operation of a `WriteBatch`. -/
inductive Op (K V : Type) where
  | put (k : K) (v : V)
  | delete (k : K)
deriving DecidableEq

/-- The user key of an operation. -/
def Op.key : Op K V → K
  | .put k _ => k
  | .delete k => k

/-- The entry that `MemTableInserter` adds for an operation. -/
def Op.entry [Inhabited V] (s : ℕ) : Op K V → Entry K V
  | .put k v => ⟨⟨k, s, .value⟩, v⟩
  | .delete k => ⟨⟨k, s, .deletion⟩, default⟩

/-! ### The state -/

/-- The state of `DBImpl` and its `VersionSet`. -/
structure DBState (K V : Type) where
  mem : List (Entry K V)
  imm : Option (List (Entry K V))
  /-- `versions_->current()`. -/
  version : Version K V
  compactPointer : ℕ → Option (InternalKey K)
  nextFileNumber : ℕ
  /-- `LastSequence()`. -/
  lastSequence : ℕ
  /-- `snapshots_`, the oldest first. -/
  snapshots : List ℕ
  /-- The batch group that the first writer is inserting, and how many of its operations
  it has inserted. -/
  writing : Option (List (Op K V) × ℕ)
  /-- The compaction that the background thread is doing. -/
  compaction : Option (CompactionState K V)
  /-- Whether that compaction is a manual one. -/
  isManual : Bool

/-- A new database after `DB::Open`: the first file numbers have gone to two manifests and
the log. -/
def DBState.init : DBState K V where
  mem := []
  imm := none
  version := Version.empty
  compactPointer := fun _ => none
  nextFileNumber := 4
  lastSequence := 0
  snapshots := []
  writing := none
  compaction := none
  isManual := false

/-- The number of operations inserted but not visible yet. -/
def DBState.inserted (st : DBState K V) : ℕ :=
  match st.writing with
  | none => 0
  | some w => w.2

/-- The smallest snapshot of a compaction that starts now. -/
def DBState.smallestSnapshot (st : DBState K V) : ℕ :=
  match st.snapshots with
  | [] => st.lastSequence
  | s :: _ => s

/-- `compact_pointer_` after an edit. -/
def setCompactPointers (compactPointer : ℕ → Option (InternalKey K)) (l : List (ℕ × InternalKey K)) :
    ℕ → Option (InternalKey K) :=
  l.foldl (fun p e => Function.update p e.1 (some e.2)) compactPointer

/-- `LogAndApply`: the current version and the compaction pointers. -/
def DBState.logAndApply [LinearOrder K] (st : DBState K V) (edit : VersionEdit K V) : DBState K V :=
  { st with version := st.version.apply edit, compactPointer := setCompactPointers st.compactPointer edit.compactPointers }

variable [LinearOrder K]

/-- `Add`, of an entry that is not encoded: before the first entry that is not smaller. -/
def memTableAdd (mem : List (Entry K V)) (e : Entry K V) : List (Entry K V) := SortedSearch.insertSorted Entry.key e mem

/-- The table that `BuildTable` makes of a memtable; there is none if it is empty. -/
def buildTable (o : Options K V) (number : ℕ) (mem : List (Entry K V)) : Option (FileMetaData K V) :=
  match mem.head?, mem.getLast? with
  | some first, some last => some ⟨number, o.tableSize mem, first.key, last.key, mem⟩
  | _, _ => none

/-- The level at which `WriteLevel0Table` adds a table to a version. -/
def Version.tableLevel (o : Options K V) (base : Version K V) (f : FileMetaData K V) : ℕ :=
  base.pickLevelForMemTableOutput o f.smallest.userKey f.largest.userKey

def DBState.compactMemTable (o : Options K V) (st : DBState K V) (imm : List (Entry K V)) : DBState K V :=
  let st' := { st with imm := none, nextFileNumber := st.nextFileNumber + 1 }
  match buildTable o st.nextFileNumber imm with
  | none => st'
  | some f => st'.logAndApply (addFileEdit (st.version.tableLevel o f) f)

/-- `DoCompactionWork` up to its loop. -/
def DBState.startCompaction (st : DBState K V) (c : Compaction K V) (isManual : Bool) : DBState K V :=
  { st with
    compaction := some (c.start st.smallestSnapshot)
    compactPointer := setCompactPointers st.compactPointer c.compactPointers
    isManual := isManual }

/-- The end of `DoCompactionWork` after its loop, with `InstallCompactionResults`. -/
def DBState.installCompaction (o : Options K V) (st : DBState K V) (cs : CompactionState K V) : DBState K V :=
  { st.logAndApply (cs.compaction.installEdit (cs.finishOutput o).outputs) with compaction := none, isManual := false }

/-! ### Actions -/

/-- What can happen next. -/
inductive Action (K V : Type) where
  /-- A writer takes the sequence numbers of its batch group. -/
  | beginWrite (batch : List (Op K V))
  /-- It inserts the next operation into the memtable. -/
  | insert
  /-- All are inserted and become visible; `Write` returns. -/
  | endWrite
  /-- `MakeRoomForWrite` switches to a new memtable. -/
  | switchMem
  /-- `CompactMemTable`, by itself or in the loop of `DoCompactionWork`. -/
  | flush
  /-- A compaction is picked and is a trivial move. -/
  | move (reason : PickReason K V)
  /-- A compaction is picked and `DoCompactionWork` begins. -/
  | start (reason : PickReason K V)
  /-- A manual compaction begins. -/
  | manual (level : ℕ) (b e : Option (InternalKey K))
  /-- The loop of `DoCompactionWork` makes a turn. -/
  | turn
  /-- The loop has ended and the results are installed. -/
  | install
  /-- `GetSnapshot`. -/
  | newSnapshot
  /-- `ReleaseSnapshot`, of a snapshot with this number. -/
  | releaseSnapshot (s : ℕ)

variable [Inhabited V]

/-- The next state, if the action can happen. A reason to compact that the version does
not have cannot occur, see `Run`. -/
def DBState.step (o : Options K V) (st : DBState K V) : Action K V → Option (DBState K V)
  | .beginWrite batch => if st.writing = none then some { st with writing := some (batch, 0) } else none
  | .insert =>
    match st.writing with
    | none => none
    | some (batch, i) =>
      match batch[i]? with
      | none => none
      | some op =>
        some { st with
          mem := memTableAdd st.mem (op.entry (st.lastSequence + 1 + i)), writing := some (batch, i + 1) }
  | .endWrite =>
    match st.writing with
    | none => none
    | some (batch, i) =>
      if i = batch.length then some { st with lastSequence := st.lastSequence + batch.length, writing := none }
      else none
  | .switchMem =>
    if st.writing = none ∧ st.imm = none then
      -- the new log takes a file number
      some { st with mem := [], imm := some st.mem, nextFileNumber := st.nextFileNumber + 1 }
    else none
  | .flush =>
    match st.imm with
    | none => none
    | some imm => if st.compaction.all (fun cs => !cs.input.isEmpty) then some (st.compactMemTable o imm) else none
  | .move reason =>
    -- it is picked while no memtable waits, but one may be switched before it is installed
    if st.compaction.isNone then
      match st.version.pickCompaction o st.compactPointer reason with
      | none => none
      | some c =>
        if c.isTrivialMove o then c.inputs0.head?.map fun f => st.logAndApply (c.moveEdit f) else none
    else none
  | .start reason =>
    if st.imm = none ∧ st.compaction.isNone then
      match st.version.pickCompaction o st.compactPointer reason with
      | none => none
      | some c => if c.isTrivialMove o then none else some (st.startCompaction c false)
    else none
  | .manual level b e =>
    if st.imm = none ∧ st.compaction.isNone ∧ level + 1 < kNumLevels then
      (st.version.compactRange o level b e).map fun c => st.startCompaction c true
    else none
  | .turn =>
    match st.compaction with
    | none => none
    | some cs =>
      (cs.turn o st.nextFileNumber).map fun r => { st with compaction := some r.1, nextFileNumber := r.2 }
  | .install =>
    match st.compaction with
    | none => none
    | some cs => if cs.input.isEmpty then some (st.installCompaction o cs) else none
  | .newSnapshot => some { st with snapshots := st.snapshots ++ [st.lastSequence] }
  | .releaseSnapshot s => if s ∈ st.snapshots then some { st with snapshots := st.snapshots.erase s } else none

omit [Inhabited V] in
/-- `DBImpl::Get` of a user key at a sequence number: the value, none for `NotFound`. -/
def DBState.get (st : DBState K V) (userKey : K) (s : ℕ) : Option V :=
  match lookupIn st.mem userKey s with
  | .found v => some v
  | .deleted => none
  | .notFound =>
    match lookupIn (st.imm.getD []) userKey s with
    | .found v => some v
    | .deleted => none
    | .notFound => (st.version.get userKey s).1

/-! ### Runs -/

omit [LinearOrder K] [Inhabited V] in
/-- The reason of an action to compact is one that the version can have. -/
def Action.Legal (v : Version K V) : Action K V → Prop
  | .move reason => reason.Legal v
  | .start reason => reason.Legal v
  | _ => True

omit [LinearOrder K] [Inhabited V] in
instance [DecidableEq K] [DecidableEq V] (v : Version K V) : DecidablePred (Action.Legal v) := fun a => by
  cases a with
  | move reason => exact inferInstanceAs (Decidable (reason.Legal v))
  | start reason => exact inferInstanceAs (Decidable (reason.Legal v))
  | _ => exact .isTrue trivial

omit [LinearOrder K] [Inhabited V] in
/-- The operations that an action makes visible. -/
def DBState.acknowledged (st : DBState K V) : Action K V → List (Op K V)
  | .endWrite => st.writing.elim [] Prod.fst
  | _ => []

/-- The states that are reached by actions each of which satisfies `P` where it happens,
with the operations written so far. -/
inductive Run (o : Options K V) (P : DBState K V → Action K V → Prop) : DBState K V → List (Op K V) → Prop where
  /-- A new database. -/
  | init : Run o P DBState.init []
  /-- One more action. -/
  | step {st st' : DBState K V} {hist : List (Op K V)} {a : Action K V} : Run o P st hist → a.Legal st.version →
      P st a → st.step o a = some st' → Run o P st' (hist ++ st.acknowledged a)

/-- The state that a list of actions leads to from a new database, if each satisfies `P`
where it happens. -/
def runActions [DecidableEq V] (o : Options K V) (P : DBState K V → Action K V → Prop) [∀ st a, Decidable (P st a)]
    (actions : List (Action K V)) : Option (DBState K V) :=
  actions.foldlM (fun st a => if a.Legal st.version ∧ P st a then st.step o a else none) DBState.init

/-- What every step that can be made keeps holds after all of them. -/
theorem foldlM_induct {σ α : Type} {I : σ → Prop} {step : σ → α → Option σ}
    (hstep : ∀ s a s', I s → step s a = some s' → I s') {l : List α} {s s' : σ} (h : I s)
    (hl : l.foldlM step s = some s') : I s' := by
  induction l generalizing s with
  | nil => exact Option.some.inj hl ▸ h
  | cons a l ih =>
    obtain ⟨s₁, hs₁, hrest⟩ := Option.bind_eq_some_iff.mp (List.foldlM_cons.symm.trans hl)
    exact ih (hstep s a s₁ h hs₁) hrest

theorem exists_run_of_runActions [DecidableEq V] {o : Options K V} {P : DBState K V → Action K V → Prop}
    [∀ st a, Decidable (P st a)] {actions : List (Action K V)} {α : Type} {f : DBState K V → α} {b : α}
    (h : (runActions o P actions).map f = some b) : ∃ st hist, Run o P st hist ∧ f st = b := by
  obtain ⟨st, hst, heq⟩ := Option.map_eq_some_iff.mp h
  obtain ⟨hist, hrun⟩ : ∃ hist, Run o P st hist := by
    refine foldlM_induct (I := fun st => ∃ hist, Run o P st hist) ?_ ⟨_, .init⟩ hst
    rintro st a st' ⟨hist, hrun⟩ hstep
    split_ifs at hstep with ht
    exact ⟨_, hrun.step ht.1 ht.2 hstep⟩
  exact ⟨st, hist, hrun, heq⟩

section

omit [LinearOrder K] [Inhabited V]

/-- A manual compaction. -/
def Action.isManual : Action K V → Bool
  | .manual _ _ _ => true
  | _ => false

/-- The actions of a `Put`. -/
def putActions (k : K) (v : V) : List (Action K V) := [.beginWrite [.put k v], .insert, .endWrite]

end

end TLevelDB.Db
