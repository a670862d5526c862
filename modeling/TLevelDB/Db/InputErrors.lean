import TLevelDB.Db.Impl
import TLevelDB.Table.Iterator

/-!
# Compactions that meet errors

`DoCompactionWork` with all that can fail: reading its inputs, opening and finishing its
outputs, and installing them. The input iterator goes on after an error and keeps it in its
status, which is looked at whenever an output is finished and after the loop.

What the reads yield, what the memtable flushes between two turns find and which of the other
calls fail is arbitrary. The entries come from the iterator; the list of entries in
`CompactionState` is not used here.
-/

namespace TLevelDB.Db

open TLevelDB.Table (Error Status Reads TableIter LevelIter MergedIter IteratorOps)

variable {K V : Type} [LinearOrder K]

/-! ### The input iterator -/

/-- What the inputs of a compaction are read from. -/
abbrev InputReads (K V : Type) := Reads (InternalKey K) V

/-- An iterator over a table of level 0, or over the files of another level. -/
abbrev ChildIter (K V : Type) := TableIter (InternalKey K) V ⊕ LevelIter (InternalKey K) V

abbrev InputIter (K V : Type) := MergedIter (ChildIter K V) (InternalKey K) V

omit [LinearOrder K] in
def childOps : IteratorOps (InputReads K V) (ChildIter K V) (InternalKey K) V := Table.tableOps.sum Table.levelOps

def inputOps : IteratorOps (InputReads K V) (InputIter K V) (InternalKey K) V := Table.mergedOps childOps

section

omit [LinearOrder K]

/-- `TableCache::NewIterator` for each file. -/
def newTableIterators : InputReads K V → List (FileMetaData K V) → InputReads K V × List (ChildIter K V)
  | r, [] => (r, [])
  | r, _ :: files =>
    let s := Table.newTableIterator r
    let t := newTableIterators s.1 files
    (t.1, .inl s.2 :: t.2)

/-- `NewTwoLevelIterator` over a `LevelFileNumIterator`. -/
def newLevelIterator (files : List (FileMetaData K V)) : ChildIter K V :=
  .inr (.new ⟨files.map fun f => (f.largest, f.number, f.fileSize), []⟩)

/-- The iterators that `MakeInputIterator` merges. -/
def Compaction.inputIters (c : Compaction K V) (r : InputReads K V) : InputReads K V × List (ChildIter K V) :=
  let first :=
    if c.inputs0.isEmpty then (r, [])
    else if c.level = 0 then newTableIterators r c.inputs0
    else (r, [newLevelIterator c.inputs0])
  (first.1, first.2 ++ if c.inputs1.isEmpty then [] else [newLevelIterator c.inputs1])

/-- `VersionSet::MakeInputIterator`. -/
def Compaction.newInputIterator (c : Compaction K V) (r : InputReads K V) : InputReads K V × InputIter K V :=
  let children := c.inputIters r
  (children.1, Table.newMergingIterator children.2)

end

/-! ### The work -/

/-- What `DoCompactionWork` works on. -/
structure Work (K V : Type) where
  reads : InputReads K V
  input : InputIter K V
  cs : CompactionState K V
  /-- `versions_->current()`. -/
  version : Version K V
  nextFileNumber : ℕ
  bgError : Status

/-- What a turn of the loop finds outside of it. -/
structure TurnInput (K V : Type) where
  shuttingDown : Bool
  /-- `imm_`, where there is one, and whether `CompactMemTable` fails. -/
  imm : Option (List (Entry K V) × Status)
  /-- How `FinishCompactionOutputFile` before the entry ends, `NewWritableFile`, and
  `FinishCompactionOutputFile` after the entry. -/
  stopResult : Status
  openResult : Status
  closeResult : Status

/-- What is found after the loop. -/
structure EndInput where
  shuttingDown : Bool
  finishResult : Status
  /-- How `LogAndApply` ends. -/
  applyResult : Status

namespace Work

/-- `CompactMemTable` in the loop. -/
def compactMemTable (o : Options K V) (mem : List (Entry K V)) (result : Status) (w : Work K V) : Work K V :=
  let w' := { w with nextFileNumber := w.nextFileNumber + 1, bgError := w.bgError.or result }
  match result, buildTable o w.nextFileNumber mem with
  | none, some f => { w' with version := w.version.apply (addFileEdit (w.version.tableLevel o f) f) }
  | _, _ => w'

/-- `FinishCompactionOutputFile`; `result` is how finishing, syncing, closing and opening the
table ends, which is tried only if the input iterator is OK. -/
def finishOutputFile (o : Options K V) (result : Status) (w : Work K V) : Status × Work K V :=
  ((inputOps.status w.input).or result, { w with cs := w.cs.finishOutput o })

omit [LinearOrder K] in
/-- Part of the work that is left out. -/
def skip (w : Work K V) : Status × Work K V := (none, w)

/-- What comes next if nothing has failed. -/
def andThen (r : Status × Work K V) (f : Work K V → Status × Work K V) : Status × Work K V :=
  match r.1 with
  | none => f r.2
  | some e => (some e, r.2)

/-- An entry goes to the output, which is opened if necessary and closed if it is big enough. -/
def addEntry (o : Options K V) (t : TurnInput K V) (e : Entry K V) (w : Work K V) : Status × Work K V :=
  if w.cs.builder.isNone && t.openResult.isSome then
    (t.openResult, { w with nextFileNumber := w.nextFileNumber + 1 })
  else
    let added := w.cs.add w.nextFileNumber e
    let w' := { w with cs := added.1, nextFileNumber := added.2 }
    if w'.cs.builder.any (fun b => o.maxFileSize ≤ o.builderSize b.table) then w'.finishOutputFile o t.closeResult
    else w'.skip

/-- The output is finished before the entry if it overlaps too much. -/
def stopBefore (o : Options K V) (t : TurnInput K V) (e : Entry K V) (w : Work K V) : Status × Work K V :=
  let stop := w.cs.shouldStopBefore o e.key
  let w' := { w with cs := stop.2 }
  if stop.1 && w'.cs.builder.isSome then w'.finishOutputFile o t.stopResult else w'.skip

/-- The entry is dropped, or added. -/
def handle (o : Options K V) (t : TurnInput K V) (e : Entry K V) (w : Work K V) : Status × Work K V :=
  let dropped := w.cs.dropEntry e
  let w' := { w with cs := dropped.2 }
  if dropped.1 then w'.skip else w'.addEntry o t e

/-- `input->Next()`. -/
def nextInput (w : Work K V) : Status × Work K V :=
  let s := inputOps.next (w.reads, w.input)
  (none, { w with reads := s.1, input := s.2 })

/-- A turn of the loop for the entry that the input iterator stands on. -/
def turn (o : Options K V) (t : TurnInput K V) (e : Entry K V) (w : Work K V) : Status × Work K V :=
  let w' := match t.imm with
    | none => w
    | some (mem, result) => w.compactMemTable o mem result
  andThen (andThen (w'.stopBefore o t e) (handle o t e)) nextInput

/-- The loop, for at most so many turns; `i` counts them. -/
def loop (o : Options K V) (turns : ℕ → TurnInput K V) : ℕ → ℕ → Work K V → Option (Status × Work K V)
  | 0, _, _ => none
  | fuel + 1, i, w =>
    match inputOps.current w.input with
    | none => some (none, w)
    | some (key, value) =>
      if (turns i).shuttingDown then some (none, w)
      else
        let r := w.turn o (turns i) ⟨key, value⟩
        match r.1 with
        | none => loop o turns fuel (i + 1) r.2
        | some e => some (some e, r.2)

end Work

/-- What `DoCompactionWork` returns and leaves. -/
structure WorkResult (K V : Type) where
  status : Status
  work : Work K V
  /-- The edit, if `InstallCompactionResults` was called. -/
  installed : Option (VersionEdit K V)

def deletingDB : Error := .ioError "Deleting DB during compaction"

/-- `DoCompactionWork` after the loop, up to the last look at the status of the iterator. -/
def Work.afterLoop (o : Options K V) (last : EndInput) (r : Status × Work K V) : Status × Work K V :=
  Work.andThen (Work.andThen r fun w => if last.shuttingDown then (some deletingDB, w) else w.skip) fun w =>
    Work.andThen (if w.cs.builder.isSome then w.finishOutputFile o last.finishResult else w.skip) fun w =>
      (inputOps.status w.input, w)

/-- `InstallCompactionResults`, if nothing has failed, and `RecordBackgroundError`. -/
def Work.install (last : EndInput) (r : Status × Work K V) : WorkResult K V :=
  match r.1 with
  | some e => ⟨some e, { r.2 with bgError := r.2.bgError.or (some e) }, none⟩
  | none =>
    let edit := r.2.cs.compaction.installEdit r.2.cs.outputs
    match last.applyResult with
    | none => ⟨none, { r.2 with version := r.2.version.apply edit }, some edit⟩
    | some e => ⟨some e, { r.2 with bgError := r.2.bgError.or (some e) }, some edit⟩

/-- What `DoCompactionWork` enters its loop with. -/
def Compaction.startWork (c : Compaction K V) (smallestSnapshot : ℕ) (reads : InputReads K V) (version : Version K V)
    (next : ℕ) : Work K V :=
  let s := inputOps.seekToFirst (c.newInputIterator reads)
  ⟨s.1, s.2, { c.start smallestSnapshot with input := [] }, version, next, none⟩

/-- `DoCompactionWork`, where its loop makes at most so many turns. -/
def doCompactionWork (o : Options K V) (turns : ℕ → TurnInput K V) (last : EndInput) (c : Compaction K V)
    (smallestSnapshot : ℕ) (reads : InputReads K V) (version : Version K V) (next fuel : ℕ) :
    Option (WorkResult K V) :=
  ((c.startWork smallestSnapshot reads version next).loop o turns fuel 0).map fun r =>
    Work.install last (Work.afterLoop o last r)

/-! ### Turns of the loop -/

section Loop

variable {o : Options K V} {turns : ℕ → TurnInput K V} {w : Work K V} {fuel i : ℕ} {r : Status × Work K V}

/-- What each turn keeps, the loop keeps. -/
theorem Work.loop_rule {P : Work K V → Prop} (hturn : ∀ w t e, P w → P (w.turn o t e).2) (h : P w)
    (hloop : w.loop o turns fuel i = some r) : P r.2 := by
  induction fuel generalizing i w with
  | zero => cases hloop
  | succ fuel ih =>
    unfold Work.loop at hloop
    split at hloop
    · cases hloop
      exact h
    · split at hloop
      · cases hloop
        exact h
      · dsimp only at hloop
        split at hloop
        · exact ih (hturn w _ _ h) hloop
        · cases hloop
          exact hturn w _ _ h

/-- More turns than are needed change nothing. -/
theorem Work.loop_mono {fuel' : ℕ} (hle : fuel ≤ fuel') (hloop : w.loop o turns fuel i = some r) :
    w.loop o turns fuel' i = some r := by
  induction fuel generalizing i w fuel' with
  | zero => cases hloop
  | succ fuel ih =>
    obtain ⟨fuel', rfl⟩ := Nat.exists_eq_add_of_le' (Nat.one_le_of_lt hle)
    unfold Work.loop at hloop ⊢
    split at hloop
    · exact hloop
    · split at hloop
      · rename_i hshut
        rw [if_pos hshut]
        exact hloop
      · rename_i hshut
        rw [if_neg hshut]
        dsimp only at hloop ⊢
        split at hloop
        · exact ih (by omega) hloop
        · exact hloop

omit [LinearOrder K] in
/-- The input iterator is as it was. -/
def Work.SameInput (w w' : Work K V) : Prop := w'.reads = w.reads ∧ w'.input = w.input

omit [LinearOrder K] in
theorem Work.sameInput_andThen {r : Status × Work K V} {f : Work K V → Status × Work K V} (hr : w.SameInput r.2)
    (hf : ∀ w : Work K V, w.SameInput (f w).2) : w.SameInput (Work.andThen r f).2 := by
  unfold Work.andThen
  split
  · exact ⟨(hf r.2).1.trans hr.1, (hf r.2).2.trans hr.2⟩
  · exact hr

theorem Work.sameInput_compactMemTable (mem : List (Entry K V)) (result : Status) (w : Work K V) :
    w.SameInput (w.compactMemTable o mem result) := by
  unfold Work.compactMemTable
  split <;> exact ⟨rfl, rfl⟩

theorem Work.sameInput_stopBefore (t : TurnInput K V) (e : Entry K V) (w : Work K V) :
    w.SameInput (w.stopBefore o t e).2 := by
  unfold Work.stopBefore
  dsimp only
  split <;> exact ⟨rfl, rfl⟩

theorem Work.sameInput_handle (t : TurnInput K V) (e : Entry K V) (w : Work K V) : w.SameInput (w.handle o t e).2 := by
  unfold Work.handle Work.addEntry
  dsimp only
  split_ifs <;> exact ⟨rfl, rfl⟩

/-- A turn moves the input iterator as the last thing, unless it fails before. -/
theorem Work.turn_cases (o : Options K V) (t : TurnInput K V) (e : Entry K V) (w : Work K V) :
    ∃ w', w.SameInput w' ∧ (w.turn o t e = w'.nextInput ∨ ∃ err, w.turn o t e = (some err, w')) := by
  have hmem : w.SameInput (match t.imm with
      | none => w
      | some (mem, result) => w.compactMemTable o mem result) := by
    split
    · exact ⟨rfl, rfl⟩
    · exact Work.sameInput_compactMemTable _ _ w
  have hstop := Work.sameInput_stopBefore (o := o) t e (match t.imm with
    | none => w
    | some (mem, result) => w.compactMemTable o mem result)
  have hsame := Work.sameInput_andThen ⟨hstop.1.trans hmem.1, hstop.2.trans hmem.2⟩ (Work.sameInput_handle (o := o) t e)
  refine ⟨_, hsame, ?_⟩
  unfold Work.turn
  dsimp only
  rw [Work.andThen]
  split
  · exact .inl rfl
  · rename_i err _
    exact .inr ⟨err, rfl⟩

end Loop

/-! ### The status of the input iterator -/

section Status

variable {o : Options K V} {w w' w'' : Work K V}

theorem sound_inputOps : (inputOps : IteratorOps (InputReads K V) (InputIter K V) (InternalKey K) V).Sound Reads.errors :=
  Table.sound_mergedOps (Table.sound_tableOps.sum Table.sound_levelOps)

omit [LinearOrder K] in
theorem errors_newTableIterators (r : InputReads K V) (files : List (FileMetaData K V))
    (h : ∀ c ∈ (newTableIterators r files).2, childOps.status c = none) :
    (newTableIterators r files).1.errors = r.errors := by
  induction files generalizing r with
  | nil => rfl
  | cons f files ih =>
    simp only [newTableIterators, List.forall_mem_cons] at h ⊢
    rw [ih _ h.2]
    exact Table.errors_newTableIterator r h.1

/-- Errors met while the input iterator is made are in its status. -/
theorem errors_newInputIterator (c : Compaction K V) (r : InputReads K V)
    (h : inputOps.status (c.newInputIterator r).2 = none) : (c.newInputIterator r).1.errors = r.errors := by
  have hall := Table.status_newMergingIterator.mp h
  simp only [Compaction.newInputIterator, Compaction.inputIters, List.forall_mem_append] at hall ⊢
  obtain ⟨hfirst, -⟩ := hall
  split_ifs at hfirst ⊢
  · rfl
  · exact errors_newTableIterators r c.inputs0 hfirst
  · rfl

/-- If the input iterator is OK in the end, it was OK before and no error was met. -/
def Work.Keeps (w w' : Work K V) : Prop :=
  inputOps.status w'.input = none → inputOps.status w.input = none ∧ w'.reads.errors = w.reads.errors

theorem Work.Keeps.trans (h : w.Keeps w') (h' : w'.Keeps w'') : w.Keeps w'' := by
  intro hstatus
  obtain ⟨hstatus', herrors'⟩ := h' hstatus
  obtain ⟨hstatus, herrors⟩ := h hstatus'
  exact ⟨hstatus, herrors'.trans herrors⟩

theorem Work.SameInput.keeps (h : w.SameInput w') : w.Keeps w' := fun hstatus => ⟨h.2 ▸ hstatus, by rw [h.1]⟩

theorem Work.keeps_turn (o : Options K V) (t : TurnInput K V) (e : Entry K V) (w : Work K V) :
    w.Keeps (w.turn o t e).2 := by
  obtain ⟨w', hsame, heq | ⟨err, heq⟩⟩ := Work.turn_cases o t e w <;> rw [heq]
  · have hnext : w'.Keeps w'.nextInput.2 := sound_inputOps.next (w'.reads, w'.input)
    exact hsame.keeps.trans hnext
  · exact hsame.keeps

theorem Work.keeps_loop {turns : ℕ → TurnInput K V} {fuel i : ℕ} {r : Status × Work K V}
    (h : w.loop o turns fuel i = some r) : w.Keeps r.2 :=
  Work.loop_rule (P := w.Keeps) (fun _ t e hw => hw.trans (Work.keeps_turn o t e _)) (Work.SameInput.keeps ⟨rfl, rfl⟩) h

end Status

/-! ### The current version -/

section Version

variable {o : Options K V} {v : Version K V} {w : Work K V}

/-- The files of `v` stay, and only flushes add files. -/
structure Work.OnlyFlushed (v : Version K V) (w : Work K V) : Prop where
  stay : ∀ level, ∀ f ∈ v.files level, f ∈ w.version.files level
  added : ∀ level, ∀ f ∈ w.version.files level,
    f ∈ v.files level ∨ (f.number < w.nextFileNumber ∧ f.number ∉ w.cs.outputNumbers)
  outputs : ∀ n ∈ w.cs.outputNumbers, n < w.nextFileNumber

omit [LinearOrder K] in
/-- A step that leaves the version, and takes file numbers for outputs only. -/
theorem Work.OnlyFlushed.of_outputs (h : w.OnlyFlushed v) {w' : Work K V} (hversion : w'.version = w.version)
    (hnext : w.nextFileNumber ≤ w'.nextFileNumber)
    (hnew : ∀ n ∈ w'.cs.outputNumbers, n ∈ w.cs.outputNumbers ∨ n = w.nextFileNumber ∧ n < w'.nextFileNumber) :
    w'.OnlyFlushed v := by
  refine ⟨hversion ▸ h.stay, fun level f hf => ?_, fun n hn => ?_⟩
  · obtain hold | ⟨hlt, hnot⟩ := h.added level f (hversion ▸ hf)
    · exact .inl hold
    · refine .inr ⟨hlt.trans_le hnext, fun hmem => ?_⟩
      obtain hmem | ⟨heq, -⟩ := hnew _ hmem
      · exact hnot hmem
      · omega
  · obtain hmem | ⟨-, hlt⟩ := hnew n hn
    · exact (h.outputs n hmem).trans_le hnext
    · exact hlt

theorem Work.OnlyFlushed.compactMemTable (h : w.OnlyFlushed v) (mem : List (Entry K V)) (result : Status) :
    (w.compactMemTable o mem result).OnlyFlushed v := by
  unfold Work.compactMemTable
  split
  · rename_i f hbuild
    have hnumber : f.number = w.nextFileNumber := by
      unfold buildTable at hbuild
      split at hbuild
      · cases hbuild
        rfl
      · cases hbuild
    refine ⟨fun level g hg => mem_addFile_iff.mpr (.inl (h.stay level g hg)), fun level g hg => ?_, fun n hn => ?_⟩
    · obtain hg | ⟨-, rfl⟩ := mem_addFile_iff.mp hg
      · obtain hold | ⟨hlt, hnot⟩ := h.added level g hg
        · exact .inl hold
        · exact .inr ⟨Nat.lt_succ_of_lt hlt, hnot⟩
      · exact .inr ⟨hnumber ▸ Nat.lt_succ_self _, fun hmem => (h.outputs _ hmem).ne hnumber⟩
    · exact Nat.lt_succ_of_lt (h.outputs n hn)
  · exact h.of_outputs rfl (Nat.le_succ _) fun n hn => .inl hn

theorem Work.OnlyFlushed.finishOutputFile (h : w.OnlyFlushed v) (result : Status) :
    (w.finishOutputFile o result).2.OnlyFlushed v :=
  h.of_outputs rfl le_rfl fun n hn => .inl (by rwa [Work.finishOutputFile, outputNumbers_finishOutput] at hn)

omit [LinearOrder K] in
theorem Work.OnlyFlushed.andThen {r : Status × Work K V} {f : Work K V → Status × Work K V}
    (hr : r.2.OnlyFlushed v) (hf : ∀ w : Work K V, w.OnlyFlushed v → (f w).2.OnlyFlushed v) :
    (Work.andThen r f).2.OnlyFlushed v := by
  unfold Work.andThen
  split
  · exact hf r.2 hr
  · exact hr

theorem Work.OnlyFlushed.stopBefore (h : w.OnlyFlushed v) (t : TurnInput K V) (e : Entry K V) :
    (w.stopBefore o t e).2.OnlyFlushed v := by
  obtain ⟨left, bytes, heq⟩ := shouldStopBefore_eq o w.cs e.key
  have hstop : { w with cs := (w.cs.shouldStopBefore o e.key).2 }.OnlyFlushed v :=
    h.of_outputs rfl le_rfl fun n hn => .inl (by rw [heq] at hn; exact hn)
  unfold Work.stopBefore
  dsimp only
  split
  · exact hstop.finishOutputFile _
  · exact hstop

theorem Work.OnlyFlushed.handle (h : w.OnlyFlushed v) (t : TurnInput K V) (e : Entry K V) :
    (w.handle o t e).2.OnlyFlushed v := by
  have hdrop : { w with cs := (w.cs.dropEntry e).2 }.OnlyFlushed v :=
    h.of_outputs rfl le_rfl fun n hn => .inl (by rwa [outputNumbers_dropEntry] at hn)
  unfold Work.handle
  dsimp only
  split
  · exact hdrop
  unfold Work.addEntry
  split
  · exact hdrop.of_outputs rfl (Nat.le_succ _) fun n hn => .inl hn
  · obtain ⟨hnext, hnew⟩ := next_add (w.cs.dropEntry e).2 w.nextFileNumber e
    have hadd : Work.OnlyFlushed v { w with
        cs := ((w.cs.dropEntry e).2.add w.nextFileNumber e).1
        nextFileNumber := ((w.cs.dropEntry e).2.add w.nextFileNumber e).2 } := hdrop.of_outputs rfl hnext hnew
    dsimp only
    split
    · exact hadd.finishOutputFile _
    · exact hadd

theorem Work.OnlyFlushed.turn (h : w.OnlyFlushed v) (t : TurnInput K V) (e : Entry K V) :
    (w.turn o t e).2.OnlyFlushed v := by
  unfold Work.turn
  refine .andThen (.andThen (Work.OnlyFlushed.stopBefore ?_ t e) fun w hw => hw.handle t e) fun w hw => ?_
  · split
    · exact h
    · exact h.compactMemTable _ _
  · exact hw.of_outputs rfl le_rfl fun n hn => .inl hn

theorem Work.OnlyFlushed.loop (h : w.OnlyFlushed v) {turns : ℕ → TurnInput K V} {fuel i : ℕ} {r : Status × Work K V}
    (hloop : w.loop o turns fuel i = some r) : r.2.OnlyFlushed v :=
  Work.loop_rule (P := Work.OnlyFlushed v) (fun _ t e hw => hw.turn t e) h hloop

end Version

/-! ### The loop ends -/

section Ends

section

omit [LinearOrder K]

/-- What is left of an iterator over a table or a level. -/
def childRank : ChildIter K V → ℕ ×ₗ WithBot (ℕ ×ₗ WithBot ℕ) :=
  Sum.elim (fun it => toLex (0, (Table.tableRank it : WithBot _))) Table.levelRank

theorem progress_childOps :
    (childOps : IteratorOps (InputReads K V) (ChildIter K V) (InternalKey K) V).Progress (· < ·) childRank := by
  refine IteratorOps.Progress.sum ?_ Table.progress_levelOps
  exact Table.progress_tableOps.map (f := fun x => toLex (0, (x : WithBot (ℕ ×ₗ WithBot ℕ)))) fun x y hlt =>
    Prod.Lex.toLex_lt_toLex.mpr (.inr ⟨rfl, WithBot.coe_lt_coe.mpr hlt⟩)

/-- What is left of the input iterator. -/
def inputRank : InputIter K V → Multiset (ℕ ×ₗ WithBot (ℕ ×ₗ WithBot ℕ)) :=
  Table.mergedRank childRank fun n => toLex (n, ⊥)

end

theorem progress_inputOps : (inputOps : IteratorOps (InputReads K V) (InputIter K V) (InternalKey K) V).Progress
    (Relation.CutExpand (· < ·)) inputRank :=
  Table.progress_mergedOps progress_childOps fun _ _ hlt => Prod.Lex.toLex_lt_toLex.mpr (.inl hlt)

/-- Every turn uses up the inputs, whatever is read. -/
theorem Work.exists_loop (o : Options K V) (turns : ℕ → TurnInput K V) (i : ℕ) (w : Work K V) :
    ∃ fuel r, w.loop o turns fuel i = some r := by
  have hwf : WellFounded (InvImage (Relation.CutExpand (· < ·)) (inputRank (K := K) (V := V))) :=
    InvImage.wf _ (IsWellFounded.wf (r := (· < ·))).cutExpand
  induction hin : w.input using hwf.induction generalizing w i with
  | h input ih =>
    subst hin
    cases hcurrent : inputOps.current w.input with
    | none => exact ⟨1, (none, w), by simp [Work.loop, hcurrent]⟩
    | some e =>
      by_cases hshut : (turns i).shuttingDown = true
      · exact ⟨1, (none, w), by simp [Work.loop, hcurrent, hshut]⟩
      obtain ⟨w', hsame, heq | ⟨err, heq⟩⟩ := Work.turn_cases o (turns i) ⟨e.1, e.2⟩ w
      · have hlt := progress_inputOps (w'.reads, w'.input) (by rw [hsame.2, hcurrent]; rfl)
        obtain ⟨fuel, r, hloop⟩ := ih w'.nextInput.2.input (hsame.2 ▸ hlt) (i + 1) w'.nextInput.2 rfl
        refine ⟨fuel + 1, r, ?_⟩
        simp only [Work.loop, hcurrent, if_neg hshut, heq]
        exact hloop
      · exact ⟨1, (some err, w'), by simp [Work.loop, hcurrent, hshut, heq]⟩

end Ends

/-! ### Errors are not lost -/

section Returns

variable {o : Options K V} {turns : ℕ → TurnInput K V} {last : EndInput} {c : Compaction K V} {smallestSnapshot : ℕ}
  {reads : InputReads K V} {version : Version K V} {next : ℕ}

/-- `DoCompactionWork` returns with this. -/
def Compaction.WorkReturns (o : Options K V) (turns : ℕ → TurnInput K V) (last : EndInput) (c : Compaction K V)
    (smallestSnapshot : ℕ) (reads : InputReads K V) (version : Version K V) (next : ℕ) (result : WorkResult K V) :
    Prop :=
  ∃ n, ∀ fuel, n ≤ fuel → doCompactionWork o turns last c smallestSnapshot reads version next fuel = some result

theorem doCompactionWork_mono {fuel fuel' : ℕ} {result : WorkResult K V} (hle : fuel ≤ fuel')
    (h : doCompactionWork o turns last c smallestSnapshot reads version next fuel = some result) :
    doCompactionWork o turns last c smallestSnapshot reads version next fuel' = some result := by
  obtain ⟨r, hloop, rfl⟩ := Option.map_eq_some_iff.mp h
  rw [doCompactionWork, Work.loop_mono hle hloop, Option.map_some]

theorem Work.sameInput_afterLoop (r : Status × Work K V) : r.2.SameInput (Work.afterLoop o last r).2 := by
  refine Work.sameInput_andThen (Work.sameInput_andThen ⟨rfl, rfl⟩ fun w => ?_) fun w =>
    Work.sameInput_andThen ?_ fun w => ⟨rfl, rfl⟩
  · split <;> exact ⟨rfl, rfl⟩
  · split <;> exact ⟨rfl, rfl⟩

theorem Work.OnlyFlushed.afterLoop {r : Status × Work K V} (h : r.2.OnlyFlushed version) (o : Options K V)
    (last : EndInput) : (Work.afterLoop o last r).2.OnlyFlushed version := by
  refine .andThen (.andThen h fun w hw => ?_) fun w hw => .andThen ?_ fun w hw => hw
  · split <;> exact hw
  · split
    · exact hw.finishOutputFile _
    · exact hw

/-- The last thing before the results are installed is a look at the status of the iterator. -/
theorem Work.status_of_afterLoop {r : Status × Work K V} (h : (Work.afterLoop o last r).1 = none) :
    inputOps.status (Work.afterLoop o last r).2.input = none := by
  have hlast : ∀ {r : Status × Work K V} {f : Work K V → Status × Work K V},
      (∀ w : Work K V, (f w).1 = none → inputOps.status (f w).2.input = none) → (Work.andThen r f).1 = none →
      inputOps.status (Work.andThen r f).2.input = none := by
    intro r f hf h
    unfold Work.andThen at h ⊢
    split at h
    · exact hf r.2 h
    · cases h
  exact hlast (fun w => hlast fun w h => h) h

/-- **No error is lost.** `DoCompactionWork` returns; and if an error was met while the inputs
were read, it returns an error and does not install its results: all files stay in the
current version, and no output comes into it. -/
theorem workReturns_of_read_error (o : Options K V) (turns : ℕ → TurnInput K V) (last : EndInput) (c : Compaction K V)
    (smallestSnapshot : ℕ) (reads : InputReads K V) (version : Version K V) (next : ℕ) :
    ∃ result, c.WorkReturns o turns last smallestSnapshot reads version next result ∧
      (result.work.reads.errors ≠ reads.errors →
        result.status ≠ none ∧ result.installed = none ∧
        (∀ level, ∀ f ∈ version.files level, f ∈ result.work.version.files level) ∧
        ∀ level, ∀ f ∈ result.work.version.files level,
          f ∈ version.files level ∨ f.number ∉ result.work.cs.outputNumbers) := by
  obtain ⟨n, r, hloop⟩ := Work.exists_loop o turns 0 (c.startWork smallestSnapshot reads version next)
  refine ⟨Work.install last (Work.afterLoop o last r), ⟨n, fun fuel hle => doCompactionWork_mono hle ?_⟩, fun herrors => ?_⟩
  · rw [doCompactionWork, hloop, Option.map_some]
  have hstart : (c.startWork smallestSnapshot reads version next).OnlyFlushed version := by
    refine ⟨fun _ _ hf => hf, fun _ _ hf => .inl hf, fun n hn => ?_⟩
    simp [Compaction.startWork, CompactionState.outputNumbers, Compaction.start] at hn
  have hflushed := (hstart.loop hloop).afterLoop o last
  cases hstatus : (Work.afterLoop o last r).1 with
  | some e =>
    simp only [Work.install, hstatus]
    exact ⟨by simp, trivial, hflushed.stay, fun level f hf => (hflushed.added level f hf).imp_right And.right⟩
  | none =>
    -- the iterator is OK in the end, so it was OK all the time
    exfalso
    refine herrors ?_
    have hreads : (Work.install last (Work.afterLoop o last r)).work.reads = r.2.reads := by
      rw [← (Work.sameInput_afterLoop r).1]
      unfold Work.install
      split
      · rfl
      · dsimp only
        split <;> rfl
    obtain ⟨hok, herrors₁⟩ := Work.keeps_loop hloop ((Work.sameInput_afterLoop r).2 ▸ Work.status_of_afterLoop hstatus)
    obtain ⟨hok', herrors₂⟩ := sound_inputOps.seekToFirst (c.newInputIterator reads) hok
    rw [hreads, herrors₁]
    exact herrors₂.trans (errors_newInputIterator c reads hok')

end Returns

/-- Reads of the inputs of `boundaryCompaction`: the fifth, of the second table of level 1, fails. -/
def boundaryReads : InputReads ℕ ℕ where
  tables n := if n = 4 then .error (.ioError "gone") else .ok (.entries [(⟨9, 2, .value⟩, some 0)] false)
  blocks n := .ok (.entries (if n = 1 then [(⟨2, 9, .value⟩, 20), (⟨5, 7, .value⟩, 50)]
    else [(⟨8, 1, .value⟩, 80), (⟨9, 2, .value⟩, 90)]) false)
  count := 0
  errors := []

/-- The second table of level 1 cannot be opened when the entries of the first are in the output. -/
theorem workReturns_of_read_error_open : ∃ result, boundaryCompaction.WorkReturns smallOptions
      (fun _ => ⟨false, none, none, none, none⟩) ⟨false, none, none⟩ 9 boundaryReads boundaryVersion 5 result ∧
    result.work.reads.errors = [.ioError "gone"] ∧ result.work.cs.outputNumbers = [5] ∧
      result.status ≠ none ∧ result.installed = none := by
  obtain ⟨result, ⟨n, hn⟩, himp⟩ := workReturns_of_read_error smallOptions (fun _ => ⟨false, none, none, none, none⟩)
    ⟨false, none, none⟩ boundaryCompaction 9 boundaryReads boundaryVersion 5
  have hrun : (doCompactionWork smallOptions (fun _ => ⟨false, none, none, none, none⟩) ⟨false, none, none⟩
      boundaryCompaction 9 boundaryReads boundaryVersion 5 5).map (fun r => (r.work.reads.errors, r.work.cs.outputNumbers)) =
      some ([.ioError "gone"], [5]) := by
    decide +kernel
  obtain ⟨r, hr, heq⟩ := Option.map_eq_some_iff.mp hrun
  obtain ⟨herrors, hout⟩ := Prod.mk.inj heq
  have hmore := hn (n + 5) (Nat.le_add_right n 5)
  rw [doCompactionWork_mono (Nat.le_add_left 5 n) hr, Option.some.injEq] at hmore
  subst hmore
  obtain ⟨hstatus, hinstalled, -⟩ := himp (by simp [herrors, boundaryReads])
  exact ⟨r, ⟨n, hn⟩, herrors, hout, hstatus, hinstalled⟩

end TLevelDB.Db
