import TLevelDB.Db.Replay
import TLevelDB.Db.System

/-!
# What a database holds after it is opened

The MANIFEST and the tables of a directory give the map of the operations that were flushed, and
its logs hold the batches written since, one after the other (`Holds`). `DB::Open` inserts the
batches into memtables, makes tables of level 0 of those that get full, and keeps the last one if
it reuses the log. While it does so the tables and the memtable give the map of all that was
replayed so far (`Restored`). So a read after `DB::Open` finds what was written last.
-/

namespace TLevelDB.Db

open TLevelDB.Storage

variable {K V β : Type}

/-- The batches follow each other, from this sequence number on. -/
def Consecutive : ℕ → List (ℕ × List (Op K V)) → Prop
  | _, [] => True
  | s, batch :: batches => batch.1 = s + 1 ∧ Consecutive (s + batch.2.length) batches

theorem consecutive_append {s : ℕ} {bs bs' : List (ℕ × List (Op K V))} :
    Consecutive s (bs ++ bs') ↔ Consecutive s bs ∧ Consecutive (s + (bs.flatMap Prod.snd).length) bs' := by
  induction bs generalizing s with
  | nil => simp [Consecutive]
  | cons b bs ih => simp [Consecutive, ih, and_assoc, Nat.add_assoc]

variable [LinearOrder K]

/-- The batches in the logs that are to be replayed. -/
def logged (F : Formats K V β) (d : Disk β) (vs : VersionSet K V) : List (ℕ × List (Op K V)) :=
  (logsToRecover d vs.logNumber vs.prevLogNumber).flatMap (F.readLog d)

/-! ### A version and a memtable -/

section Store

variable {v : Version K V} {mem : List (Entry K V)} {hist : List (Op K V)} {f : FileMetaData K V}
  {fs : List (FileMetaData K V)}

/-- The edit that adds these files to level 0. -/
def level0Edit (fs : List (FileMetaData K V)) : VersionEdit K V where
  newFiles := fs.map fun f => (0, f)

theorem apply_level0Edit_nil (v : Version K V) : v.apply (level0Edit []) = v := by
  simp [Version.apply, level0Edit, VersionEdit.addedFiles, VersionEdit.newAt, VersionEdit.deleted, mergeFiles]

/-- One file more can be added by itself. -/
theorem apply_level0Edit_snoc (hv : v.Sorted) (h : (v.apply (level0Edit fs)).Ok)
    (hf : Addable (v.apply (level0Edit fs)) 0 f) :
    v.apply (level0Edit (fs ++ [f])) = (v.apply (level0Edit fs)).apply (addFileEdit 0 f) := by
  let b : Builder K V := (⟨v, [], []⟩ : Builder K V).apply (level0Edit fs)
  have hmem : ∀ level, ∀ g ∈ v.files level ++ b.addedAt level, g ∈ (v.apply (level0Edit fs)).files level := by
    intro level g hg
    rw [addedAt_apply] at hg
    refine mem_apply_iff.mpr ⟨(List.mem_append.mp hg).imp_right fun hg => by simpa [Builder.addedAt] using hg, ?_⟩
    simp [VersionEdit.deleted, level0Edit]
  have hsaved : b.saveTo = v.apply (level0Edit fs) := Builder.saveTo_single v _
  rw [← hsaved] at h hf
  have hstep := Builder.saveTo_apply (b := b) hv (fun level f' hf' g hg => by
    obtain ⟨-, rfl⟩ : level = 0 ∧ f' = f := by simpa [addFileEdit] using mem_newAt.mp hf'
    exact (hf.number level g (hsaved ▸ hmem level g hg)).ne) (addFile_ok h hf).number_ne
  rw [← hsaved, ← hstep, ← Builder.saveTo_single]
  simp [b, Builder.apply, level0Edit, addFileEdit]

variable [Inhabited V]

/-- The tables of a version and a memtable give the map of these operations. -/
structure Stores (v : Version K V) (mem : List (Entry K V)) (hist : List (Op K V)) : Prop where
  version : v.Ok
  sorted : SortedEntries mem
  newer : ∀ x ∈ mem, ∀ y ∈ v.entries, y.sequence < x.sequence
  le : ∀ x ∈ entrySet mem ∪ v.entries, x.sequence ≤ hist.length
  live : ∃ s ≤ hist.length, SameLive s (entrySet mem ∪ v.entries) (entrySet (opEntries hist))

theorem Stores.insert (h : Stores v mem hist) (op : Op K V) :
    Stores v (memTableAdd mem (op.entry (hist.length + 1))) (hist ++ [op]) := by
  have hset : entrySet (memTableAdd mem (op.entry (hist.length + 1))) ∪ v.entries =
      Insert.insert (op.entry (hist.length + 1)) (entrySet mem ∪ v.entries) := by
    ext x
    simp only [Set.mem_union, Set.mem_insert_iff, ← or_assoc]
    exact or_congr_left mem_memTableAdd
  have hlt : ∀ x ∈ entrySet mem ∪ v.entries, x.sequence < (op.entry (hist.length + 1)).sequence := fun x hx => by
    rw [Op.sequence_entry]
    exact Nat.lt_succ_of_le (h.le x hx)
  obtain ⟨s, hs, hlive⟩ := h.live
  refine ⟨h.version, sortedEntries_memTableAdd h.sorted fun x hx => hlt x (.inl hx), fun x hx y hy => ?_, fun x hx => ?_,
    s, hs.trans (by simp), ?_⟩
  · rcases mem_memTableAdd.mp hx with rfl | hx
    · exact hlt y (.inr hy)
    · exact h.newer x hx y hy
  · rw [hset] at hx
    rw [List.length_append]
    rcases hx with rfl | hx
    · exact (Op.sequence_entry _ _).le
    · exact (h.le x hx).trans (Nat.le_succ _)
  · rw [hset, entrySet_opEntries_snoc]
    exact hlive.insert hlt fun x hx => by
      rw [Op.sequence_entry]
      exact Nat.lt_succ_of_le (sequence_le_of_mem_opEntries hx)

theorem Stores.insertInto (h : Stores v mem hist) (ops : List (Op K V)) :
    Stores v (insertInto mem (hist.length + 1, ops)) (hist ++ ops) := by
  induction ops generalizing mem hist with
  | nil => simpa [Db.insertInto, batchEntries] using h
  | cons op ops ih =>
    have hrest := ih (h.insert op)
    simp only [List.length_append, List.length_singleton, List.append_assoc, List.singleton_append] at hrest
    simpa [Db.insertInto, batchEntries, Nat.add_assoc, Nat.add_comm 1, Nat.add_comm 2] using hrest

theorem Stores.flush (h : Stores v mem hist) (hf : Addable v 0 f) (htable : f.table = mem) :
    Stores (v.apply (addFileEdit 0 f)) [] hist := by
  have hset : entrySet ([] : List (Entry K V)) ∪ (v.apply (addFileEdit 0 f)).entries = entrySet mem ∪ v.entries := by
    rw [entries_addFile, htable]
    ext x
    simp
  exact ⟨addFile_ok h.version hf, sortedEntries_nil, by simp, hset ▸ h.le, hset ▸ h.live⟩

end Store

/-! ### Replaying logs -/

variable [Inhabited V] {F : Formats K V β} {o : OpenOptions K V} {d : Disk β}

section Logs

variable {base : Version K V} {hist : List (Op K V)} {flushed n : ℕ} {r : Replay K V β} {lastLog : Option ℕ}

/-- While logs are replayed, all of `hist` is stored; the tables of the version that was recovered
go up to the sequence number `flushed`. -/
structure Restored (base : Version K V) (flushed : ℕ) (r : Replay K V β) (mem : List (Entry K V)) (hist : List (Op K V)) :
    Prop where
  sorted : base.Sorted
  stores : Stores (base.apply (level0Edit r.files)) mem hist
  number_lt : ∀ l, ∀ f ∈ (base.apply (level0Edit r.files)).files l, f.number < r.nextFileNumber
  max_eq : max flushed r.maxSequence = hist.length

theorem Restored.writeLevel0Table {mem : List (Entry K V)} (h : Restored base flushed r mem hist)
    (hseq : hist.length < kMaxSequenceNumber) : Restored base flushed (r.writeLevel0Table F o mem) [] hist := by
  have hnumber := fun l f hf => Nat.lt_succ_of_lt (h.number_lt l f hf)
  cases hb : buildTable o.toOptions r.nextFileNumber mem with
  | none =>
    have hfiles : (r.writeLevel0Table F o mem).files = r.files := by simp [Replay.writeLevel0Table, hb]
    have hstores := h.stores
    rw [buildTable_eq_none_iff.mp hb, ← hfiles] at hstores
    exact ⟨h.sorted, hstores, by rw [hfiles]; exact hnumber, h.max_eq⟩
  | some f =>
    have hfiles : (r.writeLevel0Table F o mem).files = r.files ++ [f] := by simp [Replay.writeLevel0Table, hb]
    obtain ⟨hok, htable, hnum⟩ := buildTable_spec hb h.stores.sorted fun x hx => (h.stores.le x (.inl hx)).trans hseq.le
    have hnewer : ∀ x ∈ f.table, ∀ y ∈ (base.apply (level0Edit r.files)).entries, y.sequence < x.sequence :=
      fun x hx => h.stores.newer x (htable ▸ hx)
    have hadd : Addable (base.apply (level0Edit r.files)) 0 f :=
      ⟨⟨hok, by decide, fun l g hg => hnum ▸ h.number_lt l g hg, fun x hx y hy _ => (hnewer x hx y hy).ne', by simp⟩, hnewer⟩
    have hversion := apply_level0Edit_snoc h.sorted h.stores.version hadd
    rw [← hfiles] at hversion
    refine ⟨h.sorted, hversion ▸ h.stores.flush hadd htable, hversion ▸ fun l g hg => ?_, h.max_eq⟩
    rcases mem_addFile_iff.mp hg with hg | ⟨-, rfl⟩
    · exact hnumber l g hg
    · exact hnum ▸ Nat.lt_succ_self _

theorem Restored.record {ops : List (Op K V)} (h : Restored base flushed r (r.mem.getD []) hist)
    (hseq : (hist ++ ops).length < kMaxSequenceNumber) :
    Restored base flushed (r.record F o (hist.length + 1, ops)) ((r.record F o (hist.length + 1, ops)).mem.getD [])
      (hist ++ ops) := by
  have hmax : max flushed (max r.maxSequence (hist.length + 1 + ops.length - 1)) = (hist ++ ops).length := by
    have := h.max_eq
    rw [List.length_append]
    omega
  have hinsert := h.stores.insertInto ops
  unfold Replay.record
  dsimp only
  split_ifs
  · have hr : Restored base flushed { r with
        mem := some (insertInto (r.mem.getD []) (hist.length + 1, ops))
        maxSequence := max r.maxSequence (hist.length + 1 + ops.length - 1) } _ _ := ⟨h.sorted, hinsert, h.number_lt, hmax⟩
    obtain ⟨hsorted, hstores, hnumber, hmax'⟩ := hr.writeLevel0Table (F := F) (o := o) hseq
    exact ⟨hsorted, hstores, hnumber, hmax'⟩
  · exact ⟨h.sorted, hinsert, h.number_lt, hmax⟩

theorem Restored.records {batches : List (ℕ × List (Op K V))} (h : Restored base flushed r (r.mem.getD []) hist)
    (hb : Consecutive hist.length batches) (hseq : (hist ++ batches.flatMap Prod.snd).length < kMaxSequenceNumber) :
    Restored base flushed (batches.foldl (Replay.record F o) r) ((batches.foldl (Replay.record F o) r).mem.getD [])
      (hist ++ batches.flatMap Prod.snd) := by
  induction batches generalizing r hist with
  | nil => simpa using h
  | cons batch batches ih =>
    obtain ⟨s, ops⟩ := batch
    obtain ⟨rfl, hrest⟩ := hb
    rw [List.flatMap_cons, ← List.append_assoc] at hseq ⊢
    have hlt : (hist ++ ops).length < kMaxSequenceNumber := lt_of_le_of_lt (by simp) hseq
    exact ih (h.record hlt) (by rwa [List.length_append]) hseq

theorem Restored.endOfLog {last : Bool} (h : Restored base flushed r (r.mem.getD []) hist) (hreused : r.reused = none)
    (hseq : hist.length < kMaxSequenceNumber) :
    Restored base flushed (r.endOfLog F o n last) ((r.endOfLog F o n last).reused.elim [] Prod.snd) hist := by
  unfold Replay.endOfLog
  split_ifs
  · exact ⟨h.sorted, h.stores, h.number_lt, h.max_eq⟩
  · split
    next hmem => simpa [hreused, hmem] using h
    next mem hmem =>
      rw [hmem, Option.getD_some] at h
      simpa [Replay.writeLevel0Table, hreused] using h.writeLevel0Table (F := F) (o := o) hseq

theorem Restored.logFile (h : Restored base flushed r [] hist) (hmem : r.mem = none) (hreused : r.reused = none)
    (hb : Consecutive hist.length (F.readLog d n))
    (hseq : (hist ++ (F.readLog d n).flatMap Prod.snd).length < kMaxSequenceNumber) :
    Restored base flushed (r.logFile F o d lastLog n) ((r.logFile F o d lastLog n).reused.elim [] Prod.snd)
      (hist ++ (F.readLog d n).flatMap Prod.snd) := by
  have h₀ : Restored base flushed { r with compactions := 0 } (r.mem.getD []) hist := by
    rw [hmem]
    exact ⟨h.sorted, h.stores, h.number_lt, h.max_eq⟩
  have hend : Restored base flushed (Replay.endOfLog F o n (lastLog = some n) _) _ _ :=
    (h₀.records (F := F) (o := o) hb hseq).endOfLog ((Replay.foldl_record_spec _ _).2.1.trans hreused) hseq
  exact ⟨hend.sorted, hend.stores, fun l f hf => (hend.number_lt l f hf).trans_le (le_max_left _ _), hend.max_eq⟩

theorem Restored.logFiles {logs : List ℕ} (h : Restored base flushed r [] hist) (hmem : r.mem = none) (hreused : r.reused = none)
    (hlast : ∀ n ∈ logs.dropLast, lastLog ≠ some n) (hb : Consecutive hist.length (logs.flatMap (F.readLog d)))
    (hseq : (hist ++ (logs.flatMap (F.readLog d)).flatMap Prod.snd).length < kMaxSequenceNumber) :
    Restored base flushed (logs.foldl (Replay.logFile F o d lastLog) r)
      ((logs.foldl (Replay.logFile F o d lastLog) r).reused.elim [] Prod.snd)
      (hist ++ (logs.flatMap (F.readLog d)).flatMap Prod.snd) := by
  induction logs generalizing r hist with
  | nil => simpa [hreused] using h
  | cons n logs ih =>
    rw [List.flatMap_cons, consecutive_append] at hb
    rw [List.flatMap_cons, List.flatMap_append, ← List.append_assoc] at hseq ⊢
    have hlt : (hist ++ (F.readLog d n).flatMap Prod.snd).length < kMaxSequenceNumber := lt_of_le_of_lt (by simp) hseq
    have hlog : Restored base flushed (r.logFile F o d lastLog n) _ _ := h.logFile hmem hreused hb.1 hlt
    obtain ⟨-, hmem', hreused', -⟩ := Replay.logFile_spec F o d lastLog n hreused
    cases logs with
    | nil => simpa using hlog
    | cons m logs =>
      rw [List.dropLast_cons_cons, List.forall_mem_cons] at hlast
      rw [hreused' hlast.1] at hlog
      exact ih hlog hmem' (hreused' hlast.1) hlast.2 (by rw [List.length_append]; exact hb.2) hseq

end Logs

/-! ### `DB::Open` -/

/-- A directory that holds the operations `hist`: its version those in `flushed`, and its logs
the others. -/
structure Holds (F : Formats K V β) (d : Disk β) (vs : VersionSet K V) (flushed hist : List (Op K V)) : Prop where
  stores : Stores (vs.version.fill F d) [] flushed
  sorted : (vs.version.fill F d).Sorted
  number_lt : ∀ level, ∀ f ∈ (vs.version.fill F d).files level, f.number < vs.nextFileNumber
  consecutive : Consecutive flushed.length (logged F d vs)
  hist_eq : hist = flushed ++ (logged F d vs).flatMap Prod.snd
  flushed_le : flushed.length ≤ vs.lastSequence
  lastSequence_le : vs.lastSequence ≤ hist.length

section Open

variable {vs : VersionSet K V} {flushed hist : List (Op K V)}

theorem Holds.replayLogs (h : Holds F d vs flushed hist) (hseq : hist.length < kMaxSequenceNumber) (save : Bool) :
    Restored (vs.version.fill F d) flushed.length (replayLogs F o d vs save)
      ((replayLogs F o d vs save).reused.elim [] Prod.snd) hist := by
  have hversion := apply_level0Edit_nil (vs.version.fill F d)
  have h₀ : Restored (vs.version.fill F d) flushed.length
      (⟨none, 0, [], vs.nextFileNumber, 0, save, none, []⟩ : Replay K V β) [] flushed :=
    ⟨h.sorted, by rw [hversion]; exact h.stores, by rw [hversion]; exact h.number_lt, by simp⟩
  rw [h.hist_eq] at hseq ⊢
  refine h₀.logFiles rfl rfl (fun n hn heq => ?_) h.consecutive hseq
  -- the last log comes once
  have hnodup := nodup_logsToRecover d vs.logNumber vs.prevLogNumber
  rw [← List.dropLast_append_getLast? n heq, List.nodup_append] at hnodup
  exact hnodup.2.2 n hn n (List.mem_singleton_self n) rfl

/-- A process that has just opened a database which stores these operations. -/
theorem Stores.opened {r : Replay K V β} {v : Version K V} {compactPointer : ℕ → Option (InternalKey K)}
    {last a b c m e : ℕ} (h : Stores v (r.reused.elim [] Prod.snd) hist)
    (hnumber : ∀ l, ∀ f ∈ v.files l, f.number < r.nextFileNumber) (hlast : last = hist.length) :
    DBInv (Process.opened r v compactPointer last a b c m e).db ∧
      DataInv (Process.opened r v compactPointer last a b c m e).db hist := by
  subst hlast
  obtain ⟨s, hs, hlive⟩ := h.live
  have hnext : r.nextFileNumber ≤ r.nextFile := by
    unfold Replay.nextFile
    split_ifs <;> omega
  constructor
  · constructor
    case version => exact h.version
    case number_lt => exact fun l f hf => (hnumber l f hf).trans_le hnext
    case mem => exact h.sorted
    case imm => exact sortedEntries_nil
    case mem_newer => exact fun x hx y hy => h.newer x hx y (by simpa [Process.opened] using hy)
    case version_le => exact fun x hx => h.le x (.inr hx)
    case mem_le => exact fun x hx => h.le x (.inl hx)
    all_goals simp [Process.opened]
  · refine ⟨rfl, s, hs, by simp [Process.opened], ?_⟩
    have hstored : (Process.opened r v compactPointer hist.length a b c m e).db.stored =
        entrySet (r.reused.elim [] Prod.snd) ∪ v.entries := by
      ext x
      simp [DBState.stored, Process.opened]
    rw [hstored]
    simpa [DBState.insertedOps, Process.opened] using hlive

/-- The states that actions lead to from a state on, with the operations that they write. -/
inductive RunFrom (o : Options K V) (st₀ : DBState K V) : DBState K V → List (Op K V) → Prop where
  | refl : RunFrom o st₀ st₀ []
  | step {st st' : DBState K V} {more : List (Op K V)} {a : Action K V} : RunFrom o st₀ st more → a.Legal st.version →
      KeepsClear o st a → st.step o a = some st' → RunFrom o st₀ st' (more ++ st.acknowledged a)

theorem RunFrom.inv {o : Options K V} {st₀ st : DBState K V} {more : List (Op K V)} (h : RunFrom o st₀ st more)
    (hinv : DBInv st₀) (hdata : DataInv st₀ hist) (hseq : st.lastSequence < kMaxSequenceNumber) :
    DBInv st ∧ DataInv st (hist ++ more) := by
  induction h with
  | refl => exact ⟨hinv, by rwa [List.append_nil]⟩
  | step _ hlegal hclear hstep ih =>
    have hlt := (lastSequence_le_of_step hstep).trans_lt hseq
    obtain ⟨ihinv, ihdata⟩ := ih hlt
    exact ⟨ihinv.step hlt hlegal hclear hstep, List.append_assoc hist .. ▸ ihdata.step ihinv hlt hlegal hstep⟩

/-- **`DB::Open` restores what was written**, and all later reads see it with what is then written. -/
theorem open_get_eq_valueAt {calls : List (EnvCall β)} {p : Process K V β} (h : openDB F o d = some (calls, p))
    (hvs : F.readManifest (F.createdDB d) = some vs) (hd : Holds F (F.createdDB d) vs flushed hist)
    (hseq : hist.length < kMaxSequenceNumber) :
    p.db.lastSequence = hist.length ∧
      ∀ st more, RunFrom o.toOptions p.db st more → st.lastSequence < kMaxSequenceNumber →
        ∀ k s, s = st.lastSequence ∨ s ∈ st.snapshots → st.get k s = valueAt (hist ++ more) s k := by
  obtain ⟨vs', hvs', -, hp⟩ := openDB_spec h
  obtain rfl := Option.some.inj (hvs.symm.trans hvs')
  suffices hopened : DBInv p.db ∧ DataInv p.db hist by
    refine ⟨hopened.2.length.symm, fun st more hrun hlt k s hs => ?_⟩
    obtain ⟨hinv, hdata⟩ := hrun.inv hopened.1 hopened.2 hlt
    exact hdata.get_eq hinv k hs
  have hlast : ∀ save, max vs.lastSequence (replayLogs F o (F.createdDB d) vs save).maxSequence = hist.length := by
    intro save
    have := (hd.replayLogs (o := o) hseq save).max_eq
    have := hd.flushed_le
    have := hd.lastSequence_le
    omega
  rw [show p.db = (recoverLogs F o (F.createdDB d) vs).2.db by rw [hp]]
  simp only [recoverLogs]
  cases F.reuseManifest o (F.createdDB d) with
  | none =>
    have hr := hd.replayLogs (o := o) hseq true
    exact hr.stores.opened hr.number_lt (hlast true)
  | some reused =>
    have hr := hd.replayLogs (o := o) hseq false
    dsimp only [Option.isNone_some]
    split_ifs with hsave
    · exact hr.stores.opened hr.number_lt (hlast false)
    · -- no table was made
      have hfiles := ((replayLogs_spec F o (F.createdDB d) vs false).1.saveManifest (by simpa using hsave)).2
      have hstores := hr.stores
      have hnumber := hr.number_lt
      rw [hfiles, apply_level0Edit_nil] at hstores hnumber
      exact hstores.opened hnumber (hlast false)

end Open

/-- The table of a database in which two operations were flushed. -/
def flushedFile : FileMetaData ℕ ℕ :=
  ⟨4, 10, ⟨5, 1, .value⟩, ⟨8, 2, .value⟩, [⟨⟨5, 1, .value⟩, 1⟩, ⟨⟨8, 2, .value⟩, 4⟩]⟩

/-- The directory of that database, with two more records in its log. -/
def loggedDisk : Disk (Symbol ℕ ℕ) :=
  (Dir.empty.execAll (Formats.symbols ℕ ℕ).newDBCalls).execAll
    [.create (.table 4), .append (.table 4) (flushedFile.table.map .entry ++ [.footer]),
      .append (.descriptor 1) [.edit { addFileEdit 0 { flushedFile with table := [] } with
        logNumber := some 3, nextFileNumber := some 5, lastSequence := some 2 }],
      .create (.log 3), .append (.log 3) [.batch (3, [.put 6 2]), .batch (4, [.delete 5])]]

/-- What its MANIFEST gives. -/
def loggedVersions : VersionSet ℕ ℕ :=
  ⟨Version.empty.apply (addFileEdit 0 { flushedFile with table := [] }), fun _ => none, 5, 6, 2, 3, 0⟩

theorem stores_flushedFile : Stores (Version.empty.apply (addFileEdit 0 flushedFile)) [] [.put 5 1, .put 8 4] := by
  have hentries : ∀ x, x ∉ (Version.empty : Version ℕ ℕ).entries := by simp [Version.entries, Version.empty]
  have hempty : Stores (Version.empty : Version ℕ ℕ) [] [] := by
    refine ⟨Version.ok_empty, sortedEntries_nil, by simp, by simp [hentries], 0, le_rfl, ?_⟩
    rw [Set.eq_empty_of_forall_notMem hentries, Set.union_empty]
    exact fun _ _ _ _ => Iff.rfl
  have hmem := hempty.insertInto [.put 5 1, .put 8 4]
  have hok := (buildTable_spec (show buildTable smallOptions 4 flushedFile.table = some flushedFile from rfl)
    hmem.sorted (by decide)).1
  refine hmem.flush ⟨⟨hok, by decide, fun _ _ hg => ?_, ?_, ?_⟩, ?_⟩ rfl
  · cases hg
  all_goals simp [hentries]

theorem open_get_eq_valueAt_logged : ∃ calls p st, openDB (Formats.symbols ℕ ℕ) smallOpenOptions loggedDisk = some (calls, p) ∧
    p.db.lastSequence = 4 ∧ RunFrom smallOpenOptions.toOptions p.db st [.put 7 3] ∧
    st.get 5 5 = none ∧ st.get 6 5 = some 2 ∧ st.get 7 5 = some 3 ∧ st.get 8 5 = some 4 := by
  have hopen : (openDB (Formats.symbols ℕ ℕ) smallOpenOptions loggedDisk).any (·.2.db.writing.isNone) = true := by decide +kernel
  obtain ⟨⟨calls, p⟩, hp, hwriting⟩ := (Option.any_eq_true _ _).mp hopen
  have hvs : (Formats.symbols ℕ ℕ).readManifest loggedDisk = some loggedVersions := rfl
  have hversion : loggedVersions.version.fill (Formats.symbols ℕ ℕ) loggedDisk =
      Version.empty.apply (addFileEdit 0 flushedFile) := by
    refine congrArg Version.mk (funext fun level => ?_)
    cases level <;> rfl
  have hlogged : logged (Formats.symbols ℕ ℕ) loggedDisk loggedVersions = [(3, [.put 6 2]), (4, [.delete 5])] := by
    decide +kernel
  have hholds : Holds (Formats.symbols ℕ ℕ) loggedDisk loggedVersions [.put 5 1, .put 8 4]
      [.put 5 1, .put 8 4, .put 6 2, .delete 5] := by
    refine ⟨hversion ▸ stores_flushedFile, hversion ▸ Version.sorted_empty.apply _, hversion ▸ fun level f hf => ?_,
      hlogged ▸ ⟨rfl, rfl, trivial⟩, hlogged ▸ rfl, by decide, by decide⟩
    rcases mem_addFile_iff.mp hf with hf | ⟨-, rfl⟩
    · cases hf
    · decide
  obtain ⟨hlast, hget⟩ := open_get_eq_valueAt hp hvs hholds (by decide)
  have hwrite : RunFrom smallOpenOptions.toOptions p.db _ [.put 7 3] :=
    ((RunFrom.refl.step (a := .beginWrite [.put 7 3]) trivial (by simp [KeepsClear])
      (if_pos (Option.isNone_iff_eq_none.mp hwriting))).step (a := .insert) trivial (by simp [KeepsClear]) rfl).step
      (a := .endWrite) trivial (by simp [KeepsClear]) rfl
  have hread := fun k => hget _ _ hwrite (show p.db.lastSequence + 1 < _ by rw [hlast]; decide) k 5
    (.inl (show 5 = p.db.lastSequence + 1 by rw [hlast]; rfl))
  exact ⟨calls, p, _, hp, hlast, hwrite, (hread 5).trans (by decide), (hread 6).trans (by decide),
    (hread 7).trans (by decide), (hread 8).trans (by decide)⟩

end TLevelDB.Db
