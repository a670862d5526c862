import TLevelDB.Db.Recovery
import TLevelDB.Db.Reachable

/-!
# Replaying logs

What `DBImpl::Recover` has done when it has replayed the logs: every entry of every record
is in a table that it has made or in the memtable that is kept (`replayLogs_spec`), and
all it has written are tables with new numbers.
-/

namespace TLevelDB.Db

open TLevelDB.Storage

variable {K V β : Type} [LinearOrder K] {F : Formats K V β} {o : OpenOptions K V} {d : Disk β}

omit [LinearOrder K] in
theorem writes_buildTableCalls {number : ℕ} {mem : List (Entry K V)} {c : EnvCall β} {name : FileName}
    (hc : c ∈ F.buildTableCalls number mem) (hw : c.Writes name) : name = .table number := by
  unfold Formats.buildTableCalls at hc
  split_ifs at hc
  · rw [List.mem_singleton.mp hc] at hw
    exact hw.symm
  · simp only [List.mem_cons, List.not_mem_nil, or_false] at hc
    rcases hc with rfl | rfl | rfl <;> exact hw.symm

omit [LinearOrder K] in
theorem mem_buildTable {mem : List (Entry K V)} {e : Entry K V} (he : e ∈ mem) (o : Options K V) (number : ℕ) :
    ∃ f, buildTable o number mem = some f ∧ e ∈ f.table := by
  cases mem with
  | nil => cases he
  | cons x mem =>
    have hlast := List.getLast?_eq_some_getLast (List.cons_ne_nil x mem)
    simp only [buildTable, List.head?_cons, hlast]
    exact ⟨_, rfl, he⟩

namespace Replay

omit [LinearOrder K] in
/-- What was done from one state of the replay to another. -/
structure Extends (r r' : Replay K V β) : Prop where
  files : ∀ f ∈ r.files, f ∈ r'.files
  nextFileNumber_le : r.nextFileNumber ≤ r'.nextFileNumber
  saveManifest : r'.saveManifest = false → r.saveManifest = false ∧ r'.files = r.files
  /-- Only tables with new numbers are written. -/
  calls : ∃ more, r'.calls = r.calls ++ more ∧ ∀ c ∈ more, ∀ name, c.Writes name →
    ∃ n, name = .table n ∧ r.nextFileNumber ≤ n ∧ n < r'.nextFileNumber

variable {r r' r'' : Replay K V β}

section

omit [LinearOrder K]

theorem Extends.refl (r : Replay K V β) : r.Extends r :=
  ⟨fun _ hf => hf, le_rfl, fun h => ⟨h, rfl⟩, [], by simp, by simp⟩

theorem Extends.trans (h : r.Extends r') (h' : r'.Extends r'') : r.Extends r'' where
  files f hf := h'.files f (h.files f hf)
  nextFileNumber_le := h.nextFileNumber_le.trans h'.nextFileNumber_le
  saveManifest hs := by
    obtain ⟨hs', hfiles⟩ := h'.saveManifest hs
    obtain ⟨hs'', hfiles'⟩ := h.saveManifest hs'
    exact ⟨hs'', hfiles.trans hfiles'⟩
  calls := by
    obtain ⟨more, hcalls, hmore⟩ := h.calls
    obtain ⟨more', hcalls', hmore'⟩ := h'.calls
    refine ⟨more ++ more', by rw [hcalls', hcalls, List.append_assoc], fun c hc name hw => ?_⟩
    rcases List.mem_append.mp hc with hc | hc
    · obtain ⟨n, hn, hle, hlt⟩ := hmore c hc name hw
      exact ⟨n, hn, hle, hlt.trans_le h'.nextFileNumber_le⟩
    · obtain ⟨n, hn, hle, hlt⟩ := hmore' c hc name hw
      exact ⟨n, hn, h.nextFileNumber_le.trans hle, hlt⟩

/-- The entries that are in a table or in the memtable. -/
def held (r : Replay K V β) : Set (Entry K V) := {e | (∃ f ∈ r.files, e ∈ f.table) ∨ e ∈ r.mem.getD []}

/-- Between two logs all is in tables. -/
theorem held_of_mem_none {e : Entry K V} (hmem : r.mem = none) (he : e ∈ r.held) : ∃ f ∈ r.files, e ∈ f.table := by
  rcases he with he | he
  · exact he
  · rw [hmem] at he
    cases he

theorem extends_writeLevel0Table (F : Formats K V β) (o : OpenOptions K V) (r : Replay K V β) (mem : List (Entry K V)) :
    r.Extends (r.writeLevel0Table F o mem) where
  files _ hf := List.mem_append_left _ hf
  nextFileNumber_le := Nat.le_succ _
  saveManifest hs := by cases hs
  calls := ⟨_, rfl, fun _ hc _ hw => ⟨_, writes_buildTableCalls hc hw, le_rfl, Nat.lt_succ_self _⟩⟩

theorem held_writeLevel0Table {mem : List (Entry K V)} (hmem : r.mem = some mem) :
    r.held ⊆ (r.writeLevel0Table F o mem).held := by
  rintro e (⟨f, hf, he⟩ | he)
  · exact .inl ⟨f, List.mem_append_left _ hf, he⟩
  · rw [hmem, Option.getD_some] at he
    obtain ⟨f, hf, hef⟩ := mem_buildTable he o.toOptions r.nextFileNumber
    exact .inl ⟨f, List.mem_append_right _ (by simp [hf]), hef⟩

end

variable [Inhabited V]

omit [Inhabited V] in
theorem mem_foldl_memTableAdd {es : List (Entry K V)} {mem : List (Entry K V)} {e : Entry K V} :
    e ∈ es.foldl memTableAdd mem ↔ e ∈ mem ∨ e ∈ es := by
  induction es generalizing mem with
  | nil => simp
  | cons x es ih =>
    rw [List.foldl_cons, ih, mem_memTableAdd, List.mem_cons]
    tauto

theorem record_spec (F : Formats K V β) (o : OpenOptions K V) (r : Replay K V β) (batch : ℕ × List (Op K V)) :
    r.Extends (r.record F o batch) ∧ (r.record F o batch).reused = r.reused ∧
      r.held ∪ {e | e ∈ batchEntries batch.1 batch.2} ⊆ (r.record F o batch).held := by
  set mem := insertInto (r.mem.getD []) batch with hmem
  let r₁ : Replay K V β := { r with mem := some mem, maxSequence := max r.maxSequence (batch.1 + batch.2.length - 1) }
  have hheld : r.held ∪ {e | e ∈ batchEntries batch.1 batch.2} ⊆ r₁.held := by
    rintro e ((⟨f, hf, he⟩ | he) | he)
    · exact .inl ⟨f, hf, he⟩
    · exact .inr (mem_foldl_memTableAdd.mpr (.inl he))
    · exact .inr (mem_foldl_memTableAdd.mpr (.inr he))
  unfold record
  dsimp only
  split_ifs
  · refine ⟨?_, rfl, hheld.trans (@held_writeLevel0Table K V β F o r₁ mem rfl)⟩
    have hext := extends_writeLevel0Table F o r₁ mem
    exact ⟨hext.files, hext.nextFileNumber_le, hext.saveManifest, hext.calls⟩
  · exact ⟨⟨fun _ hf => hf, le_rfl, fun h => ⟨h, rfl⟩, [], by simp, by simp⟩, rfl, hheld⟩

theorem foldl_record_spec (batches : List (ℕ × List (Op K V))) (r : Replay K V β) :
    r.Extends (batches.foldl (Replay.record F o) r) ∧ (batches.foldl (Replay.record F o) r).reused = r.reused ∧
      r.held ∪ {e | ∃ batch ∈ batches, e ∈ batchEntries batch.1 batch.2} ⊆
        (batches.foldl (Replay.record F o) r).held := by
  induction batches generalizing r with
  | nil => exact ⟨.refl r, rfl, by simp⟩
  | cons batch batches ih =>
    obtain ⟨hext, hreused, hheld⟩ := record_spec F o r batch
    obtain ⟨hext', hreused', hheld'⟩ := ih (r.record F o batch)
    refine ⟨hext.trans hext', hreused'.trans hreused, ?_⟩
    rintro e (he | ⟨b, hb, he⟩)
    · exact hheld' (.inl (hheld (.inl he)))
    · rcases List.mem_cons.mp hb with rfl | hb
      · exact hheld' (.inl (hheld (.inr he)))
      · exact hheld' (.inr ⟨b, hb, he⟩)

omit [LinearOrder K] [Inhabited V] in
/-- The end of a log: all is in tables, or the log is reused with its memtable. -/
theorem endOfLog_spec (F : Formats K V β) (o : OpenOptions K V) (n : ℕ) (lastLog : Bool) (r : Replay K V β)
    (hreused : r.reused = none) :
    r.Extends (r.endOfLog F o n lastLog) ∧ (r.endOfLog F o n lastLog).mem = none ∧
      (lastLog = false → (r.endOfLog F o n lastLog).reused = none) ∧
      (∀ log ∈ (r.endOfLog F o n lastLog).reused, log.1 = n) ∧
      ∀ e ∈ r.held, e ∈ (r.endOfLog F o n lastLog).held ∨ ∃ log ∈ (r.endOfLog F o n lastLog).reused, e ∈ log.2 := by
  unfold endOfLog
  split_ifs with hreuse
  · refine ⟨⟨fun _ hf => hf, le_rfl, fun h => ⟨h, rfl⟩, [], by simp, by simp⟩, rfl, fun hlast => ?_, ?_, ?_⟩
    · rw [hlast] at hreuse
      exact absurd hreuse.2.1 (by simp)
    · rintro log ⟨⟩
      rfl
    · rintro e (he | he)
      · exact .inl (.inl he)
      · exact .inr ⟨_, rfl, he⟩
  · cases hmem : r.mem with
    | none => exact ⟨.refl r, hmem, fun _ => hreused, by simp [hreused], fun e he => .inl he⟩
    | some mem =>
      have hreused' : (r.writeLevel0Table F o mem).reused = none := hreused
      exact ⟨extends_writeLevel0Table F o r mem, rfl, fun _ => hreused', by simp [hreused'],
        fun e he => .inl (held_writeLevel0Table hmem he)⟩

theorem logFile_spec (F : Formats K V β) (o : OpenOptions K V) (d : Disk β) (lastLog : Option ℕ) (n : ℕ)
    (hreused : r.reused = none) :
    r.Extends (r.logFile F o d lastLog n) ∧ (r.logFile F o d lastLog n).mem = none ∧
      (lastLog ≠ some n → (r.logFile F o d lastLog n).reused = none) ∧
      (∀ log ∈ (r.logFile F o d lastLog n).reused, log.1 = n) ∧ n < (r.logFile F o d lastLog n).nextFileNumber ∧
      ∀ e, e ∈ r.held ∨ (∃ batch ∈ F.readLog d n, e ∈ batchEntries batch.1 batch.2) →
        e ∈ (r.logFile F o d lastLog n).held ∨ ∃ log ∈ (r.logFile F o d lastLog n).reused, e ∈ log.2 := by
  let r₀ : Replay K V β := { r with compactions := 0 }
  obtain ⟨hext, hreused₁, hheld⟩ := foldl_record_spec (F := F) (o := o) (F.readLog d n) r₀
  obtain ⟨hext₁, hmem₂, hlast, hlog, hheld₁⟩ := endOfLog_spec F o n (lastLog = some n)
    ((F.readLog d n).foldl (Replay.record F o) r₀) (hreused₁.trans hreused)
  obtain ⟨hfiles, hnext, hsave, more, hcalls, hmore⟩ := hext.trans hext₁
  refine ⟨⟨hfiles, hnext.trans (le_max_left _ _), hsave, more, hcalls, fun c hc name hw => ?_⟩, hmem₂,
    fun hne => hlast (by simp [hne]), hlog, Nat.lt_of_succ_le (le_max_right _ _), fun e he => ?_⟩
  · obtain ⟨m, hm, hle, hlt⟩ := hmore c hc name hw
    exact ⟨m, hm, hle, hlt.trans_le (le_max_left _ _)⟩
  · exact hheld₁ e (hheld he)

theorem foldl_logFile_spec (lastLog : Option ℕ) (ns : List ℕ) (hns : ∀ n ∈ ns, lastLog ≠ some n) (hmem : r.mem = none)
    (hreused : r.reused = none) :
    r.Extends (ns.foldl (Replay.logFile F o d lastLog) r) ∧ (ns.foldl (Replay.logFile F o d lastLog) r).mem = none ∧
      (ns.foldl (Replay.logFile F o d lastLog) r).reused = none ∧
      ∀ e, e ∈ r.held ∨ (∃ n ∈ ns, ∃ batch ∈ F.readLog d n, e ∈ batchEntries batch.1 batch.2) →
        e ∈ (ns.foldl (Replay.logFile F o d lastLog) r).held := by
  induction ns generalizing r with
  | nil => exact ⟨.refl r, hmem, hreused, by simp⟩
  | cons n ns ih =>
    obtain ⟨hext, hmem', hlast, -, -, hheld⟩ := logFile_spec F o d lastLog n hreused
    have hreused' := hlast (hns n List.mem_cons_self)
    obtain ⟨hext', hmem'', hreused'', hheld'⟩ := ih (fun m hm => hns m (List.mem_cons_of_mem n hm)) hmem' hreused'
    have hkeep : ∀ e, e ∈ r.held ∨ (∃ batch ∈ F.readLog d n, e ∈ batchEntries batch.1 batch.2) →
        e ∈ (r.logFile F o d lastLog n).held := fun e he => by
      simpa [hreused'] using hheld e he
    refine ⟨hext.trans hext', hmem'', hreused'', ?_⟩
    rintro e (he | ⟨m, hm, he⟩)
    · exact hheld' e (.inl (hkeep e (.inl he)))
    · rcases List.mem_cons.mp hm with rfl | hm
      · exact hheld' e (.inl (hkeep e (.inr he)))
      · exact hheld' e (.inr ⟨m, hm, he⟩)

end Replay

/-! ### All logs -/

omit [LinearOrder K] in
theorem mem_logsToRecover {n minLog prevLog : ℕ} :
    n ∈ logsToRecover d minLog prevLog ↔ FileName.log n ∈ d.children ∧ (minLog ≤ n ∨ n = prevLog) := by
  simp only [logsToRecover, List.mem_insertionSort, List.mem_filterMap]
  constructor
  · rintro ⟨name, hname, heq⟩
    split at heq
    next m =>
      obtain ⟨hm, ⟨⟩⟩ := Option.ite_none_right_eq_some.mp heq
      exact ⟨hname, hm⟩
    · cases heq
  · rintro ⟨hname, hn⟩
    exact ⟨.log n, hname, by simp [hn]⟩

omit [LinearOrder K] in
theorem nodup_logsToRecover (d : Disk β) (minLog prevLog : ℕ) : (logsToRecover d minLog prevLog).Nodup := by
  refine (List.perm_insertionSort _ _).nodup_iff.mpr (d.nodup.filterMap ?_)
  intro a b n ha hb
  split at ha
  next m =>
    split at hb
    next m' =>
      obtain ⟨-, ⟨⟩⟩ := Option.ite_none_right_eq_some.mp ha
      obtain ⟨-, ⟨⟩⟩ := Option.ite_none_right_eq_some.mp hb
      rfl
    · cases hb
  · cases ha

/-- All logs: every entry is in a table, or in the memtable of the log that is reused. -/
theorem replayLogs_spec [Inhabited V] (F : Formats K V β) (o : OpenOptions K V) (d : Disk β) (vs : VersionSet K V)
    (save : Bool) :
    (⟨none, 0, [], vs.nextFileNumber, 0, save, none, []⟩ : Replay K V β).Extends (replayLogs F o d vs save) ∧
      (∀ log ∈ (replayLogs F o d vs save).reused,
        log.1 ∈ logsToRecover d vs.logNumber vs.prevLogNumber ∧ log.1 < (replayLogs F o d vs save).nextFileNumber) ∧
      ∀ n ∈ logsToRecover d vs.logNumber vs.prevLogNumber, ∀ batch ∈ F.readLog d n, ∀ e ∈ batchEntries batch.1 batch.2,
        (∃ f ∈ (replayLogs F o d vs save).files, e ∈ f.table) ∨
          ∃ log ∈ (replayLogs F o d vs save).reused, log.1 = n ∧ e ∈ log.2 := by
  set r₀ : Replay K V β := ⟨none, 0, [], vs.nextFileNumber, 0, save, none, []⟩ with hr₀
  have hnodup := nodup_logsToRecover d vs.logNumber vs.prevLogNumber
  have hreplay : replayLogs F o d vs save = (logsToRecover d vs.logNumber vs.prevLogNumber).foldl
    (Replay.logFile F o d (logsToRecover d vs.logNumber vs.prevLogNumber).getLast?) r₀ := rfl
  rw [hreplay]
  rcases List.eq_nil_or_concat (logsToRecover d vs.logNumber vs.prevLogNumber) with hlogs | ⟨ns, n, hlogs⟩
  · rw [hlogs]
    exact ⟨.refl r₀, by simp [hr₀], by simp⟩
  · rw [hlogs] at hnodup ⊢
    rw [List.concat_eq_append] at hnodup ⊢
    have hne : ∀ m ∈ ns, (ns ++ [n]).getLast? ≠ some m := by
      intro m hm heq
      rw [List.getLast?_concat, Option.some.injEq] at heq
      exact (List.nodup_append.mp hnodup).2.2 m hm n (List.mem_singleton_self n) heq.symm
    -- the logs before the last are not reused
    obtain ⟨hext, hmem, hreused, hheld⟩ := Replay.foldl_logFile_spec (F := F) (o := o) (d := d) (r := r₀) _ ns hne rfl rfl
    obtain ⟨hext', hmem', -, hlog, hlt, hheld'⟩ := Replay.logFile_spec F o d (ns ++ [n]).getLast? n hreused
    rw [List.foldl_append, List.foldl_cons, List.foldl_nil]
    refine ⟨hext.trans hext', fun log hl => ⟨by simp [hlog log hl], hlog log hl ▸ hlt⟩, fun m hm batch hb e he => ?_⟩
    rcases List.mem_append.mp hm with hm | hm
    · obtain ⟨f, hf, hef⟩ := Replay.held_of_mem_none hmem (hheld e (.inr ⟨m, hm, batch, hb, he⟩))
      exact .inl ⟨f, hext'.files f hf, hef⟩
    · rw [List.mem_singleton.mp hm] at hb ⊢
      rcases hheld' e (.inr ⟨batch, hb, he⟩) with hin | ⟨log, hl, hel⟩
      · exact .inl (Replay.held_of_mem_none hmem' hin)
      · exact .inr ⟨log, hl, hlog log hl, hel⟩

/-- The number of the log is one that was given out. -/
theorem logfileNumber_lt_nextFile [Inhabited V] (F : Formats K V β) (o : OpenOptions K V) (d : Disk β)
    (vs : VersionSet K V) (save : Bool) :
    (replayLogs F o d vs save).logfileNumber < (replayLogs F o d vs save).nextFile := by
  obtain ⟨-, hreused, -⟩ := replayLogs_spec F o d vs save
  cases hlog : (replayLogs F o d vs save).reused with
  | none => simp [Replay.logfileNumber, Replay.nextFile, hlog]
  | some log => simpa [Replay.logfileNumber, Replay.nextFile, hlog] using (hreused log hlog).2

/-- The calls of the replay write nothing but tables with new numbers. -/
theorem writes_replayLogs [Inhabited V] {vs : VersionSet K V} {save : Bool} {c : EnvCall β} {name : FileName}
    (hc : c ∈ (replayLogs F o d vs save).calls) (hw : c.Writes name) :
    ∃ n, name = .table n ∧ vs.nextFileNumber ≤ n ∧ n < (replayLogs F o d vs save).nextFileNumber := by
  obtain ⟨hext, -, -⟩ := replayLogs_spec F o d vs save
  obtain ⟨more, hcalls, hmore⟩ := hext.calls
  rw [hcalls, List.nil_append] at hc
  exact hmore c hc name hw

end TLevelDB.Db
