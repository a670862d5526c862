import TLevelDB.Db.Outputs
import TLevelDB.Db.Replay

/-!
# Obsolete files

`RemoveObsoleteFiles` lists the files to remove while it holds the mutex, and removes them
after it has given it up. It runs at the end of `DB::Open`, of a flush, which may be one in the
loop of a compaction, and of a compaction. Writers and readers go on meanwhile.

A file that is removed is not needed then (`DBRun.unneeded_of_remove`): no version that is in
use has the table, no flush or compaction is still to install it, what the log has is in tables,
and CURRENT names another MANIFEST. For logs this rests on numbers: the log number of the version
set is that of the log of the memtable, or of the one before while a memtable waits. A process
keeps it so if it finds it so: the log number in the MANIFEST must be one that was given out,
as `LogAndApply` asserts.
-/

namespace TLevelDB.Db

open TLevelDB.Storage

variable {K V β : Type} [LinearOrder K]

/-! ### Needed files -/

namespace Process

section

omit [LinearOrder K]

/-- The numbers of the tables that a flush or a compaction makes and has not installed. -/
def uninstalled (p : Process K V β) : List ℕ := p.outputs ++ if p.isFlushing then [p.db.nextFileNumber] else []

/-- The file of this name is not needed. -/
def Unneeded (F : Formats K V β) (p : Process K V β) (d : Disk β) (l : Ledger K V) : FileName → Prop
  | .table n => n ∉ p.uninstalled ∧ ∀ v ∈ p.referenced, ∀ level < kNumLevels, ∀ f ∈ v.files level, f.number ≠ n
  -- an update may also have been in a table and have been replaced by a compaction since
  | .log n => n ≠ p.logfileNumber ∧ ∀ e, (n, e) ∈ l.updates → e ∈ p.db.version.entries ∨ e ∈ l.replaced
  | .descriptor n => F.currentManifest d ≠ some n
  | .temp _ => True
  | .current => False

/-- `RemoveObsoleteFiles` keeps the log of this number. -/
def KeepsLog (p : Process K V β) (n : ℕ) : Prop := p.logNumber ≤ n ∨ n = p.prevLogNumber

/-- `RemoveObsoleteFiles` keeps the file of this name. -/
def keeps (p : Process K V β) (name : FileName) : Bool :=
  keepFile p.live p.logNumber p.prevLogNumber p.manifestFileNumber name

end

end Process

/-- The log number in the MANIFEST is one that was given out. -/
def Formats.LogNumberUsed (F : Formats K V β) (d : Disk β) : Prop :=
  ∀ vs, F.readManifest d = some vs → vs.logNumber < vs.nextFileNumber

section

variable {F : Formats K V β} {o : Options K V} {p p' : Process K V β} {d d' : Disk β} {ev : Event K V} {l : Ledger K V}

/-! ### Logs -/

/-- The updates that are not in tables are in a memtable, and its log is kept. -/
structure LogInv (p : Process K V β) (l : Ledger K V) : Prop where
  updates : ∀ u ∈ l.updates, (u.2 ∈ p.db.version.entries ∨ u.2 ∈ l.replaced) ∨
    (u.1 = p.logfileNumber ∧ u.2 ∈ p.db.mem ∨ u.2 ∈ p.db.imm.getD []) ∧ p.KeepsLog u.1
  logfile : p.KeepsLog p.logfileNumber
  logNumber_lt : p.logNumber < p.db.nextFileNumber
  logfileNumber_lt : p.logfileNumber < p.db.nextFileNumber

section

omit [LinearOrder K]

/-- What was in tables is there or was replaced. -/
theorem Ledger.after_installed (ev : Event K V) (p' : Process K V β) {e : Entry K V}
    (h : e ∈ p.db.version.entries ∨ e ∈ l.replaced) :
    e ∈ p'.db.version.entries ∨ e ∈ (l.after p ev p').replaced := by
  by_cases he : e ∈ p'.db.version.entries
  · exact .inl he
  · rcases h with h | h
    · exact .inr (.inr ⟨h, he⟩)
    · exact .inr (.inl h)

theorem Ledger.after_updates (hev : ev ≠ .insert) : (l.after p ev p').updates = l.updates := by
  simp [Ledger.after, hev]

/-- An event that leaves the memtables and the log numbers as they are. -/
theorem LogInv.congr (h : LogInv p l) (hev : ev ≠ .insert) (hmem : p'.db.mem = p.db.mem) (himm : p'.db.imm = p.db.imm)
    (hlogfile : p'.logfileNumber = p.logfileNumber) (hlog : p'.logNumber = p.logNumber)
    (hprev : p'.prevLogNumber = p.prevLogNumber) (hnext : p.db.nextFileNumber ≤ p'.db.nextFileNumber) :
    LogInv p' (l.after p ev p') := by
  have hkeeps : ∀ n, p'.KeepsLog n ↔ p.KeepsLog n := fun n => by rw [Process.KeepsLog, Process.KeepsLog, hlog, hprev]
  refine ⟨fun u hu => ?_, ?_, hlog ▸ h.logNumber_lt.trans_le hnext, hlogfile ▸ h.logfileNumber_lt.trans_le hnext⟩
  · rw [Ledger.after_updates hev] at hu
    rw [hmem, himm, hlogfile, hkeeps]
    exact (h.updates u hu).imp_left (Ledger.after_installed ev p')
  · rw [hlogfile, hkeeps]
    exact h.logfile

end

variable [Inhabited V]

/-- An operation is inserted after it was logged in the current log. -/
theorem LogInv.insert {db : DBState K V} (h : LogInv p l) (ht : Transition o p.db .insert db) :
    LogInv { p with db := db } (l.after p .insert { p with db := db }) := by
  cases ht with
  | @insert batch i op hw hop =>
    refine ⟨fun u hu => ?_, h.logfile, h.logNumber_lt, h.logfileNumber_lt⟩
    rcases hu with hu | ⟨-, hlog, hmem⟩
    · refine (h.updates u hu).imp (Ledger.after_installed _ _) fun hin => ⟨hin.1.imp_left fun hm => ?_, hin.2⟩
      exact ⟨hm.1, mem_memTableAdd.mpr (.inr hm.2)⟩
    · refine .inr ⟨.inl ⟨hlog, hmem⟩, ?_⟩
      rw [hlog]
      exact h.logfile

omit [LinearOrder K] [Inhabited V] in
/-- The memtable waits to be flushed; the log is a new one. -/
theorem LogInv.switchMem {closed : Bool} (h : LogInv p l) (himm : p.db.imm = none)
    (hp' : p' = { p with
      db := { p.db with mem := [], imm := some p.db.mem, nextFileNumber := p.db.nextFileNumber + 1 }
      logfileNumber := p.db.nextFileNumber
      logOffset := 0
      bgError := !closed }) : LogInv p' (l.after p (.switchMem closed) p') := by
  subst hp'
  refine ⟨fun u hu => ?_, .inl h.logNumber_lt.le, Nat.lt_succ_of_lt h.logNumber_lt, Nat.lt_succ_self _⟩
  rw [Ledger.after_updates (by simp)] at hu
  refine (h.updates u hu).imp (Ledger.after_installed _ _) fun hin => ⟨.inr ?_, hin.2⟩
  simpa [himm] using hin.1.imp_left And.right

omit [Inhabited V] in
theorem mem_entries_compactMemTable {st : DBState K V} {imm : List (Entry K V)} {e : Entry K V} (he : e ∈ imm) :
    e ∈ (st.compactMemTable o imm).version.entries := by
  obtain ⟨f, hf, hef⟩ := mem_buildTable he o st.nextFileNumber
  simp only [DBState.compactMemTable, hf, DBState.logAndApply]
  exact ⟨_, f, mem_addFile_iff.mpr (.inr ⟨rfl, rfl⟩), hef⟩

omit [Inhabited V] in
/-- A flush is installed: the log number is that of the current log. -/
theorem LogInv.applyFlush {imm : List (Entry K V)} (h : LogInv p l) (himm : p.db.imm = some imm)
    (hdb : p'.db = p.db.compactMemTable o imm) (hlogfile : p'.logfileNumber = p.logfileNumber)
    (hlog : p'.logNumber = p.logfileNumber) : LogInv p' (l.after p .applyEdit p') := by
  have hnext : p.db.nextFileNumber < p'.db.nextFileNumber := by
    rw [hdb, (compactMemTable_frame ..).2.1]
    exact Nat.lt_succ_self _
  refine ⟨fun u hu => ?_, .inl (by rw [hlog, hlogfile]), hlog ▸ h.logfileNumber_lt.trans hnext,
    hlogfile ▸ h.logfileNumber_lt.trans hnext⟩
  rw [Ledger.after_updates (by simp)] at hu
  rcases h.updates u hu with hin | ⟨⟨hn, hm⟩ | hi, -⟩
  · exact .inl (Ledger.after_installed _ _ hin)
  · refine .inr ⟨.inl ⟨hn.trans hlogfile.symm, ?_⟩, .inl ?_⟩
    · rwa [hdb, (compactMemTable_frame ..).2.2.1]
    · rw [hlog, hn]
  · rw [himm, Option.getD_some] at hi
    exact .inl (.inl (hdb ▸ mem_entries_compactMemTable hi))

theorem LogInv.step (h : LogInv p l) (hstep : ProcessStep F o p d ev p' d') : LogInv p' (l.after p ev p') := by
  have hsame : ∀ {p' : Process K V β}, ev ≠ .insert → p.SameData p' → LogInv p' (l.after p ev p') := fun hev hs =>
    h.congr hev hs.mem hs.imm hs.logfileNumber hs.logNumber hs.prevLogNumber hs.nextFileNumber_le
  cases hstep with
  | beginWrite | writerCall | writerPart | appendFail | syncFail | ref | unref | call | part | removeFail | flush | install =>
    exact h.congr (by simp) rfl rfl rfl rfl rfl le_rfl
  | endWrite _ ht | newSnapshot ht | releaseSnapshot ht | start _ _ _ ht | manual _ _ _ ht =>
    cases ht
    exact h.congr (by simp) rfl rfl rfl rfl rfl le_rfl
  | turn _ _ hcs hturn => exact h.congr (by simp) rfl rfl rfl rfl rfl (next_turn hturn).1
  | insert _ ht => exact h.insert ht
  | switchMem _ _ himm => exact h.switchMem himm rfl
  | move => exact h.congr (by simp) rfl rfl rfl rfl rfl le_rfl
  | logEdit => exact hsame (by simp) (p.sameData_beginLog _ _ _)
  | callFail | abort => exact hsame (by simp) (p.sameData_failJob _)
  | @applyEdit job db applied hphase _ ht happlied =>
    subst happlied
    cases job with
    | flush => cases ht with
      | flush himm => exact h.applyFlush himm rfl rfl rfl
    | move reason => cases ht with
      | move => exact h.congr (by simp) rfl rfl rfl rfl rfl le_rfl
    | install => cases ht with
      | install => exact h.congr (by simp) rfl rfl rfl rfl rfl le_rfl

/-! ### CURRENT -/

omit [LinearOrder K] [Inhabited V] in
theorem currentManifest_exec {c : EnvCall β} (hc : ¬ c.Writes .current) :
    F.currentManifest (d.exec c) = F.currentManifest d := by
  rw [Formats.currentManifest, Dir.bytes, Dir.get_exec_of_not_writes hc]
  rfl

omit [LinearOrder K] [Inhabited V] in
/-- A part of an append. -/
theorem currentManifest_append {n : FileName} {bs : List β} (hc : ¬ (Call.append n bs).Writes FileName.current)
    (part : List β) : F.currentManifest (d.exec (.append n part)) = F.currentManifest d :=
  currentManifest_exec (c := .append n part) hc

/-- CURRENT names the MANIFEST of the process, and no call touches it. -/
structure CurrentInv (F : Formats K V β) (p : Process K V β) (d : Disk β) : Prop where
  current : F.currentManifest d = some p.manifestFileNumber
  calls : ∀ c ∈ p.calls, ¬ c.Writes .current
  writerCalls : ∀ c ∈ p.writerCalls, ¬ c.Writes .current

section

omit [LinearOrder K] [Inhabited V]

/-- Only files that are not kept are removed. -/
theorem keeps_of_mem_obsoleteCalls {name : FileName} (h : .remove name ∈ p.obsoleteCalls d) : p.keeps name = false := by
  unfold Process.obsoleteCalls at h
  split_ifs at h
  · cases h
  · obtain ⟨n, hn, heq⟩ := List.mem_map.mp h
    cases heq
    simpa [Process.keeps] using (List.mem_filter.mp hn).2

variable {c : EnvCall β}

theorem obsoleteCalls_removes (h : c ∈ p.obsoleteCalls d) : ∃ name, c = .remove name := by
  unfold Process.obsoleteCalls at h
  split_ifs at h
  · cases h
  · obtain ⟨n, -, rfl⟩ := List.mem_map.mp h
    exact ⟨n, rfl⟩

theorem not_writes_obsoleteCalls (h : c ∈ p.obsoleteCalls d) : ¬ c.Writes .current := by
  obtain ⟨name, rfl⟩ := obsoleteCalls_removes h
  rintro rfl
  exact absurd (keeps_of_mem_obsoleteCalls h) (by simp [Process.keeps, keepFile])

theorem mem_obsoleteCalls_of_removeCalls {job : Job K V} (h : c ∈ p.removeCalls d job) :
    c ∈ p.obsoleteCalls d := by
  cases job with
  | move => cases h
  | flush => exact h
  | install => exact h

/-- What a call that fails leaves behind. -/
theorem currentManifest_failed {k : ℕ} {removed : Bool} (hc : ¬ c.Writes .current) :
    F.currentManifest (p.removeUnfinished (failCall d k c) removed) = F.currentManifest d := by
  have hfail : F.currentManifest (failCall d k c) = F.currentManifest d := by
    cases c with
    | append n bs => exact currentManifest_append hc _
    | _ => rfl
  unfold Process.removeUnfinished
  split
  · split_ifs
    · rw [currentManifest_exec (by simp [Call.Writes]), hfail]
    · exact hfail
  · exact hfail

theorem currentManifest_removeUnfinished {removed : Bool} :
    F.currentManifest (p.removeUnfinished d removed) = F.currentManifest d :=
  currentManifest_failed (c := .create (.table 0)) (k := 0) (by simp [Call.Writes])

end

theorem CurrentInv.step (h : CurrentInv F p d) (hstep : ProcessStep F o p d ev p' d') : CurrentInv F p' d' := by
  obtain ⟨hcurrent, hcalls, hwriter⟩ := h
  cases hstep with
  | @beginWrite batch sync record _ _ hrecord =>
    refine ⟨hcurrent, hcalls, ?_⟩
    cases sync <;> simp [Call.Writes]
  | writerCall heq =>
    rw [heq, List.forall_mem_cons] at hwriter
    exact ⟨(currentManifest_exec hwriter.1).trans hcurrent, hcalls, hwriter.2⟩
  | writerPart heq =>
    rw [heq, List.forall_mem_cons] at hwriter
    exact ⟨(currentManifest_append hwriter.1 _).trans hcurrent, hcalls, List.forall_mem_cons.mpr hwriter⟩
  | appendFail _ heq =>
    rw [heq, List.forall_mem_cons] at hwriter
    exact ⟨(currentManifest_append hwriter.1 _).trans hcurrent, hcalls, by simp⟩
  | syncFail => exact ⟨hcurrent, hcalls, by simp⟩
  | insert | endWrite | newSnapshot | releaseSnapshot | ref | unref | start | manual =>
    exact ⟨hcurrent, hcalls, hwriter⟩
  | switchMem => exact ⟨(currentManifest_exec (by simp [Call.Writes])).trans hcurrent, hcalls, hwriter⟩
  | turn _ _ _ hturn =>
    refine ⟨hcurrent, fun c hc hw => ?_, hwriter⟩
    obtain ⟨n, -, hn⟩ := writes_turnCalls hturn hc hw
    cases hn
  | flush =>
    refine ⟨hcurrent, fun c hc hw => ?_, hwriter⟩
    cases writes_buildTableCalls hc hw
  | install =>
    refine ⟨hcurrent, fun c hc hw => ?_, hwriter⟩
    obtain ⟨n, -, hn⟩ := writes_finishOutputCalls hc hw
    cases hn
  | move => exact ⟨hcurrent, by simp [Process.beginLog, Call.Writes], hwriter⟩
  | logEdit =>
    obtain ⟨-, -, -, -, -, -, -, hmanifest, hcalls', -⟩ := p.sameData_beginLog _ F _
    exact ⟨hmanifest ▸ hcurrent, by simp [Process.beginLog, Call.Writes], hcalls' ▸ hwriter⟩
  | @applyEdit job db applied _ _ _ happlied =>
    refine ⟨?_, fun c hc => not_writes_obsoleteCalls (mem_obsoleteCalls_of_removeCalls hc), ?_⟩
    · subst happlied
      cases job <;> exact hcurrent
    · subst happlied
      cases job <;> exact hwriter
  | call heq =>
    rw [heq, List.forall_mem_cons] at hcalls
    exact ⟨(currentManifest_exec hcalls.1).trans hcurrent, hcalls.2, hwriter⟩
  | part heq =>
    rw [heq, List.forall_mem_cons] at hcalls
    exact ⟨(currentManifest_append hcalls.1 _).trans hcurrent, List.forall_mem_cons.mpr hcalls, hwriter⟩
  | removeFail heq =>
    rw [heq, List.forall_mem_cons] at hcalls
    exact ⟨hcurrent, hcalls.2, hwriter⟩
  | @callFail k offset _ c _ heq =>
    rw [heq, List.forall_mem_cons] at hcalls
    have hsame := p.sameData_failJob offset
    refine ⟨?_, by simp, hsame.writerCalls ▸ hwriter⟩
    rw [currentManifest_failed hcalls.1, hsame.manifestFileNumber]
    exact hcurrent
  | abort =>
    have hsame := p.sameData_failJob p.manifestOffset
    refine ⟨?_, by simp, hsame.writerCalls ▸ hwriter⟩
    rw [currentManifest_removeUnfinished, hsame.manifestFileNumber]
    exact hcurrent

/-! ### Tables -/

/-- What is still to be removed is not kept, and the outputs of a compaction are pending. -/
structure LiveInv (p : Process K V β) : Prop where
  removals : p.phase = .idle → ∀ name, .remove name ∈ p.calls → p.keeps name = false
  outputs : ∀ n ∈ p.outputs, n ∈ p.pendingOutputs
  outputs_lt : ∀ n ∈ p.outputs, n < p.db.nextFileNumber

section

omit [LinearOrder K] [Inhabited V]

theorem keeps_of_live {name : FileName} (h : p.keeps name = false) (hlive : ∀ n ∈ p'.live, n ∈ p.live)
    (hlog : p'.logNumber = p.logNumber) (hprev : p'.prevLogNumber = p.prevLogNumber)
    (hmanifest : p'.manifestFileNumber = p.manifestFileNumber) : p'.keeps name = false := by
  unfold Process.keeps at h ⊢
  rw [hlog, hprev, hmanifest]
  cases name with
  | table n => simpa [keepFile] using fun hn => (by simpa [keepFile] using h : n ∉ p.live) (hlive n hn)
  | temp n => simpa [keepFile] using fun hn => (by simpa [keepFile] using h : n ∉ p.live) (hlive n hn)
  | log n => exact h
  | descriptor n => exact h
  | current => exact h

/-- An event that leaves the background thread as it is, while no more files are live. -/
theorem LiveInv.congr (h : LiveInv p) (hphase : p'.phase = p.phase)
    (hcalls : ∀ name, .remove name ∈ p'.calls → .remove name ∈ p.calls) (hcomp : p'.db.compaction = p.db.compaction)
    (hpending : p'.pendingOutputs = p.pendingOutputs) (hversion : p'.db.version = p.db.version)
    (hreaders : ∀ v ∈ p'.readers, v = p.db.version ∨ v ∈ p.readers) (hlog : p'.logNumber = p.logNumber)
    (hprev : p'.prevLogNumber = p.prevLogNumber) (hmanifest : p'.manifestFileNumber = p.manifestFileNumber)
    (hnext : p.db.nextFileNumber ≤ p'.db.nextFileNumber) : LiveInv p' := by
  have hout : p'.outputs = p.outputs := by rw [Process.outputs, hcomp]; rfl
  have hlive : ∀ n ∈ p'.live, n ∈ p.live := by
    intro n hn
    simp only [Process.live, Process.referenced, hpending, hversion, hcomp, List.mem_append, List.flatMap_cons,
      List.flatMap_append, List.mem_flatMap] at hn ⊢
    rcases hn with hn | hn | ⟨v, hv, hn⟩ | hn
    · exact .inl hn
    · exact .inr (.inl hn)
    · rcases hreaders v hv with rfl | hv
      · exact .inr (.inl hn)
      · exact .inr (.inr (.inl ⟨v, hv, hn⟩))
    · exact .inr (.inr (.inr hn))
  refine ⟨fun hidle name hname => ?_, fun n hn => ?_, fun n hn => ?_⟩
  · exact keeps_of_live (h.removals (hphase ▸ hidle) name (hcalls name hname)) hlive hlog hprev hmanifest
  · rw [hpending]
    exact h.outputs n (hout ▸ hn)
  · exact (h.outputs_lt n (hout ▸ hn)).trans_le hnext

/-- The number of a flushed table leaves `pending_outputs_`; the outputs of a compaction stay. -/
theorem LiveInv.mem_erasePending (h : LiveInv p) {n : ℕ} (hn : n ∈ p.outputs) :
    n ∈ (p.erasePending [p.db.nextFileNumber]).pendingOutputs := by
  refine List.mem_filter.mpr ⟨h.outputs n hn, ?_⟩
  simpa using (h.outputs_lt n hn).ne

/-- A job fails; nothing is removed. -/
theorem LiveInv.failJob (h : LiveInv p) (offset : ℕ) : LiveInv (p.failJob offset) := by
  unfold Process.failJob
  split
  case h_1 | h_3 | h_6 =>
    -- the compaction ends
    exact ⟨nofun, nofun, nofun⟩
  case h_2 | h_4 =>
    exact ⟨nofun, fun n hn => h.mem_erasePending hn, fun n hn => Nat.lt_succ_of_lt (h.outputs_lt n hn)⟩
  case h_5 => exact ⟨nofun, h.outputs, h.outputs_lt⟩

/-- While a job is going on nothing is removed. -/
theorem LiveInv.of_busy (hphase : p.phase ≠ .idle) (houtputs : ∀ n ∈ p.outputs, n ∈ p.pendingOutputs)
    (hlt : ∀ n ∈ p.outputs, n < p.db.nextFileNumber) : LiveInv p :=
  ⟨fun hidle => absurd hidle hphase, houtputs, hlt⟩

end

theorem LiveInv.step (h : LiveInv p) (hstep : ProcessStep F o p d ev p' d') : LiveInv p' := by
  cases hstep with
  | beginWrite | writerCall | writerPart | appendFail | syncFail =>
    exact h.congr rfl (fun _ hr => hr) rfl rfl rfl (fun _ hv => .inr hv) rfl rfl rfl le_rfl
  | insert _ ht | endWrite _ ht | newSnapshot ht | releaseSnapshot ht =>
    cases ht
    exact h.congr rfl (fun _ hr => hr) rfl rfl rfl (fun _ hv => .inr hv) rfl rfl rfl le_rfl
  | switchMem =>
    exact h.congr rfl (fun _ hr => hr) rfl rfl rfl (fun _ hv => .inr hv) rfl rfl rfl (Nat.le_succ _)
  | ref =>
    refine h.congr rfl (fun _ hr => hr) rfl rfl rfl (fun v hv => ?_) rfl rfl rfl le_rfl
    simpa [or_comm] using hv
  | unref =>
    exact h.congr rfl (fun _ hr => hr) rfl rfl rfl (fun v hv => .inr (List.mem_of_mem_eraseIdx hv)) rfl rfl rfl le_rfl
  | call heq | removeFail heq =>
    refine h.congr rfl (fun name hr => ?_) rfl rfl rfl (fun _ hv => .inr hv) rfl rfl rfl le_rfl
    rw [heq]
    exact List.mem_cons_of_mem _ hr
  | part heq =>
    refine h.congr rfl (fun name hr => ?_) rfl rfl rfl (fun _ hv => .inr hv) rfl rfl rfl le_rfl
    rw [heq]
    simpa using hr
  | start hcalls _ _ ht | manual hcalls _ _ ht =>
    -- a compaction begins without outputs
    cases ht
    exact ⟨by simp [hcalls], by simp [Process.outputs, DBState.startCompaction, Compaction.start,
      CompactionState.outputNumbers], by simp [Process.outputs, DBState.startCompaction, Compaction.start,
      CompactionState.outputNumbers]⟩
  | @turn cs r _ _ hcs hturn =>
    have hold : p.outputs = cs.outputNumbers := by rw [Process.outputs, hcs]; rfl
    obtain ⟨hle, hnum⟩ := next_turn hturn
    refine ⟨fun _ name hr => ?_, fun n hn => List.mem_append_right _ hn, fun n hn => ?_⟩
    · exact absurd hr turnCalls_not_remove
    · rcases hnum n hn with hn | ⟨-, hlt⟩
      · exact (h.outputs_lt n (hold ▸ hn)).trans_le hle
      · exact hlt
  | flush =>
    exact .of_busy (by simp) (fun n hn => List.mem_append_left _ (h.outputs n hn)) h.outputs_lt
  | install => exact .of_busy (by simp) h.outputs h.outputs_lt
  | move => exact .of_busy (by simp [Process.beginLog]) h.outputs h.outputs_lt
  | @logEdit job edit =>
    cases job with
    | flush => exact .of_busy (by simp [Process.beginLog]) (fun n hn => h.mem_erasePending hn) h.outputs_lt
    | move => exact .of_busy (by simp [Process.beginLog]) h.outputs h.outputs_lt
    | install => exact .of_busy (by simp [Process.beginLog]) h.outputs h.outputs_lt
  | @applyEdit job db applied hphase _ ht happlied =>
    refine ⟨fun _ name hr => keeps_of_mem_obsoleteCalls (mem_obsoleteCalls_of_removeCalls hr), ?_, ?_⟩
    · subst happlied
      cases job with
      | flush => cases ht with
        | flush => simpa [Process.outputs, Process.cleanup] using h.outputs
      | move reason => cases ht with
        | move => exact h.outputs
      | install => cases ht with
        | install => exact fun n hn => absurd hn List.not_mem_nil
    · subst happlied
      cases job with
      | flush => cases ht with
        | flush => simpa [Process.outputs] using fun n hn => Nat.lt_succ_of_lt (h.outputs_lt n hn)
      | move reason => cases ht with
        | move => exact h.outputs_lt
      | install => cases ht with
        | install => exact fun n hn => absurd hn List.not_mem_nil
  | callFail | abort => exact h.failJob _

end

/-! ### `DB::Open` -/

section

variable [Inhabited V] {F : Formats K V β} {o : OpenOptions K V} {p : Process K V β} {d : Disk β} {vs : VersionSet K V}
  {calls : List (EnvCall β)}

/-- The updates that were replayed are in the version or in the memtable of the log that is
reused. -/
theorem LogInv.opened {save : Bool} {version : Version K V} {compactPointer : ℕ → Option (InternalKey K)}
    {last logOffset logNumber prevLogNumber manifest offset : ℕ} {r : Replay K V β} (hr : r = replayLogs F o d vs save)
    (hfiles : ∀ f ∈ r.files, f ∈ version.files 0)
    (hkeep : logNumber ≤ r.logfileNumber ∨ r.logfileNumber = prevLogNumber) (hlt : logNumber < r.nextFile) :
    LogInv (.opened r version compactPointer last logOffset logNumber prevLogNumber manifest offset)
      ⟨F.logEntries d vs, ∅⟩ := by
  subst hr
  obtain ⟨-, -, hentries⟩ := replayLogs_spec F o d vs save
  refine ⟨?_, hkeep, hlt, ?_⟩
  · rintro u ⟨hn, batch, hbatch, he⟩
    rcases hentries u.1 hn batch hbatch u.2 he with ⟨f, hf, hef⟩ | ⟨log, hlog, hnum, hel⟩
    · exact .inl (.inl ⟨0, f, hfiles f hf, hef⟩)
    · have hnumber : (replayLogs F o d vs save).logfileNumber = u.1 := by
        rw [Replay.logfileNumber, Option.mem_def.mp hlog]
        exact hnum
      refine .inr ⟨.inl ⟨hnumber.symm, ?_⟩, hnumber ▸ hkeep⟩
      show u.2 ∈ (replayLogs F o d vs save).reused.elim [] Prod.snd
      rw [Option.mem_def.mp hlog]
      exact hel
  · exact logfileNumber_lt_nextFile F o d vs save

omit [LinearOrder K] [Inhabited V] in
theorem reuseManifest_eq_some {m offset : ℕ} (h : F.reuseManifest o d = some (m, offset)) :
    F.currentManifest d = some m := by
  obtain ⟨n, hn, hrest⟩ := Option.bind_eq_some_iff.mp h
  obtain ⟨bytes, -, hif⟩ := Option.bind_eq_some_iff.mp hrest
  obtain ⟨-, heq⟩ := Option.ite_none_right_eq_some.mp hif
  cases heq
  exact hn

omit [Inhabited V] in
/-- The tables of the replay are in the version that `DB::Open` installs. -/
theorem mem_files_apply_edit {r : Replay K V β} {v : Version K V} : ∀ f ∈ r.files, f ∈ (v.apply r.edit).files 0 := by
  intro f hf
  refine mem_apply_iff.mpr ⟨.inr (mem_newAt.mpr (List.mem_map.mpr ⟨f, hf, rfl⟩)), ?_⟩
  simp [VersionEdit.deleted, Replay.edit]

theorem LogInv.recoverLogs (hused : vs.logNumber < vs.nextFileNumber) :
    LogInv (recoverLogs F o d vs).2 ⟨F.logEntries d vs, ∅⟩ := by
  simp only [Db.recoverLogs]
  cases hreuse : F.reuseManifest o d with
  | none => exact .opened rfl mem_files_apply_edit (.inl le_rfl) (logfileNumber_lt_nextFile F o d vs _)
  | some reused =>
    simp only [Option.isNone_some]
    split_ifs with hsave
    · exact .opened rfl mem_files_apply_edit (.inl le_rfl) (logfileNumber_lt_nextFile F o d vs _)
    · -- nothing was flushed, and the log numbers are those of the MANIFEST
      obtain ⟨hext, hreused, -⟩ := replayLogs_spec F o d vs false
      have hfiles : (replayLogs F o d vs false).files = [] := (hext.saveManifest (by simpa using hsave)).2
      have hlt : vs.logNumber < (replayLogs F o d vs false).nextFileNumber := hused.trans_le hext.nextFileNumber_le
      refine .opened rfl (by simp [hfiles]) ?_ ?_
      · cases hlog : (replayLogs F o d vs false).reused with
        | none => exact .inl (by simpa [Replay.logfileNumber, hlog] using hlt.le)
        | some log =>
          have hkept := (mem_logsToRecover.mp (hreused log hlog).1).2
          simpa [Replay.logfileNumber, hlog] using hkept
      · unfold Replay.nextFile
        split_ifs
        · exact hlt
        · exact Nat.lt_succ_of_lt hlt

omit [LinearOrder K] [Inhabited V] in
theorem currentManifest_execAll (hcalls : ∀ c ∈ calls, ¬ c.Writes .current) :
    F.currentManifest (d.execAll calls) = F.currentManifest d := by
  rw [Formats.currentManifest, Dir.bytes, Dir.get_execAll_of_not_writes hcalls]
  rfl

theorem currentManifest_recoverLogs :
    F.currentManifest (d.execAll (recoverLogs F o d vs).1) = some (recoverLogs F o d vs).2.manifestFileNumber := by
  have hreplay : ∀ save, ∀ c ∈ (replayLogs F o d vs save).calls ++ (replayLogs F o d vs save).newLogCalls,
      ¬ c.Writes .current := by
    intro save c hc hw
    rcases List.mem_append.mp hc with hc | hc
    · obtain ⟨n, hn, -⟩ := writes_replayLogs hc hw
      cases hn
    · unfold Replay.newLogCalls at hc
      split_ifs at hc
      · cases hc
      · rw [List.mem_singleton.mp hc] at hw
        cases hw
  simp only [recoverLogs]
  cases hreuse : F.reuseManifest o d with
  | none =>
    rw [Dir.execAll_append]
    exact currentManifest_of_get (get_newManifestCalls _).1 rfl
  | some reused =>
    have hcurrent := reuseManifest_eq_some hreuse
    dsimp only
    split_ifs with hsave
    · refine (currentManifest_execAll fun c hc => ?_).trans hcurrent
      rcases List.mem_append.mp hc with hc | hc
      · exact hreplay _ c hc
      · simp only [List.mem_cons, List.not_mem_nil, or_false] at hc
        rcases hc with rfl | rfl <;> simp [Call.Writes]
    · exact (currentManifest_execAll (hreplay _)).trans hcurrent

/-- All three invariants. -/
structure GarbageInv (F : Formats K V β) (p : Process K V β) (d : Disk β) (l : Ledger K V) : Prop where
  logs : LogInv p l
  current : CurrentInv F p d
  live : LiveInv p

omit [Inhabited V] in
theorem Formats.LogNumberUsed.createdDB (h : F.LogNumberUsed d) : F.LogNumberUsed (F.createdDB d) := by
  unfold Formats.createdDB
  split_ifs
  · exact h
  · intro vs hvs
    rw [(names_newDB F d).readManifest_eq] at hvs
    cases hvs
    show (0 : ℕ) < 3
    decide

theorem GarbageInv.opened (h : openDB F o d = some (calls, p)) (hused : F.LogNumberUsed d) :
    GarbageInv F p (d.execAll calls) (openLedger F d) := by
  obtain ⟨vs, hvs, hexec, hp⟩ := openDB_spec h
  have hlogs := LogInv.recoverLogs (F := F) (o := o) (d := F.createdDB d) (hused.createdDB vs hvs)
  have hcurrent := @currentManifest_recoverLogs K V β _ _ F o (F.createdDB d) vs
  have hledger : (openLedger F d).updates = F.logEntries (F.createdDB d) vs := by
    ext u
    simp [openLedger, hvs]
  obtain ⟨hcomp, hwriter⟩ : (recoverLogs F o (F.createdDB d) vs).2.db.compaction = none ∧
      (recoverLogs F o (F.createdDB d) vs).2.writerCalls = [] := by
    obtain ⟨r, version, last, logOffset, logNumber, prevLogNumber, manifest, offset, hopened⟩ :=
      recoverLogs_opened F o (F.createdDB d) vs
    rw [hopened]
    exact ⟨rfl, rfl⟩
  rw [← hexec] at hcurrent
  generalize (recoverLogs F o (F.createdDB d) vs).2 = q at hp hlogs hcurrent hcomp hwriter
  subst hp
  exact ⟨⟨fun u hu => hlogs.updates u (hledger ▸ hu), hlogs.logfile, hlogs.logNumber_lt, hlogs.logfileNumber_lt⟩,
    ⟨hcurrent, fun c hc => not_writes_obsoleteCalls (p := q) hc, by simp [hwriter]⟩,
    ⟨fun _ name hr => keeps_of_mem_obsoleteCalls (p := q) hr, by simp [Process.outputs, hcomp],
      by simp [Process.outputs, hcomp]⟩⟩

theorem DBRun.garbageInv {P : Process K V β → Event K V → Prop} {d₀ : Disk β} {l : Ledger K V}
    (h : DBRun F o P d₀ p d l) (hused : F.LogNumberUsed d₀) : GarbageInv F p d l := by
  induction h with
  | opened hopen => exact .opened hopen hused
  | step _ _ _ hstep ih =>
    have hs := processStep_of_step hstep
    exact ⟨ih.logs.step hs, ih.current.step hs, ih.live.step hs⟩

omit [LinearOrder K] [Inhabited V] in
theorem mem_live_of_referenced {v : Version K V} (hv : v ∈ p.referenced) {level : ℕ} (hlevel : level < kNumLevels)
    {f : FileMetaData K V} (hf : f ∈ v.files level) : f.number ∈ p.live :=
  List.mem_append_right _ (List.mem_flatMap.mpr ⟨v, hv, List.mem_flatMap.mpr
    ⟨level, List.mem_range.mpr hlevel, List.mem_map_of_mem hf⟩⟩)

/-- In every run, with any failures, each file that `RemoveObsoleteFiles` has still to remove is
not needed. -/
theorem DBRun.unneeded_of_remove {d₀ : Disk β} {l : Ledger K V} (h : DBRun F o (fun _ _ => True) d₀ p d l)
    (hused : F.LogNumberUsed d₀) (hphase : p.phase = .idle) {name : FileName} (hr : .remove name ∈ p.calls) :
    p.Unneeded F d l name := by
  obtain ⟨hlogs, hcurrent, hlive⟩ := h.garbageInv hused
  have hkeeps := hlive.removals hphase name hr
  cases name with
  | table n =>
    have hn : n ∉ p.live := by simpa [Process.keeps, keepFile] using hkeeps
    have hflush : p.isFlushing = false := by simp [Process.isFlushing, hphase]
    refine ⟨?_, fun v hv level hlevel f hf heq => hn (heq ▸ mem_live_of_referenced hv hlevel hf)⟩
    intro hmem
    simp only [Process.uninstalled, hflush, Bool.false_eq_true, if_false, List.append_nil] at hmem
    exact hn (List.mem_append_left _ (hlive.outputs n hmem))
  | log n =>
    have hn : ¬ p.KeepsLog n := by simpa [Process.keeps, keepFile, Process.KeepsLog] using hkeeps
    refine ⟨fun heq => hn (heq ▸ hlogs.logfile), fun e he => ?_⟩
    rcases hlogs.updates (n, e) he with hin | ⟨-, hkept⟩
    · exact hin
    · exact absurd hkept hn
  | descriptor n =>
    have hlt : n < p.manifestFileNumber := by simpa [Process.keeps, keepFile] using hkeeps
    intro heq
    rw [hcurrent.current] at heq
    cases heq
    exact lt_irrefl _ hlt
  | temp n => trivial
  | current => simp [Process.keeps, keepFile] at hkeeps

/-- Whether the background thread does nothing but remove files. -/
def Phase.isIdle : Phase K V → Bool
  | .idle => true
  | _ => false

/-- Whether a call removes this log. -/
def removesLog (number : ℕ) : EnvCall β → Bool
  | .remove (.log n) => n == number
  | _ => false

/-- After a flush, the log of the memtable is removed, while an iterator holds the version
before. -/
theorem unneeded_of_remove_log : ∃ p d l, DBRun (Formats.symbols ℕ ℕ) smallOpenOptions (fun _ _ => True) Dir.empty p d l ∧
    p.phase = .idle ∧ p.readers ≠ [] ∧ .remove (.log 3) ∈ p.calls ∧ p.Unneeded (Formats.symbols ℕ ℕ) d l (.log 3) := by
  have hrun : ((runProcess (Formats.symbols ℕ ℕ) smallOpenOptions (fun _ _ => True) Dir.empty
      (.call :: .ref :: putEvents 5 1 ++ buildEvents ++ [.logEdit, .call, .call, .applyEdit])).map fun s =>
        (s.1.phase.isIdle, s.1.readers.isEmpty, s.1.calls.any (removesLog 3))) = some (true, false, true) := by
    decide +kernel
  obtain ⟨⟨p, d⟩, hp, heq⟩ := Option.map_eq_some_iff.mp hrun
  simp only [Prod.mk.injEq, List.any_eq_true] at heq
  obtain ⟨hidle, hreaders, c, hc, hremove⟩ := heq
  have hphase : p.phase = .idle := by
    unfold Phase.isIdle at hidle
    split at hidle
    · assumption
    · cases hidle
  have hr : .remove (.log 3) ∈ p.calls := by
    unfold removesLog at hremove
    split at hremove
    · rwa [beq_iff_eq.mp hremove] at hc
    · cases hremove
  obtain ⟨l, hl⟩ := dbRun_of_runProcess (fun _ _ h => h) hp
  exact ⟨p, d, l, hl, hphase, by simpa using hreaders, hr, hl.unneeded_of_remove (fun vs hvs => by cases hvs) hphase hr⟩

end

end TLevelDB.Db
