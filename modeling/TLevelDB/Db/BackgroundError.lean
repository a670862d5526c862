import TLevelDB.Db.System

/-!
# After a background error

A failed call of `LogAndApply` may or may not have left its record in the MANIFEST, so no
other record should follow. `MaybeScheduleCompaction` and `BackgroundCall` begin nothing
once `bg_error_` is set. But a job that has begun asks no more: `DoCompactionWork` flushes a
memtable in its loop, and when that fails it goes on and installs its results
(`not_logAndApply_free_after_bgError`). The error of a writer that cannot sync or close the log
is not noticed by a job either.

If an error comes only when the job of the background thread has no `LogAndApply` before it,
none is called after the error (`DBRun.bgError_false_of_logsEdit`).
-/

namespace TLevelDB.Db

open TLevelDB.Storage

variable {K V β : Type} [LinearOrder K]

omit [LinearOrder K] in
/-- The events with which `LogAndApply` is called. -/
def Event.logsEdit : Event K V → Bool
  | .logEdit => true
  | .prepare (.move _) => true
  | _ => false

namespace Process

omit [LinearOrder K] in
/-- The job of the background thread has a `LogAndApply` before it. -/
def mayLog (p : Process K V β) : Bool :=
  match p.phase with
  | .idle => p.db.compaction.isSome
  | .building _ => true
  | .logging .flush => p.db.compaction.isSome
  | .logging _ => false

omit [LinearOrder K] in
/-- An error that the background thread does not notice comes only when its job has no
`LogAndApply` before it: an error of a writer, and one of a flush in the loop of a
compaction. -/
def NoticesErrors (p : Process K V β) : Event K V → Prop
  | .writerFail _ _ => (∀ n bs calls, p.writerCalls ≠ .append n bs :: calls) → p.mayLog = false
  | .switchMem closed => closed = false → p.mayLog = false
  | .callFail _ _ _ => p.isFlushing = true → p.db.compaction = none
  | .abort _ => p.isFlushing = true → p.db.compaction = none
  | _ => True

end Process

section

variable [Inhabited V] {F : Formats K V β} {o : Options K V} {p p' : Process K V β} {d d' : Disk β} {ev : Event K V}

omit [LinearOrder K] [Inhabited V] in
/-- A job that fails has no more to log, unless it is a flush in the loop of a compaction. -/
theorem Process.mayLog_failJob {offset : ℕ} (h : p.isFlushing = true → p.db.compaction = none) (hmove : ∀ reason,
    p.phase = .logging (.move reason) → p.db.compaction = none) : (p.failJob offset).mayLog = false := by
  unfold Process.failJob
  split
  next hphase => rfl
  next hphase => simpa [mayLog, dropFlush, erasePending] using h (by simp [isFlushing, hphase])
  next hphase => rfl
  next hphase => simpa [mayLog, dropFlush, erasePending] using h (by simp [isFlushing, hphase])
  next reason hphase => simpa [mayLog] using hmove reason hphase
  next hphase => rfl

/-- What holds while errors come as they should. -/
structure ErrorInv (p : Process K V β) : Prop where
  /-- After an error nothing more is logged. -/
  not_mayLog : p.bgError = true → p.mayLog = false
  /-- A trivial move is made when there is no compaction. -/
  move : ∀ reason, p.phase = .logging (.move reason) → p.db.compaction = none

omit [Inhabited V] in
theorem edit_move_compaction {st : DBState K V} {reason : PickReason K V} {edit : VersionEdit K V}
    (h : st.edit o (.move reason) = some edit) : st.compaction = none := by
  simp only [DBState.edit] at h
  split at h
  next hnone => exact Option.isNone_iff_eq_none.mp hnone
  · cases h

section

omit [LinearOrder K] [Inhabited V]

/-- An event of a writer or a reader leaves what the background thread is about as it is. -/
theorem ErrorInv.congr (h : ErrorInv p) (hphase : p'.phase = p.phase) (hcomp : p'.db.compaction = p.db.compaction)
    (herr : p'.bgError = true → p.bgError = true ∨ p.mayLog = false) : ErrorInv p' := by
  have hmay : p'.mayLog = p.mayLog := by simp only [Process.mayLog, hphase, hcomp]
  refine ⟨fun he => ?_, fun reason hr => ?_⟩
  · rw [hmay]
    exact (herr he).elim h.not_mayLog id
  · rw [hcomp]
    exact h.move reason (hphase ▸ hr)

/-- While there is no error there is nothing to show about what is logged. -/
theorem ErrorInv.of_bgError_false (herr : p.bgError = false)
    (hmove : ∀ reason, p.phase = .logging (.move reason) → p.db.compaction = none) : ErrorInv p :=
  ⟨fun he => absurd he (by simp [herr]), hmove⟩

theorem ErrorInv.bgError_false (h : ErrorInv p) (hmay : p.mayLog = true) : p.bgError = false := by
  by_contra he
  rw [h.not_mayLog (by simpa using he)] at hmay
  cases hmay

end

theorem ErrorInv.step (h : ErrorInv p) (hnotice : p.NoticesErrors ev) (hstep : ProcessStep F o p d ev p' d') :
    ErrorInv p' := by
  have hfail : ∀ offset, (p.isFlushing = true → p.db.compaction = none) → ErrorInv (p.failJob offset) :=
    fun offset hflush => ⟨fun _ => Process.mayLog_failJob hflush h.move, fun reason hr => by
      rw [Process.phase_failJob] at hr
      cases hr⟩
  cases hstep with
  | beginWrite | writerCall | writerPart | appendFail | ref | unref | call | part | removeFail =>
    exact h.congr rfl rfl .inl
  | insert _ ht | endWrite _ ht | newSnapshot ht | releaseSnapshot ht =>
    exact h.congr rfl (by cases ht; rfl) .inl
  | syncFail hw hcalls hne =>
    refine h.congr rfl rfl fun _ => .inr (hnotice fun n bs calls heq => ?_)
    rw [hcalls] at heq
    exact hne n bs (List.cons.inj heq).1
  | switchMem herr =>
    refine h.congr rfl rfl fun hc => .inr (hnotice ?_)
    simpa using hc
  | start _ hphase herr | manual _ hphase herr => exact .of_bgError_false herr (by simp [hphase])
  | turn _ hphase hcs =>
    have hmay : p.mayLog = true := by simp [Process.mayLog, hphase, hcs]
    exact .of_bgError_false (h.bgError_false hmay) (by simp [hphase])
  | flush _ hphase _ _ herr =>
    refine .of_bgError_false ?_ (by simp)
    cases hcomp : p.db.compaction with
    | none => exact herr hcomp
    | some cs => exact h.bgError_false (by simp [Process.mayLog, hphase, hcomp])
  | install _ hphase hcs =>
    have hmay : p.mayLog = true := by simp [Process.mayLog, hphase, hcs]
    exact .of_bgError_false (h.bgError_false hmay) (by simp)
  | move _ _ herr _ hedit => exact .of_bgError_false herr fun _ _ => edit_move_compaction hedit
  | @logEdit job edit hphase _ hedit =>
    have hmay : p.mayLog = true := by simp [Process.mayLog, hphase]
    refine .of_bgError_false ?_ fun reason hr => ?_
    · show (p.beforeLog job).bgError = false
      rw [Process.bgError_beforeLog]
      exact h.bgError_false hmay
    · obtain rfl : job = .move reason := Phase.logging.inj hr
      exact edit_move_compaction hedit
  | @applyEdit job db applied hphase _ ht happlied =>
    have hmay : Process.mayLog { applied with calls := applied.removeCalls d job } = p.mayLog := by
      subst happlied
      cases job with
      | flush => cases ht with
        | flush => simp [Process.mayLog, hphase]
      | move reason => cases ht with
        | move hcomp => simp [Process.mayLog, hphase, DBState.logAndApply, hcomp]
      | install => cases ht with
        | install => simp [Process.mayLog, hphase, DBState.installCompaction]
    refine ⟨fun he => ?_, fun reason hr => ?_⟩
    · rw [hmay]
      refine h.not_mayLog ?_
      subst happlied
      exact (Process.bgError_cleanup p job).symm.trans he
    · subst happlied
      cases hr
  | callFail => exact hfail _ hnotice
  | abort => exact hfail _ hnotice

theorem ErrorInv.opened {oo : OpenOptions K V} {calls : List (EnvCall β)} (h : openDB F oo d = some (calls, p)) :
    ErrorInv p := by
  obtain ⟨vs, -, -, rfl⟩ := openDB_spec h
  obtain ⟨r, version, last, logOffset, logNumber, prevLogNumber, manifest, offset, hp⟩ :=
    recoverLogs_opened F oo (F.createdDB d) vs
  rw [hp]
  exact .of_bgError_false rfl fun reason hr => by cases hr

end

/-- If errors come only when the job of the background thread has no `LogAndApply` before it,
`LogAndApply` is not called after an error. -/
theorem DBRun.bgError_false_of_logsEdit [Inhabited V] {F : Formats K V β} {o : OpenOptions K V} {p p' : Process K V β}
    {d₀ d d' : Disk β} {l : Ledger K V} (h : DBRun F o Process.NoticesErrors d₀ p d l) {ev : Event K V}
    (hev : ev.logsEdit = true) (hstep : p.step F o.toOptions d ev = some (p', d')) : p.bgError = false := by
  have hinv : ErrorInv p := by
    clear hstep
    induction h with
    | opened hopen => exact .opened hopen
    | step _ _ hnotice hstep ih => exact ih.step hnotice (processStep_of_step hstep)
  cases processStep_of_step hstep with
  | move _ _ herr => exact herr
  | logEdit hphase => exact hinv.bgError_false (by simp [Process.mayLog, hphase])
  | _ => cases hev

/-- The steps of a write, of a switch of the memtable and of its flush. -/
def Event.isFlush : Event K V → Bool
  | .beginWrite _ _ | .writerCall | .insert | .endWrite | .switchMem true | .prepare .flush | .call => true
  | _ => false

theorem bgError_false_of_logsEdit_flush :
    ∃ p p' d d' l, DBRun (Formats.symbols ℕ ℕ) smallOpenOptions Process.NoticesErrors Dir.empty p d l ∧
      p.step (Formats.symbols ℕ ℕ) smallOptions d .logEdit = some (p', d') ∧ p.bgError = false := by
  have hrun : ((runProcess (Formats.symbols ℕ ℕ) smallOpenOptions (fun _ ev => ev.isFlush = true) Dir.empty
      (.call :: putEvents 5 1 ++ buildEvents)).bind fun s =>
        s.1.step (Formats.symbols ℕ ℕ) smallOptions s.2 .logEdit).isSome = true := by decide +kernel
  obtain ⟨⟨p', d'⟩, hp'⟩ := Option.isSome_iff_exists.mp hrun
  obtain ⟨⟨p, d⟩, hp, hstep⟩ := Option.bind_eq_some_iff.mp hp'
  have htest : ∀ (p : Process ℕ ℕ (Symbol ℕ ℕ)) (ev : Event ℕ ℕ), ev.isFlush = true → p.NoticesErrors ev := by
    intro p ev hev
    unfold Event.isFlush at hev
    split at hev
    all_goals first
      | exact trivial
      | exact fun hfail => by cases hfail
      | cases hev
  obtain ⟨l, hl⟩ := dbRun_of_runProcess htest hp
  exact ⟨p, p', d, d', l, hl, hstep, hl.bgError_false_of_logsEdit rfl hstep⟩

/-- A flush in the loop of a manual compaction fails, and the compaction goes on to its end. -/
def failedFlushEvents : List (Event ℕ ℕ) :=
  .call :: putEvents 5 1 ++ buildEvents ++ [.logEdit, .call, .call, .applyEdit, .call] ++ putEvents 7 1 ++
    [.manual 2 none none, .switchMem true, .prepare .flush, .callFail 0 0 false] ++
    [.turn, .call, .call, .prepare .install, .call, .call]

/-- The results of a compaction are installed after a flush has failed. -/
theorem not_logAndApply_free_after_bgError : ¬ ∀ (F : Formats ℕ ℕ (Symbol ℕ ℕ)) (o : OpenOptions ℕ ℕ)
    (p p' : Process ℕ ℕ (Symbol ℕ ℕ)) (d₀ d d' : Disk (Symbol ℕ ℕ)) (l : Ledger ℕ ℕ) (ev : Event ℕ ℕ),
    DBRun F o (fun _ _ => True) d₀ p d l → ev.logsEdit = true → p.step F o.toOptions d ev = some (p', d') →
      p.bgError = false := by
  intro h
  have hrun : ((runProcess (Formats.symbols ℕ ℕ) smallOpenOptions (fun _ _ => True) Dir.empty
      failedFlushEvents).bind fun s => (s.1.step (Formats.symbols ℕ ℕ) smallOptions s.2 .logEdit).bind fun _ =>
        if s.1.bgError then some () else none).isSome = true := by decide +kernel
  obtain ⟨u, hu⟩ := Option.isSome_iff_exists.mp hrun
  obtain ⟨⟨p, d⟩, hp, hrest⟩ := Option.bind_eq_some_iff.mp hu
  obtain ⟨⟨p', d'⟩, hstep, herr⟩ := Option.bind_eq_some_iff.mp hrest
  obtain ⟨l, hl⟩ := dbRun_of_runProcess (fun _ _ h => h) hp
  have hfalse := h (Formats.symbols ℕ ℕ) smallOpenOptions p p' Dir.empty d d' l .logEdit hl rfl hstep
  simp [hfalse] at herr

end TLevelDB.Db
