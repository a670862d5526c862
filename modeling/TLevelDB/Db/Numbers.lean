import TLevelDB.Db.Garbage

/-!
# File numbers during recovery

`VersionSet::Recover` goes on with the file numbers after the one in the MANIFEST. Logs may
have been made after the last record of the MANIFEST, and their numbers may be above it.
`DBImpl::Recover` marks the number of a log as used when it has replayed it, and replaying it
makes tables with new numbers. So a table can get the number of a log that is replayed later,
or even of the log that it is made from.

That does not happen exactly when there is room: the numbers below a log, from the one in the
MANIFEST or from an earlier log on, are more than the tables that are made until the log is
marked (`newNumbers_recoverLogs_iff`).
-/

namespace TLevelDB.Db

open TLevelDB.Storage

/-! ### A counter that is raised late -/

section Counter

variable (t : ℕ → ℕ)

/-- For each number of a list in turn, `t n` numbers are given out and then `n` is marked as
used. The numbers given out, and the next one. -/
def giveOut : ℕ → List ℕ → List ℕ × ℕ
  | next, [] => ([], next)
  | next, n :: ns =>
    let rest := giveOut (max (next + t n) (n + 1)) ns
    (List.range' next (t n) ++ rest.1, rest.2)

/-- What is given out for some of the numbers. -/
def given (ns : List ℕ) (p : ℕ → Bool) : ℕ := ((ns.filter p).map t).sum

/-- What is given out until `m` is marked fits below `m`, counted from `next` or from a number
that is marked before. -/
def Room (next : ℕ) (ns : List ℕ) : Prop :=
  ∀ m ∈ ns, next ≤ m → next + given t ns (· ≤ m) ≤ m ∧ ∀ b ∈ ns, b < m → b + given t ns (fun n => b < n ∧ n ≤ m) < m

instance (next : ℕ) (ns : List ℕ) : Decidable (Room t next ns) := by
  unfold Room
  infer_instance

variable {t} {next : ℕ} {ns : List ℕ}

theorem le_giveOut_snd : next ≤ (giveOut t next ns).2 ∧ ∀ n ∈ ns, n < (giveOut t next ns).2 := by
  induction ns generalizing next with
  | nil => exact ⟨le_rfl, by simp⟩
  | cons n ns ih =>
    obtain ⟨hle, hlt⟩ := @ih (max (next + t n) (n + 1))
    refine ⟨(Nat.le_add_right _ _).trans ((le_max_left _ _).trans hle), fun m hm => ?_⟩
    rcases List.mem_cons.mp hm with rfl | hm
    · exact Nat.lt_of_succ_le ((le_max_right _ _).trans hle)
    · exact hlt m hm

theorem le_of_mem_giveOut {x : ℕ} (hx : x ∈ (giveOut t next ns).1) : next ≤ x := by
  induction ns generalizing next with
  | nil => cases hx
  | cons n ns ih =>
    rcases List.mem_append.mp hx with hx | hx
    · exact (List.mem_range'_1.mp hx).1
    · exact (Nat.le_add_right _ _).trans ((le_max_left _ _).trans (ih hx))

/-- A number that is smaller than all others comes first. -/
theorem given_cons {n m : ℕ} (hn : ∀ k ∈ ns, n < k) (hm : m ∈ ns) :
    given t (n :: ns) (· ≤ m) = t n + given t ns (· ≤ m) ∧
      given t (n :: ns) (fun k => n < k ∧ k ≤ m) = given t ns (· ≤ m) ∧
      ∀ b ∈ ns, given t (n :: ns) (fun k => b < k ∧ k ≤ m) = given t ns (fun k => b < k ∧ k ≤ m) := by
  refine ⟨?_, ?_, fun b hb => ?_⟩
  · simp [given, (hn m hm).le]
  · have hfilter : ns.filter (fun k => decide (n < k ∧ k ≤ m)) = ns.filter (· ≤ m) :=
      List.filter_congr fun k hk => by simp [hn k hk]
    simp [given, ← hfilter]
  · simp [given, (hn b hb).le]

/-- What is given out before the first number is marked has to fit below all of them. -/
theorem room_cons {n : ℕ} (hn : ∀ k ∈ ns, n < k) :
    Room t next (n :: ns) ↔
      (∀ m ∈ n :: ns, next ≤ m → next + t n ≤ m) ∧ Room t (max (next + t n) (n + 1)) ns := by
  constructor
  · intro hroom
    refine ⟨fun m hm hle => ?_, fun m hm hle => ?_⟩
    · have hfit := (hroom m hm hle).1
      rcases List.mem_cons.mp hm with rfl | hm
      · simp only [given, le_refl, decide_true, List.filter_cons_of_pos, List.map_cons, List.sum_cons] at hfit
        omega
      · rw [(@given_cons t ns n m hn hm).1] at hfit
        omega
    · obtain ⟨hall, hafter, hlater⟩ := @given_cons t ns n m hn hm
      obtain ⟨hfit, hbetween⟩ := hroom m (List.mem_cons_of_mem n hm)
        ((Nat.le_add_right _ _).trans ((le_max_left _ _).trans hle))
      have hfirst := hbetween n List.mem_cons_self (hn m hm)
      rw [hafter] at hfirst
      refine ⟨by omega, fun b hb hlt => ?_⟩
      rw [← hlater b hb]
      exact hbetween b (List.mem_cons_of_mem n hb) hlt
  · rintro ⟨hfirst, hrest⟩ m hm hle
    have hfit := hfirst m hm hle
    rcases List.mem_cons.mp hm with rfl | hm
    · have hnone : ns.filter (fun k => decide (k ≤ m)) = [] :=
        List.filter_eq_nil_iff.mpr fun k hk => by simpa using hn k hk
      refine ⟨by simpa [given, hnone] using hfit, fun b hb hlt => ?_⟩
      rcases List.mem_cons.mp hb with rfl | hb
      · exact absurd hlt (lt_irrefl _)
      · exact absurd (hn b hb) hlt.not_gt
    · obtain ⟨hall, hafter, hlater⟩ := @given_cons t ns n m hn hm
      obtain ⟨hroom, hbetween⟩ := hrest m hm (max_le hfit (hn m hm))
      refine ⟨by omega, fun b hb hlt => ?_⟩
      rcases List.mem_cons.mp hb with rfl | hb
      · rw [hafter]
        omega
      · rw [hlater b hb]
        exact hbetween b hb hlt

/-- **No number that is marked is given out exactly when there is room.** -/
theorem notMem_giveOut_iff (hns : ns.Pairwise (· < ·)) : (∀ x ∈ (giveOut t next ns).1, x ∉ ns) ↔ Room t next ns := by
  induction ns generalizing next with
  | nil => simp [giveOut, Room]
  | cons n ns ih =>
    obtain ⟨hn, hns⟩ := List.pairwise_cons.mp hns
    rw [room_cons hn, ← ih hns]
    constructor
    · intro h
      refine ⟨fun m hm hle => not_lt.mp fun hlt => ?_, fun x hx hmem => ?_⟩
      · exact h m (List.mem_append_left _ (List.mem_range'_1.mpr ⟨hle, hlt⟩)) hm
      · exact h x (List.mem_append_right _ hx) (List.mem_cons_of_mem n hmem)
    · rintro ⟨hfirst, hrest⟩ x hx hmem
      rcases List.mem_append.mp hx with hx | hx
      · obtain ⟨hle, hlt⟩ := List.mem_range'_1.mp hx
        exact absurd (hfirst x hmem hle) hlt.not_ge
      · rcases List.mem_cons.mp hmem with rfl | hmem
        · -- what is given out after `n` was marked is above it
          exact absurd ((le_max_right _ _).trans (le_of_mem_giveOut hx)) (by omega)
        · exact hrest x hx hmem

end Counter

/-! ### The tables of a log -/

section Tables

variable {K V β : Type} [LinearOrder K] [Inhabited V]

/-- How many memtables the records of a log fill, and what is left in the last one. -/
def fillMemTables (o : OpenOptions K V) : Option (List (Entry K V)) → List (ℕ × List (Op K V)) → ℕ × Option (List (Entry K V))
  | mem, [] => (0, mem)
  | mem, batch :: batches =>
    let mem' := insertInto (mem.getD []) batch
    if o.memTableFull mem' then
      let rest := fillMemTables o none batches
      (rest.1 + 1, rest.2)
    else fillMemTables o (some mem') batches

/-- How many tables are made when a log is replayed. -/
def tableCount (F : Formats K V β) (o : OpenOptions K V) (d : Disk β) (lastLog : Option ℕ) (n : ℕ) : ℕ :=
  let filled := fillMemTables o none (F.readLog d n)
  filled.1 + if (o.reuseLogs ∧ lastLog = some n ∧ filled.1 = 0 ∧ o.appendable) ∨ filled.2 = none then 0 else 1

section

omit [LinearOrder K] [Inhabited V]

/-- The numbers that `NewFileNumber` returns, as the calls show them: a file of that number is
made, or removed where a table is empty. -/
def newNumbers (calls : List (EnvCall β)) : List ℕ :=
  calls.filterMap fun
    | .create (.table n) => some n
    | .remove (.table n) => some n
    | .create (.log n) => some n
    | _ => none

@[simp] theorem newNumbers_append (calls calls' : List (EnvCall β)) :
    newNumbers (calls ++ calls') = newNumbers calls ++ newNumbers calls' := List.filterMap_append

@[simp] theorem newNumbers_buildTableCalls (F : Formats K V β) (number : ℕ) (mem : List (Entry K V)) :
    newNumbers (F.buildTableCalls number mem) = [number] := by
  unfold Formats.buildTableCalls
  split_ifs <;> rfl

end

namespace Replay

variable {F : Formats K V β} {o : OpenOptions K V} {d : Disk β}

/-- `next_file_number_` and the numbers that were returned, after `count` more of them. -/
structure Takes (r r' : Replay K V β) (count : ℕ) : Prop where
  nextFileNumber : r'.nextFileNumber = r.nextFileNumber + count
  newNumbers : newNumbers r'.calls = Db.newNumbers r.calls ++ List.range' r.nextFileNumber count

omit [LinearOrder K] [Inhabited V] in
theorem Takes.trans {r r' r'' : Replay K V β} {a b : ℕ} (h : r.Takes r' a) (h' : r'.Takes r'' b) : r.Takes r'' (a + b) where
  nextFileNumber := by rw [h'.nextFileNumber, h.nextFileNumber, Nat.add_assoc]
  newNumbers := by
    rw [h'.newNumbers, h.newNumbers, h.nextFileNumber, List.append_assoc, List.range'_append_1]

omit [LinearOrder K] [Inhabited V] in
theorem takes_writeLevel0Table (F : Formats K V β) (o : OpenOptions K V) (r : Replay K V β) (mem : List (Entry K V)) :
    r.Takes (r.writeLevel0Table F o mem) 1 :=
  ⟨rfl, by simp [writeLevel0Table]⟩

theorem foldl_record_takes (batches : List (ℕ × List (Op K V))) (r : Replay K V β) :
    r.Takes (batches.foldl (Replay.record F o) r) (fillMemTables o r.mem batches).1 ∧
      (batches.foldl (Replay.record F o) r).mem = (fillMemTables o r.mem batches).2 ∧
      (batches.foldl (Replay.record F o) r).compactions = r.compactions + (fillMemTables o r.mem batches).1 := by
  induction batches generalizing r with
  | nil => exact ⟨⟨rfl, by simp [fillMemTables]⟩, rfl, rfl⟩
  | cons batch batches ih =>
    obtain ⟨htakes, hmem, hcompactions⟩ := ih (r.record F o batch)
    rw [List.foldl_cons]
    by_cases hfull : o.memTableFull (insertInto (r.mem.getD []) batch) = true
    · have hrecord : r.Takes (r.record F o batch) 1 ∧ (r.record F o batch).mem = none ∧
          (r.record F o batch).compactions = r.compactions + 1 := by
        unfold record
        rw [if_pos hfull]
        exact ⟨⟨rfl, by simp [writeLevel0Table]⟩, rfl, rfl⟩
      obtain ⟨htakes', hmem', hcompactions'⟩ := hrecord
      rw [hmem'] at htakes hmem hcompactions
      simp only [fillMemTables, hfull, if_true]
      refine ⟨?_, hmem, by omega⟩
      rw [Nat.add_comm]
      exact htakes'.trans htakes
    · have hrecord : r.Takes (r.record F o batch) 0 ∧
          (r.record F o batch).mem = some (insertInto (r.mem.getD []) batch) ∧
          (r.record F o batch).compactions = r.compactions := by
        unfold record
        rw [if_neg hfull]
        exact ⟨⟨rfl, by simp⟩, rfl, rfl⟩
      obtain ⟨htakes', hmem', hcompactions'⟩ := hrecord
      rw [hmem'] at htakes hmem hcompactions
      simp only [fillMemTables, hfull, Bool.false_eq_true, if_false]
      refine ⟨?_, hmem, by omega⟩
      rw [← Nat.zero_add (fillMemTables _ _ _).1]
      exact htakes'.trans htakes

omit [LinearOrder K] [Inhabited V] in
theorem endOfLog_takes (F : Formats K V β) (o : OpenOptions K V) (n : ℕ) (lastLog : Bool) (r : Replay K V β) :
    r.Takes (r.endOfLog F o n lastLog)
        (if (o.reuseLogs ∧ lastLog ∧ r.compactions = 0 ∧ o.appendable) ∨ r.mem = none then 0 else 1) ∧
      (r.endOfLog F o n lastLog).mem = none := by
  unfold endOfLog
  by_cases hreuse : o.reuseLogs ∧ lastLog ∧ r.compactions = 0 ∧ o.appendable
  · rw [if_pos hreuse, if_pos (.inl hreuse)]
    exact ⟨⟨rfl, by simp⟩, rfl⟩
  · rw [if_neg hreuse]
    cases hmem : r.mem with
    | none =>
      rw [if_pos (.inr rfl)]
      exact ⟨⟨rfl, by simp⟩, hmem⟩
    | some mem =>
      rw [if_neg (by simp [hreuse])]
      exact ⟨takes_writeLevel0Table F o r mem, rfl⟩

theorem logFile_takes (F : Formats K V β) (o : OpenOptions K V) (d : Disk β) (lastLog : Option ℕ) (n : ℕ)
    {r : Replay K V β} (hmem : r.mem = none) :
    (r.logFile F o d lastLog n).nextFileNumber = max (r.nextFileNumber + tableCount F o d lastLog n) (n + 1) ∧
      newNumbers (r.logFile F o d lastLog n).calls =
        newNumbers r.calls ++ List.range' r.nextFileNumber (tableCount F o d lastLog n) ∧
      (r.logFile F o d lastLog n).mem = none := by
  let r₀ : Replay K V β := { r with compactions := 0 }
  have hmem₀ : r₀.mem = none := hmem
  obtain ⟨htakes, hleft, hcompactions⟩ := foldl_record_takes (F := F) (o := o) (F.readLog d n) r₀
  obtain ⟨htakes', hnone⟩ := endOfLog_takes F o n (lastLog = some n) ((F.readLog d n).foldl (Replay.record F o) r₀)
  have htotal := htakes.trans htakes'
  rw [hleft, hcompactions, hmem₀, show r₀.compactions = 0 from rfl, Nat.zero_add] at htotal
  simp only [decide_eq_true_eq] at htotal
  exact ⟨congrArg (max · (n + 1)) htotal.nextFileNumber, htotal.newNumbers, hnone⟩

theorem foldl_logFile_takes (lastLog : Option ℕ) (ns : List ℕ) {r : Replay K V β} (hmem : r.mem = none) :
    (ns.foldl (Replay.logFile F o d lastLog) r).nextFileNumber =
        (giveOut (tableCount F o d lastLog) r.nextFileNumber ns).2 ∧
      newNumbers (ns.foldl (Replay.logFile F o d lastLog) r).calls =
        newNumbers r.calls ++ (giveOut (tableCount F o d lastLog) r.nextFileNumber ns).1 := by
  induction ns generalizing r with
  | nil => exact ⟨rfl, by simp [giveOut]⟩
  | cons n ns ih =>
    obtain ⟨hnext, hnumbers, hmem'⟩ := logFile_takes F o d lastLog n hmem
    obtain ⟨hnext', hnumbers'⟩ := ih hmem'
    rw [hnext] at hnext' hnumbers'
    rw [hnumbers, List.append_assoc] at hnumbers'
    exact ⟨hnext', hnumbers'⟩

end Replay

/-! ### `DB::Open` -/

variable {F : Formats K V β} {o : OpenOptions K V} {d : Disk β} {vs : VersionSet K V}

/-- How many tables are made of a log, when those of the directory are replayed. -/
def VersionSet.tables (vs : VersionSet K V) (F : Formats K V β) (o : OpenOptions K V) (d : Disk β) : ℕ → ℕ :=
  tableCount F o d (logsToRecover d vs.logNumber vs.prevLogNumber).getLast?

/-- The numbers below the logs of the directory leave room for the tables that are made of them. -/
def VersionSet.LeavesRoom (vs : VersionSet K V) (F : Formats K V β) (o : OpenOptions K V) (d : Disk β) : Prop :=
  Room (vs.tables F o d) vs.nextFileNumber (logsToRecover d vs.logNumber vs.prevLogNumber)

/-- The numbers that are returned while a version set is recovered: those of the tables, and
that of the new log if none is reused. -/
theorem newNumbers_recoverLogs (F : Formats K V β) (o : OpenOptions K V) (d : Disk β) (vs : VersionSet K V) :
    ∃ last, newNumbers (recoverLogs F o d vs).1 =
        (giveOut (vs.tables F o d) vs.nextFileNumber (logsToRecover d vs.logNumber vs.prevLogNumber)).1 ++ last ∧
      ∀ n ∈ last, n = (giveOut (vs.tables F o d) vs.nextFileNumber (logsToRecover d vs.logNumber vs.prevLogNumber)).2 := by
  obtain ⟨hnext, hnumbers⟩ := @Replay.foldl_logFile_takes K V β _ _ F o d
    (logsToRecover d vs.logNumber vs.prevLogNumber).getLast? (logsToRecover d vs.logNumber vs.prevLogNumber)
    ⟨none, 0, [], vs.nextFileNumber, 0, (F.reuseManifest o d).isNone, none, []⟩ rfl
  set r := replayLogs F o d vs (F.reuseManifest o d).isNone with hr
  have hcalls : newNumbers (recoverLogs F o d vs).1 = newNumbers r.calls ++ newNumbers r.newLogCalls := by
    simp only [recoverLogs, ← hr]
    cases F.reuseManifest o d with
    | none => simp [newNumbers, Formats.newManifestCalls, Formats.setCurrentFileCalls]
    | some reused =>
      dsimp only
      split_ifs <;> simp [newNumbers]
  refine ⟨newNumbers r.newLogCalls, ?_, fun n hn => ?_⟩
  · rw [hcalls]
    exact congrArg (· ++ _) hnumbers
  · refine Eq.trans ?_ hnext
    unfold Replay.newLogCalls at hn
    split_ifs at hn
    · cases hn
    · exact List.mem_singleton.mp hn

omit [LinearOrder K] [Inhabited V] in
/-- The logs are replayed in the order of their numbers. -/
theorem pairwise_logsToRecover (d : Disk β) (minLog prevLog : ℕ) : (logsToRecover d minLog prevLog).Pairwise (· < ·) :=
  (List.pairwise_insertionSort (· ≤ ·) _).imp₂ (fun _ _ hle hne => lt_of_le_of_ne hle hne) (nodup_logsToRecover d minLog prevLog)

omit [Inhabited V] in
/-- What a run leaves has a MANIFEST whose files have numbers that were given out. -/
theorem ManifestRun.number_lt (h : ManifestRun F none d) (hvs : F.readManifest d = some vs) {n : ℕ}
    (hn : n ∈ vs.version.numbers) : n < vs.nextFileNumber := by
  obtain ⟨m, rs, next, hnames, hbelow, -⟩ := h.inv
  obtain ⟨-, hnext, hfiles⟩ := hbelow.recover (hnames.readManifest_eq.symm.trans hvs)
  simp only [Version.numbers, List.mem_flatMap, List.mem_map] at hn
  obtain ⟨level, -, f, hf, rfl⟩ := hn
  exact hnext ▸ (hfiles level f hf).trans (Nat.lt_succ_self next)

/-- A table is in level 2. An output of a manual compaction takes a number, the memtable is
switched, which makes a new log, and the process is stopped. -/
def gapEvents : List (Event ℕ ℕ) :=
  .call :: putEvents 5 1 ++ buildEvents ++ [.logEdit, .call, .call, .applyEdit, .call] ++ putEvents 7 1 ++
    [.manual 2 none none, .turn, .switchMem true]

end Tables

end TLevelDB.Db
