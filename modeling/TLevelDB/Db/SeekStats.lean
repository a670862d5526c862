import TLevelDB.Db.Manual
import TLevelDB.Db.Reads

/-!
# Which compaction is picked

A version has a level with the best score, which `Finalize` computes when the version is
installed. It may also have a file to compact, because reads have visited it too often in vain: a
read that visits a second file charges the first one, and when a file has been charged as often
as it is allowed, the version that was read remembers it with the level it was found at.

A level from 1 on is visited once. So a file that is charged is not on the last level, and it
is a file of the version that remembers it. The version is a new one after each flush and each
compaction, and remembers nothing yet.
-/

namespace TLevelDB.Db

variable {K V D : Type} [LinearOrder D]

/-- What the scores need of the arithmetic with `double`. -/
structure Doubles (D : Type) [LinearOrder D] where
  /-- A quotient, rounded. -/
  divide : ℕ → ℕ → D
  one : D
  minusOne : D
  divide_zero : ∀ n, divide 0 n < one

def kL0CompactionTrigger : ℕ := 4

def maxBytesForLevel (level : ℕ) : ℕ := 10 * 1048576 * 10 ^ (level - 1)

/-- The score of a level. -/
def Version.score (F : Doubles D) (v : Version K V) (level : ℕ) : D :=
  if level = 0 then F.divide (v.files level).length kL0CompactionTrigger
  else F.divide (totalFileSize (v.files level)) (maxBytesForLevel level)

/-- `VersionSet::Finalize`: `compaction_level_`, which is none where the source has -1, and
`compaction_score_`. -/
def Version.finalize (F : Doubles D) (v : Version K V) : Option ℕ × D :=
  (List.range (kNumLevels - 1)).foldl
    (fun best level => if best.2 < v.score F level then (some level, v.score F level) else best) (none, F.minusOne)

/-- `PickCompaction` up to its choice of a level, where `fileToCompact` is `file_to_compact_`
with its level. -/
def Version.pickReason (F : Doubles D) (v : Version K V) (fileToCompact : Option (ℕ × FileMetaData K V)) :
    Option (PickReason K V) :=
  if F.one ≤ (v.finalize F).2 then (v.finalize F).1.map .size
  else fileToCompact.map fun x => .seek x.1 x.2

/-- `allowed_seeks` of a new file. -/
def FileMetaData.allowedSeeks (f : FileMetaData K V) : ℤ :=
  let seeks := ((f.fileSize / 16384 : ℕ) : ℤ).bmod (2 ^ 32)
  if seeks < 100 then 100 else seeks

section Reads

variable [LinearOrder K]

/-- `stats` of a `Version::Get` that cannot read the file after `n - 1` others. -/
def Version.getStats (v : Version K V) (userKey : K) (s n : ℕ) : Option (ℕ × FileMetaData K V) :=
  (searchFiles userKey s ((v.forEachOverlapping userKey (lookupKey userKey s)).take n) none none).2

/-- `state.stats` of `RecordReadSample`, where there are two matches. -/
def Version.sampleStats (v : Version K V) (key : InternalKey K) : Option (ℕ × FileMetaData K V) :=
  match (v.forEachOverlapping key.userKey key).take 2 with
  | [x, _] => some x
  | _ => none

end Reads

/-- The database, with what reads leave behind in the files and versions. -/
structure SeekState (K V : Type) where
  db : DBState K V
  /-- `file_to_compact_` of the current version, with its level. -/
  fileToCompact : Option (ℕ × FileMetaData K V)
  /-- The same for the versions before it, which may still be read. -/
  older : List (Version K V × Option (ℕ × FileMetaData K V))
  /-- `allowed_seeks` of the files, which are told apart by their levels and numbers. -/
  allowedSeeks : ℕ × ℕ → ℤ

/-- `Version::UpdateStats`, for a version with this file to compact. -/
def updateStats (allowedSeeks : ℕ × ℕ → ℤ) (fileToCompact : Option (ℕ × FileMetaData K V)) :
    Option (ℕ × FileMetaData K V) → (ℕ × ℕ → ℤ) × Option (ℕ × FileMetaData K V)
  | none => (allowedSeeks, fileToCompact)
  | some (level, f) =>
    -- an `int`; the source does not stop at the smallest one
    let left := (allowedSeeks (level, f.number) - 1).bmod (2 ^ 32)
    (Function.update allowedSeeks (level, f.number) left,
      if left ≤ 0 ∧ fileToCompact.isNone then some (level, f) else fileToCompact)

namespace SeekState

/-- The current version after a read. -/
def read (s : SeekState K V) (stats : Option (ℕ × FileMetaData K V)) : SeekState K V :=
  { s with
    allowedSeeks := (updateStats s.allowedSeeks s.fileToCompact stats).1
    fileToCompact := (updateStats s.allowedSeeks s.fileToCompact stats).2 }

/-- An older version, the `i`th, after a read. -/
def readOlder (s : SeekState K V) (i : ℕ) (v : Version K V) (fileToCompact stats : Option (ℕ × FileMetaData K V)) :
    SeekState K V :=
  { s with
    allowedSeeks := (updateStats s.allowedSeeks fileToCompact stats).1
    older := s.older.set i (v, (updateStats s.allowedSeeks fileToCompact stats).2) }

/-- The state after `LogAndApply`: the files that were not at their level before are new. -/
def install (s : SeekState K V) (db : DBState K V) : SeekState K V where
  db := db
  fileToCompact := none
  older := (s.db.version, s.fileToCompact) :: s.older
  allowedSeeks x :=
    if (s.db.version.files x.1).any (fun f => f.number = x.2) then s.allowedSeeks x
    else ((db.version.files x.1).find? fun f => f.number = x.2).elim 0 FileMetaData.allowedSeeks

def init : SeekState K V := ⟨DBState.init, none, [], fun _ => 0⟩

/-- The state after an action that has led to `db`. -/
def after (s : SeekState K V) (db : DBState K V) : Action K V → SeekState K V
  | .flush | .move _ | .install => s.install db
  | _ => { s with db := db }

variable [LinearOrder K]

/-- An action to compact is one that `PickCompaction` or `DBImpl::CompactRange` asks for. The
latter counts the levels of a version that may be an older one. -/
def Asks (F : Doubles D) (s : SeekState K V) : Action K V → Prop
  | .move reason | .start reason => s.db.version.pickReason F s.fileToCompact = some reason
  | .manual level _ _ => ∃ (base : Version K V) (b e : Option K), level < base.maxLevelWithFiles b e
  | _ => True

/-- What `DBImpl::Recover` makes of a database that was closed: the memtables that it fills from
the logs are written to level 0, the last one may be kept. -/
structure Recovers (o : Options K V) (st st' : DBState K V) : Prop where
  mem : ∃ l : List (Entry K V), st'.mem = l.foldl memTableAdd []
  imm : st'.imm = none
  version : ∃ mems : List (ℕ × List (Entry K V)), st'.version = st.version.apply
    { newFiles := mems.filterMap fun m => (buildTable o m.1 (m.2.foldl memTableAdd [])).map fun f => (0, f) }
  compaction : st'.compaction = none

end SeekState

/-- The states that the database reaches, with what the reads leave behind. -/
inductive SeekRun [LinearOrder K] [Inhabited V] (o : Options K V) (F : Doubles D) : SeekState K V → Prop where
  | init : SeekRun o F SeekState.init
  | act {s : SeekState K V} {a : Action K V} {db : DBState K V} : SeekRun o F s → s.Asks F a →
      s.db.step o a = some db → SeekRun o F (s.after db a)
  | get {s : SeekState K V} (k : K) (seq n : ℕ) : SeekRun o F s →
      SeekRun o F (s.read (s.db.version.getStats k seq n))
  /-- A read may have begun at an older version. -/
  | getOlder {s : SeekState K V} {i : ℕ} {v : Version K V} {fileToCompact : Option (ℕ × FileMetaData K V)} (k : K)
      (seq n : ℕ) : SeekRun o F s → s.older[i]? = some (v, fileToCompact) →
      SeekRun o F (s.readOlder i v fileToCompact (v.getStats k seq n))
  | sample {s : SeekState K V} (key : InternalKey K) : SeekRun o F s →
      SeekRun o F (s.read (s.db.version.sampleStats key))
  | reopen {s : SeekState K V} {db : DBState K V} : SeekRun o F s → SeekState.Recovers o s.db db →
      SeekRun o F (SeekState.init.install db)

/-! ### The file that is charged -/

section Stats

variable [LinearOrder K] {v : Version K V} {x : ℕ × FileMetaData K V} {k : K} {s : ℕ}

/-- It is the first of two visits. -/
theorem searchFiles_charges {l : List (ℕ × FileMetaData K V)} (h : (searchFiles k s l none none).2 = some x) :
    ∃ y l', l = x :: y :: l' := by
  have hkeeps : ∀ (l : List (ℕ × FileMetaData K V)) (last : Option (ℕ × FileMetaData K V)) (z : ℕ × FileMetaData K V),
      (searchFiles k s l last (some z)).2 = some z := by
    intro l
    induction l with
    | nil => exact fun _ _ => rfl
    | cons y l ih =>
      intro last z
      simp only [searchFiles, Option.isNone_some, Bool.false_eq_true, if_false]
      cases lookupIn y.2.table k s with
      | notFound => exact ih _ z
      | _ => rfl
  cases l with
  | nil => cases h
  | cons y l =>
    simp only [searchFiles, Option.isNone_none, if_true] at h
    cases hy : lookupIn y.2.table k s with
    | notFound =>
      rw [hy] at h
      cases l with
      | nil => cases h
      | cons z l =>
        simp only [searchFiles, Option.isNone_none, if_true] at h
        refine ⟨z, l, ?_⟩
        cases hz : lookupIn z.2.table k s <;> simp [hz, hkeeps] at h <;> rw [← h]
    | _ => simp [hy] at h

/-- Where a version is visited twice, the first file is not on the last level. -/
theorem legal_of_visits {key : InternalKey K} {y : ℕ × FileMetaData K V} {l : List (ℕ × FileMetaData K V)}
    (h : (x :: y :: l).Sublist (v.forEachOverlapping k key)) : (PickReason.seek x.1 x.2).Legal v := by
  have hlevels : (v.forEachOverlapping k key).Pairwise fun f g => f.1 = 0 ∨ f.1 < g.1 :=
    pairwise_forEachOverlapping (List.pairwise_of_forall fun _ _ => Or.inl rfl) fun _ _ hlt _ _ _ _ => Or.inr hlt
  have hxy : x.1 = 0 ∨ x.1 < y.1 := (List.pairwise_cons.mp (hlevels.sublist h)).1 y List.mem_cons_self
  have hy : y.1 = 0 ∧ _ ∨ 0 < y.1 ∧ y.1 < kNumLevels ∧ _ :=
    mem_forEachOverlapping.mp (h.subset (List.mem_cons_of_mem _ List.mem_cons_self))
  refine ⟨?_, mem_files_of_forEachOverlapping (h.subset List.mem_cons_self)⟩
  simp only [kNumLevels] at hy ⊢
  omega

theorem legal_of_getStats {n : ℕ} (h : v.getStats k s n = some x) : (PickReason.seek x.1 x.2).Legal v := by
  obtain ⟨y, l, hl⟩ := searchFiles_charges h
  exact legal_of_visits (hl ▸ List.take_sublist _ _)

theorem legal_of_sampleStats {key : InternalKey K} (h : v.sampleStats key = some x) :
    (PickReason.seek x.1 x.2).Legal v := by
  unfold Version.sampleStats at h
  split at h
  next y z hl =>
    cases h
    exact legal_of_visits (hl ▸ List.take_sublist _ _)
  · cases h

end Stats

/-! ### The level with the best score -/

section Score

variable {F : Doubles D} {v : Version K V}

theorem finalize_cases (F : Doubles D) (v : Version K V) : v.finalize F = (none, F.minusOne) ∨
    ∃ level, level + 1 < kNumLevels ∧ v.finalize F = (some level, v.score F level) := by
  refine List.foldlRecOn (motive := fun best => best = (none, F.minusOne) ∨
    ∃ level, level + 1 < kNumLevels ∧ best = (some level, v.score F level)) _ _ (Or.inl rfl) fun best hbest level hl => ?_
  split_ifs
  · exact Or.inr ⟨level, by have := List.mem_range.mp hl; omega, rfl⟩
  · exact hbest

/-- A level without files has no score to speak of. -/
theorem files_ne_nil_of_score {level : ℕ} (h : F.one ≤ v.score F level) :
    v.files level ≠ [] := by
  intro hnil
  refine absurd h (not_le.mpr ?_)
  unfold Version.score
  split_ifs
  · simpa [hnil] using F.divide_zero _
  · simpa [hnil, totalFileSize] using F.divide_zero _

theorem legal_of_pickReason {fileToCompact : Option (ℕ × FileMetaData K V)}
    (hseek : ∀ x ∈ fileToCompact, (PickReason.seek x.1 x.2).Legal v) {reason : PickReason K V}
    (h : v.pickReason F fileToCompact = some reason) : reason.Legal v := by
  unfold Version.pickReason at h
  split_ifs at h with hscore
  · rcases finalize_cases F v with heq | ⟨level, hlevel, heq⟩
    · simp [heq] at h
    · rw [heq] at h hscore
      cases h
      exact ⟨hlevel, files_ne_nil_of_score hscore⟩
  · obtain ⟨x, hx, rfl⟩ := Option.map_eq_some_iff.mp h
    exact hseek x hx

end Score

/-! ### The inputs -/

section Inputs

variable [LinearOrder K] {o : Options K V} {v : Version K V} {c : Compaction K V} {level : ℕ}

theorem length_le_addBoundaryInputs (files inputs : List (FileMetaData K V)) :
    inputs.length ≤ (addBoundaryInputs files inputs).length := by
  have hloop : ∀ (n : ℕ) (l : InternalKey K) (inputs : List (FileMetaData K V)),
      inputs.length ≤ (addBoundaryLoop files n l inputs).length := by
    intro n
    induction n with
    | zero => exact fun _ _ => le_rfl
    | succ n ih =>
      intro l inputs
      rw [addBoundaryLoop]
      split
      · exact le_rfl
      next f _ => exact (by simp : inputs.length ≤ (inputs ++ [f]).length).trans (ih f.largest _)
  unfold addBoundaryInputs
  split
  · exact le_rfl
  · exact hloop _ _ _

theorem setupOtherInputs_ne_nil {inputs0 : List (FileMetaData K V)} (hne : inputs0 ≠ []) :
    (v.setupOtherInputs o level inputs0).inputs0 ≠ [] := by
  have hlen := List.length_pos_iff.mpr hne
  have hbound := length_le_addBoundaryInputs (v.files level) inputs0
  refine List.ne_nil_of_length_pos ?_
  simp only [Version.setupOtherInputs]
  rcases expandInputs_cases o v level (addBoundaryInputs (v.files level) inputs0)
    (v.overlappingClosed (level + 1) (addBoundaryInputs (v.files level) inputs0)) with hkeep | ⟨hgrows, hgrow⟩
  · rw [hkeep]
    exact hlen.trans_le hbound
  · rw [hgrow]
    exact Nat.zero_lt_of_lt hgrows

/-- `PickCompaction` does not read past the files of the level. -/
theorem exists_pickCompaction {reason : PickReason K V} (hr : reason.Legal v)
    (compactPointer : ℕ → Option (InternalKey K)) : ∃ c, v.pickCompaction o compactPointer reason = some c := by
  cases reason with
  | size level =>
    obtain ⟨f, files, hfiles⟩ := List.exists_cons_of_ne_nil hr.2
    obtain ⟨g, hg⟩ : ∃ g, (PickReason.size level).file v compactPointer = some g := by
      rw [PickReason.file, hfiles]
      split <;> exact ⟨_, rfl⟩
    exact ⟨_, Option.map_eq_some_iff.mpr ⟨g, hg, rfl⟩⟩
  | seek level f => exact ⟨_, rfl⟩

theorem pickCompaction_inputs {reason : PickReason K V} {compactPointer : ℕ → Option (InternalKey K)}
    (hr : reason.Legal v) (h0 : ∀ f ∈ v.files 0, f.smallest.userKey ≤ f.largest.userKey)
    (h : v.pickCompaction o compactPointer reason = some c) : c.level = reason.level ∧ c.inputs0 ≠ [] := by
  obtain ⟨f, hf, rfl⟩ := Option.map_eq_some_iff.mp h
  have hmem := PickReason.mem_of_file hr hf
  refine ⟨rfl, setupOtherInputs_ne_nil ?_⟩
  split_ifs with hzero
  · rw [hzero] at hmem
    exact List.ne_nil_of_mem (mem_getOverlappingInputs hmem (overlaps_some_iff.mpr ⟨h0 f hmem, h0 f hmem⟩))
  · simp

theorem compactRange_inputs {b e : Option (InternalKey K)} (h : v.compactRange o level b e = some c) :
    c.level = level ∧ c.inputs0 ≠ [] := by
  refine ⟨level_compactRange h, ?_⟩
  unfold Version.compactRange at h
  split at h
  · cases h
  next f files _ =>
    cases h
    refine setupOtherInputs_ne_nil ?_
    split_ifs
    · rw [truncateInputs]
      split_ifs <;> simp
    · simp

end Inputs

/-! ### Every run -/

section Runs

variable [LinearOrder K] [Inhabited V] {o : Options K V} {F : Doubles D} {s : SeekState K V}

/-- The entries of a memtable are in order. -/
def Ascending (mem : List (Entry K V)) : Prop := mem.Pairwise fun x y => x.key ≤ y.key

section

omit [Inhabited V]

theorem Ascending.add {mem : List (Entry K V)} (h : Ascending mem) (e : Entry K V) : Ascending (memTableAdd mem e) := by
  refine SortedSearch.pairwise_takeWhile_cons_dropWhile (fun _ _ _ => le_trans) h (fun x _ hlt => ?_) fun x _ hlt => ?_
  · exact (of_decide_eq_true hlt).le
  · exact not_lt.mp fun hlt' => hlt (decide_eq_true hlt')

theorem ascending_foldl (l : List (Entry K V)) : Ascending (l.foldl memTableAdd []) :=
  List.foldlRecOn (motive := Ascending) l _ List.Pairwise.nil fun _ h e _ => h.add e

theorem Ascending.buildTable {mem : List (Entry K V)} (h : Ascending mem) {number : ℕ} {f : FileMetaData K V}
    (hf : buildTable o number mem = some f) : f.smallest.userKey ≤ f.largest.userKey := by
  cases mem with
  | nil => cases hf
  | cons x mem =>
    rw [TLevelDB.Db.buildTable, List.head?_cons, List.getLast?_cons] at hf
    cases hf
    refine InternalKey.userKey_mono ?_
    cases hl : mem.getLast? with
    | none => exact le_rfl
    | some y => exact (List.pairwise_cons.mp h).1 y (List.mem_of_getLast? hl)

end

/-- What every run keeps. -/
structure SeekInv (s : SeekState K V) : Prop where
  mem : Ascending s.db.mem
  imm : ∀ imm ∈ s.db.imm, Ascending imm
  level0 : ∀ f ∈ s.db.version.files 0, f.smallest.userKey ≤ f.largest.userKey
  fileToCompact : ∀ x ∈ s.fileToCompact, (PickReason.seek x.1 x.2).Legal s.db.version

section

omit [Inhabited V]

theorem level0_apply {v : Version K V} {edit : VersionEdit K V}
    (h : ∀ f ∈ v.files 0, f.smallest.userKey ≤ f.largest.userKey)
    (hnew : ∀ f, (0, f) ∈ edit.newFiles → f.smallest.userKey ≤ f.largest.userKey) :
    ∀ f ∈ (v.apply edit).files 0, f.smallest.userKey ≤ f.largest.userKey := by
  intro f hf
  rcases (mem_apply_iff.mp hf).1 with hf | hf
  · exact h f hf
  · exact hnew f (by simpa [VersionEdit.newAt] using hf)

theorem SeekInv.read (h : SeekInv s) {stats : Option (ℕ × FileMetaData K V)}
    (hstats : ∀ x ∈ stats, (PickReason.seek x.1 x.2).Legal s.db.version) : SeekInv (s.read stats) := by
  refine { h with fileToCompact := fun x hx => ?_ }
  cases stats with
  | none => exact h.fileToCompact x hx
  | some y =>
    have hy := hstats y rfl
    simp only [SeekState.read, updateStats] at hx
    split_ifs at hx
    · cases hx
      exact hy
    · exact h.fileToCompact x hx

theorem SeekInv.install {db : DBState K V} (hmem : Ascending db.mem) (himm : ∀ imm ∈ db.imm, Ascending imm)
    (h0 : ∀ f ∈ db.version.files 0, f.smallest.userKey ≤ f.largest.userKey) : SeekInv (s.install db) :=
  ⟨hmem, himm, h0, fun x hx => by cases hx⟩

end

theorem SeekInv.act {a : Action K V} {db : DBState K V} (h : SeekInv s) (ht : Transition o s.db a db) :
    SeekInv (s.after db a) := by
  cases ht with
  | insert => exact { h with mem := h.mem.add _ }
  | switchMem => exact { h with mem := List.Pairwise.nil, imm := fun imm himm => Option.some.inj himm ▸ h.mem }
  | @flush imm himm =>
    unfold DBState.compactMemTable
    split
    · exact .install h.mem (fun imm himm => by cases himm) h.level0
    next f hf =>
      refine .install h.mem (fun imm himm => by cases himm) (level0_apply h.level0 fun g hg => ?_)
      obtain rfl : g = f := (Prod.mk.inj (List.mem_singleton.mp hg)).2
      exact (h.imm imm himm).buildTable hf
  | move | install =>
    refine .install h.mem h.imm (level0_apply h.level0 fun g hg => ?_)
    simp [Compaction.installEdit] at hg
  | _ => exact { h with }

theorem SeekRun.inv (h : SeekRun o F s) : SeekInv s := by
  induction h with
  | init => exact ⟨List.Pairwise.nil, by simp [SeekState.init, DBState.init],
      by simp [SeekState.init, DBState.init, Version.empty],
      by simp [SeekState.init]⟩
  | act _ _ hstep ih => exact ih.act (transition_of_step hstep)
  | get k seq n _ ih => exact ih.read fun x hx => legal_of_getStats hx
  | getOlder _ _ _ _ _ ih => exact { ih with }
  | sample key _ ih => exact ih.read fun x hx => legal_of_sampleStats hx
  | reopen _ hr ih =>
    obtain ⟨l, hl⟩ := hr.mem
    obtain ⟨mems, hmems⟩ := hr.version
    refine .install (hl ▸ ascending_foldl l) (by simp [hr.imm]) (hmems ▸ level0_apply ih.level0 fun f hf => ?_)
    obtain ⟨m, -, hm⟩ := List.mem_filterMap.mp hf
    obtain ⟨g, hg, heq⟩ := Option.map_eq_some_iff.mp hm
    cases heq
    exact (ascending_foldl m.2).buildTable hg

/-- **A compaction has a next level and an input.** -/
theorem SeekRun.picked (h : SeekRun o F s) :
    (∀ reason, s.db.version.pickReason F s.fileToCompact = some reason →
      ∃ c, s.db.version.pickCompaction o s.db.compactPointer reason = some c ∧
        c.level + 1 < kNumLevels ∧ c.inputs0 ≠ [] ∧
          ∀ level f, reason = .seek level f → c.level = level ∧ f ∈ s.db.version.files c.level) ∧
    ∀ (base : Version K V) (first last : Option K) (level : ℕ) (b e : Option (InternalKey K)) (c : Compaction K V),
      level < base.maxLevelWithFiles first last → s.db.version.compactRange o level b e = some c →
        c.level + 1 < kNumLevels ∧ c.inputs0 ≠ [] := by
  refine ⟨fun reason hreason => ?_, fun base first last level b e c hlevel hc => ?_⟩
  · have hlegal := legal_of_pickReason h.inv.fileToCompact hreason
    obtain ⟨c, hc⟩ := exists_pickCompaction (o := o) hlegal s.db.compactPointer
    obtain ⟨hlevel, hne⟩ := pickCompaction_inputs hlegal h.inv.level0 hc
    refine ⟨c, hc, hlevel ▸ hlegal.level_lt, hne, ?_⟩
    rintro level f rfl
    exact ⟨hlevel, hlevel ▸ hlegal.2⟩
  · obtain ⟨hc, hne⟩ := compactRange_inputs hc
    have := (maxLevelWithFiles_spec base first last).2.1
    exact ⟨by omega, hne⟩

/-- The actions of writes and flushes. -/
def Action.isWrite : Action K V → Bool
  | .beginWrite _ | .insert | .endWrite | .switchMem | .flush => true
  | _ => false

/-- The state after some actions, none of which is a compaction, if all can happen. -/
def SeekState.acts (o : Options K V) (s : SeekState K V) (actions : List (Action K V)) : Option (SeekState K V) :=
  actions.foldlM (fun s a => if a.isWrite then (s.db.step o a).map fun db => s.after db a else none) s

theorem SeekRun.acts {actions : List (Action K V)} {s' : SeekState K V} (h : SeekRun o F s)
    (hacts : s.acts o actions = some s') : SeekRun o F s' := by
  induction actions generalizing s with
  | nil =>
    cases hacts
    exact h
  | cons a actions ih =>
    rw [SeekState.acts, List.foldlM_cons] at hacts
    obtain ⟨s₁, hs₁, hrest⟩ := Option.bind_eq_some_iff.mp hacts
    split_ifs at hs₁ with hfree
    obtain ⟨db, hdb, rfl⟩ := Option.map_eq_some_iff.mp hs₁
    refine ih (h.act ?_ hdb) hrest
    unfold Action.isWrite at hfree
    split at hfree
    all_goals trivial

/-- Whole numbers in the place of `double`. -/
def wholeDoubles : Doubles ℤ := ⟨fun a b => (a / b : ℕ), 1, -1, by simp⟩

/-- The key 5 is on level 2, and is read a hundred times through a table with 4 and 6 on level 1. -/
theorem SeekRun.picked_read : ∃ (s : SeekState ℕ ℕ) (f : FileMetaData ℕ ℕ) (c : Compaction ℕ ℕ),
    SeekRun smallOptions wholeDoubles s ∧ s.db.version.pickReason wholeDoubles s.fileToCompact = some (.seek 1 f) ∧
      s.db.version.pickCompaction smallOptions s.db.compactPointer (.seek 1 f) = some c ∧
        c.level + 1 < kNumLevels ∧ c.inputs0 ≠ [] ∧ f ∈ s.db.version.files c.level := by
  let get (s : SeekState ℕ ℕ) := s.read (s.db.version.getStats 5 1 2)
  have hget : ∀ n s, SeekRun smallOptions wholeDoubles s → SeekRun smallOptions wholeDoubles (get^[n] s) := by
    intro n
    induction n with
    | zero => exact fun _ h => h
    | succ n ih => exact fun s h => ih _ (h.get 5 1 2)
  have hacts : ((SeekState.init.acts smallOptions (putActions 5 7 ++
      [.switchMem, .flush, .beginWrite [.put 4 7, .put 6 7], .insert, .insert, .endWrite, .switchMem, .flush])).map fun s =>
        ((get^[100] s).fileToCompact.map Prod.fst, decide (1 ≤ ((get^[100] s).db.version.finalize wholeDoubles).2))) =
      some (some 1, false) := by decide +kernel
  obtain ⟨s, hs, heq⟩ := Option.map_eq_some_iff.mp hacts
  obtain ⟨hfile, hscore⟩ := Prod.mk.inj heq
  obtain ⟨⟨level, f⟩, hf, rfl⟩ := Option.map_eq_some_iff.mp hfile
  have hrun := hget 100 s (SeekRun.init.acts hs)
  have hreason : (get^[100] s).db.version.pickReason wholeDoubles (get^[100] s).fileToCompact = some (.seek 1 f) := by
    rw [Version.pickReason, hf]
    exact if_neg (of_decide_eq_false hscore)
  obtain ⟨c, hc, hlevel, hne, hmem⟩ := hrun.picked.1 _ hreason
  exact ⟨_, f, c, hrun, hreason, hc, hlevel, hne, (hmem 1 f rfl).2⟩

end Runs

end TLevelDB.Db
