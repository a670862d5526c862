import TLevelDB.Db.Impl

/-!
# The MANIFEST

A MANIFEST is a log of version edits, the first of which lists all files of a version.
`VersionSet::Recover` applies them one after the other to one builder and saves the
result once. This gives the version that the edits make one by one (`Builder.saveTo_apply`),
since no edit adds a file to a level again that has been there before: a file gets a new
number when it is made, and moves only to deeper levels.

An edit names the files, but does not hold their tables (`bare`).
-/

namespace TLevelDB.Db

variable {K V : Type}

/-! ### What an edit says about files -/

/-- What a MANIFEST says about a file. -/
def FileMetaData.bare (f : FileMetaData K V) : FileMetaData K V := { f with table := [] }

/-- What is written to a MANIFEST for an edit. -/
def VersionEdit.bare (edit : VersionEdit K V) : VersionEdit K V :=
  { edit with newFiles := edit.newFiles.map fun nf => (nf.1, nf.2.bare) }

variable [LinearOrder K]

/-! ### Sorted versions -/

section Sorted

variable {v : Version K V} {edit : VersionEdit K V}

/-- The files of each level are in the order of `BySmallestKey`. -/
def Version.Sorted (v : Version K V) : Prop :=
  ∀ level, (v.files level).Pairwise fun f g => ¬ bySmallestKey g f

theorem Version.sorted_empty : (Version.empty : Version K V).Sorted := fun _ => List.Pairwise.nil

theorem Version.Sorted.apply (h : v.Sorted) (edit : VersionEdit K V) : (v.apply edit).Sorted := fun level =>
  (mergeFiles_sorted (h level) (List.pairwise_insertionSort _ _)).sublist List.filter_sublist

omit [LinearOrder K] in
theorem eq_of_number_of_pairwise {l : List (FileMetaData K V)} (hl : l.Pairwise fun f g => f.number ≠ g.number)
    {f g : FileMetaData K V} (hf : f ∈ l) (hg : g ∈ l) (hn : f.number = g.number) : f = g :=
  List.Pairwise.forall_of_forall_of_flip (R := fun x y => x.number = y.number → x = y) (fun _ _ _ => rfl)
    (hl.imp fun hxy he => absurd he hxy) (hl.imp fun hxy he => absurd he.symm hxy) hf hg hn

/-- The order leaves no choice. -/
theorem eq_of_perm_of_sorted {l l' : List (FileMetaData K V)} (hp : l.Perm l')
    (hl : l.Pairwise fun f g => ¬ bySmallestKey g f) (hl' : l'.Pairwise fun f g => ¬ bySmallestKey g f)
    (hn : l'.Pairwise fun f g => f.number ≠ g.number) : l = l' := by
  refine hp.eq_of_pairwise (fun f g hf hg hfg hgf => ?_) hl hl'
  rw [not_bySmallestKey_iff] at hfg hgf
  have heq := le_antisymm hfg hgf
  exact eq_of_number_of_pairwise hn (hp.mem_iff.mp hf) hg (Prod.mk.inj (toLex.injective heq)).2

end Sorted

/-! ### The builder -/

/-- `VersionSet::Builder`. -/
structure Builder (K V : Type) where
  base : Version K V
  /-- `deleted_files` of all levels. -/
  deletedFiles : List (ℕ × ℕ)
  /-- `added_files` of all levels; they are put in order when they are saved. -/
  addedFiles : List (ℕ × FileMetaData K V)

omit [LinearOrder K] in
/-- `Builder::Apply`. -/
def Builder.apply (b : Builder K V) (edit : VersionEdit K V) : Builder K V :=
  { b with
    deletedFiles := (b.deletedFiles ++ edit.deletedFiles).filter fun d => d ∉ edit.newFiles.map fun nf => (nf.1, nf.2.number)
    addedFiles := b.addedFiles ++ edit.newFiles }

omit [LinearOrder K] in
/-- The added files of a level. -/
def Builder.addedAt (b : Builder K V) (level : ℕ) : List (FileMetaData K V) :=
  (b.addedFiles.filter fun nf => nf.1 = level).map Prod.snd

/-- `Builder::SaveTo`. -/
def Builder.saveTo (b : Builder K V) : Version K V :=
  ⟨fun level => (mergeFiles (b.base.files level) ((b.addedAt level).insertionSort fun f g => ¬ bySmallestKey g f)).filter
    fun f => (level, f.number) ∉ b.deletedFiles⟩

section Builder

variable {b : Builder K V} {edit : VersionEdit K V} {v : Version K V} {level next next' : ℕ}

section

omit [LinearOrder K]

theorem mem_addedAt : f ∈ b.addedAt level ↔ (level, f) ∈ b.addedFiles := by
  simp [Builder.addedAt]

theorem mem_newAt : f ∈ edit.newAt level ↔ (level, f) ∈ edit.newFiles := by
  simp [VersionEdit.newAt]

theorem addedAt_apply (b : Builder K V) (edit : VersionEdit K V) (level : ℕ) :
    (b.apply edit).addedAt level = b.addedAt level ++ edit.newAt level := by
  simp [Builder.addedAt, Builder.apply, VersionEdit.newAt]

end

theorem saveTo_perm (b : Builder K V) (level : ℕ) : (b.saveTo.files level).Perm
    ((b.base.files level ++ b.addedAt level).filter fun f => (level, f.number) ∉ b.deletedFiles) :=
  ((mergeFiles_perm _ _).trans ((List.perm_insertionSort _ _).append_left _)).filter _

theorem Builder.sorted_saveTo (h : b.base.Sorted) : b.saveTo.Sorted := fun level =>
  (mergeFiles_sorted (h level) (List.pairwise_insertionSort _ _)).sublist List.filter_sublist

/-- **Saving once is applying the edits one by one**, if no file is added to a level where
a file of that number has been before. -/
theorem Builder.saveTo_apply (hbase : b.base.Sorted)
    (hnew : ∀ level, ∀ f ∈ edit.newAt level, ∀ g ∈ b.base.files level ++ b.addedAt level, g.number ≠ f.number)
    (hnum : ∀ level, ((b.saveTo.apply edit).files level).Pairwise fun f g => f.number ≠ g.number) :
    (b.apply edit).saveTo = b.saveTo.apply edit := by
  have hfiles : ∀ level, (b.apply edit).saveTo.files level = (b.saveTo.apply edit).files level := by
    intro level
    refine eq_of_perm_of_sorted ?_ (Builder.sorted_saveTo (b := b.apply edit) hbase level)
      ((Builder.sorted_saveTo hbase).apply edit level) (hnum level)
    -- a file that was there before is deleted by one side if and only if by the other
    have hold : ∀ f ∈ b.base.files level ++ b.addedAt level,
        decide ((level, f.number) ∉ (b.apply edit).deletedFiles) =
          (decide ((level, f.number) ∉ b.deletedFiles) && !edit.deleted level f.number) := by
      intro f hf
      have hne : ∀ g, (level, g) ∈ edit.newFiles → g.number ≠ f.number :=
        fun g hg => (hnew level g (mem_newAt.mpr hg) f hf).symm
      have h1 : (level, f.number) ∉ edit.newFiles.map fun nf => (nf.1, nf.2.number) := by
        simp only [List.mem_map, Prod.mk.injEq, not_exists, not_and]
        rintro ⟨l, g⟩ hg rfl hn
        exact hne g hg hn
      have h2 : f.number ∉ (edit.newAt level).map FileMetaData.number := by
        simp only [List.mem_map, not_exists, not_and]
        exact fun g hg => hne g (mem_newAt.mp hg)
      simp only [Builder.apply, List.mem_filter, List.mem_append, VersionEdit.deleted, h1, h2, not_false_eq_true,
        decide_true, and_true]
      by_cases hb : (level, f.number) ∈ b.deletedFiles <;> simp [hb]
    -- a new file is not deleted
    have hkept : ∀ f ∈ edit.newAt level, decide ((level, f.number) ∉ (b.apply edit).deletedFiles) = true ∧
        (!edit.deleted level f.number) = true := by
      intro f hf
      have h1 : (level, f.number) ∈ edit.newFiles.map fun nf => (nf.1, nf.2.number) :=
        List.mem_map.mpr ⟨(level, f), mem_newAt.mp hf, rfl⟩
      have h2 : f.number ∈ (edit.newAt level).map FileMetaData.number := List.mem_map_of_mem hf
      constructor
      · simp [Builder.apply, h1]
      · simp [VersionEdit.deleted, h2]
    calc (b.apply edit).saveTo.files level
        |>.Perm ((b.base.files level ++ (b.addedAt level ++ edit.newAt level)).filter
          fun f => (level, f.number) ∉ (b.apply edit).deletedFiles) := by
          rw [← addedAt_apply]
          exact saveTo_perm _ _
      _ = ((b.base.files level ++ b.addedAt level).filter fun f => (level, f.number) ∉ b.deletedFiles).filter
          (fun f => !edit.deleted level f.number) ++ (edit.newAt level).filter fun f => !edit.deleted level f.number := by
          rw [← List.append_assoc, List.filter_append, List.filter_filter, List.filter_congr hold,
            List.filter_eq_self.mpr fun f hf => (hkept f hf).1, List.filter_eq_self.mpr fun f hf => (hkept f hf).2]
          simp only [Bool.and_comm]
      _ = (((b.base.files level ++ b.addedAt level).filter fun f => (level, f.number) ∉ b.deletedFiles) ++
          edit.newAt level).filter (fun f => !edit.deleted level f.number) := (List.filter_append ..).symm
      _ |>.Perm ((b.saveTo.files level ++ edit.newAt level).filter fun f => !edit.deleted level f.number) :=
          ((saveTo_perm b level).symm.append_right _).filter _
      _ |>.Perm ((b.saveTo.apply edit).files level) := apply_files_perm.symm
  cases hl : (b.apply edit).saveTo
  cases hr : b.saveTo.apply edit
  simp only [hl, hr] at hfiles
  exact congrArg Version.mk (funext hfiles)

/-- A new builder applies one edit to the version it begins with, as `LogAndApply` does. -/
theorem Builder.saveTo_single (v : Version K V) (edit : VersionEdit K V) :
    ((⟨v, [], []⟩ : Builder K V).apply edit).saveTo = v.apply edit := by
  have hdeleted : ∀ level n, decide ((level, n) ∉ ((⟨v, [], []⟩ : Builder K V).apply edit).deletedFiles) =
      !edit.deleted level n := by
    intro level n
    have hnew : (level, n) ∈ (edit.newFiles.map fun nf => (nf.1, nf.2.number)) ↔
        n ∈ (edit.newAt level).map FileMetaData.number := by
      simp only [List.mem_map, Prod.mk.injEq]
      constructor
      · rintro ⟨⟨l, f⟩, hf, rfl, rfl⟩
        exact ⟨f, mem_newAt.mpr hf, rfl⟩
      · rintro ⟨f, hf, rfl⟩
        exact ⟨(level, f), mem_newAt.mp hf, rfl, rfl⟩
    simp only [Builder.apply, List.nil_append, List.mem_filter, VersionEdit.deleted, hnew, decide_not,
      Bool.not_eq_true', decide_eq_false_iff_not]
  simp only [Builder.saveTo, Version.apply, Version.mk.injEq]
  funext level
  rw [addedAt_apply]
  simp only [hdeleted]
  rfl

end Builder

/-! ### The snapshot that begins a MANIFEST -/

section

omit [LinearOrder K]

/-- The edit of `WriteSnapshot`. -/
def snapshotEdit (compactPointer : ℕ → Option (InternalKey K)) (v : Version K V) : VersionEdit K V where
  compactPointers := (List.range kNumLevels).filterMap fun level => (compactPointer level).map fun k => (level, k)
  newFiles := (List.range kNumLevels).flatMap fun level => (v.files level).map fun f => (level, f)

theorem mem_newFiles_snapshotEdit {p : ℕ → Option (InternalKey K)} {v : Version K V} {nf : ℕ × FileMetaData K V}
    (h : nf ∈ (snapshotEdit p v).newFiles) : nf.2 ∈ v.files nf.1 := by
  simp only [snapshotEdit, List.mem_flatMap, List.mem_map] at h
  obtain ⟨level, -, f, hf, rfl⟩ := h
  exact hf

end

/-! ### `VersionSet::Recover` -/

/-- A record of a MANIFEST: a `VersionEdit` with its numbers, where they are set. -/
structure ManifestRecord (K V : Type) extends VersionEdit K V where
  logNumber : Option ℕ := none
  prevLogNumber : Option ℕ := none
  nextFileNumber : Option ℕ := none
  lastSequence : Option ℕ := none

/-- What `VersionSet::Recover` leaves in the `VersionSet`. -/
structure VersionSet (K V : Type) where
  /-- `current_`. -/
  version : Version K V
  compactPointer : ℕ → Option (InternalKey K)
  manifestFileNumber : ℕ
  nextFileNumber : ℕ
  lastSequence : ℕ
  logNumber : ℕ
  prevLogNumber : ℕ

/-- The variables of the loop of `VersionSet::Recover`. -/
structure Recovering (K V : Type) where
  builder : Builder K V
  compactPointer : ℕ → Option (InternalKey K)
  /-- `log_number`, if a record has set it. -/
  logNumber : Option ℕ
  prevLogNumber : Option ℕ
  nextFile : Option ℕ
  lastSequence : Option ℕ

omit [LinearOrder K] in
/-- The variables before the loop. -/
def Recovering.start : Recovering K V := ⟨⟨Version.empty, [], []⟩, fun _ => none, none, none, none, none⟩

omit [LinearOrder K] in
/-- The loop for one record. -/
def Recovering.read (s : Recovering K V) (r : ManifestRecord K V) : Recovering K V where
  builder := s.builder.apply r.toVersionEdit
  compactPointer := setCompactPointers s.compactPointer r.compactPointers
  logNumber := r.logNumber <|> s.logNumber
  prevLogNumber := r.prevLogNumber <|> s.prevLogNumber
  nextFile := r.nextFileNumber <|> s.nextFile
  lastSequence := r.lastSequence <|> s.lastSequence

/-- The files that are recovered have been added by the records. -/
theorem mem_recovered {rs : List (ManifestRecord K V)} {level : ℕ} {f : FileMetaData K V}
    (h : f ∈ (rs.foldl Recovering.read Recovering.start).builder.saveTo.files level) : ∃ r ∈ rs, (level, f) ∈ r.newFiles := by
  have hbuilder : (rs.foldl Recovering.read Recovering.start).builder.base = Version.empty ∧
      (rs.foldl Recovering.read Recovering.start).builder.addedFiles = rs.flatMap fun r => r.newFiles := by
    clear h
    induction rs using List.reverseRecOn with
    | nil => exact ⟨rfl, rfl⟩
    | append_singleton rs r ih => simp [Recovering.read, Builder.apply, ih]
  have hmem := (List.mem_filter.mp ((saveTo_perm _ level).mem_iff.mp h)).1
  rw [hbuilder.1, Version.empty, List.nil_append, mem_addedAt, hbuilder.2] at hmem
  exact List.mem_flatMap.mp hmem

/-- `VersionSet::Recover` from the records of the MANIFEST. It fails if a number is missing. -/
def VersionSet.recover (records : List (ManifestRecord K V)) : Option (VersionSet K V) :=
  let s := records.foldl Recovering.read Recovering.start
  match s.nextFile, s.logNumber, s.lastSequence with
  | some nextFile, some logNumber, some lastSequence =>
    some {
      version := s.builder.saveTo
      compactPointer := s.compactPointer
      manifestFileNumber := nextFile
      nextFileNumber := nextFile + 1
      lastSequence := lastSequence
      logNumber := logNumber
      prevLogNumber := s.prevLogNumber.getD 0 }
  | _, _, _ => none

/-- The record that `LogAndApply` writes for an edit. -/
def logRecord (edit : VersionEdit K V) (logNumber prevLogNumber nextFileNumber lastSequence : ℕ) :
    ManifestRecord K V where
  toVersionEdit := edit.bare
  logNumber := some logNumber
  prevLogNumber := some prevLogNumber
  nextFileNumber := some nextFileNumber
  lastSequence := some lastSequence

end TLevelDB.Db
