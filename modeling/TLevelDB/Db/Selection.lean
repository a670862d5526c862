import TLevelDB.Db.Install
import Mathlib.Order.Bounds.Basic

/-!
# What input selection guarantees

Three statements in the terms of a reader of `version_set.cc`, put together from the lemmas
of `TLevelDB.Db.Files` and `TLevelDB.Db.Inputs`.

The search of a sorted level for a file that overlaps a range is exact, though it looks at
one file only.

`GetOverlappingInputs` ends, and finds the files that overlap the range; on level 0,
where a file that reaches out of the range makes it larger and starts the search again,
it finds the least set of files that is closed under this (`OverlapClosed`).

The inputs of a compaction leave nothing behind that would be read in place of what they
hold (`Compaction.Closed`).
-/

namespace TLevelDB.Db

variable {K V : Type} [LinearOrder K]

/-! ### `FindFile` and `SomeFileOverlapsRange` -/

section Search

variable {files : List (FileMetaData K V)} {key : InternalKey K} {f : FileMetaData K V} {b e : Option K}

/-- A file with a user key of the range is in the range. -/
theorem overlaps_of_covers {u : K} (hu : InRange b e u) (hf : f.Covers u) : Overlaps b e f := by
  constructor
  · cases b with
    | none => rfl
    | some k => simpa [afterFile] using (hu.1 k rfl).trans hf.2
  · cases e with
    | none => rfl
    | some k => simpa [beforeFile] using hf.1.trans (hu.2 k rfl)

/-- Ranges with a common user key overlap, and only they do. -/
theorem overlaps_iff_exists (hf : f.smallest.userKey ≤ f.largest.userKey) (hbe : ∀ k ∈ b, ∀ k' ∈ e, k ≤ k') :
    Overlaps b e f ↔ ∃ u, InRange b e u ∧ f.Covers u := by
  constructor
  · rintro ⟨h1, h2⟩
    -- the later of the two beginnings is in both ranges
    cases b with
    | none =>
      refine ⟨f.smallest.userKey, ⟨by simp, fun k hk => ?_⟩, le_rfl, hf⟩
      rw [Option.mem_def.mp hk] at h2
      simpa [beforeFile] using h2
    | some k =>
      have hk : k ≤ f.largest.userKey := by simpa [afterFile] using h1
      refine ⟨max k f.smallest.userKey, ⟨by simp, fun k' hk' => ?_⟩, le_max_right _ _, max_le hk hf⟩
      rw [Option.mem_def.mp hk'] at h2
      exact max_le (hbe k rfl k' hk') (by simpa [beforeFile] using h2)
  · rintro ⟨u, hu, hcovers⟩
    exact overlaps_of_covers hu hcovers

/-- `FindFile` returns the least index of a file that ends at or after the key, or the
number of files. -/
theorem isLeast_findFile (hs : files.Pairwise fun f g => f.largest < g.largest) :
    IsLeast ({i | ∃ f, files[i]? = some f ∧ key ≤ f.largest} ∪ {files.length}) (findFile files key) := by
  rw [findFile_eq hs]
  constructor
  · have hle : files.findIdx (fun f => key ≤ f.largest) ≤ files.length := List.findIdx_le_length
    rcases hle.lt_or_eq with hlt | heq
    · exact Or.inl ⟨_, List.getElem?_eq_getElem hlt, by simpa using List.findIdx_getElem (w := hlt)⟩
    · exact Or.inr heq
  · rintro i (⟨f, hf, hk⟩ | rfl)
    · obtain ⟨hi, rfl⟩ := List.getElem?_eq_some_iff.mp hf
      by_contra hlt
      simpa [hk] using List.not_of_lt_findIdx (not_le.mp hlt)
    · exact List.findIdx_le_length

/-- **The search of sorted files is exact.** The fast path of `SomeFileOverlapsRange` finds a
file that has a user key in the range if there is one, as the scan of all files does. -/
theorem someFileOverlapsRange_exact (hs : files.Pairwise FileMetaData.Before) (hfiles : ∀ f ∈ files, f.Bounded)
    (smallest largest : Option K) (hrange : ∀ k ∈ smallest, ∀ k' ∈ largest, k ≤ k') (key : InternalKey K) :
    (someFileOverlapsRange true files smallest largest = true ↔
      ∃ f ∈ files, ∃ u, InRange smallest largest u ∧ f.Covers u) ∧
    someFileOverlapsRange true files smallest largest = someFileOverlapsRange false files smallest largest ∧
    IsLeast ({i | ∃ f, files[i]? = some f ∧ key ≤ f.largest} ∪ {files.length}) (findFile files key) := by
  have hsorted := someFileOverlapsRange_sorted hs hfiles smallest largest
  refine ⟨?_, ?_, isLeast_findFile (pairwise_largest hs hfiles)⟩
  · rw [hsorted]
    refine exists_congr fun f => and_congr_right fun hf => ?_
    exact overlaps_iff_exists (InternalKey.userKey_mono (hfiles f hf).smallest_le_largest) hrange
  · rw [Bool.eq_iff_iff, hsorted, someFileOverlapsRange_scan]

/-- Two files that share a user key. -/
def splitKeyFiles : List (FileMetaData ℕ ℕ) :=
  [⟨1, 10, ⟨2, 9, .value⟩, ⟨5, 7, .value⟩, []⟩, ⟨2, 10, ⟨5, 3, .deletion⟩, ⟨8, 4, .value⟩, []⟩]

theorem splitKeyFiles_exact :
    (someFileOverlapsRange true splitKeyFiles (some 5) none = true ↔
      ∃ f ∈ splitKeyFiles, ∃ u, InRange (some 5) none u ∧ f.Covers u) ∧
    someFileOverlapsRange true splitKeyFiles (some 5) none = someFileOverlapsRange false splitKeyFiles (some 5) none ∧
    IsLeast ({i | ∃ f, splitKeyFiles[i]? = some f ∧ (⟨5, 5, .value⟩ : InternalKey ℕ) ≤ f.largest} ∪
      {splitKeyFiles.length}) (findFile splitKeyFiles ⟨5, 5, .value⟩) := by
  refine someFileOverlapsRange_exact ?_ ?_ _ _ (by simp) _
  · simp only [splitKeyFiles, List.pairwise_cons, List.mem_singleton, forall_eq, FileMetaData.Before]
    exact ⟨by decide, by simp, List.Pairwise.nil⟩
  · intro f hf
    simp only [splitKeyFiles, List.mem_cons, List.not_mem_nil, or_false] at hf
    rcases hf with rfl | rfl
    · exact ⟨by decide, by decide⟩
    · exact ⟨by decide, by decide⟩

end Search

/-! ### `GetOverlappingInputs` -/

section Overlapping

variable {files inputs : List (FileMetaData K V)} {b e b' e' : Option K} {level : ℕ} {f g : FileMetaData K V}
  {S : Set (FileMetaData K V)}

/-- The passes of `GetOverlappingInputs` from a range on, until one finds the inputs. -/
inductive Passes (level : ℕ) (files : List (FileMetaData K V)) :
    Option K → Option K → List (FileMetaData K V) → Prop where
  /-- The range does not grow. -/
  | last {b e : Option K} {inputs : List (FileMetaData K V)} :
      scanOverlapping level b e files [] = .inr inputs → Passes level files b e inputs
  /-- The range has grown, and the search starts again. -/
  | again {b e b' e' : Option K} {inputs : List (FileMetaData K V)} :
      scanOverlapping level b e files [] = .inl (b', e') → Passes level files b' e' inputs →
        Passes level files b e inputs

/-- The file does not end before the range, or before all of `S` begin. -/
def AboveHull (b : Option K) (S : Set (FileMetaData K V)) (f : FileMetaData K V) : Prop :=
  ∀ k ∈ b, k ≤ f.largest.userKey ∨ ∃ g ∈ S, g.smallest.userKey ≤ f.largest.userKey

/-- The file does not begin after the range, or after all of `S` end. -/
def BelowHull (e : Option K) (S : Set (FileMetaData K V)) (f : FileMetaData K V) : Prop :=
  ∀ k ∈ e, f.smallest.userKey ≤ k ∨ ∃ g ∈ S, f.smallest.userKey ≤ g.largest.userKey

/-- The set has all files that overlap the range, and all that overlap the hull of the
range and its members. An end that is not given has no bound to move. -/
structure OverlapClosed (files : List (FileMetaData K V)) (b e : Option K) (S : Set (FileMetaData K V)) : Prop where
  subset : ∀ f ∈ S, f ∈ files
  range : ∀ f ∈ files, Overlaps b e f → f ∈ S
  hull : ∀ f ∈ files, AboveHull b S f → BelowHull e S f → f ∈ S

theorem passes_overlappingLoop_zero {n : ℕ} (hn : endsOutside b e files < n) :
    Passes 0 files b e (overlappingLoop 0 files n b e) := by
  induction n generalizing b e with
  | zero => omega
  | succ n ih =>
    rw [overlappingLoop]
    rcases scanOverlapping_zero (b := b) (e := e) files [] with ⟨h, -⟩ | ⟨b', e', h, hgrows⟩
    · rw [h]
      exact .last h
    · rw [h]
      have hlt := hgrows.endsOutside_lt
      exact .again h (ih (by omega))

/-- The search ends on every level. -/
theorem passes_getOverlappingInputs (v : Version K V) (level : ℕ) (b e : Option (InternalKey K)) :
    Passes level (v.files level) (b.map InternalKey.userKey) (e.map InternalKey.userKey)
      (v.getOverlappingInputs level b e) := by
  rcases Nat.eq_zero_or_pos level with rfl | hpos
  · exact passes_overlappingLoop_zero (Nat.lt_succ_of_le (endsOutside_le _ _ _))
  · rw [getOverlappingInputs_pos v hpos]
    exact .last (by rw [scanOverlapping_pos hpos]; simp)

/-- What does not end before the range does not end before a range it has grown to: the
two ends of a file matter apart, so the file may be taken to begin at the range's end. -/
theorem OverlapClosure.afterFile_eq_false (h : OverlapClosure files b e inputs b' e') (hf : afterFile b f = false) :
    afterFile b' f = false := by
  cases e with
  | none => exact (h.overlaps f ⟨hf, rfl⟩).1
  | some k =>
    exact (h.overlaps { f with smallest := ⟨k, 0, .deletion⟩ } ⟨hf, by simp [beforeFile]⟩).1

theorem OverlapClosure.beforeFile_eq_false (h : OverlapClosure files b e inputs b' e') (hf : beforeFile e f = false) :
    beforeFile e' f = false := by
  cases b with
  | none => exact (h.overlaps f ⟨rfl, hf⟩).2
  | some k =>
    exact (h.overlaps { f with largest := ⟨k, 0, .deletion⟩ } ⟨by simp [afterFile], hf⟩).2

/-- What overlaps the hull of the range and the files found overlaps the last range. -/
theorem OverlapClosure.overlaps_of_hull (h : OverlapClosure files b e inputs b' e')
    (habove : AboveHull b {g | g ∈ inputs} f) (hbelow : BelowHull e {g | g ∈ inputs} f) : Overlaps b' e' f := by
  constructor
  · cases b with
    | none => exact h.afterFile_eq_false rfl
    | some k =>
      rcases habove k rfl with hle | ⟨g, hg, hle⟩
      · exact h.afterFile_eq_false (by simpa [afterFile] using hle)
      · cases b' with
        | none => rfl
        | some k' => simpa [afterFile] using ((h.within g hg).1 k' rfl).trans hle
  · cases e with
    | none => exact h.beforeFile_eq_false rfl
    | some k =>
      rcases hbelow k rfl with hle | ⟨g, hg, hle⟩
      · exact h.beforeFile_eq_false (by simpa [beforeFile] using hle)
      · cases e' with
        | none => rfl
        | some k' => simpa [beforeFile] using hle.trans ((h.within g hg).2 k' rfl)

theorem OverlapClosure.overlapClosed (h : OverlapClosure files b e inputs b' e') :
    OverlapClosed files b e {f | f ∈ inputs} where
  subset _ hf := (h.mem_iff.mp hf).1
  range f hf ho := h.mem_iff.mpr ⟨hf, h.overlaps f ho⟩
  hull _ hf habove hbelow := h.mem_iff.mpr ⟨hf, h.overlaps_of_hull habove hbelow⟩

/-- The range `b'`, `e'` does not reach out of the hull of the range `b`, `e` and `S`. -/
structure WithinHull (b e : Option K) (S : Set (FileMetaData K V)) (b' e' : Option K) : Prop where
  above : ∀ f, afterFile b' f = false → AboveHull b S f
  below : ∀ f, beforeFile e' f = false → BelowHull e S f

theorem withinHull_self : WithinHull b e S b e := by
  constructor
  · rintro f hf k rfl
    exact Or.inl (by simpa [afterFile] using hf)
  · rintro f hf k rfl
    exact Or.inl (by simpa [beforeFile] using hf)

/-- A file that makes such a range larger is in every closed set. -/
theorem WithinHull.grows {b₁ e₁ b₂ e₂ : Option K} (h : WithinHull b e S b₁ e₁) (hS : OverlapClosed files b e S)
    (hgrows : Grows files b₁ e₁ b₂ e₂) : WithinHull b e S b₂ e₂ := by
  cases hgrows with
  | @down f k hf ho hk hlt =>
    refine ⟨fun g hg k' _ => Or.inr ⟨f, hS.hull f hf (h.above f ho.1) (h.below f ho.2), ?_⟩, h.below⟩
    simpa [afterFile] using hg
  | @up f k hf ho hk hlt =>
    refine ⟨h.above, fun g hg k' _ => Or.inr ⟨f, hS.hull f hf (h.above f ho.1) (h.below f ho.2), ?_⟩⟩
    simpa [beforeFile] using hg

/-- The search finds only files of a closed set. -/
theorem WithinHull.mem_of_passes {b₁ e₁ : Option K} (hpasses : Passes 0 files b₁ e₁ inputs)
    (h : WithinHull b e S b₁ e₁) (hS : OverlapClosed files b e S) (hf : f ∈ inputs) : f ∈ S := by
  induction hpasses with
  | @last b₁ e₁ inputs hscan =>
    rcases scanOverlapping_zero (b := b₁) (e := e₁) files [] with ⟨h1, -⟩ | ⟨b', e', h1, -⟩
    · rw [hscan] at h1
      have hmem : f ∈ files ∧ Overlaps b₁ e₁ f := by
        rw [Sum.inr.inj h1] at hf
        simpa using hf
      exact hS.hull f hmem.1 (h.above f hmem.2.1) (h.below f hmem.2.2)
    · rw [hscan] at h1
      cases h1
  | @again b₁ e₁ b₂ e₂ inputs hscan _ ih =>
    rcases scanOverlapping_zero (b := b₁) (e := e₁) files [] with ⟨h1, -⟩ | ⟨b', e', h1, hgrows⟩
    · rw [hscan] at h1
      cases h1
    · rw [hscan] at h1
      cases h1
      exact ih (h.grows hS hgrows) hf

/-- **`GetOverlappingInputs`**: the search ends; from level 1 on it finds the files that
overlap the range, in order, and on level 0 the least closed set, each file once. -/
theorem getOverlappingInputs_least (v : Version K V) (level : ℕ) (b e : Option (InternalKey K)) :
    Passes level (v.files level) (b.map InternalKey.userKey) (e.map InternalKey.userKey)
      (v.getOverlappingInputs level b e) ∧
    (0 < level → v.getOverlappingInputs level b e = (v.files level).filter fun f =>
      Overlaps (b.map InternalKey.userKey) (e.map InternalKey.userKey) f) ∧
    (level = 0 → (v.getOverlappingInputs level b e).Sublist (v.files level) ∧
      IsLeast {S | OverlapClosed (v.files level) (b.map InternalKey.userKey) (e.map InternalKey.userKey) S}
        {f | f ∈ v.getOverlappingInputs level b e}) := by
  have hpasses := passes_getOverlappingInputs v level b e
  refine ⟨hpasses, fun hpos => getOverlappingInputs_pos v hpos b e, ?_⟩
  rintro rfl
  obtain ⟨b', e', hc⟩ := getOverlappingInputs_zero v b e
  refine ⟨?_, hc.overlapClosed, fun S hS f hf => withinHull_self.mem_of_passes hpasses hS hf⟩
  rw [hc.eq]
  exact List.filter_sublist

end Overlapping

/-! ### The inputs of a compaction -/

section Inputs

variable {o : Options K V} {v : Version K V} {c : Compaction K V}

/-- No file of the level but the inputs holds an older entry of a user key of theirs. -/
def NoOlderOutside (files inputs : List (FileMetaData K V)) : Prop :=
  ∀ g ∈ files, g ∉ inputs → ∀ f ∈ inputs, ∀ x ∈ f.table, ∀ y ∈ g.table, y.userKey = x.userKey →
    ¬ y.sequence < x.sequence

/-- **The inputs of a compaction are closed.** -/
structure Compaction.Closed (v : Version K V) (c : Compaction K V) : Prop where
  /-- The files of the next level that overlap the user keys of the inputs are inputs. -/
  overlapping : ∀ g ∈ v.files (c.level + 1), MeetsHull c.inputs0 g → g ∈ c.inputs1
  noOlder0 : NoOlderOutside (v.files c.level) c.inputs0
  noOlder1 : NoOlderOutside (v.files (c.level + 1)) c.inputs1
  /-- The other files of the next level are outside the range of all inputs. -/
  outside : ∀ g ∈ v.files (c.level + 1), g ∉ c.inputs1 → ∀ s l, IsRange c.inputs s l →
    g.largest < s ∨ l < g.smallest

theorem Closed.noOlderOutside {files inputs : List (FileMetaData K V)} (h : Closed files inputs)
    (hok : ∀ f ∈ files, f.Ok) : NoOlderOutside files inputs := by
  intro g hg hgi f hf x hx y hy hk
  have hfok := hok f (h.subset f hf)
  rcases h.outside g hg hgi with hbefore | hafter
  · exact not_lt.mpr (InternalKey.sequence_le_of_lt ((hbefore f hf).key_lt (hok g hg) hfok hy hx) hk)
  · have hx' := (hfok.covers hx).2
    have hy' := ((hok g hg).covers hy).1
    exact absurd ((hx'.trans_lt (hafter f hf)).trans_le hy') (by rw [hk]; exact lt_irrefl _)

theorem Compaction.InputsOk.closed_inputs (h : c.InputsOk v) (hv : v.Ordered) : c.Closed v where
  overlapping g hg hm := h.closure.subset g ((mem_overlapping_pos (Nat.succ_pos _) h.ne_nil).mpr ⟨hg, hm⟩)
  noOlder0 := h.closed.noOlderOutside (hv.file _)
  noOlder1 := h.closure.closed.noOlderOutside (hv.file _)
  outside g hg hgi s l hrange := by
    rcases h.outside hv hg hgi with hbefore | hafter
    · obtain ⟨f, hf, rfl⟩ := hrange.exists_smallest
      exact Or.inl (hbefore f hf)
    · obtain ⟨f, hf, rfl⟩ := hrange.exists_largest
      exact Or.inr (InternalKey.lt_of_userKey_lt (hafter f hf))

/-- **What `PickCompaction` and `CompactRange` choose is closed.** -/
theorem Picked.inputs_closed (h : Picked o v c) (hv : v.Ordered) : c.Closed v := (h.inputsOk hv).closed_inputs hv

theorem picked_closed_boundary : boundaryCompaction.Closed boundaryVersion :=
  boundaryVersion_picked.inputs_closed boundaryVersion_ok.toOrdered

end Inputs

end TLevelDB.Db
