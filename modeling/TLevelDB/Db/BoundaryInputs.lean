import TLevelDB.Db.Files
import TLevelDB.Db.Compaction
import TLevelDB.Lib.SortedSearch
import Mathlib.Order.MinMax

/-!
# Boundary files

Two files of a level may share a user key: one ends with it, and the next begins with an
older entry of it. If only the first is compacted, the older entry comes to stand above the
newer one. `AddBoundaryInputs` adds the second, and goes on from where that one ends.

Its loop has no counter. It stops because the key it has reached grows with every turn, so
that a file is added at most once (`addBoundaryLoop_run`), and then there is none left to
add (`addBoundaryInputs_closure`). For this the files need not be in order.
-/

namespace TLevelDB.Db

variable {K V : Type} [LinearOrder K]

/-! ### The range of some files -/

section Range

variable {files : List (FileMetaData K V)} {f : FileMetaData K V} {s l : InternalKey K}

/-- `s` and `l` are the smallest and the largest key of the files. -/
structure IsRange (files : List (FileMetaData K V)) (s l : InternalKey K) : Prop where
  smallest_le : ∀ f ∈ files, s ≤ f.smallest
  le_largest : ∀ f ∈ files, f.largest ≤ l
  exists_smallest : ∃ f ∈ files, f.smallest = s
  exists_largest : ∃ f ∈ files, f.largest = l

theorem getRange_foldl {a b : InternalKey K} (files : List (FileMetaData K V)) :
    let r := files.foldl (fun r g => (min g.smallest r.1, max g.largest r.2)) (a, b)
    (r.1 ≤ a ∧ ∀ f ∈ files, r.1 ≤ f.smallest) ∧ (b ≤ r.2 ∧ ∀ f ∈ files, f.largest ≤ r.2) ∧
      (r.1 = a ∨ ∃ f ∈ files, f.smallest = r.1) ∧ (r.2 = b ∨ ∃ f ∈ files, f.largest = r.2) := by
  induction files generalizing a b with
  | nil => simp
  | cons g files ih =>
    obtain ⟨⟨h1, h2⟩, ⟨h3, h4⟩, h5, h6⟩ := ih (a := min g.smallest a) (b := max g.largest b)
    simp only [List.foldl_cons, List.mem_cons, forall_eq_or_imp, exists_eq_or_imp]
    refine ⟨⟨h1.trans (min_le_right _ _), h1.trans (min_le_left _ _), h2⟩,
      ⟨(le_max_right _ _).trans h3, (le_max_left _ _).trans h3, h4⟩, ?_, ?_⟩
    · rcases h5 with h5 | h5
      · rcases min_choice g.smallest a with hm | hm
        · exact Or.inr (Or.inl (h5.trans hm).symm)
        · exact Or.inl (h5.trans hm)
      · exact Or.inr (Or.inr h5)
    · rcases h6 with h6 | h6
      · rcases max_choice g.largest b with hm | hm
        · exact Or.inr (Or.inl (h6.trans hm).symm)
        · exact Or.inl (h6.trans hm)
      · exact Or.inr (Or.inr h6)

theorem exists_getRange (h : files ≠ []) : ∃ s l, getRange files = some (s, l) ∧ IsRange files s l := by
  obtain ⟨f, files, rfl⟩ := List.exists_cons_of_ne_nil h
  obtain ⟨⟨h1, h2⟩, ⟨h3, h4⟩, h5, h6⟩ := getRange_foldl (a := f.smallest) (b := f.largest) files
  refine ⟨_, _, rfl, ⟨?_, ?_, ?_, ?_⟩⟩
  · simpa using ⟨h1, h2⟩
  · simpa using ⟨h3, h4⟩
  · rcases h5 with h5 | ⟨g, hg, h5⟩
    · exact ⟨f, by simp, h5.symm⟩
    · exact ⟨g, by simp [hg], h5⟩
  · rcases h6 with h6 | ⟨g, hg, h6⟩
    · exact ⟨f, by simp, h6.symm⟩
    · exact ⟨g, by simp [hg], h6⟩

theorem findLargestKey_eq (files : List (FileMetaData K V)) : findLargestKey files = (getRange files).map Prod.snd := by
  have hsnd : ∀ (files : List (FileMetaData K V)) (a b : InternalKey K),
      (files.foldl (fun r g => (min g.smallest r.1, max g.largest r.2)) (a, b)).2 =
        files.foldl (fun l g => max g.largest l) b := by
    intro files
    induction files with
    | nil => simp
    | cons g files ih => simp [ih]
  cases files with
  | nil => rfl
  | cons f files => simp [findLargestKey, getRange, hsnd]

/-- `l` is the largest key of the files. -/
structure IsLargest (files : List (FileMetaData K V)) (l : InternalKey K) : Prop where
  le : ∀ f ∈ files, f.largest ≤ l
  exists_eq : ∃ f ∈ files, f.largest = l

theorem exists_findLargestKey (h : files ≠ []) : ∃ l, findLargestKey files = some l ∧ IsLargest files l := by
  obtain ⟨s, l, hr, hrange⟩ := exists_getRange h
  exact ⟨l, by rw [findLargestKey_eq, hr]; rfl, hrange.le_largest, hrange.exists_largest⟩

end Range

/-! ### Boundary files -/

section Boundary

variable {files inputs : List (FileMetaData K V)} {f g : FileMetaData K V} {l : InternalKey K}

/-- `f` begins after `l` with its user key. -/
def IsBoundary (l : InternalKey K) (f : FileMetaData K V) : Prop := l < f.smallest ∧ f.smallest.userKey = l.userKey

instance (l : InternalKey K) : DecidablePred (IsBoundary (V := V) l) := fun _ => inferInstanceAs (Decidable (_ ∧ _))

/-- One turn of the loop of `FindSmallestBoundaryFile`. -/
def betterBoundary (l : InternalKey K) (best : Option (FileMetaData K V)) (f : FileMetaData K V) :
    Option (FileMetaData K V) :=
  if IsBoundary l f then
    match best with
    | none => some f
    | some b => if f.smallest < b.smallest then some f else some b
  else best

theorem findSmallestBoundaryFile_eq (files : List (FileMetaData K V)) (l : InternalKey K) :
    findSmallestBoundaryFile files l = files.foldl (betterBoundary l) none := rfl

/-- `best` is the boundary file that begins first among `files`. -/
def IsBest (l : InternalKey K) (files : List (FileMetaData K V)) : Option (FileMetaData K V) → Prop
  | none => ∀ f ∈ files, ¬ IsBoundary l f
  | some f => f ∈ files ∧ IsBoundary l f ∧ ∀ g ∈ files, IsBoundary l g → f.smallest ≤ g.smallest

theorem isBest_step {done : List (FileMetaData K V)} {best : Option (FileMetaData K V)} (h : IsBest l done best)
    (f : FileMetaData K V) : IsBest l (done ++ [f]) (betterBoundary l best f) := by
  unfold betterBoundary
  cases best with
  | none =>
    simp only [IsBest] at h
    split_ifs with hf
    · refine ⟨by simp, hf, fun g hg hbg => ?_⟩
      rcases List.mem_append.mp hg with hg | hg
      · exact absurd hbg (h g hg)
      · rw [List.mem_singleton.mp hg]
    · intro g hg
      rcases List.mem_append.mp hg with hg | hg
      · exact h g hg
      · rw [List.mem_singleton.mp hg]
        exact hf
  | some b =>
    obtain ⟨hb, hbb, hmin⟩ := h
    split_ifs with hf
    · dsimp only
      split_ifs with hlt
      · refine ⟨by simp, hf, fun g hg hbg => ?_⟩
        rcases List.mem_append.mp hg with hg | hg
        · exact hlt.le.trans (hmin g hg hbg)
        · rw [List.mem_singleton.mp hg]
      · refine ⟨by simp [hb], hbb, fun g hg hbg => ?_⟩
        rcases List.mem_append.mp hg with hg | hg
        · exact hmin g hg hbg
        · rw [List.mem_singleton.mp hg]
          exact not_lt.mp hlt
    · refine ⟨by simp [hb], hbb, fun g hg hbg => ?_⟩
      rcases List.mem_append.mp hg with hg | hg
      · exact hmin g hg hbg
      · rw [List.mem_singleton.mp hg] at hbg
        exact absurd hbg hf

/-- `FindSmallestBoundaryFile` finds the boundary file that begins first. -/
theorem isBest_findSmallestBoundaryFile (files : List (FileMetaData K V)) (l : InternalKey K) :
    IsBest l files (findSmallestBoundaryFile files l) := by
  have hfold : ∀ (files done : List (FileMetaData K V)) (best : Option (FileMetaData K V)), IsBest l done best →
      IsBest l (done ++ files) (files.foldl (betterBoundary l) best) := by
    intro files
    induction files with
    | nil => simp
    | cons f files ih =>
      intro done best h
      simpa using ih (done ++ [f]) _ (isBest_step h f)
  rw [findSmallestBoundaryFile_eq]
  simpa using hfold files [] none (by simp [IsBest])

/-! ### The loop -/

/-- The loop of `AddBoundaryInputs` from the largest key `l` on: it adds `added` one after the
other, and stops at the largest key `l'`, for which it finds no boundary file. -/
inductive BoundaryRun (files : List (FileMetaData K V)) :
    InternalKey K → List (FileMetaData K V) → InternalKey K → Prop where
  | stop {l : InternalKey K} : findSmallestBoundaryFile files l = none → BoundaryRun files l [] l
  | add {l l' : InternalKey K} {f : FileMetaData K V} {added : List (FileMetaData K V)} :
      findSmallestBoundaryFile files l = some f → BoundaryRun files f.largest added l' →
      BoundaryRun files l (f :: added) l'

theorem findSmallestBoundaryFile_eq_none (h : findSmallestBoundaryFile files l = none) : ∀ f ∈ files, ¬ IsBoundary l f := by
  have hbest := isBest_findSmallestBoundaryFile files l
  rwa [h] at hbest

theorem findSmallestBoundaryFile_eq_some (h : findSmallestBoundaryFile files l = some f) :
    f ∈ files ∧ IsBoundary l f ∧ ∀ g ∈ files, IsBoundary l g → f.smallest ≤ g.smallest := by
  have hbest := isBest_findSmallestBoundaryFile files l
  rwa [h] at hbest

/-- The loop ends by itself: a turn leaves fewer files that begin after the largest key. -/
theorem addBoundaryLoop_run (hle : ∀ f ∈ files, f.smallest ≤ f.largest) {n : ℕ} (cf : List (FileMetaData K V))
    (hn : files.countP (fun f => l < f.smallest) ≤ n) :
    ∃ added l', BoundaryRun files l added l' ∧ addBoundaryLoop files n l cf = cf ++ added := by
  induction n generalizing l cf with
  | zero =>
    refine ⟨[], l, .stop ?_, by simp [addBoundaryLoop]⟩
    rw [Option.eq_none_iff_forall_ne_some]
    intro f hf
    obtain ⟨hmem, hb, -⟩ := findSmallestBoundaryFile_eq_some hf
    have hnone := List.countP_eq_zero.mp (Nat.le_zero.mp hn) f hmem
    exact absurd hb.1 (by simpa using hnone)
  | succ n ih =>
    rw [addBoundaryLoop]
    cases hf : findSmallestBoundaryFile files l with
    | none => exact ⟨[], l, .stop hf, by simp⟩
    | some f =>
      obtain ⟨hmem, hb, -⟩ := findSmallestBoundaryFile_eq_some hf
      have hlt : files.countP (fun g => f.largest < g.smallest) < files.countP fun g => l < g.smallest := by
        refine SortedSearch.countP_lt (fun g _ hg => ?_) hmem (by simpa using hb.1) (by simpa using hle f hmem)
        simp only [decide_eq_true_eq] at hg ⊢
        exact (hb.1.trans_le (hle f hmem)).trans hg
      obtain ⟨added, l', hrun, heq⟩ := ih (l := f.largest) (cf ++ [f]) (by omega)
      exact ⟨f :: added, l', .add hf hrun, by simpa using heq⟩

theorem BoundaryRun.closed {added : List (FileMetaData K V)} {l' : InternalKey K} (h : BoundaryRun files l added l') :
    ∀ f ∈ files, ¬ IsBoundary l' f := by
  induction h with
  | stop hnone => exact findSmallestBoundaryFile_eq_none hnone
  | add _ _ ih => exact ih

/-- What holds of the files and their largest key before the loop of `AddBoundaryInputs`,
and is kept when a boundary file is added, holds after it. -/
theorem BoundaryRun.induct (P : List (FileMetaData K V) → InternalKey K → Prop)
    (step : ∀ cf l f, P cf l → f ∈ files → IsBoundary l f → (∀ g ∈ files, IsBoundary l g → f.smallest ≤ g.smallest) →
      P (cf ++ [f]) f.largest) {added : List (FileMetaData K V)} {l' : InternalKey K} (hrun : BoundaryRun files l added l')
    {cf : List (FileMetaData K V)} (h : P cf l) : P (cf ++ added) l' := by
  induction hrun generalizing cf with
  | stop _ => simpa using h
  | add hf _ ih =>
    obtain ⟨hmem, hb, hmin⟩ := findSmallestBoundaryFile_eq_some hf
    simpa using ih (step _ _ _ h hmem hb hmin)

theorem addBoundaryInputs_run (hle : ∀ f ∈ files, f.smallest ≤ f.largest) (hl : findLargestKey inputs = some l) :
    ∃ added l', BoundaryRun files l added l' ∧ addBoundaryInputs files inputs = inputs ++ added := by
  rw [addBoundaryInputs, hl]
  exact addBoundaryLoop_run hle inputs List.countP_le_length

theorem addBoundaryInputs_induct (P : List (FileMetaData K V) → InternalKey K → Prop) (hok : ∀ f ∈ files, f.Ok)
    (step : ∀ cf l f, P cf l → f ∈ files → IsBoundary l f → (∀ g ∈ files, IsBoundary l g → f.smallest ≤ g.smallest) →
      P (cf ++ [f]) f.largest) (hne : inputs ≠ []) (h : ∀ l, IsLargest inputs l → P inputs l) :
    ∃ l', P (addBoundaryInputs files inputs) l' ∧ ∀ f ∈ files, ¬ IsBoundary l' f := by
  obtain ⟨l, hl, hlargest⟩ := exists_findLargestKey hne
  obtain ⟨added, l', hrun, heq⟩ := addBoundaryInputs_run (fun f hf => (hok f hf).smallest_le_largest) hl
  rw [heq]
  exact ⟨l', hrun.induct P step (h l hlargest), hrun.closed⟩

/-! ### The files added -/

/-- The largest key reached: that of the last file added, or `l` if none was. -/
def reachedKey (l : InternalKey K) (added : List (FileMetaData K V)) : InternalKey K :=
  (added.getLast?.map FileMetaData.largest).getD l

omit [LinearOrder K] in
theorem reachedKey_cons (l : InternalKey K) (f : FileMetaData K V) (added : List (FileMetaData K V)) :
    reachedKey l (f :: added) = reachedKey f.largest added := by
  cases added with
  | nil => rfl
  | cons g added =>
    rw [reachedKey, reachedKey, List.getLast?_cons_cons]
    simp [List.getLast?_cons]

/-- `result` is `inputs` with its boundary files: `added` in this order, from the largest key
`l` of `inputs` on. -/
structure BoundaryAdded (files inputs : List (FileMetaData K V)) (l : InternalKey K)
    (added result : List (FileMetaData K V)) : Prop where
  /-- What was there stays where it is. -/
  eq : result = inputs ++ added
  /-- A file is added at most once, and none that was there. -/
  nodup : added.Nodup
  new : ∀ f ∈ added, f ∈ files ∧ f ∉ inputs
  /-- Each begins with the user key that the files before it have reached. -/
  starts : ∀ done f rest, added = done ++ f :: rest → IsBoundary (reachedKey l done) f
  /-- No file of the level is left to add. -/
  closed : ∀ f ∈ files, ¬ IsBoundary (reachedKey l added) f

namespace BoundaryRun

variable {added : List (FileMetaData K V)} {l' : InternalKey K}

theorem reachedKey_eq (h : BoundaryRun files l added l') : l' = reachedKey l added := by
  induction h with
  | stop _ => rfl
  | add _ _ ih => rw [ih, reachedKey_cons]

theorem starts (h : BoundaryRun files l added l') {done rest : List (FileMetaData K V)}
    (heq : added = done ++ f :: rest) : IsBoundary (reachedKey l done) f := by
  induction h generalizing done with
  | stop _ => simp at heq
  | add hf _ ih =>
    cases done with
    | nil =>
      obtain ⟨rfl, -⟩ := List.cons.inj heq
      exact (findSmallestBoundaryFile_eq_some hf).2.1
    | cons g done =>
      obtain ⟨rfl, htail⟩ := List.cons.inj heq
      rw [reachedKey_cons]
      exact ih htail

/-- The files added are of the level, and begin one after the other after `l`. -/
theorem mem_and_lt (hle : ∀ f ∈ files, f.smallest ≤ f.largest) (h : BoundaryRun files l added l') :
    (∀ f ∈ added, f ∈ files ∧ l < f.smallest) ∧ added.Pairwise fun f g => f.smallest < g.smallest := by
  induction h with
  | stop _ => simp
  | add hf _ ih =>
    obtain ⟨hmem, hb, -⟩ := findSmallestBoundaryFile_eq_some hf
    obtain ⟨ih, hpair⟩ := ih
    refine ⟨?_, List.pairwise_cons.mpr ⟨fun g hg => ?_, hpair⟩⟩
    · rw [List.forall_mem_cons]
      exact ⟨⟨hmem, hb.1⟩, fun g hg => ⟨(ih g hg).1, (hb.1.trans_le (hle _ hmem)).trans (ih g hg).2⟩⟩
    · exact (hle _ hmem).trans_lt (ih g hg).2

end BoundaryRun

/-- **`AddBoundaryInputs` ends with the boundary closure** of the files it is given. The level's
files may overlap and come in any order. -/
theorem addBoundaryInputs_closure (hle : ∀ f ∈ files, f.smallest ≤ f.largest) :
    (inputs = [] → addBoundaryInputs files inputs = []) ∧
      (inputs ≠ [] → ∃ l added l', IsLargest inputs l ∧ BoundaryRun files l added l' ∧
        BoundaryAdded files inputs l added (addBoundaryInputs files inputs)) := by
  refine ⟨fun h => by rw [h]; rfl, fun hne => ?_⟩
  obtain ⟨l, hl, hlargest⟩ := exists_findLargestKey hne
  obtain ⟨added, l', hrun, heq⟩ := addBoundaryInputs_run hle hl
  obtain ⟨hmem, hpair⟩ := hrun.mem_and_lt hle
  refine ⟨l, added, l', hlargest, hrun, heq, hpair.imp fun hlt heq => ?_, fun f hf => ⟨(hmem f hf).1, fun hin => ?_⟩,
    fun _ _ _ => hrun.starts, ?_⟩
  · rw [heq] at hlt
    exact lt_irrefl _ hlt
  · -- an input ends at `l` or before, and `f` begins after it
    exact absurd ((hle f (hmem f hf).1).trans (hlargest.le f hin)) (not_le.mpr (hmem f hf).2)
  · rw [← hrun.reachedKey_eq]
    exact hrun.closed

end Boundary

/-- A file with entries of one user key only, from one sequence number down to another. -/
def oneKeyFile (number first last : ℕ) : FileMetaData ℕ ℕ :=
  ⟨number, 1, ⟨5, first, .value⟩, ⟨5, last, .value⟩, []⟩

theorem addBoundaryInputs_closure_oneKey :
    let f := oneKeyFile 1 9 7
    let files := [oneKeyFile 3 3 1, f, oneKeyFile 2 6 4]
    (∀ x ∈ files, x.smallest ≤ x.largest) ∧ (addBoundaryInputs files [f]).map FileMetaData.number = [1, 2, 3] ∧
      ∃ l added l', IsLargest [f] l ∧ BoundaryRun files l added l' ∧
        BoundaryAdded files [f] l added (addBoundaryInputs files [f]) := by
  intro f files
  have hle : ∀ x ∈ files, x.smallest ≤ x.largest := by
    simp only [files, List.forall_mem_cons]
    decide
  exact ⟨hle, by decide, (addBoundaryInputs_closure hle).2 (by simp)⟩

end TLevelDB.Db
