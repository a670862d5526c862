import TLevelDB.Db.Version
import Mathlib.Data.List.Find
import Mathlib.Data.List.TakeWhile

/-!
# Well-formed files and versions

A file is well formed if its table is sorted and its description names the first and
the last key of it. A version has the right shape if its files are well formed, if the files
of each level from 1 on are sorted and disjoint by internal key, and if no two files have a
number or an entry in common. It is well formed if also for each user key the shallower
levels, and on level 0 the files with higher numbers, hold the newer entries.

In a well-formed version `FindFile` finds the first file that ends at or after a key,
and the overlap test of a level is exact (`overlapInLevel_iff`).
-/

namespace TLevelDB.Db

variable {K V : Type} [LinearOrder K]

/-! ### Files -/

/-- A file whose description fits its table. -/
structure FileMetaData.Ok (f : FileMetaData K V) : Prop where
  sorted : SortedEntries f.table
  first : ∃ e ∈ f.table.head?, e.key = f.smallest
  last : ∃ e ∈ f.table.getLast?, e.key = f.largest
  sequence_le : ∀ e ∈ f.table, e.sequence ≤ kMaxSequenceNumber

/-- A file with a range of keys; sequence numbers have 56 bits. -/
structure FileMetaData.Bounded (f : FileMetaData K V) : Prop where
  smallest_le_largest : f.smallest ≤ f.largest
  sequence_le : f.largest.sequence ≤ kMaxSequenceNumber

/-- `f` ends before `g` begins. -/
def FileMetaData.Before (f g : FileMetaData K V) : Prop := f.largest < g.smallest

/-- The user key is in the range of the file. -/
def FileMetaData.Covers (f : FileMetaData K V) (k : K) : Prop :=
  f.smallest.userKey ≤ k ∧ k ≤ f.largest.userKey

namespace FileMetaData.Ok

variable {f g : FileMetaData K V} {e : Entry K V}

theorem exists_smallest (h : f.Ok) : ∃ e ∈ f.table, e.key = f.smallest := by
  obtain ⟨e, he, hk⟩ := h.first
  exact ⟨e, List.mem_of_mem_head? he, hk⟩

theorem exists_largest (h : f.Ok) : ∃ e ∈ f.table, e.key = f.largest := by
  obtain ⟨e, he, hk⟩ := h.last
  exact ⟨e, List.mem_of_mem_getLast? he, hk⟩

theorem smallest_le (h : f.Ok) (he : e ∈ f.table) : f.smallest ≤ e.key := by
  obtain ⟨x, hx, hk⟩ := h.first
  obtain ⟨t, ht⟩ := List.head?_eq_some_iff.mp hx
  have hs := h.sorted.sorted
  rw [ht] at hs he
  rw [← hk]
  rcases List.mem_cons.mp he with rfl | he
  · exact le_rfl
  · exact ((List.pairwise_cons.mp hs).1 e he).le

theorem le_largest (h : f.Ok) (he : e ∈ f.table) : e.key ≤ f.largest := by
  obtain ⟨x, hx, hk⟩ := h.last
  obtain ⟨t, ht⟩ := List.getLast?_eq_some_iff.mp hx
  have hs := h.sorted.sorted
  rw [ht] at hs he
  rw [← hk]
  rcases List.mem_append.mp he with he | he
  · exact ((List.pairwise_append.mp hs).2.2 e he x (by simp)).le
  · rw [List.mem_singleton.mp he]

theorem smallest_le_largest (h : f.Ok) : f.smallest ≤ f.largest := by
  obtain ⟨e, he, hk⟩ := h.exists_smallest
  exact hk ▸ h.le_largest he

/-- An entry's user key is in the range of its file. -/
theorem covers (h : f.Ok) (he : e ∈ f.table) : f.Covers e.userKey :=
  ⟨InternalKey.userKey_mono (h.smallest_le he), InternalKey.userKey_mono (h.le_largest he)⟩

theorem userKey_le (h : f.Ok) : f.smallest.userKey ≤ f.largest.userKey :=
  InternalKey.userKey_mono h.smallest_le_largest

theorem bounded (h : f.Ok) : f.Bounded := by
  refine ⟨h.smallest_le_largest, ?_⟩
  obtain ⟨e, he, hk⟩ := h.exists_largest
  exact hk ▸ h.sequence_le e he

end FileMetaData.Ok

/-- Of two entries of a user key in files one before the other, the earlier is not older. -/
theorem FileMetaData.Before.key_lt {f g : FileMetaData K V} (hfg : f.Before g) (hf : f.Ok) (hg : g.Ok) {x y : Entry K V}
    (hx : x ∈ f.table) (hy : y ∈ g.table) : x.key < y.key :=
  ((hf.le_largest hx).trans_lt hfg).trans_le (hg.smallest_le hy)

theorem FileMetaData.Before.asymm {f g : FileMetaData K V} (h : f.Before g) (hf : f.Ok) (hg : g.Ok) : ¬ g.Before f :=
  fun h' => absurd (h.trans_le (hg.smallest_le_largest.trans (le_of_lt h')))
    (not_lt.mpr hf.smallest_le_largest)

/-! ### Versions -/

/-- The entries of all files. -/
def Version.entries (v : Version K V) : Set (Entry K V) := {e | ∃ level, ∃ f ∈ v.files level, e ∈ f.table}

/-- For each user key, the entries of `f` are newer than those of `g`. -/
abbrev NewerFile (f g : FileMetaData K V) : Prop :=
  Versions.Newer Entry.userKey Entry.sequence (entrySet f.table) (entrySet g.table)

/-- A version whose files fit their tables and whose levels from 1 on are sorted. -/
structure Version.Ordered (v : Version K V) : Prop where
  file : ∀ level, ∀ f ∈ v.files level, f.Ok
  sorted : ∀ level, 0 < level → (v.files level).Pairwise FileMetaData.Before

/-- A version whose files have their own numbers and entries. -/
structure Version.Shape (v : Version K V) : Prop extends v.Ordered where
  levels : ∀ level, kNumLevels ≤ level → v.files level = []
  unique : ∀ level level', ∀ f ∈ v.files level, ∀ g ∈ v.files level', ∀ x ∈ f.table, ∀ y ∈ g.table,
    x.userKey = y.userKey → x.sequence = y.sequence → f = g
  number_ne : ∀ level, (v.files level).Pairwise fun f g => f.number ≠ g.number
  level_eq : ∀ level level', ∀ f ∈ v.files level, ∀ g ∈ v.files level', f.number = g.number → level = level'

/-- A well-formed version. -/
structure Version.Ok (v : Version K V) : Prop extends v.Shape where
  newer : ∀ level level', level < level' → ∀ f ∈ v.files level, ∀ g ∈ v.files level', NewerFile f g
  newer_level0 : ∀ f ∈ v.files 0, ∀ g ∈ v.files 0, g.number < f.number → NewerFile f g

theorem Version.ok_empty : (Version.empty : Version K V).Ok where
  file := by simp [Version.empty]
  sorted := by simp [Version.empty]
  levels := by simp [Version.empty]
  unique := by simp [Version.empty]
  number_ne := by simp [Version.empty]
  level_eq := by simp [Version.empty]
  newer := by simp [Version.empty]
  newer_level0 := by simp [Version.empty]

/-- Two files of a sorted list come one before the other. -/
theorem before_or_of_pairwise {files : List (FileMetaData K V)} (hs : files.Pairwise FileMetaData.Before)
    {f g : FileMetaData K V} (hf : f ∈ files) (hg : g ∈ files) (hne : f ≠ g) : f.Before g ∨ g.Before f := by
  have hall : f = g ∨ f.Before g ∨ g.Before f :=
    List.Pairwise.forall_of_forall_of_flip (R := fun x y => x = y ∨ x.Before y ∨ y.Before x) (fun _ _ => Or.inl rfl)
      (hs.imp fun hxy => Or.inr (Or.inl hxy)) (hs.imp fun hxy => Or.inr (Or.inr hxy)) hf hg
  exact hall.resolve_left hne

theorem Version.Ordered.before_or {v : Version K V} {level : ℕ} {f g : FileMetaData K V} (h : v.Ordered) (hl : 0 < level)
    (hf : f ∈ v.files level) (hg : g ∈ v.files level) (hne : f ≠ g) : f.Before g ∨ g.Before f :=
  before_or_of_pairwise (h.sorted level hl) hf hg hne

namespace Version.Shape

variable {v : Version K V} {level level' : ℕ} {f g : FileMetaData K V}

theorem distinct (h : v.Shape) : DistinctVersions v.entries := by
  rintro x ⟨level, f, hf, hx⟩ y ⟨level', g, hg, hy⟩ hk hs
  obtain rfl := h.unique level level' f hf g hg x hx y hy hk hs
  exact (h.file level f hf).sorted.distinct x hx y hy hk hs

theorem eq_of_number (h : v.Shape) (hf : f ∈ v.files level) (hg : g ∈ v.files level) (hn : f.number = g.number) : f = g := by
  have hs := h.number_ne level
  exact List.Pairwise.forall_of_forall_of_flip (R := fun x y => x.number = y.number → x = y) (fun _ _ _ => rfl)
    (hs.imp fun hxy he => absurd he hxy) (hs.imp fun hxy he => absurd he.symm hxy) hf hg hn

/-- A file before another one holds the newer entries. -/
theorem newer_of_before (h : v.Shape) (hf : f ∈ v.files level) (hg : g ∈ v.files level') (hfg : f.Before g) :
    NewerFile f g := by
  intro x hx y hy hk
  have hlt := hfg.key_lt (h.file level f hf) (h.file level' g hg) hx hy
  refine (InternalKey.sequence_le_of_lt hlt hk).lt_of_ne fun hs => ?_
  have hxy : x = y := h.distinct x ⟨level, f, hf, hx⟩ y ⟨level', g, hg, hy⟩ hk hs.symm
  exact absurd hlt (hxy ▸ lt_irrefl _)

end Version.Shape

/-! ### Finding a file -/

section FindFile

variable {files : List (FileMetaData K V)} {key : InternalKey K}

/-- The loop of `FindFile` narrows down where the files stop ending before the key. -/
theorem findFileLoop_eq (hs : files.Pairwise fun f g => f.largest < g.largest) {n left right : ℕ} (hn : right - left ≤ n)
    (hr : right ≤ files.length) (hleft : left ≤ files.findIdx fun f => key ≤ f.largest)
    (hright : files.findIdx (fun f => key ≤ f.largest) ≤ right) :
    findFileLoop files key n left right = files.findIdx fun f => key ≤ f.largest := by
  induction n generalizing left right with
  | zero =>
    rw [findFileLoop]
    omega
  | succ n ih =>
    rw [findFileLoop]
    split_ifs with hlt
    · -- the file in the middle tells on which side to go on
      have hmid : (left + right) / 2 < files.length := by omega
      simp only [List.getElem?_eq_getElem hmid]
      split_ifs with hk
      · have hbefore : (left + right) / 2 < files.findIdx fun f => key ≤ f.largest := by
          refine List.lt_findIdx_of_not hmid fun j hj => ?_
          rcases hj.lt_or_eq with hj | rfl
          · simpa using (List.pairwise_iff_getElem.mp hs j _ _ hmid hj).trans hk
          · simpa using hk
        exact ih (by omega) hr hbefore hright
      · have hbehind : files.findIdx (fun f => key ≤ f.largest) ≤ (left + right) / 2 := by
          by_contra hlt
          exact hk (by simpa using List.not_of_lt_findIdx (not_le.mp hlt))
        exact ih (by omega) (by omega) hleft hbehind
    · omega

/-- `FindFile` finds the first file that ends at or after the key. -/
theorem findFile_eq (hs : files.Pairwise fun f g => f.largest < g.largest) :
    findFile files key = files.findIdx fun f => key ≤ f.largest :=
  findFileLoop_eq hs (by omega) le_rfl (Nat.zero_le _) List.findIdx_le_length

theorem getElem?_findFile (hs : files.Pairwise fun f g => f.largest < g.largest) :
    files[findFile files key]? = files.find? fun f => key ≤ f.largest := by
  rw [findFile_eq hs, List.find?_eq_getElem?_findIdx]

end FindFile

/-! ### Overlap -/

section Overlap

variable {files : List (FileMetaData K V)}

/-- A file that neither ends before the range nor begins after it. -/
def Overlaps (smallest largest : Option K) (f : FileMetaData K V) : Prop :=
  afterFile smallest f = false ∧ beforeFile largest f = false

theorem overlaps_some_iff {a b : K} {f : FileMetaData K V} :
    Overlaps (some a) (some b) f ↔ a ≤ f.largest.userKey ∧ f.smallest.userKey ≤ b := by
  simp [Overlaps, afterFile, beforeFile]

/-- The lookup of the smallest user key of a range with the largest sequence number finds
the first file that does not end before the range. -/
theorem largest_lt_iff_afterFile {f : FileMetaData K V} (hf : f.Bounded) (k : K) :
    f.largest < ⟨k, kMaxSequenceNumber, kValueTypeForSeek⟩ ↔ afterFile (some k) f = true := by
  have hseq := hf.sequence_le
  have hlt : f.largest < lookupKey k kMaxSequenceNumber ↔ f.largest.userKey < k := by
    rw [InternalKey.lt_lookupKey_iff]
    constructor
    · rintro (hlt | ⟨-, hlt⟩)
      · exact hlt
      · omega
    · exact Or.inl
  simp only [afterFile, decide_eq_true_eq]
  exact hlt

theorem pairwise_largest (hs : files.Pairwise FileMetaData.Before) (hok : ∀ f ∈ files, f.Bounded) :
    files.Pairwise fun f g => f.largest < g.largest :=
  hs.imp_of_mem fun _ hg hfg => hfg.trans_le (hok _ hg).smallest_le_largest

/-- Without the order all files are looked at. -/
theorem someFileOverlapsRange_scan (files : List (FileMetaData K V)) (smallest largest : Option K) :
    someFileOverlapsRange false files smallest largest = true ↔ ∃ f ∈ files, Overlaps smallest largest f := by
  simp only [someFileOverlapsRange, Bool.false_eq_true, if_false, List.any_eq_true]
  simp [Overlaps]

/-- On sorted and disjoint files the overlap test looks at the one file that matters. -/
theorem someFileOverlapsRange_sorted (hs : files.Pairwise FileMetaData.Before) (hok : ∀ f ∈ files, f.Bounded)
    (smallest largest : Option K) :
    someFileOverlapsRange true files smallest largest = true ↔ ∃ f ∈ files, Overlaps smallest largest f := by
  have hindex : someFileOverlapsRange true files smallest largest =
      (files.find? fun f => !afterFile smallest f).elim false fun f => !beforeFile largest f := by
    unfold someFileOverlapsRange
    cases smallest with
    | none => cases files <;> rfl
    | some k =>
      have hfind : files.find? (fun f => (⟨k, kMaxSequenceNumber, kValueTypeForSeek⟩ : InternalKey K) ≤ f.largest) =
          files.find? fun f => !afterFile (some k) f := by
        refine List.find?_congr fun f hf => ?_
        rw [Bool.eq_iff_iff, decide_eq_true_eq, ← not_lt, largest_lt_iff_afterFile (hok f hf) k, Bool.not_eq_true,
          Bool.not_eq_true']
      rw [← hfind, ← getElem?_findFile (pairwise_largest hs hok)]
      cases h : files[findFile files ⟨k, kMaxSequenceNumber, kValueTypeForSeek⟩]? <;> simp [h]
  rw [hindex]
  cases hf : files.find? (fun f => !afterFile smallest f) with
  | none =>
    simp only [Option.elim_none, Bool.false_eq_true, false_iff, not_exists, not_and]
    rintro g hg ⟨hafter, -⟩
    simpa [hafter] using List.find?_eq_none.mp hf g hg
  | some f =>
    obtain ⟨hp, xs, ys, rfl, hxs⟩ := List.find?_eq_some_iff_append.mp hf
    rw [Option.elim_some]
    constructor
    · intro hb
      exact ⟨f, by simp, by simpa using hp, by simpa using hb⟩
    · rintro ⟨g, hg, hafter, hbefore⟩
      -- a file that overlaps is the one found or comes after it, so the one found begins in time
      rcases List.mem_append.mp hg with hg | hg
      · have hga := hxs g hg
        simp [hafter] at hga
      · rcases List.mem_cons.mp hg with rfl | hg
        · simpa using hbefore
        · have hfg : f.Before g := (List.pairwise_cons.mp (List.pairwise_append.mp hs).2.1).1 g hg
          have hle : f.smallest.userKey ≤ g.smallest.userKey :=
            InternalKey.userKey_mono ((hok f (by simp)).smallest_le_largest.trans (le_of_lt hfg))
          cases largest with
          | none => rfl
          | some k =>
            simp only [beforeFile, decide_eq_false_iff_not, not_lt] at hbefore
            simpa [beforeFile] using hle.trans hbefore

theorem overlapInLevel_iff {v : Version K V} (hv : v.Ordered) (level : ℕ) (smallest largest : Option K) :
    v.overlapInLevel level smallest largest = true ↔ ∃ f ∈ v.files level, Overlaps smallest largest f := by
  unfold Version.overlapInLevel
  by_cases hl : 0 < level
  · simp only [hl, decide_true]
    exact someFileOverlapsRange_sorted (hv.sorted level hl) (fun f hf => (hv.file level f hf).bounded) smallest largest
  · simp only [hl, decide_false]
    exact someFileOverlapsRange_scan (v.files level) smallest largest

end Overlap

/-! ### The level of a flushed memtable -/

section PickLevel

variable {o : Options K V} {v : Version K V} {a b : K}

theorem pickLevelLoop_spec (n level : ℕ) :
    level ≤ v.pickLevelLoop o a b n level ∧ v.pickLevelLoop o a b n level ≤ level + n ∧
      ∀ l, level < l → l ≤ v.pickLevelLoop o a b n level → v.overlapInLevel l (some a) (some b) = false := by
  induction n generalizing level with
  | zero => exact ⟨le_rfl, le_rfl, fun l h1 h2 => absurd h2 (not_le.mpr h1)⟩
  | succ n ih =>
    rw [Version.pickLevelLoop]
    split_ifs with hover hbytes
    · exact ⟨le_rfl, by omega, fun l h1 h2 => absurd h2 (not_le.mpr h1)⟩
    · exact ⟨le_rfl, by omega, fun l h1 h2 => absurd h2 (not_le.mpr h1)⟩
    · obtain ⟨h1, h2, h3⟩ := ih (level + 1)
      refine ⟨by omega, by omega, fun l hl hle => ?_⟩
      rcases Nat.lt_or_eq_of_le (Nat.succ_le_of_lt hl) with hl | rfl
      · exact h3 l hl hle
      · simpa using hover

/-- A memtable's table is pushed down to level 2 at most, and below level 0 only where it
overlaps nothing on the way. -/
theorem pickLevelForMemTableOutput_spec (hv : v.Ordered) :
    v.pickLevelForMemTableOutput o a b ≤ kMaxMemCompactLevel ∧
      ∀ l, 0 < v.pickLevelForMemTableOutput o a b → l ≤ v.pickLevelForMemTableOutput o a b →
        ∀ f ∈ v.files l, f.largest.userKey < a ∨ b < f.smallest.userKey := by
  have hnot : ∀ l, v.overlapInLevel l (some a) (some b) = false →
      ∀ f ∈ v.files l, f.largest.userKey < a ∨ b < f.smallest.userKey := by
    intro l hl f hf
    by_contra hn
    rw [not_or, not_lt, not_lt] at hn
    have htrue := (overlapInLevel_iff hv l (some a) (some b)).mpr ⟨f, hf, overlaps_some_iff.mpr hn⟩
    rw [hl] at htrue
    cases htrue
  unfold Version.pickLevelForMemTableOutput
  split_ifs with h0
  · exact ⟨Nat.zero_le _, fun l hpos => absurd hpos (lt_irrefl 0)⟩
  · obtain ⟨-, h2, h3⟩ := pickLevelLoop_spec (o := o) (v := v) (a := a) (b := b) kMaxMemCompactLevel 0
    refine ⟨by omega, fun l _ hle => hnot l ?_⟩
    rcases Nat.eq_zero_or_pos l with rfl | hl
    · simpa using h0
    · exact h3 l hl hle

end PickLevel

/-! ### Edits -/

section Edits

variable {f g a : FileMetaData K V} {base added : List (FileMetaData K V)}

theorem not_bySmallestKey_iff : ¬ bySmallestKey g f ↔ toLex (f.smallest, f.number) ≤ toLex (g.smallest, g.number) := by
  rw [← not_lt, Prod.Lex.toLex_lt_toLex, bySmallestKey]

instance : Std.Total fun f g : FileMetaData K V => ¬ bySmallestKey g f where
  total f g := by
    rw [not_bySmallestKey_iff, not_bySmallestKey_iff]
    exact le_total _ _

theorem le_bySmallestKey_trans {h : FileMetaData K V} (hfg : ¬ bySmallestKey g f) (hgh : ¬ bySmallestKey h g) :
    ¬ bySmallestKey h f := by
  rw [not_bySmallestKey_iff] at *
  exact hfg.trans hgh

instance : IsTrans (FileMetaData K V) fun f g => ¬ bySmallestKey g f where
  trans _ _ _ := le_bySmallestKey_trans

theorem not_bySmallestKey_of_bySmallestKey (h : bySmallestKey f g) : ¬ bySmallestKey g f := by
  by_contra hn
  exact (not_bySmallestKey_iff.mpr (le_of_lt (not_le.mp fun hle => absurd hn (not_bySmallestKey_iff.mpr hle)))) h

theorem smallest_le_of_not_bySmallestKey (h : ¬ bySmallestKey g f) : f.smallest ≤ g.smallest :=
  not_lt.mp fun hlt => h (Or.inl hlt)

theorem mergeFiles_eq_merge (base added : List (FileMetaData K V)) :
    mergeFiles base added = base.merge added fun b a => ¬ bySmallestKey a b := by
  induction added generalizing base with
  | nil => simp [mergeFiles]
  | cons a added ih =>
    induction base with
    | nil => simp [mergeFiles, ih]
    | cons b base ih' =>
      rw [mergeFiles] at ih' ⊢
      by_cases hba : bySmallestKey a b
      · rw [List.cons_merge_cons_neg _ _ _ (by simpa using hba), ← ih]
        simp [hba]
      · rw [List.cons_merge_cons_pos _ _ _ (by simpa using hba), ← ih']
        simp [hba]

theorem mergeFiles_perm (base added : List (FileMetaData K V)) : (mergeFiles base added).Perm (base ++ added) := by
  rw [mergeFiles_eq_merge]
  exact List.merge_perm_append _

theorem mergeFiles_sorted (hb : base.Pairwise fun f g => ¬ bySmallestKey g f)
    (ha : added.Pairwise fun f g => ¬ bySmallestKey g f) :
    (mergeFiles base added).Pairwise fun f g => ¬ bySmallestKey g f := by
  have hsorted := @List.pairwise_merge _ (fun b a : FileMetaData K V => ¬ bySmallestKey a b)
    (fun f g h hfg hgh => decide_eq_true (le_bySmallestKey_trans (of_decide_eq_true hfg) (of_decide_eq_true hgh)))
    (fun f g => by simpa using Std.Total.total (r := fun f g : FileMetaData K V => ¬ bySmallestKey g f) f g) base added
  simp only [decide_eq_true_eq, ← mergeFiles_eq_merge] at hsorted
  exact hsorted hb ha

variable {v : Version K V} {edit : VersionEdit K V} {level : ℕ}

theorem mem_apply_iff : f ∈ (v.apply edit).files level ↔
    (f ∈ v.files level ∨ f ∈ edit.newAt level) ∧ edit.deleted level f.number = false := by
  simp only [Version.apply, List.mem_filter, (mergeFiles_perm _ _).mem_iff, List.mem_append, VersionEdit.addedFiles,
    List.mem_insertionSort, Bool.not_eq_true']

theorem apply_files_perm : ((v.apply edit).files level).Perm
    ((v.files level ++ edit.newAt level).filter fun f => !edit.deleted level f.number) :=
  ((mergeFiles_perm _ _).trans ((List.perm_insertionSort _ _).append_left _)).filter _

/-- The numbers of the files of a level stay distinct if those of the new files and of
the files kept are. -/
theorem apply_number_ne (h : ((v.files level ++ edit.newAt level).filter fun f => !edit.deleted level f.number).Pairwise
    fun f g => f.number ≠ g.number) : ((v.apply edit).files level).Pairwise fun f g => f.number ≠ g.number :=
  (apply_files_perm.pairwise_iff fun h => Ne.symm h).mpr h

/-- A level from 1 on stays sorted if the new files and the files kept come pairwise one
before the other. -/
theorem apply_sorted (hs : (v.files level).Pairwise FileMetaData.Before) (hok : ∀ f ∈ v.files level, f.Ok)
    (hok' : ∀ f ∈ (v.apply edit).files level, f.Ok)
    (hnum : ((v.apply edit).files level).Pairwise fun f g => f.number ≠ g.number)
    (hcomp : ∀ f ∈ (v.apply edit).files level, ∀ g ∈ (v.apply edit).files level, f.number ≠ g.number →
      f.Before g ∨ g.Before f) : ((v.apply edit).files level).Pairwise FileMetaData.Before := by
  have hbase : (v.files level).Pairwise fun f g => ¬ bySmallestKey g f := by
    refine hs.imp_of_mem fun {f g} hf _ hfg => not_bySmallestKey_of_bySmallestKey (Or.inl ?_)
    exact (hok f hf).smallest_le_largest.trans_lt hfg
  have hsorted : ((v.apply edit).files level).Pairwise fun f g => ¬ bySmallestKey g f :=
    (mergeFiles_sorted hbase (List.pairwise_insertionSort _ _)).sublist List.filter_sublist
  refine (hsorted.and hnum).imp_of_mem fun {f g} hf hg ⟨hle, hne⟩ => ?_
  rcases hcomp f hf g hg hne with hfg | hgf
  · exact hfg
  · have hlt := ((hok' g hg).smallest_le_largest).trans_lt hgf
    exact absurd (smallest_le_of_not_bySmallestKey hle) (not_le.mpr hlt)

end Edits

end TLevelDB.Db
