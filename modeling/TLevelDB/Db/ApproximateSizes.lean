import TLevelDB.Db.VersionEdit
import TLevelDB.Table.ApproximateOffset

/-!
# Approximate sizes

`VersionSet::ApproximateOffsetOf` adds up, over all files of a version, how much of a file is
before a key: all of it, nothing, or what the index of the table says. On the levels above 0 the
loop ends with the first file that is after the key. `GetApproximateSizes` takes differences of
such offsets.

For a version of tables that were built, the offset grows with the key and is at most the size of
all files (`approximateOffsetOf_monotone`).

Sums of file sizes are natural numbers here. Those of the source are `uint64_t`, and are the same
while the sizes of all files add up to less than 2^64, which bounds every offset.
-/

namespace TLevelDB.Db

open Coding EditFormat
open Table (RandomAccessFile Rep TableBuilder WritableFile)

/-! ### The model -/

/-- The files of a version, level by level. -/
abbrev Levels := ℕ → List EditFormat.FileMetaData

/-- What the table cache works on: the files of the database, and the ids that the block cache
gives out for them. -/
structure TableFiles where
  file : UInt64 → Option RandomAccessFile
  cacheId : UInt64 → UInt64

variable (o : Table.Options) (files : TableFiles)

/-- `TableCache::FindTable`. -/
def findTable (f : EditFormat.FileMetaData) : Except Table.Error Rep :=
  match files.file f.number with
  | none => .error (.ioError "No such file or directory")
  | some file => Rep.openTable o file f.fileSize.toNat (files.cacheId f.number)

/-- How much of a file in whose range the key is comes before the key. -/
def offsetInTable (f : EditFormat.FileMetaData) (ikey : Slice) : ℕ :=
  match findTable o files f with
  | .error _ => 0
  | .ok table => (table.approximateOffsetOf o ikey).toNat

/-- The loop of `ApproximateOffsetOf` over the files of a level. -/
def levelLoop (level : ℕ) (ikey : Slice) : List EditFormat.FileMetaData → ℕ → ℕ
  | [], result => result
  | f :: fs, result =>
    if (o.comparator.compare f.largest ikey).isLE then
      -- the entire file is before the key
      levelLoop level ikey fs (result + f.fileSize.toNat)
    else if o.comparator.compare f.smallest ikey = .gt then
      -- the entire file is after the key, and if the files are sorted, so are all others
      if 0 < level then result else levelLoop level ikey fs result
    else levelLoop level ikey fs (result + offsetInTable o files f ikey)

/-- `VersionSet::ApproximateOffsetOf`. -/
def approximateOffsetOf (v : Levels) (ikey : Slice) : ℕ :=
  (List.range kNumLevels).foldl (fun result level => levelLoop o files level ikey (v level) result) 0

/-- An internal key before all entries of a user key. -/
def seekKey (userKey : Slice) : Slice := internalKeyBytes userKey (UInt64.ofNat kMaxSequenceNumber) kValueTypeForSeek

/-- `DBImpl::GetApproximateSizes`. -/
def getApproximateSizes (v : Levels) (ranges : List (Slice × Slice)) : List ℕ :=
  ranges.map fun range =>
    let start := approximateOffsetOf o files v (seekKey range.1)
    let limit := approximateOffsetOf o files v (seekKey range.2)
    if start ≤ limit then limit - start else 0

/-- The size of all files. -/
def totalSize (v : Levels) : ℕ := ((List.range kNumLevels).map fun level => ((v level).map fun f => f.fileSize.toNat).sum).sum

/-! ### Versions of real tables -/

/-- The file is a table that was built without an error from blocks below 4 GiB, and its size is
the one that is recorded. -/
def RealTable (f : EditFormat.FileMetaData) : Prop :=
  ∃ (file : RandomAccessFile) (out : WritableFile) (es : List (Slice × Slice)), files.file f.number = some file ∧
    out.contents = [] ∧ o.comparator.Increasing es ∧ (TableBuilder.build o out es).status = none ∧
    (∀ raw ∈ (TableBuilder.build o out es).blocks, raw.length < 2 ^ 32) ∧
    file.contents = (TableBuilder.build o out es).file.contents ∧ file.contents.length < 2 ^ 63 ∧
    f.fileSize.toNat = file.contents.length

/-- The files of a level are sorted and disjoint. -/
structure SortedFiles (fs : List EditFormat.FileMetaData) : Prop where
  nonempty : ∀ f ∈ fs, (o.comparator.compare f.smallest f.largest).isLE
  disjoint : fs.Pairwise fun f g => o.comparator.compare f.largest g.smallest = .lt

variable {o files} {f : EditFormat.FileMetaData} {fs : List EditFormat.FileMetaData} {a b ikey : Slice}

/-- What a table says about a key is where the index has it. -/
theorem RealTable.exists_offset (h : RealTable o files f) : ∃ offset : Slice → ℕ,
    (∀ ikey, offsetInTable o files f ikey = offset ikey) ∧
    (∀ a b, (o.comparator.compare a b).isLE → offset a ≤ offset b) ∧ ∀ ikey, offset ikey ≤ f.fileSize.toNat := by
  obtain ⟨file, out, es, hnumber, hout, hes, hok, hblocks, hfile, hlen, hsize⟩ := h
  have htable := TableBuilder.exists_tableFile hout hes hok (by rw [← hfile]; omega)
  rw [← hfile] at htable
  obtain ⟨t, -⟩ := htable
  refine ⟨fun ikey => (t.offsetAt (t.sectionOf ikey)).toNat, fun ikey => ?_, fun a b hab => ?_, fun ikey => ?_⟩
  · have hfind : findTable o files f = .ok (t.rep (files.cacheId f.number)) := by
      rw [findTable, hnumber, hsize]
      exact t.openTable_eq hlen _
    rw [offsetInTable, hfind]
    exact congrArg UInt64.toNat (t.approximateOffsetOf_rep hblocks _ ikey)
  · exact t.offsetAt_mono (t.sectionOf_mono hab)
  · rw [hsize]
    exact t.offsetAt_le _

/-! ### The loop adds up what is before the key -/

variable (o files) in
/-- How much of a file is before the key. -/
def before (ikey : Slice) (f : EditFormat.FileMetaData) : ℕ :=
  if (o.comparator.compare f.largest ikey).isLE then f.fileSize.toNat
  else if o.comparator.compare f.smallest ikey = .gt then 0
  else offsetInTable o files f ikey

/-- A file after another one that is after the key is after it, too. -/
theorem before_eq_zero {g : EditFormat.FileMetaData} (hf : (o.comparator.compare f.smallest f.largest).isLE)
    (hg : (o.comparator.compare g.smallest g.largest).isLE) (hfg : o.comparator.compare f.largest g.smallest = .lt)
    (hafter : o.comparator.compare f.smallest ikey = .gt) : before o files ikey g = 0 := by
  have hfirst : o.comparator.compare ikey f.smallest = .lt := Std.OrientedCmp.lt_of_gt hafter
  have hsmallest : o.comparator.compare ikey g.smallest = .lt :=
    Std.TransCmp.lt_trans hfirst (Std.TransCmp.lt_of_isLE_of_lt hf hfg)
  have hlargest : o.comparator.compare ikey g.largest = .lt := Std.TransCmp.lt_of_lt_of_isLE hsmallest hg
  rw [before, Std.OrientedCmp.gt_of_lt hlargest, Std.OrientedCmp.gt_of_lt hsmallest]
  rfl

/-- The loop over a level; that it ends early makes no difference. -/
theorem levelLoop_eq {level : ℕ} (h : 0 < level → SortedFiles o fs) (result : ℕ) :
    levelLoop o files level ikey fs result = result + (fs.map (before o files ikey)).sum := by
  induction fs generalizing result with
  | nil => rfl
  | cons f fs ih =>
    have hrest : 0 < level → SortedFiles o fs := fun hlevel =>
      ⟨fun g hg => (h hlevel).nonempty g (List.mem_cons_of_mem f hg), (h hlevel).disjoint.of_cons⟩
    rw [levelLoop, List.map_cons, List.sum_cons, before]
    split_ifs with hbefore hafter hlevel
    · rw [ih hrest, Nat.add_assoc]
    · have hzero : (fs.map (before o files ikey)).sum = 0 := by
        refine List.sum_eq_zero fun n hn => ?_
        obtain ⟨g, hg, rfl⟩ := List.mem_map.mp hn
        exact before_eq_zero ((h hlevel).nonempty f List.mem_cons_self)
          ((h hlevel).nonempty g (List.mem_cons_of_mem f hg)) ((List.pairwise_cons.mp (h hlevel).disjoint).1 g hg) hafter
      rw [hzero, Nat.add_zero]
    · rw [ih hrest, Nat.zero_add]
    · rw [ih hrest, Nat.add_assoc]

theorem before_le (h : RealTable o files f) (ikey : Slice) : before o files ikey f ≤ f.fileSize.toNat := by
  obtain ⟨offset, heq, -, hle⟩ := h.exists_offset
  rw [before, heq]
  split_ifs
  · exact le_rfl
  · exact Nat.zero_le _
  · exact hle ikey

/-- A file may be after the first key, then around it and then before it, but not the other way. -/
theorem before_mono (h : RealTable o files f) (hab : (o.comparator.compare a b).isLE) :
    before o files a f ≤ before o files b f := by
  obtain ⟨offset, heq, hmono, hle⟩ := h.exists_offset
  have hbefore : (o.comparator.compare f.largest a).isLE → (o.comparator.compare f.largest b).isLE :=
    fun h => Std.TransCmp.isLE_trans h hab
  have hafter : o.comparator.compare f.smallest b = .gt → o.comparator.compare f.smallest a = .gt := by
    intro h
    have hlt : o.comparator.compare b f.smallest = .lt := Std.OrientedCmp.lt_of_gt h
    exact Std.OrientedCmp.gt_of_lt (Std.TransCmp.lt_of_isLE_of_lt hab hlt)
  by_cases hb : (o.comparator.compare f.largest b).isLE
  · calc before o files a f ≤ f.fileSize.toNat := before_le h a
      _ = before o files b f := by rw [before, if_pos hb]
  · have ha : ¬ (o.comparator.compare f.largest a).isLE := fun ha => hb (hbefore ha)
    rw [before, before, if_neg ha, if_neg hb, heq, heq]
    split_ifs with hga hgb hgb
    · exact le_rfl
    · exact Nat.zero_le _
    · exact absurd (hafter hgb) hga
    · exact hmono a b hab

/-- The offset is the sum of what is before the key, over all levels and files. -/
theorem approximateOffsetOf_eq {v : Levels} (h : ∀ level, 0 < level → SortedFiles o (v level)) (ikey : Slice) :
    approximateOffsetOf o files v ikey =
      ((List.range kNumLevels).map fun level => ((v level).map (before o files ikey)).sum).sum := by
  have hfold : ∀ (levels : List ℕ) (result : ℕ),
      levels.foldl (fun result level => levelLoop o files level ikey (v level) result) result =
        result + (levels.map fun level => ((v level).map (before o files ikey)).sum).sum := by
    intro levels
    induction levels with
    | nil => exact fun result => rfl
    | cons level levels ih =>
      intro result
      rw [List.foldl_cons, ih, levelLoop_eq (h level), List.map_cons, List.sum_cons, Nat.add_assoc]
  rw [approximateOffsetOf, hfold, Nat.zero_add]

theorem approximateOffsetOf_mono {v : Levels} (hreal : ∀ level, ∀ f ∈ v level, RealTable o files f)
    (hsorted : ∀ level, 0 < level → SortedFiles o (v level)) (hab : (o.comparator.compare a b).isLE) :
    approximateOffsetOf o files v a ≤ approximateOffsetOf o files v b := by
  rw [approximateOffsetOf_eq hsorted, approximateOffsetOf_eq hsorted]
  exact List.sum_le_sum fun level _ => List.sum_le_sum fun f hf => before_mono (hreal level f hf) hab

theorem approximateOffsetOf_le {v : Levels} (hreal : ∀ level, ∀ f ∈ v level, RealTable o files f)
    (hsorted : ∀ level, 0 < level → SortedFiles o (v level)) (ikey : Slice) :
    approximateOffsetOf o files v ikey ≤ totalSize v := by
  rw [approximateOffsetOf_eq hsorted, totalSize]
  exact List.sum_le_sum fun level _ => List.sum_le_sum fun f hf => before_le (hreal level f hf) ikey

/-- Internal keys with the same tag are in the order of the user keys. -/
theorem internalCompare_seekKey (user : Slice → Slice → Ordering) (start limit : Slice) :
    internalCompare user (seekKey start) (seekKey limit) = user start limit := by
  rw [internalCompare_eq, seekKey, seekKey, internalKeyBytes, internalKeyBytes, extractUserKey_append,
    extractUserKey_append, extractTag_append, extractTag_append, Nat.compare_eq_eq.mpr rfl, Ordering.then_eq]

/-- Internal keys, in blocks of two entries or less. -/
def internalBlocks : Table.Options := { Table.smallBlocks with comparator := internalKeyComparator }

/-- Three user keys with a value each. -/
def threeValues : List (Slice × Slice) :=
  [(internalKeyBytes [1] 7 .value, [10]), (internalKeyBytes [1, 2] 5 .value, [11]), (internalKeyBytes [3] 6 .value, [12])]

/-- The only file of a database. -/
def valuesFile : RandomAccessFile :=
  ⟨(TableBuilder.build internalBlocks { outcome := fun _ => none } threeValues).file.contents, true, fun _ => 0⟩

/-- A version with that file on level 1. -/
def valuesVersion : Levels := fun level =>
  if level = 1 then
    [⟨4, UInt64.ofNat valuesFile.contents.length, internalKeyBytes [1] 7 .value, internalKeyBytes [3] 6 .value⟩]
  else []

end TLevelDB.Db
