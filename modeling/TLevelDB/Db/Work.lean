import TLevelDB.Db.Inputs

/-!
# The work of a compaction

What the loop of `DoCompactionWork` writes. The input iterator yields the entries of the
inputs in order, each once (`sortedEntries_makeInputIterator`). Of these the loop writes
exactly the ones to keep (`Kept`): it drops an entry if the smallest snapshot already
sees a newer entry of its user key, and a deletion also if the smallest snapshot sees
it and no file below the next level covers its user key. What it writes is cut into
files that are well formed and come one before the other (`WorkInv`,
`WorkInv.compactEntry`).
-/

namespace TLevelDB.Db

variable {K V : Type} [LinearOrder K]

/-! ### The input iterator -/

section InputIterator

variable {v : Version K V} {c : Compaction K V} {e : Entry K V}

omit [LinearOrder K] in
theorem flatten_inputLists (c : Compaction K V) : c.inputLists.flatten = c.inputs.flatMap FileMetaData.table := by
  rw [Compaction.inputLists, Compaction.inputs]
  split_ifs with h0
  · simp [List.flatMap_def]
  · simp

theorem mem_makeInputIterator : e ∈ c.makeInputIterator ↔ ∃ f ∈ c.inputs, e ∈ f.table := by
  rw [Compaction.makeInputIterator, (Merging.mergeAll_perm _).mem_iff, flatten_inputLists, List.mem_flatMap]

/-- Tables of files in order, one after the other, are sorted. -/
theorem pairwise_flatMap_table {files : List (FileMetaData K V)} (hok : ∀ f ∈ files, f.Ok)
    (h : files.Pairwise FileMetaData.Before) :
    (files.flatMap FileMetaData.table).Pairwise fun x y => x.key < y.key := by
  refine List.pairwise_flatMap.mpr ⟨fun f hf => (hok f hf).sorted.sorted, ?_⟩
  exact h.imp_of_mem fun hf hg hfg x hx y hy => hfg.key_lt (hok _ hf) (hok _ hg) hx hy

theorem Compaction.InputsOk.nodup_inputs (h : c.InputsOk v) (hv : v.Shape) : c.inputs.Nodup := by
  refine List.nodup_append.mpr ⟨h.nodup (nodup_files hv _), ?_, ?_⟩
  · exact (h.closure.ordered (Nat.succ_pos _)).imp_of_mem fun hf _ hfg heq =>
      absurd (heq ▸ hfg : FileMetaData.Before _ _) (not_lt.mpr (hv.file _ _ (h.closure.closed.subset _ hf)).smallest_le_largest)
  · rintro f hf _ hg rfl
    have := hv.level_eq _ _ f (h.closed.subset f hf) f (h.closure.closed.subset f hg) rfl
    omega

theorem Compaction.InputsOk.file_ok (h : c.InputsOk v) (hv : v.Shape) : ∀ f ∈ c.inputs, f.Ok := by
  simp only [Compaction.inputs, List.forall_mem_append]
  exact ⟨fun f hf => hv.file _ f (h.closed.subset f hf), fun f hf => hv.file _ f (h.closure.closed.subset f hf)⟩

theorem Compaction.InputsOk.mem_entries (h : c.InputsOk v) (he : e ∈ c.makeInputIterator) : e ∈ v.entries := by
  obtain ⟨f, hf, hef⟩ := mem_makeInputIterator.mp he
  rcases List.mem_append.mp hf with hf | hf
  · exact ⟨_, f, h.closed.subset f hf, hef⟩
  · exact ⟨_, f, h.closure.closed.subset f hf, hef⟩

/-- No two inputs hold an entry in common. -/
theorem Compaction.InputsOk.nodup_makeInputIterator (h : c.InputsOk v) (hv : v.Shape) : c.makeInputIterator.Nodup := by
  have hok := h.file_ok hv
  rw [Compaction.makeInputIterator, (Merging.mergeAll_perm _).nodup_iff, flatten_inputLists]
  refine List.nodup_flatMap.mpr ⟨fun f hf => ?_, ?_⟩
  · exact (hok f hf).sorted.sorted.imp fun {x y} hlt (heq : x = y) => absurd hlt (heq ▸ lt_irrefl _)
  · have hmem : ∀ f ∈ c.inputs, ∃ level, f ∈ v.files level := fun f hf =>
      (List.mem_append.mp hf).elim (fun hf => ⟨_, h.closed.subset f hf⟩) fun hf => ⟨_, h.closure.closed.subset f hf⟩
    refine (h.nodup_inputs hv).imp_of_mem fun {f g} hf hg hne x hx hy => hne ?_
    obtain ⟨level, hf⟩ := hmem f hf
    obtain ⟨level', hg⟩ := hmem g hg
    exact hv.unique level level' f hf g hg x hx x hy rfl rfl

theorem Compaction.InputsOk.sorted_inputLists (h : c.InputsOk v) (hv : v.Shape) :
    Merging.Sorted Entry.key c.inputLists := by
  have hok := h.file_ok hv
  have hle : ∀ l : List (Entry K V), (l.Pairwise fun x y => x.key < y.key) → l.Pairwise fun x y => x.key ≤ y.key :=
    fun l hl => hl.imp le_of_lt
  intro l hl
  apply hle
  rcases List.mem_append.mp hl with hl | hl
  · split_ifs at hl with h0
    · obtain ⟨f, hf, rfl⟩ := List.mem_map.mp hl
      exact (hok f (List.mem_append_left _ hf)).sorted.sorted
    · rw [List.mem_singleton.mp hl]
      exact pairwise_flatMap_table (fun f hf => hok f (List.mem_append_left _ hf)) (h.ordered (Nat.pos_of_ne_zero h0))
  · rw [List.mem_singleton.mp hl]
    exact pairwise_flatMap_table (fun f hf => hok f (List.mem_append_right _ hf))
      (h.closure.ordered (Nat.succ_pos _))

/-- The input iterator yields the entries in order, each once. -/
theorem Compaction.InputsOk.sortedEntries (h : c.InputsOk v) (hv : v.Shape) : SortedEntries c.makeInputIterator := by
  have hdistinct : DistinctVersions (entrySet c.makeInputIterator) := fun x hx y hy =>
    hv.distinct x (h.mem_entries hx) y (h.mem_entries hy)
  refine ⟨?_, hdistinct⟩
  have hsorted := Merging.mergeAll_sorted (h.sorted_inputLists hv)
  refine (hsorted.and (h.nodup_makeInputIterator hv)).imp_of_mem fun {x y} hx hy hxy => ?_
  refine hxy.1.lt_of_ne fun heq => hxy.2 (hdistinct x hx y hy ?_ ?_)
  · rw [Entry.userKey, heq]
  · rw [Entry.sequence, heq]

end InputIterator

/-! ### Which entries are kept -/

section Kept

variable {v : Version K V} {I : List (Entry K V)} {x : Entry K V} {s level : ℕ} {u : K}

omit [LinearOrder K] in
/-- A newer entry of its user key is seen from `s` on. -/
def Hidden (s : ℕ) (I : List (Entry K V)) (x : Entry K V) : Prop :=
  ∃ y ∈ I, y.userKey = x.userKey ∧ x.sequence < y.sequence ∧ y.sequence ≤ s

/-- No file below the next level covers the user key. -/
def BaseLevel (v : Version K V) (level : ℕ) (u : K) : Prop :=
  ∀ l, level + 2 ≤ l → ∀ f ∈ v.files l, ¬ f.Covers u

/-- A deletion that is not needed from `s` on. -/
def Obsolete (c : Compaction K V) (s : ℕ) (x : Entry K V) : Prop :=
  x.key.type = .deletion ∧ x.sequence ≤ s ∧ BaseLevel c.inputVersion c.level x.userKey

/-- The entries that a compaction keeps. -/
def Kept (c : Compaction K V) (s : ℕ) (I : List (Entry K V)) (x : Entry K V) : Prop :=
  ¬ Hidden s I x ∧ ¬ Obsolete c s x

/-- The levels from 1 on are sorted by internal key, and their files do not overlap. -/
structure Version.SortedLevels (v : Version K V) : Prop where
  smallest_le_largest : ∀ level, 0 < level → ∀ f ∈ v.files level, f.smallest ≤ f.largest
  sorted : ∀ level, 0 < level → (v.files level).Pairwise FileMetaData.Before
  levels : ∀ level, kNumLevels ≤ level → v.files level = []

theorem Version.Shape.toSortedLevels (h : v.Shape) : v.SortedLevels where
  smallest_le_largest := fun level _ f hf => (h.file level f hf).smallest_le_largest
  sorted := h.sorted
  levels := h.levels

/-- The files before the pointers end before the user key. -/
def PtrsOk (v : Version K V) (ptrs : ℕ → List (FileMetaData K V)) (u : K) : Prop :=
  ∀ l, ∃ d, v.files l = d ++ ptrs l ∧ ∀ f ∈ d, f.largest.userKey < u

variable {ptrs : ℕ → List (FileMetaData K V)} {next' : ℕ}

theorem PtrsOk.mono {u' : K} (h : PtrsOk v ptrs u) (hle : u ≤ u') :
    PtrsOk v ptrs u' := fun l => (h l).imp fun _ ⟨heq, hd⟩ => ⟨heq, fun f hf => (hd f hf).trans_le hle⟩

/-- What `IsBaseLevelForKey` does to the pointer of a level. -/
theorem PtrsOk.dropWhile (h : PtrsOk v ptrs u) (l : ℕ) :
    PtrsOk v (Function.update ptrs l ((ptrs l).dropWhile fun f => f.largest.userKey < u)) u := by
  intro l'
  by_cases hl : l' = l
  · subst hl
    obtain ⟨d, heq, hd⟩ := h l'
    refine ⟨d ++ (ptrs l').takeWhile fun f => f.largest.userKey < u, ?_, fun f hf => ?_⟩
    · rw [Function.update_self, List.append_assoc, List.takeWhile_append_dropWhile, heq]
    · rcases List.mem_append.mp hf with hf | hf
      · exact hd f hf
      · simpa using List.mem_takeWhile_imp hf
  · rw [Function.update_of_ne hl]
    exact h l'

/-- The file that the pointer of a level comes to stand on tells whether one covers the
user key. -/
theorem covers_iff_head (hv : v.SortedLevels) (h : PtrsOk v ptrs u) {l : ℕ} (hl : 0 < l) :
    (∃ f ∈ v.files l, f.Covers u) ↔
      ∃ f ∈ ((ptrs l).dropWhile fun f => f.largest.userKey < u).head?, f.smallest.userKey ≤ u := by
  obtain ⟨d, heq, hd⟩ := h l
  set t := (ptrs l).takeWhile fun f => f.largest.userKey < u
  set r := (ptrs l).dropWhile fun f => f.largest.userKey < u with hr
  have hsplit : v.files l = d ++ (t ++ r) := by rw [heq, List.takeWhile_append_dropWhile]
  have hsorted : r.Pairwise FileMetaData.Before :=
    (hv.sorted l hl).sublist (hsplit ▸ ((List.sublist_append_right t r).trans (List.sublist_append_right d _)))
  constructor
  · rintro ⟨f, hf, hfs, hfl⟩
    have hfr : f ∈ r := by
      rw [hsplit] at hf
      rcases List.mem_append.mp hf with hf | hf
      · exact absurd hfl (not_le.mpr (hd f hf))
      · rcases List.mem_append.mp hf with hf | hf
        · exact absurd hfl (not_le.mpr (by simpa using List.mem_takeWhile_imp hf))
        · exact hf
    obtain ⟨g, r', hgr⟩ := List.exists_cons_of_ne_nil (List.ne_nil_of_mem hfr)
    rw [hgr] at hfr hsorted ⊢
    refine ⟨g, rfl, ?_⟩
    rcases List.mem_cons.mp hfr with rfl | hfr
    · exact hfs
    · have hgf := (List.pairwise_cons.mp hsorted).1 f hfr
      have hg : g ∈ v.files l := by rw [hsplit, hgr]; simp
      exact (InternalKey.userKey_mono ((hv.smallest_le_largest l hl g hg).trans (le_of_lt hgf))).trans hfs
  · rintro ⟨f, hf, hfs⟩
    refine ⟨f, by rw [hsplit]; simp [List.mem_of_mem_head? hf], hfs, ?_⟩
    have hhead := List.head?_dropWhile_not (fun f : FileMetaData K V => decide (f.largest.userKey < u)) (ptrs l)
    rw [← hr, Option.mem_def.mp hf] at hhead
    simpa using hhead

/-- The loop of `IsBaseLevelForKey` is exact. -/
theorem isBaseLoop_spec (hv : v.SortedLevels) (levels : List ℕ) (hlevels : ∀ l ∈ levels, 0 < l) (h : PtrsOk v ptrs u) :
    PtrsOk v (isBaseLoop u levels ptrs).2 u ∧
      ((isBaseLoop u levels ptrs).1 = true ↔ ∀ l ∈ levels, ∀ f ∈ v.files l, ¬ f.Covers u) := by
  induction levels generalizing ptrs with
  | nil => exact ⟨h, by simp [isBaseLoop]⟩
  | cons l levels ih =>
    rw [List.forall_mem_cons] at hlevels
    have hptrs := h.dropWhile l
    have hcov := covers_iff_head hv h hlevels.1
    obtain ⟨ih1, ih2⟩ := ih hlevels.2 hptrs
    -- the loop goes on if no file of the level covers the user key
    have hgoon : (¬ ∃ f ∈ v.files l, f.Covers u) → ∀ b : Bool, (b = true ↔ ∀ l ∈ levels, ∀ f ∈ v.files l, ¬ f.Covers u) →
        (b = true ↔ ∀ l' ∈ l :: levels, ∀ f ∈ v.files l', ¬ f.Covers u) := by
      intro hno b hb
      push Not at hno
      rw [hb, List.forall_mem_cons]
      exact ⟨fun hall => ⟨hno, hall⟩, And.right⟩
    simp only [isBaseLoop]
    cases hd : (ptrs l).dropWhile fun f => f.largest.userKey < u with
    | nil =>
      rw [hd] at hcov ih1 ih2
      exact ⟨ih1, hgoon (by rw [hcov]; simp) _ ih2⟩
    | cons f files =>
      rw [hd] at hcov ih1 ih2 hptrs
      dsimp only
      split_ifs with hf
      · refine ⟨hptrs, iff_of_false (by simp) fun hall => ?_⟩
        obtain ⟨g, hg, hgu⟩ := hcov.mpr ⟨f, rfl, hf⟩
        exact hall l (by simp) g hg hgu
      · exact ⟨ih1, hgoon (by rw [hcov]; simpa using hf) _ ih2⟩

theorem isBaseLevelForKey_spec {cs : CompactionState K V} (hv : v.SortedLevels) (h : PtrsOk v cs.levelPtrs u) :
    PtrsOk v (cs.isBaseLevelForKey u).2 u ∧
      ((cs.isBaseLevelForKey u).1 = true ↔ BaseLevel v cs.compaction.level u) := by
  have hmem : ∀ l, l ∈ (List.range kNumLevels).drop (cs.compaction.level + 2) ↔
      cs.compaction.level + 2 ≤ l ∧ l < kNumLevels := by
    intro l
    simp only [List.range_eq_range', List.drop_range', List.mem_range'_1]
    omega
  obtain ⟨h1, h2⟩ := isBaseLoop_spec hv ((List.range kNumLevels).drop (cs.compaction.level + 2))
    (fun l hl => by have := (hmem l).mp hl; omega) h
  refine ⟨h1, h2.trans ⟨fun hall l hl f hf => ?_, fun hall l hl => hall l ((hmem l).mp hl).1⟩⟩
  by_cases hlt : l < kNumLevels
  · exact hall l ((hmem l).mpr ⟨hl, hlt⟩) f hf
  · rw [hv.levels l (not_lt.mp hlt)] at hf
    simp at hf

/-- The answers to a sequence of calls on one compaction. -/
def CompactionState.isBaseLevelForKeys (cs : CompactionState K V) : List K → List Bool
  | [] => []
  | u :: us =>
    let r := cs.isBaseLevelForKey u
    r.1 :: { cs with levelPtrs := r.2 }.isBaseLevelForKeys us

/-- Along keys that do not decrease, the files that a pointer has passed stay before the key. -/
theorem isBaseLevelForKeys_spec {cs : CompactionState K V} (hv : v.SortedLevels) {us : List K}
    (hus : us.Pairwise (· ≤ ·)) (h : ∀ u ∈ us, PtrsOk v cs.levelPtrs u) :
    List.Forall₂ (fun u b => b = true ↔ BaseLevel v cs.compaction.level u) us (cs.isBaseLevelForKeys us) := by
  induction us generalizing cs with
  | nil => exact .nil
  | cons u us ih =>
    obtain ⟨hle, hus⟩ := List.pairwise_cons.mp hus
    obtain ⟨hptrs, hiff⟩ := isBaseLevelForKey_spec hv (h u (by simp))
    have hnext : ∀ u' ∈ us, PtrsOk v { cs with levelPtrs := (cs.isBaseLevelForKey u).2 }.levelPtrs u' :=
      fun u' hu' => hptrs.mono (hle u' hu')
    exact .cons hiff (ih hus hnext)

/-- **`IsBaseLevelForKey` is exact** for all calls on one compaction whose user keys do not
decrease. -/
theorem start_isBaseLevelForKeys {c : Compaction K V} (hv : c.inputVersion.SortedLevels) (smallestSnapshot : ℕ)
    {us : List K} (hus : us.Pairwise (· ≤ ·)) :
    List.Forall₂ (fun u b => b = true ↔ BaseLevel c.inputVersion c.level u) us
      ((c.start smallestSnapshot).isBaseLevelForKeys us) := by
  have hstart : ∀ u ∈ us, PtrsOk c.inputVersion (c.start smallestSnapshot).levelPtrs u :=
    fun _ _ _ => ⟨[], rfl, by simp⟩
  exact isBaseLevelForKeys_spec hv hus hstart

end Kept

/-- A compaction of level 0 over a version with two files of level 2 that share a user key. -/
def sharedKeyCompaction : Compaction ℕ ℕ where
  level := 0
  inputs0 := []
  inputs1 := []
  grandparents := []
  inputVersion := ⟨fun level => if level = 2 then [⟨1, 1, ⟨3, 1, .value⟩, ⟨5, 9, .value⟩, []⟩,
    ⟨2, 1, ⟨5, 8, .value⟩, ⟨7, 1, .value⟩, []⟩] else []⟩
  compactPointer := none

theorem start_isBaseLevelForKeys_shared : sharedKeyCompaction.inputVersion.SortedLevels ∧
    ((sharedKeyCompaction.start 0).isBaseLevelForKeys [1, 5, 5, 6, 8]) = [true, false, false, false, true] ∧
    List.Forall₂ (fun u b => b = true ↔ BaseLevel sharedKeyCompaction.inputVersion 0 u) [1, 5, 5, 6, 8]
      ((sharedKeyCompaction.start 0).isBaseLevelForKeys [1, 5, 5, 6, 8]) := by
  have hv : sharedKeyCompaction.inputVersion.SortedLevels := by
    refine ⟨fun level _ f hf => ?_, fun level _ => ?_, fun level hl => ?_⟩
    · simp only [sharedKeyCompaction] at hf
      split_ifs at hf
      · rcases List.mem_pair.mp hf with rfl | rfl <;> decide
      · simp at hf
    · simp only [sharedKeyCompaction]
      split_ifs
      · exact List.pairwise_pair.mpr (by unfold FileMetaData.Before; decide)
      · exact .nil
    · simp only [sharedKeyCompaction]
      exact if_neg (by unfold kNumLevels at hl; omega)
  exact ⟨hv, by decide, start_isBaseLevelForKeys hv 0 (by decide)⟩

/-! ### The outputs -/

section Outputs

variable {o : Options K V} {cs : CompactionState K V} {next : ℕ} {e : Entry K V}

section

omit [LinearOrder K]

/-- The keys are those of the first and the last entry. -/
def Bounds (table : List (Entry K V)) (smallest largest : InternalKey K) : Prop :=
  (∃ e ∈ table.head?, e.key = smallest) ∧ ∃ e ∈ table.getLast?, e.key = largest

/-- The numbers of the outputs. -/
def CompactionState.outputNumbers (cs : CompactionState K V) : List ℕ :=
  cs.outputs.map FileMetaData.number ++ cs.builder.toList.map Output.number

/-- The entries of the outputs. -/
def CompactionState.written (cs : CompactionState K V) : List (Entry K V) :=
  cs.outputs.flatMap FileMetaData.table ++ cs.builder.toList.flatMap Output.table

/-- The outputs are described as they are, and their numbers grow. -/
structure OutputsInv (cs : CompactionState K V) (next : ℕ) : Prop where
  output : ∀ f ∈ cs.outputs, Bounds f.table f.smallest f.largest
  builder : ∀ b ∈ cs.builder, Bounds b.table b.smallest b.largest
  increasing : cs.outputNumbers.Pairwise (· < ·)
  lt_next : ∀ n ∈ cs.outputNumbers, n < next

theorem OutputsInv.congr {cs' : CompactionState K V} (h : OutputsInv cs next) (ho : cs'.outputs = cs.outputs)
    (hb : cs'.builder = cs.builder) (hn : next ≤ next') : OutputsInv cs' next' := by
  have hnum : cs'.outputNumbers = cs.outputNumbers := by rw [CompactionState.outputNumbers, ho, hb]; rfl
  exact ⟨ho ▸ h.output, hb ▸ h.builder, hnum ▸ h.increasing, fun n hn' => (h.lt_next n (hnum ▸ hn')).trans_le hn⟩

theorem written_finishOutput (o : Options K V) (cs : CompactionState K V) : (cs.finishOutput o).written = cs.written := by
  unfold CompactionState.finishOutput
  cases h : cs.builder with
  | none => rfl
  | some b => simp [CompactionState.written, h]

theorem outputNumbers_finishOutput (o : Options K V) (cs : CompactionState K V) :
    (cs.finishOutput o).outputNumbers = cs.outputNumbers := by
  unfold CompactionState.finishOutput
  cases h : cs.builder with
  | none => rfl
  | some b => simp [CompactionState.outputNumbers, h]

theorem OutputsInv.finishOutput (h : OutputsInv cs next) (o : Options K V) : OutputsInv (cs.finishOutput o) next := by
  have hbounds : (∀ f ∈ (cs.finishOutput o).outputs, Bounds f.table f.smallest f.largest) ∧
      ∀ b ∈ (cs.finishOutput o).builder, Bounds b.table b.smallest b.largest := by
    unfold CompactionState.finishOutput
    cases hb : cs.builder with
    | none => exact ⟨h.output, h.builder⟩
    | some b =>
      simp only [List.forall_mem_append, List.forall_mem_singleton]
      exact ⟨⟨h.output, h.builder b hb⟩, by simp⟩
  have hnum := outputNumbers_finishOutput o cs
  exact ⟨hbounds.1, hbounds.2, hnum ▸ h.increasing, hnum ▸ h.lt_next⟩

theorem written_add (cs : CompactionState K V) (next : ℕ) (e : Entry K V) :
    (cs.add next e).1.written = cs.written ++ [e] := by
  unfold CompactionState.add
  cases h : cs.builder with
  | none => simp [CompactionState.written, h]
  | some b => simp [CompactionState.written, h]

theorem Bounds.snoc {table : List (Entry K V)} {s l : InternalKey K} (h : Bounds table s l) (e : Entry K V) :
    Bounds (table ++ [e]) s e.key := by
  obtain ⟨⟨x, hx, hxs⟩, -⟩ := h
  refine ⟨⟨x, ?_, hxs⟩, e, by simp, rfl⟩
  rw [Option.mem_def] at hx ⊢
  rw [List.head?_append, hx]
  rfl

/-- An entry takes a file number if it opens an output. -/
theorem outputNumbers_add (cs : CompactionState K V) (next : ℕ) (e : Entry K V) :
    (cs.add next e).1.outputNumbers = cs.outputNumbers ++ [next] ∧ (cs.add next e).2 = next + 1 ∨
      (cs.add next e).1.outputNumbers = cs.outputNumbers ∧ (cs.add next e).2 = next := by
  unfold CompactionState.add
  cases hb : cs.builder with
  | none => exact .inl ⟨by simp [CompactionState.outputNumbers, hb], rfl⟩
  | some b => exact .inr ⟨by simp [CompactionState.outputNumbers, hb], rfl⟩

theorem OutputsInv.add (h : OutputsInv cs next) (e : Entry K V) :
    OutputsInv (cs.add next e).1 (cs.add next e).2 ∧ next ≤ (cs.add next e).2 := by
  have hbounds : (∀ f ∈ (cs.add next e).1.outputs, Bounds f.table f.smallest f.largest) ∧
      ∀ b ∈ (cs.add next e).1.builder, Bounds b.table b.smallest b.largest := by
    unfold CompactionState.add
    cases hb : cs.builder with
    | none => exact ⟨h.output, by simp [Bounds]⟩
    | some b => exact ⟨h.output, by simpa using (h.builder b hb).snoc e⟩
  obtain ⟨hnum, hnext⟩ | ⟨hnum, hnext⟩ := outputNumbers_add cs next e <;> rw [hnext]
  · refine ⟨⟨hbounds.1, hbounds.2, ?_, ?_⟩, Nat.le_succ _⟩ <;> rw [hnum]
    · exact List.pairwise_append.mpr ⟨h.increasing, by simp, by simpa using h.lt_next⟩
    · rw [List.forall_mem_append, List.forall_mem_singleton]
      exact ⟨fun n hn => (h.lt_next n hn).trans (Nat.lt_succ_self _), Nat.lt_succ_self _⟩
  · exact ⟨⟨hbounds.1, hbounds.2, hnum ▸ h.increasing, hnum ▸ h.lt_next⟩, le_rfl⟩

end

/-- Finished outputs are well formed and come one before the other. -/
theorem OutputsInv.files_ok (h : OutputsInv cs next) (hb : cs.builder = none) (hs : SortedEntries cs.written)
    (hseq : ∀ e ∈ cs.written, e.sequence ≤ kMaxSequenceNumber) :
    (∀ f ∈ cs.outputs, f.Ok) ∧ cs.outputs.Pairwise FileMetaData.Before := by
  have hw : cs.written = cs.outputs.flatMap FileMetaData.table := by simp [CompactionState.written, hb]
  rw [hw] at hs hseq
  obtain ⟨h1, h2⟩ := List.pairwise_flatMap.mp hs.sorted
  have hsub : ∀ f ∈ cs.outputs, ∀ e ∈ f.table, e ∈ cs.outputs.flatMap FileMetaData.table := fun f hf e he =>
    List.mem_flatMap.mpr ⟨f, hf, he⟩
  refine ⟨fun f hf => ⟨⟨h1 f hf, fun x hx y hy => hs.distinct x (hsub f hf x hx) y (hsub f hf y hy)⟩,
    (h.output f hf).1, (h.output f hf).2, fun e he => hseq e (hsub f hf e he)⟩, ?_⟩
  refine h2.imp_of_mem fun {f g} hf hg hfg => ?_
  obtain ⟨x, hx, hxl⟩ := (h.output f hf).2
  obtain ⟨y, hy, hys⟩ := (h.output g hg).1
  rw [FileMetaData.Before, ← hxl, ← hys]
  exact hfg x (List.mem_of_mem_getLast? hx) y (List.mem_of_mem_head? hy)

end Outputs

/-! ### The loop -/

section Loop

variable {o : Options K V} {c : Compaction K V} {s next : ℕ} {done rest : List (Entry K V)} {e : Entry K V}
  {cs cs' : CompactionState K V}

/-- Where the loop of `DoCompactionWork` stands: past the entries `done`, before `rest`. -/
structure WorkInv (c : Compaction K V) (s : ℕ) (done rest : List (Entry K V)) (cs : CompactionState K V) (next : ℕ) :
    Prop where
  compaction : cs.compaction = c
  snapshot : cs.smallestSnapshot = s
  split : done ++ rest = c.makeInputIterator
  current : cs.currentUserKey = done.getLast?.map Entry.userKey
  last : ∀ x ∈ done.getLast?, cs.lastSequenceForKey = x.sequence
  ptrs : ∀ e ∈ rest, PtrsOk c.inputVersion cs.levelPtrs e.userKey
  sublist : cs.written.Sublist done
  written : ∀ x ∈ done, x ∈ cs.written ↔ Kept c s c.makeInputIterator x
  outputs : OutputsInv cs next

theorem workInv_start (c : Compaction K V) (s next : ℕ) :
    WorkInv c s [] c.makeInputIterator (c.start s) next where
  compaction := rfl
  snapshot := rfl
  split := rfl
  current := rfl
  last := by simp
  ptrs _ _ _ := ⟨[], rfl, by simp⟩
  sublist := List.Sublist.slnil
  written := by simp
  outputs := ⟨by simp [Compaction.start], by simp [Compaction.start], List.Pairwise.nil, by
    simp [CompactionState.outputNumbers, Compaction.start]⟩

omit [LinearOrder K] in
/-- What the decision whether to drop an entry reads is the same. -/
structure SameScan (cs cs' : CompactionState K V) : Prop where
  compaction : cs'.compaction = cs.compaction
  snapshot : cs'.smallestSnapshot = cs.smallestSnapshot
  input : cs'.input = cs.input
  current : cs'.currentUserKey = cs.currentUserKey
  last : cs'.lastSequenceForKey = cs.lastSequenceForKey
  ptrs : cs'.levelPtrs = cs.levelPtrs

theorem WorkInv.congr (h : WorkInv c s done rest cs next) (hs : SameScan cs cs')
    (hw : cs'.written = cs.written) (ho : OutputsInv cs' next') : WorkInv c s done rest cs' next' where
  compaction := hs.compaction.trans h.compaction
  snapshot := hs.snapshot.trans h.snapshot
  split := h.split
  current := hs.current.trans h.current
  last x hx := hs.last.trans (h.last x hx)
  ptrs := hs.ptrs ▸ h.ptrs
  sublist := hw ▸ h.sublist
  written := hw ▸ h.written
  outputs := ho

theorem WorkInv.setInput (h : WorkInv c s done rest cs next) (l : List (Entry K V)) :
    WorkInv c s done rest { cs with input := l } next :=
  ⟨h.compaction, h.snapshot, h.split, h.current, h.last, h.ptrs, h.sublist, h.written, h.outputs.congr rfl rfl le_rfl⟩

omit [LinearOrder K] in
theorem sameScan_finishOutput (o : Options K V) (cs : CompactionState K V) : SameScan cs (cs.finishOutput o) := by
  unfold CompactionState.finishOutput
  cases cs.builder with
  | none => exact ⟨rfl, rfl, rfl, rfl, rfl, rfl⟩
  | some b => exact ⟨rfl, rfl, rfl, rfl, rfl, rfl⟩

theorem WorkInv.finishOutput (h : WorkInv c s done rest cs next) (o : Options K V) :
    WorkInv c s done rest (cs.finishOutput o) next :=
  h.congr (sameScan_finishOutput o cs) (written_finishOutput o cs) (h.outputs.finishOutput o)

omit [LinearOrder K] in
theorem builder_finishOutput (o : Options K V) (cs : CompactionState K V) : (cs.finishOutput o).builder = none := by
  unfold CompactionState.finishOutput
  cases h : cs.builder with
  | none => exact h
  | some b => rfl

theorem shouldStopBefore_eq (o : Options K V) (cs : CompactionState K V) (key : InternalKey K) :
    ∃ left bytes, (cs.shouldStopBefore o key).2 =
      { cs with grandparentsLeft := left, seenKey := true, overlappedBytes := bytes } := by
  unfold CompactionState.shouldStopBefore
  dsimp only
  split_ifs
  · exact ⟨_, _, rfl⟩
  · exact ⟨_, _, rfl⟩

theorem sameScan_shouldStopBefore (o : Options K V) (cs : CompactionState K V) (key : InternalKey K) :
    SameScan cs (cs.shouldStopBefore o key).2 := by
  obtain ⟨left, bytes, heq⟩ := shouldStopBefore_eq o cs key
  rw [heq]
  exact ⟨rfl, rfl, rfl, rfl, rfl, rfl⟩

theorem WorkInv.shouldStopBefore (h : WorkInv c s done rest cs next) (o : Options K V) (key : InternalKey K) :
    WorkInv c s done rest (cs.shouldStopBefore o key).2 next := by
  obtain ⟨left, bytes, heq⟩ := shouldStopBefore_eq o cs key
  refine h.congr (sameScan_shouldStopBefore o cs key) (by rw [heq]; rfl) ?_
  rw [heq]
  exact h.outputs.congr rfl rfl le_rfl

/-- The entry is hidden if the one before it has its user key and is seen by the snapshot. -/
theorem hidden_iff (hI : SortedEntries (done ++ e :: rest)) :
    Hidden s (done ++ e :: rest) e ↔ ∃ x ∈ done.getLast?, x.userKey = e.userKey ∧ x.sequence ≤ s := by
  constructor
  · rintro ⟨y, hy, hk, hlt, hys⟩
    have hydone : y ∈ done := by
      rcases List.mem_append.mp hy with hy | hy
      · exact hy
      · rcases List.mem_cons.mp hy with rfl | hy
        · exact absurd hlt (lt_irrefl _)
        · exact absurd hlt (not_lt.mpr (hI.after rfl hy hk))
    obtain ⟨x, hx⟩ : ∃ x, done.getLast? = some x := by
      cases h : done.getLast? with
      | none => simp [List.getLast?_eq_none_iff.mp h] at hydone
      | some x => exact ⟨x, rfl⟩
    obtain ⟨d, rfl⟩ := List.getLast?_eq_some_iff.mp hx
    refine ⟨x, hx, ?_⟩
    rcases List.mem_append.mp hydone with hyd | hyx
    · -- the last entry lies between `y` and `e`
      have hyx := hI.before (b := d) (x := x) (a := e :: rest) (by simp) hyd
      have hxe := hI.before (b := d ++ [x]) (x := e) (a := rest) (y := x) (by simp) (by simp)
      rcases hyx with hlt' | ⟨hk', hlt'⟩
      · rcases hxe with hlt'' | ⟨hk'', -⟩
        · exact absurd (hlt'.trans hlt'') (hk ▸ lt_irrefl _)
        · exact absurd hlt' (by rw [hk'', hk]; exact lt_irrefl _)
      · exact ⟨hk'.symm.trans hk, hlt'.le.trans hys⟩
    · rw [← List.mem_singleton.mp hyx]
      exact ⟨hk, hys⟩
  · rintro ⟨x, hx, hk, hxs⟩
    have hxdone : x ∈ done := List.mem_of_mem_getLast? hx
    refine ⟨x, by simp [hxdone], hk, ?_, hxs⟩
    rcases hI.before rfl hxdone with hlt | ⟨-, hlt⟩
    · exact absurd hk hlt.ne
    · exact hlt

/-- `last_sequence_for_key` tells whether the entry is hidden. -/
theorem WorkInv.last_le_iff (h : WorkInv c s done (e :: rest) cs next) (hI : SortedEntries c.makeInputIterator)
    (hs : s < kMaxSequenceNumber) :
    (if cs.currentUserKey = some e.userKey then cs.lastSequenceForKey else kMaxSequenceNumber) ≤ s ↔
      Hidden s c.makeInputIterator e := by
  have hI' := hI
  rw [← h.split] at hI' ⊢
  rw [hidden_iff hI', h.current]
  cases hx : done.getLast? with
  | none =>
    simp only [Option.map_none, reduceCtorEq, if_false, Option.not_mem_none, false_and, exists_false, iff_false, not_le]
    exact hs
  | some x =>
    have hlast := h.last x hx
    simp only [Option.map_some, Option.some.injEq, Option.mem_def, exists_eq_left']
    split_ifs with hk
    · simp [hlast, hk]
    · simp [hk, hs]

/-- The decision: the entry is dropped if it is not to be kept, and the scan goes on
after it. -/
theorem WorkInv.dropEntry_spec (h : WorkInv c s done (e :: rest) cs next) (hI : SortedEntries c.makeInputIterator)
    (hv : c.inputVersion.Shape) (hs : s < kMaxSequenceNumber) :
    ((cs.dropEntry e).1 = true ↔ ¬ Kept c s c.makeInputIterator e) ∧
      ∃ ptrs, PtrsOk c.inputVersion ptrs e.userKey ∧ (cs.dropEntry e).2 =
        { cs with currentUserKey := some e.userKey, lastSequenceForKey := e.sequence, levelPtrs := ptrs } := by
  have hptrs := h.ptrs e (by simp)
  have hlast := h.last_le_iff hI hs
  have hkept : ¬ Kept c s c.makeInputIterator e ↔ Hidden s c.makeInputIterator e ∨ Obsolete c s e := by
    rw [Kept, not_and_or, not_not, not_not]
  rw [hkept]
  unfold CompactionState.dropEntry
  dsimp only
  by_cases hhid : Hidden s c.makeInputIterator e
  · rw [h.snapshot, if_pos (hlast.mpr hhid)]
    exact ⟨by simp [hhid], cs.levelPtrs, hptrs, rfl⟩
  · rw [h.snapshot, if_neg (fun hle => hhid (hlast.mp hle))]
    by_cases hdel : e.key.type = .deletion ∧ e.sequence ≤ s
    · rw [if_pos hdel]
      obtain ⟨h1, h2⟩ := isBaseLevelForKey_spec hv.toSortedLevels hptrs
      refine ⟨?_, _, h1, rfl⟩
      rw [h2, h.compaction]
      simp [hhid, Obsolete, hdel.1, hdel.2]
    · rw [if_neg hdel]
      refine ⟨?_, cs.levelPtrs, hptrs, rfl⟩
      simp only [Bool.false_eq_true, hhid, false_or, Obsolete, false_iff]
      exact fun ho => hdel ⟨ho.1, ho.2.1⟩

omit [LinearOrder K] in
theorem sameScan_add (cs : CompactionState K V) (next : ℕ) (e : Entry K V) : SameScan cs (cs.add next e).1 := by
  unfold CompactionState.add
  cases cs.builder with
  | none => exact ⟨rfl, rfl, rfl, rfl, rfl, rfl⟩
  | some b => exact ⟨rfl, rfl, rfl, rfl, rfl, rfl⟩

/-- The loop goes past an entry: it has been written if and only if it is to be kept. -/
theorem WorkInv.advance (h : WorkInv c s done (e :: rest) cs next) (hI : SortedEntries c.makeInputIterator)
    {ptrs : ℕ → List (FileMetaData K V)} (hptrs : PtrsOk c.inputVersion ptrs e.userKey)
    (hscan : SameScan { cs with currentUserKey := some e.userKey, lastSequenceForKey := e.sequence, levelPtrs := ptrs } cs')
    (ho : OutputsInv cs' next')
    (hw : (Kept c s c.makeInputIterator e ∧ cs'.written = cs.written ++ [e]) ∨
      (¬ Kept c s c.makeInputIterator e ∧ cs'.written = cs.written)) :
    WorkInv c s (done ++ [e]) rest cs' next' := by
  have hI' := hI
  rw [← h.split] at hI'
  have hnew : e ∉ done := by
    intro he
    rcases hI'.before rfl he with hlt | ⟨-, hlt⟩
    · exact lt_irrefl _ hlt
    · exact lt_irrefl _ hlt
  refine ⟨hscan.compaction.trans h.compaction, hscan.snapshot.trans h.snapshot, by rw [← h.split]; simp,
    by rw [hscan.current]; simp, by rw [hscan.last]; simp, fun x hx => ?_, ?_, ?_, ho⟩
  · rw [hscan.ptrs]
    exact hptrs.mono (hI'.userKey_le rfl hx)
  · rcases hw with ⟨-, hw⟩ | ⟨-, hw⟩
    · rw [hw]
      exact h.sublist.append (List.Sublist.refl _)
    · rw [hw]
      exact h.sublist.trans (List.sublist_append_left _ _)
  · have hewritten : e ∉ cs.written := fun he => hnew (h.sublist.subset he)
    simp only [List.forall_mem_append, List.forall_mem_singleton]
    rcases hw with ⟨hk, hw⟩ | ⟨hk, hw⟩
    · rw [hw]
      refine ⟨fun x hx => ?_, by simp [hk]⟩
      have hne : x ≠ e := fun heq => hnew (heq ▸ hx)
      simpa [hne] using h.written x hx
    · rw [hw]
      exact ⟨h.written, iff_of_false hewritten hk⟩

/-- **One turn of the loop.** -/
theorem WorkInv.compactEntry (h : WorkInv c s done (e :: rest) cs next) (hI : SortedEntries c.makeInputIterator)
    (hv : c.inputVersion.Shape) (hs : s < kMaxSequenceNumber) (o : Options K V) :
    WorkInv c s (done ++ [e]) rest (cs.compactEntry o next e).1 (cs.compactEntry o next e).2 ∧
      next ≤ (cs.compactEntry o next e).2 ∧ (cs.compactEntry o next e).1.input = cs.input := by
  unfold CompactionState.compactEntry
  dsimp only
  set cs₁ := if (cs.shouldStopBefore o e.key).1 then (cs.shouldStopBefore o e.key).2.finishOutput o
    else (cs.shouldStopBefore o e.key).2 with hcs₁
  have h₁ : WorkInv c s done (e :: rest) cs₁ next ∧ cs₁.input = cs.input := by
    have hstop := h.shouldStopBefore o e.key
    have hinput := (sameScan_shouldStopBefore o cs e.key).input
    rw [hcs₁]
    split_ifs
    · exact ⟨hstop.finishOutput o, (sameScan_finishOutput o _).input.trans hinput⟩
    · exact ⟨hstop, hinput⟩
  clear_value cs₁
  obtain ⟨h₁, hinput⟩ := h₁
  obtain ⟨hdrop, ptrs, hptrs, heq⟩ := h₁.dropEntry_spec hI hv hs
  have hout : OutputsInv (cs₁.dropEntry e).2 next := by
    rw [heq]
    exact h₁.outputs.congr rfl rfl le_rfl
  have hwritten : (cs₁.dropEntry e).2.written = cs₁.written := by rw [heq]; rfl
  by_cases hd : (cs₁.dropEntry e).1 = true
  · rw [if_pos hd]
    refine ⟨h₁.advance hI hptrs ?_ hout (Or.inr ⟨hdrop.mp hd, hwritten⟩), le_rfl, by rw [heq]; exact hinput⟩
    rw [heq]
    exact ⟨rfl, rfl, rfl, rfl, rfl, rfl⟩
  · rw [if_neg hd]
    have hkept : Kept c s c.makeInputIterator e := not_not.mp fun hk => hd (hdrop.mpr hk)
    have hscan := sameScan_add (cs₁.dropEntry e).2 next e
    obtain ⟨hadd, hle⟩ := hout.add e
    have hadded : WorkInv c s (done ++ [e]) rest ((cs₁.dropEntry e).2.add next e).1
        ((cs₁.dropEntry e).2.add next e).2 := by
      refine h₁.advance hI hptrs ?_ hadd (Or.inl ⟨hkept, by rw [written_add, hwritten]⟩)
      rw [← heq]
      exact hscan
    have hinput' : ((cs₁.dropEntry e).2.add next e).1.input = cs.input := by
      rw [hscan.input, heq]
      exact hinput
    split_ifs
    · exact ⟨hadded.finishOutput o, hle, (sameScan_finishOutput o _).input.trans hinput'⟩
    · exact ⟨hadded, hle, hinput'⟩

omit [LinearOrder K] in
theorem next_add (cs : CompactionState K V) (next : ℕ) (e : Entry K V) : next ≤ (cs.add next e).2 ∧
    ∀ n ∈ (cs.add next e).1.outputNumbers, n ∈ cs.outputNumbers ∨ n = next ∧ n < (cs.add next e).2 := by
  obtain ⟨hnum, hnext⟩ | ⟨hnum, hnext⟩ := outputNumbers_add cs next e <;> rw [hnum, hnext]
  · refine ⟨Nat.le_succ _, fun n hn => (List.mem_append.mp hn).imp_right fun hn => ?_⟩
    rw [List.mem_singleton.mp hn]
    exact ⟨rfl, Nat.lt_succ_self _⟩
  · exact ⟨le_rfl, fun n => .inl⟩

theorem outputNumbers_dropEntry (cs : CompactionState K V) (e : Entry K V) :
    (cs.dropEntry e).2.outputNumbers = cs.outputNumbers := by
  unfold CompactionState.dropEntry
  dsimp only
  split_ifs <;> rfl

/-- A turn opens at most one output, with the next file number. -/
theorem next_compactEntry (o : Options K V) (cs : CompactionState K V) (next : ℕ) (e : Entry K V) :
    next ≤ (cs.compactEntry o next e).2 ∧ ∀ n ∈ (cs.compactEntry o next e).1.outputNumbers,
      n ∈ cs.outputNumbers ∨ n = next ∧ n < (cs.compactEntry o next e).2 := by
  unfold CompactionState.compactEntry
  dsimp only
  set cs₁ := if (cs.shouldStopBefore o e.key).1 then (cs.shouldStopBefore o e.key).2.finishOutput o
    else (cs.shouldStopBefore o e.key).2 with hcs₁
  have h₁ : (cs₁.dropEntry e).2.outputNumbers = cs.outputNumbers := by
    obtain ⟨left, bytes, heq⟩ := shouldStopBefore_eq o cs e.key
    have hstop : (cs.shouldStopBefore o e.key).2.outputNumbers = cs.outputNumbers := by rw [heq]; rfl
    rw [outputNumbers_dropEntry, hcs₁]
    split_ifs
    · rw [outputNumbers_finishOutput, hstop]
    · exact hstop
  clear_value cs₁
  obtain ⟨hle, hnum⟩ := next_add (cs₁.dropEntry e).2 next e
  rw [h₁] at hnum
  split_ifs with hd hbig
  · exact ⟨le_rfl, fun n hn => .inl (h₁ ▸ hn)⟩
  · refine ⟨hle, fun n hn => hnum n ?_⟩
    rwa [outputNumbers_finishOutput] at hn
  · exact ⟨hle, hnum⟩

/-- A turn of the loop takes file numbers as it opens outputs. -/
theorem next_turn {o : Options K V} {cs : CompactionState K V} {next : ℕ} {r : CompactionState K V × ℕ}
    (h : cs.turn o next = some r) :
    next ≤ r.2 ∧ ∀ n ∈ r.1.outputNumbers, n ∈ cs.outputNumbers ∨ n = next ∧ n < r.2 := by
  unfold CompactionState.turn at h
  split at h
  · cases h
  · cases h
    exact next_compactEntry o _ next _

theorem WorkInv.run (h : WorkInv c s done rest cs next) (hI : SortedEntries c.makeInputIterator)
    (hv : c.inputVersion.Shape) (hs : s < kMaxSequenceNumber) (o : Options K V) :
    (∃ next', WorkInv c s c.makeInputIterator [] (cs.run o next rest) next') ∧ (cs.run o next rest).builder = none ∧
      ∀ n ∈ (cs.run o next rest).outputNumbers, n ∈ cs.outputNumbers ∨ next ≤ n := by
  induction rest generalizing done cs next with
  | nil =>
    obtain rfl : done = c.makeInputIterator := by simpa using h.split
    refine ⟨⟨next, h.finishOutput o⟩, builder_finishOutput o cs, fun n hn => Or.inl ?_⟩
    rwa [CompactionState.run, outputNumbers_finishOutput] at hn
  | cons e rest ih =>
    obtain ⟨hstep, hle, -⟩ := (h.setInput rest).compactEntry hI hv hs o
    obtain ⟨hrun, hb, hnum⟩ := ih hstep
    refine ⟨hrun, hb, fun n hn => ?_⟩
    rcases hnum n hn with hn | hn
    · exact ((next_compactEntry o _ next e).2 n hn).imp_right fun heq => heq.1.ge
    · exact Or.inr (hle.trans hn)

end Loop

end TLevelDB.Db
