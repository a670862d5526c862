import TLevelDB.Table.Reader

/-!
# Looking a key up in a table

`Table::InternalGet` asks the index for a block, the filter whether the key may be in that block,
and then the block for the first entry that is not below the key. The entry, if there is one, is
handed to a function of the caller (`handle_result`).

In a table that was built the filter does not reject a key that matches whatever filter some key
of the block matches (`TableFile.rejects_rep`), and without errors in between the caller gets an
entry of the block of the index (`TableFile.internalGet_eq`).
-/

namespace TLevelDB.Table

open Coding Cursors Block

/-! ### The model -/

namespace Rep

variable (o : Options) {σ α : Type} (cache : BlockCache σ) (options : ReadOptions)

/-- The filter says that the key is not in the block. -/
def rejects (t : Rep) (handleValue k : Slice) : Bool :=
  match o.filterPolicy, t.filter with
  | some policy, some filter =>
    match BlockHandle.decodeFrom handleValue with
    | .ok (handle, _) => !filter.keyMayMatch policy handle.offset k
    | .error _ => false
  | _, _ => false

/-- `InternalGet`: the cache, what the caller has then, and the status. -/
def internalGet (t : Rep) (st : σ) (k : Slice) (arg : α) (handleResult : α → Slice → Slice → α) : σ × α × Option Error :=
  let ops : CursorOps σ BlockIterator Slice Slice := BlockIterator.ops o.comparator
  let iiter := (ops.seek k (st, t.indexBlock.newIterator)).2
  match ops.current iiter with
  | none => (st, arg, ops.status iiter)
  | some (_, handleValue) =>
    if t.rejects o handleValue k then (st, arg, ops.status iiter)
    else
      let s := ops.seek k (t.blockReader o cache options st handleValue)
      let arg :=
        match ops.current s.2 with
        | none => arg
        | some (key, value) => handleResult arg key value
      (s.1, arg, (ops.status s.2).or (ops.status iiter))

end Rep

theorem Rep.openTable_withoutFilter {o : Options} {file : RandomAccessFile} {size : ℕ} {cacheId : UInt64} {t : Rep}
    (h : openTable o file size cacheId = .ok t) :
    openTable { o with filterPolicy := none } file size cacheId = .ok { t with filter := none } := by
  unfold openTable at h ⊢
  split at h
  · cases h
  split at h
  · cases h
  split at h
  · cases h
  split at h
  · cases h
  cases h
  simp_all [readMeta]

/-! ### Seeking in a block -/

theorem BlockBuilder.seek_newIterator {c : Comparator} {interval : ℕ} {es : List (Slice × Slice)} {σ : Type}
    (hpos : 0 < interval) (hsize : (BlockBuilder.addAll interval es).finish.length < 2 ^ 32) (hes : c.Increasing es)
    (st : σ) (key : Slice) :
    let ops : CursorOps σ BlockIterator Slice Slice := BlockIterator.ops c
    let s := ops.seek key (st, (Block.new (BlockBuilder.addAll interval es).finish).newIterator)
    ops.current s.2 = es.find? (fun e => (c.compare e.1 key).isGE) ∧ ops.status s.2 = none := by
  have himplements := BlockIterator.implements_ops (L := BlockBuilder.layout hpos hsize) hes fun _ : σ => True
  have hstands := (himplements.seek (r := st) key trivial (BlockBuilder.stands_newIterator hpos hsize)).2
  dsimp only
  rw [himplements.current hstands, map_cur_seek]
  exact ⟨by simp only [Bool.decide_eq_true], himplements.status hstands⟩

/-! ### Filters -/

section Filters

variable {o : Options} {file : RandomAccessFile} {blocks : List Slice} {t : TableFile o file.contents blocks}
  {policy : FilterPolicy} {s : TableBuilder.Section} {e : Slice × Slice} {k : Slice}

/-- The filter block is found by the name of its policy. -/
theorem TableFile.filter_rep (hblocks : ∀ raw ∈ blocks, raw.length < 2 ^ 32) (hfile : file.contents.length < 2 ^ 63)
    (hpolicy : o.filterPolicy = some policy) (cacheId : UInt64) {raw : Slice} {type : CompressionType}
    (hfilter : HasBlock o.codecs file.contents blocks t.filterHandle raw type) :
    (t.rep cacheId).filter = some (FilterBlockReader.new raw) := by
  have hentries : TableBuilder.metaEntries o t.filterHandle =
      [(TableBuilder.filterKey ++ policy.name, t.filterHandle.encode)] := by rw [TableBuilder.metaEntries, hpolicy]
  obtain ⟨cachable, hmeta⟩ := t.metaindex.readBlock hfile o.paranoidChecks
  obtain ⟨cachable', hraw⟩ := hfilter.readBlock hfile o.paranoidChecks
  have hsize := hblocks _ t.metaindex.mem
  rw [hentries] at hmeta hsize
  have hseek := (BlockBuilder.seek_newIterator (c := bytewiseComparator) o.restartInterval_pos hsize
    (List.pairwise_singleton _ _) () (TableBuilder.filterKey ++ policy.name)).1
  have hself : bytewiseComparator.compare (TableBuilder.filterKey ++ policy.name) (TableBuilder.filterKey ++ policy.name) =
      .eq := Std.ReflCmp.compare_self
  rw [List.find?_singleton, hself, if_pos (show Ordering.eq.isGE = true from rfl)] at hseek
  have hrep : (t.rep cacheId).filter = Rep.readMeta o file ⟨t.metaindexHandle, t.indexHandle⟩ := rfl
  rw [hrep, Rep.readMeta, hpolicy]
  dsimp only at hseek ⊢
  rw [hmeta]
  dsimp only
  rw [hseek]
  dsimp only
  rw [if_pos rfl, Rep.readFilter, t.filterHandle.decodeFrom_encode_nil]
  dsimp only
  rw [hraw]

/-- What a filter block says about a key is up to the policy. -/
theorem FilterBlockReader.keyMayMatch_congr {k' : Slice} (h : ∀ filter, policy.keyMayMatch k filter = policy.keyMayMatch k' filter)
    (r : FilterBlockReader) (blockOffset : UInt64) : r.keyMayMatch policy blockOffset k = r.keyMayMatch policy blockOffset k' := by
  simp only [FilterBlockReader.keyMayMatch, h]

/-- The filter of the window of a block is made for the keys of the block. -/
theorem TableBuilder.Covered.mem_allGroups {groups : List (List Slice)} {pending : List Slice}
    {w : BlockHandle × List (Slice × Slice)} (h : TableBuilder.Covered groups pending w) (he : e ∈ w.2) :
    ∃ hi : w.1.offset.toNat / kFilterBase < (FilterBlockBuilder.allGroups groups pending).length,
      e.1 ∈ (FilterBlockBuilder.allGroups groups pending)[w.1.offset.toNat / kFilterBase] := by
  obtain ⟨g, hg, hkeys⟩ := h
  have hget : (FilterBlockBuilder.allGroups groups pending)[w.1.offset.toNat / kFilterBase]? = some g := by
    rw [FilterBlockBuilder.allGroups]
    split
    · rename_i hempty
      rcases Nat.lt_or_ge (w.1.offset.toNat / kFilterBase) groups.length with hlt | hge
      · rwa [List.getElem?_append_left hlt] at hg
      · -- the last filter would be made for no keys at all
        rw [List.isEmpty_iff.mp hempty, List.getElem?_append_right hge] at hg
        have hnil : g = [] := List.mem_singleton.mp (List.mem_of_getElem? hg)
        exact absurd (hkeys e he) (by simp [hnil])
    · exact hg
  obtain ⟨hi, heq⟩ := List.getElem?_eq_some_iff.mp hget
  exact ⟨hi, heq ▸ hkeys e he⟩

/-- **The filter does not reject keys of the block**, nor keys that match the same filters. -/
theorem TableFile.rejects_rep (hblocks : ∀ raw ∈ blocks, raw.length < 2 ^ 32) (hfile : file.contents.length < 2 ^ 63)
    (cacheId : UInt64) (hs : s ∈ t.sections) (he : e ∈ s.entries)
    (hk : ∀ policy, o.filterPolicy = some policy → ∀ filter, policy.keyMayMatch k filter = policy.keyMayMatch e.1 filter) :
    (t.rep cacheId).rejects o s.handle.encode k = false := by
  rw [Rep.rejects]
  cases hpolicy : o.filterPolicy with
  | none => rfl
  | some policy =>
    obtain ⟨fb, groups, pending, hblock, hholds, hcovered⟩ := t.filter policy hpolicy
    obtain ⟨hi, hmem⟩ := (hcovered s hs).mem_allGroups he
    rw [TableFile.filter_rep hblocks hfile hpolicy cacheId hblock]
    dsimp only
    rw [s.handle.decodeFrom_encode_nil]
    dsimp only
    rw [FilterBlockReader.keyMayMatch_congr (hk policy hpolicy),
      hholds.keyMayMatch_finish (hblocks _ hblock.mem) rfl hi hmem]
    rfl

end Filters

/-! ### The lookup -/

section Lookup

variable {o : Options} {σ α : Type} {cache : BlockCache σ} {options : ReadOptions} {file : RandomAccessFile}
  {blocks : List Slice} (t : TableFile o file.contents blocks) {cacheId : UInt64} {st : σ}

/-- The section that the index has for a key. -/
def TableFile.sectionFor (k : Slice) : Option TableBuilder.Section :=
  t.sections.find? fun s => (o.comparator.compare s.separator k).isGE

variable {t} in
/-- No entry of a section is found if its separator is below the key. -/
theorem TableFile.not_isGE_of_mem {s : TableBuilder.Section} {k : Slice} (hs : s ∈ t.sections)
    (hbelow : ¬ (o.comparator.compare s.separator k).isGE) {e : Slice × Slice} (he : e ∈ s.entries) :
    ¬ (o.comparator.compare e.1 k).isGE :=
  TwoLevelIterator.not_isGE_of_isLE (t.separated.low s hs e he) hbelow

variable {t} in
/-- The first entry that is not below a key is in the section that the index has for it, or it is
after all keys for which the index has that section. -/
theorem TableFile.find_sectionFor (k : Slice) :
    let notBelow := fun e : Slice × Slice => (o.comparator.compare e.1 k).isGE
    (t.sectionFor k = none → t.entries.find? notBelow = none) ∧
    ∀ s, t.sectionFor k = some s → s ∈ t.sections ∧ (o.comparator.compare s.separator k).isGE ∧
      (s.entries.find? notBelow = t.entries.find? notBelow ∨
        s.entries.find? notBelow = none ∧ ∀ e, t.entries.find? notBelow = some e → TableBuilder.After o s e.1) := by
  intro notBelow
  constructor
  · intro hnone
    rw [TableFile.sectionFor, List.find?_eq_none] at hnone
    refine List.find?_eq_none.mpr fun e he => ?_
    obtain ⟨s, hs, hse⟩ := List.mem_flatMap.mp he
    exact TableFile.not_isGE_of_mem hs (hnone s hs) hse
  · intro s hsome
    obtain ⟨hge, before, after, hsections, hbefore⟩ := List.find?_eq_some_iff_append.mp hsome
    have hmem : s ∈ t.sections := List.mem_of_find?_eq_some hsome
    refine ⟨hmem, hge, ?_⟩
    have hskip : (before.flatMap TableBuilder.Section.entries).find? notBelow = none := by
      refine List.find?_eq_none.mpr fun e he => ?_
      obtain ⟨s', hs', hse⟩ := List.mem_flatMap.mp he
      have hs'mem : s' ∈ t.sections := by
        rw [hsections]
        exact List.mem_append_left _ hs'
      exact TableFile.not_isGE_of_mem hs'mem (by simpa using hbefore s' hs') hse
    have hfind : t.entries.find? notBelow =
        (s.entries.find? notBelow).or ((after.flatMap TableBuilder.Section.entries).find? notBelow) := by
      rw [TableFile.entries, hsections, List.flatMap_append, List.flatMap_cons, List.find?_append, List.find?_append, hskip,
        Option.none_or]
    rw [hfind]
    cases hblock : s.entries.find? notBelow with
    | some e => exact .inl rfl
    | none =>
      refine .inr ⟨rfl, fun e he => ?_⟩
      rw [Option.none_or] at he
      obtain ⟨s', hs', hse⟩ := List.mem_flatMap.mp (List.mem_of_find?_eq_some he)
      have hhigh := t.separated.high
      rw [hsections] at hhigh
      exact (List.pairwise_cons.mp (List.pairwise_append.mp hhigh).2.1).1 s' hs' e hse

/-- What a caller has after a lookup in the entries of a block. -/
def handled (c : Comparator) (es : List (Slice × Slice)) (k : Slice) (arg : α) (handleResult : α → Slice → Slice → α) : α :=
  match es.find? fun e => (c.compare e.1 k).isGE with
  | none => arg
  | some e => handleResult arg e.1 e.2

/-- What a caller has after a lookup in the table, if these blocks are rejected. -/
def TableFile.handled (rejects : TableBuilder.Section → Bool) (k : Slice) (arg : α) (handleResult : α → Slice → Slice → α) :
    α :=
  match t.sectionFor k with
  | none => arg
  | some s => if rejects s then arg else Table.handled o.comparator s.entries k arg handleResult

variable (cacheId cache options) in
/-- The open table is the one that was built, but for its filter. -/
structure TableFile.Opened (o' : Options) (rep : Rep) : Prop where
  comparator : o'.comparator = o.comparator
  indexBlock : rep.indexBlock = (t.rep cacheId).indexBlock
  blockReader : rep.blockReader o' cache options = (t.rep cacheId).blockReader o cache options

variable {t}

/-- **What `InternalGet` does** on a table that was built, opened with or without its filter. -/
theorem TableFile.internalGet_eq (hblocks : ∀ raw ∈ blocks, raw.length < 2 ^ 32) (hes : o.comparator.Increasing t.entries)
    (hfile : file.contents.length < 2 ^ 63) (hinv : CacheInv t cacheId cache st) {o' : Options} {rep : Rep}
    (hopened : t.Opened cache options cacheId o' rep) (k : Slice) (arg : α) (handleResult : α → Slice → Slice → α) :
    let r := rep.internalGet o' cache options st k arg handleResult
    CacheInv t cacheId cache r.1 ∧ r.2.2 = none ∧
      r.2.1 = t.handled (fun s => rep.rejects o' s.handle.encode k) k arg handleResult := by
  have hincreasing : ∀ s ∈ t.sections, o.comparator.Increasing s.entries := (List.pairwise_flatMap.mp hes).1
  obtain ⟨hcurrent, hstatus⟩ :=
    BlockBuilder.seek_newIterator Nat.one_pos (hblocks _ t.index.mem) t.increasing_index st k
  have hfind : (t.sections.map TableBuilder.Section.indexEntry).find? (fun e => (o.comparator.compare e.1 k).isGE) =
      (t.sectionFor k).map TableBuilder.Section.indexEntry := List.find?_map
  have hblock : rep.indexBlock =
      Block.new (BlockBuilder.addAll 1 (t.sections.map TableBuilder.Section.indexEntry)).finish := hopened.indexBlock
  rw [hfind] at hcurrent
  dsimp only
  rw [Rep.internalGet, hopened.comparator, hblock, hopened.blockReader]
  dsimp only
  rw [hcurrent, hstatus, TableFile.handled]
  cases hsection : t.sectionFor k with
  | none => exact ⟨hinv, rfl, rfl⟩
  | some s =>
    have hs : s ∈ t.sections := List.mem_of_find?_eq_some hsection
    rw [Option.map_some, TableBuilder.Section.indexEntry]
    dsimp only
    split
    · exact ⟨hinv, rfl, rfl⟩
    · obtain ⟨hinv', hiter⟩ : CacheInv t cacheId cache ((t.rep cacheId).blockReader o cache options st s.handle.encode).1 ∧ _ :=
        blockReader_of_mem hfile hs hinv
      have hpair : (t.rep cacheId).blockReader o cache options st s.handle.encode =
          (((t.rep cacheId).blockReader o cache options st s.handle.encode).1, (Block.new (t.raw s)).newIterator) :=
        Prod.ext rfl hiter
      generalize ((t.rep cacheId).blockReader o cache options st s.handle.encode).1 = st' at hinv' hpair
      obtain ⟨hcurrent', hstatus'⟩ := BlockBuilder.seek_newIterator o.restartInterval_pos (hblocks _ (t.data s hs).mem)
        (hincreasing s hs) st' k
      rw [hpair, TableFile.raw, hcurrent', hstatus', Table.handled]
      refine ⟨hinv', rfl, ?_⟩
      cases s.entries.find? fun e => (o.comparator.compare e.1 k).isGE with
      | none => rfl
      | some e => rfl

end Lookup

end TLevelDB.Table
