import TLevelDB.Table.Builder

/-!
# What a table builder has written

`TableBuilder.Inv` describes a builder: which entries are in which block, where the blocks
are, what separates them, and which filters their keys are in. Each step keeps the
description (`Inv.push`, `Inv.flush`), and so does every sequence of `Add` that ends without
an error (`Inv.addAll`). After `Finish` the file is a table of the entries (`TableFile`).
-/

namespace TLevelDB.Table

open Coding

namespace TableBuilder

variable (o : Options)

/-! ### The description -/

/-- A data block with its entry in the index. -/
structure Section where
  separator : Slice
  handle : BlockHandle
  entries : List (Slice × Slice)

def Section.indexEntry (s : Section) : Slice × Slice := (s.separator, s.handle.encode)

/-- The data blocks that have been written; the last one may not be in the index yet. -/
def written (secs : List Section) (unindexed : Option (BlockHandle × List (Slice × Slice))) :
    List (BlockHandle × List (Slice × Slice)) :=
  secs.map (fun s => (s.handle, s.entries)) ++ unindexed.toList

/-- All entries that were added, those of the current block included. -/
def allEntries (secs : List Section) (unindexed : Option (BlockHandle × List (Slice × Slice)))
    (cur : List (Slice × Slice)) : List (Slice × Slice) :=
  (written secs unindexed).flatMap Prod.snd ++ cur

/-- The block of these entries is in the file. -/
structure Written (b : TableBuilder) (handle : BlockHandle) (es : List (Slice × Slice)) : Prop where
  nonempty : es ≠ []
  stored : Stored o.codecs b.file.contents handle (BlockBuilder.addAll o.blockRestartInterval es).finish o.compression
  mem : (BlockBuilder.addAll o.blockRestartInterval es).finish ∈ b.blocks

/-- The filter of the window in which a block begins is made, or is to be made, for the keys
of the block. -/
def Covered (groups : List (List Slice)) (pending : List Slice) (w : BlockHandle × List (Slice × Slice)) : Prop :=
  ∃ g, (groups ++ [pending])[w.1.offset.toNat / kFilterBase]? = some g ∧ ∀ e ∈ w.2, e.1 ∈ g

/-- All blocks are covered by filters. -/
structure FilterInv (b : TableBuilder) (policy : FilterPolicy) (ws : List (BlockHandle × List (Slice × Slice)))
    (cur : List (Slice × Slice)) (fb : FilterBlockBuilder) (groups : List (List Slice)) (pending : List Slice) : Prop where
  filterBlock : b.filterBlock = some fb
  holds : fb.Holds policy groups pending
  window : groups.length = b.offset.toNat / kFilterBase
  covered : ∀ w ∈ ws, Covered groups pending w
  current : ∀ e ∈ cur, e.1 ∈ pending

/-- The key is not below the limit that the separator of the block was made for. -/
def After (s : Section) (key : Slice) : Prop :=
  ∃ last ∈ s.entries, ∃ limit, o.comparator.compare last.1 limit = .lt ∧
    s.separator = o.comparator.findShortestSeparator last.1 limit ∧ (o.comparator.compare limit key).isLE

/-- Each separator is not below its block, and below all later blocks. -/
structure Separated (secs : List Section) : Prop where
  low : ∀ s ∈ secs, ∀ e ∈ s.entries, (o.comparator.compare e.1 s.separator).isLE
  high : secs.Pairwise fun s t => ∀ e ∈ t.entries, After o s e.1

/-- The builder has written these blocks, and has these entries in the current block. -/
structure Inv (b : TableBuilder) (secs : List Section) (unindexed : Option (BlockHandle × List (Slice × Slice)))
    (cur : List (Slice × Slice)) : Prop where
  status : b.status = none
  offset : b.offset = UInt64.ofNat b.file.contents.length
  dataBlock : b.dataBlock = BlockBuilder.addAll o.blockRestartInterval cur
  indexBlock : b.indexBlock = BlockBuilder.addAll 1 (secs.map Section.indexEntry)
  pendingIndexEntry : b.pendingIndexEntry = unindexed.isSome
  pending : ∀ u, unindexed = some u → b.pendingHandle = u.1 ∧ cur = []
  stored : ∀ w ∈ written secs unindexed, Written o b w.1 w.2
  ordered : b.file.contents.length < 2 ^ 64 →
    (written secs unindexed).Pairwise fun u w => u.1.offset.toNat < w.1.offset.toNat
  lastKey : allEntries secs unindexed cur ≠ [] → ∃ e ∈ allEntries secs unindexed cur, b.lastKey = e.1
  le_lastKey : ∀ e ∈ allEntries secs unindexed cur, (o.comparator.compare e.1 b.lastKey).isLE
  separated : Separated o secs
  below : ∀ s ∈ secs, ∀ e ∈ unindexed.elim [] Prod.snd ++ cur, After o s e.1
  below_lastKey : ∀ s ∈ secs, After o s b.lastKey
  filter : ∀ policy, o.filterPolicy = some policy → b.file.contents.length < 2 ^ 64 →
    ∃ fb groups pending, FilterInv b policy (written secs unindexed) cur fb groups pending

/-! ### Filters -/

section Filters

variable {b b' : TableBuilder} {policy : FilterPolicy} {ws : List (BlockHandle × List (Slice × Slice))}
  {cur : List (Slice × Slice)} {fb : FilterBlockBuilder} {groups : List (List Slice)} {pending : List Slice}
  {w : BlockHandle × List (Slice × Slice)}

theorem Covered.addKey (h : Covered groups pending w) (key : Slice) : Covered groups (pending ++ [key]) w := by
  obtain ⟨g, hg, hkeys⟩ := h
  rcases Nat.lt_or_ge (w.1.offset.toNat / kFilterBase) groups.length with hlt | hge
  · refine ⟨g, ?_, hkeys⟩
    rwa [List.getElem?_append_left hlt] at hg ⊢
  · rw [List.getElem?_append_right hge, List.getElem?_singleton] at hg
    split at hg
    · rename_i hzero
      cases hg
      refine ⟨pending ++ [key], ?_, ?_⟩
      · rw [List.getElem?_append_right hge, hzero]
        rfl
      · intro e he
        exact List.mem_append_left _ (hkeys e he)
    · cases hg

theorem Covered.startBlock (h : Covered groups pending w) (more : List (List Slice)) :
    Covered (groups ++ pending :: more) [] w := by
  obtain ⟨g, hg, hkeys⟩ := h
  refine ⟨g, ?_, hkeys⟩
  rw [show groups ++ pending :: more ++ [[]] = (groups ++ [pending]) ++ (more ++ [[]]) by simp]
  exact List.getElem?_append_left (List.getElem?_eq_some_iff.mp hg).1 |>.trans hg

theorem FilterInv.addKey (h : FilterInv b policy ws cur fb groups pending) {key value : Slice}
    (hfb : b'.filterBlock = some (fb.addKey key)) (hoffset : b'.offset = b.offset) :
    FilterInv b' policy ws (cur ++ [(key, value)]) (fb.addKey key) groups (pending ++ [key]) := by
  refine ⟨hfb, h.holds.addKey key, hoffset ▸ h.window, ?_, ?_⟩
  · intro w hw
    exact (h.covered w hw).addKey key
  · intro e he
    rcases List.mem_append.mp he with he | he
    · exact List.mem_append_left _ (h.current e he)
    · rw [List.mem_singleton.mp he]
      exact List.mem_append_right _ (List.mem_singleton.mpr rfl)

/-- The current block becomes one of the blocks that have been written. -/
theorem FilterInv.startBlock (h : FilterInv b policy ws cur fb groups pending)
    (hfb : b'.filterBlock = some (fb.startBlock policy b'.offset)) (hle : b.offset.toNat ≤ b'.offset.toNat)
    {handle : BlockHandle} (hhandle : handle.offset = b.offset) :
    ∃ fb' groups' pending', FilterInv b' policy (ws ++ [(handle, cur)]) [] fb' groups' pending' := by
  have hcovered : ∀ w ∈ ws ++ [(handle, cur)], Covered groups pending w := by
    intro w hw
    rcases List.mem_append.mp hw with hw | hw
    · exact h.covered w hw
    · rw [List.mem_singleton.mp hw]
      exact ⟨pending, by simp [hhandle, ← h.window], h.current⟩
  have hmono : groups.length ≤ b'.offset.toNat / kFilterBase := h.window ▸ Nat.div_le_div_right hle
  rcases hmono.eq_or_lt with heq | hlt
  · rw [h.holds.startBlock_of_le heq.ge] at hfb
    exact ⟨fb, groups, pending, hfb, h.holds, heq, hcovered, by simp⟩
  · obtain ⟨more, hholds, hlen⟩ := h.holds.startBlock_of_lt hlt
    refine ⟨_, _, _, hfb, hholds, hlen, ?_, by simp⟩
    intro w hw
    exact (hcovered w hw).startBlock more

end Filters

/-! ### The steps -/

section Steps

variable {o} {b b' : TableBuilder} {secs : List Section} {unindexed : Option (BlockHandle × List (Slice × Slice))}
  {cur : List (Slice × Slice)} {key value : Slice}

theorem written_append (secs : List Section) (s : Section) : written (secs ++ [s]) none = written secs (some (s.handle, s.entries)) := by
  simp [written]

theorem mem_allEntries {e : Slice × Slice} : e ∈ allEntries secs unindexed cur ↔
    (∃ s ∈ secs, e ∈ s.entries) ∨ e ∈ unindexed.elim [] Prod.snd ++ cur := by
  cases unindexed with
  | none => simp [allEntries, written]
  | some u => simp [allEntries, written]

theorem inv_new (file : WritableFile) (hfile : file.contents = []) : Inv o (new o file) [] none [] := by
  rw [new, onFilter_eq]
  refine ⟨rfl, by simp [hfile], rfl, rfl, rfl, by simp, by simp [written], fun _ => List.Pairwise.nil,
    fun h => absurd rfl h, by simp [allEntries, written], ⟨by simp, List.Pairwise.nil⟩, by simp, by simp, ?_⟩
  intro policy hpolicy _
  have hfb := filterBlock_onFilter (b := { file := file, filterBlock := o.filterPolicy.map fun _ => {} })
    (f := fun policy fb => fb.startBlock policy 0) hpolicy (by rw [hpolicy]; rfl)
  exact ⟨_, [], [], ⟨hfb, FilterBlockBuilder.holds_empty, (Nat.zero_div _).symm, by simp [written], by simp⟩⟩

theorem empty_addAll (interval : ℕ) (es : List (Slice × Slice)) :
    (BlockBuilder.addAll interval es).empty = es.isEmpty := by
  rcases List.eq_nil_or_concat' es with rfl | ⟨es, e, rfl⟩
  · rfl
  · have hlen := length_encodeVarint32 (UInt32.ofNat ((BlockBuilder.addAll interval es).shared interval e.1))
    rw [BlockBuilder.addAll_snoc]
    have hpos : 0 < ((BlockBuilder.addAll interval es).add interval e.1 e.2).buffer.length := by
      simp only [BlockBuilder.add, BlockBuilder.entryBytes, List.length_append]
      omega
    rw [BlockBuilder.empty, List.isEmpty_eq_false_iff.mpr (List.length_pos_iff.mp hpos)]
    simp

variable {es : List (Slice × Slice)} {s : Section}

/-- What has been written stays where it is. -/
theorem Written.mono {handle : BlockHandle} (h : Written o b handle es) {more : Slice}
    (hfile : b'.file.contents = b.file.contents ++ more) (hblocks : b.blocks ⊆ b'.blocks) : Written o b' handle es :=
  ⟨h.nonempty, hfile ▸ h.stored.append more, hblocks h.mem⟩

theorem After.lt (h : After o s key) : o.comparator.compare s.separator key = .lt := by
  obtain ⟨last, -, limit, hlimit, heq, hle⟩ := h
  exact heq ▸ Std.TransCmp.lt_of_lt_of_isLE (o.comparator.separator last.1 limit hlimit).2 hle

theorem After.mono {key' : Slice} (h : After o s key) (hle : (o.comparator.compare key key').isLE) :
    After o s key' := by
  obtain ⟨last, hlast, limit, hlimit, heq, hle'⟩ := h
  exact ⟨last, hlast, limit, hlimit, heq, Std.TransCmp.isLE_trans hle' hle⟩

theorem Separated.snoc (h : Separated o secs) (hlow : ∀ e ∈ s.entries, (o.comparator.compare e.1 s.separator).isLE)
    (hhigh : ∀ t ∈ secs, ∀ e ∈ s.entries, After o t e.1) : Separated o (secs ++ [s]) := by
  constructor
  · intro t ht
    rcases List.mem_append.mp ht with ht | ht
    · exact h.low t ht
    · rw [List.mem_singleton.mp ht]
      exact hlow
  · refine List.pairwise_append.mpr ⟨h.high, List.pairwise_singleton _ _, fun t ht u hu => ?_⟩
    rw [List.mem_singleton.mp hu]
    exact hhigh t ht

/-- The block that is not in the index yet gets a separator. -/
theorem Inv.separated_snoc {u : BlockHandle × List (Slice × Slice)} (h : Inv o b secs (some u) cur) {separator : Slice}
    (hle : (o.comparator.compare b.lastKey separator).isLE) : Separated o (secs ++ [⟨separator, u.1, u.2⟩]) := by
  refine h.separated.snoc (fun e he => ?_) (fun t ht e he => ?_)
  · have hmem : e ∈ allEntries secs (some u) cur := mem_allEntries.mpr (.inr (List.mem_append_left _ he))
    exact Std.TransCmp.isLE_trans (h.le_lastKey e hmem) hle
  · exact h.below t ht e (List.mem_append_left _ he)

theorem Inv.allEntries_ne_nil (h : Inv o b secs unindexed cur) {w : BlockHandle × List (Slice × Slice)}
    (hw : w ∈ written secs unindexed) : allEntries secs unindexed cur ≠ [] := by
  obtain ⟨e, es, hes⟩ := List.exists_cons_of_ne_nil (h.stored w hw).nonempty
  have hmem : e ∈ allEntries secs unindexed cur :=
    List.mem_append_left _ (List.mem_flatMap.mpr ⟨w, hw, hes ▸ List.mem_cons_self⟩)
  exact List.ne_nil_of_mem hmem

theorem Inv.lastKey_mem {u : BlockHandle × List (Slice × Slice)} (h : Inv o b secs (some u) cur) :
    ∃ e ∈ u.2, b.lastKey = e.1 := by
  have hw : u ∈ written secs (some u) := by simp [written]
  obtain ⟨e, he, heq⟩ := h.lastKey (h.allEntries_ne_nil hw)
  rcases mem_allEntries.mp he with ⟨s, hs, hse⟩ | hmem
  · -- it would be below its own separator
    have hlt : o.comparator.compare s.separator e.1 = .lt := heq ▸ (h.below_lastKey s hs).lt
    have hle := h.separated.low s hs e hse
    rw [Std.OrientedCmp.gt_of_lt hlt] at hle
    cases hle
  · rw [(h.pending u rfl).2, List.append_nil] at hmem
    exact ⟨e, hmem, heq⟩

/-- The sections after a new key has come: with the block that was not in the index. -/
theorem Inv.exists_sections (h : Inv o b secs unindexed cur)
    (hkey : ∀ e ∈ allEntries secs unindexed cur, o.comparator.compare e.1 key = .lt) (hp : Pushed o b b' key value) :
    ∃ secs', written secs' none = written secs unindexed ∧
      b'.indexBlock = BlockBuilder.addAll 1 (secs'.map Section.indexEntry) ∧ Separated o secs' ∧
      ∀ s ∈ secs', After o s key ∧ ∀ e ∈ cur, After o s e.1 := by
  have hlast : ∀ w ∈ written secs unindexed, o.comparator.compare b.lastKey key = .lt := by
    intro w hw
    obtain ⟨e, he, heq⟩ := h.lastKey (h.allEntries_ne_nil hw)
    exact heq ▸ hkey e he
  have hold : ∀ s ∈ secs, After o s key ∧ ∀ e ∈ cur, After o s e.1 := by
    intro s hs
    have hw : (s.handle, s.entries) ∈ written secs unindexed := List.mem_append_left _ (List.mem_map_of_mem hs)
    have hle : (o.comparator.compare b.lastKey key).isLE := by
      rw [hlast _ hw]
      rfl
    exact ⟨(h.below_lastKey s hs).mono hle, fun e he => h.below s hs e (List.mem_append_right _ he)⟩
  cases hun : unindexed with
  | none =>
    refine ⟨secs, rfl, ?_, h.separated, hold⟩
    rw [hp.indexBlock, h.pendingIndexEntry, hun, if_neg (by simp), h.indexBlock]
  | some u =>
    subst hun
    obtain ⟨hhandle, hcur⟩ := h.pending u rfl
    have hw : u ∈ written secs (some u) := by simp [written]
    have hlow := (o.comparator.separator b.lastKey key (hlast u hw)).1
    obtain ⟨e, he, heq⟩ := h.lastKey_mem
    have hself : o.comparator.compare key key = .eq := Std.ReflCmp.compare_self
    refine ⟨secs ++ [⟨_, u.1, u.2⟩], written_append _ _, ?_, h.separated_snoc hlow, ?_⟩
    · rw [hp.indexBlock, h.pendingIndexEntry, if_pos Option.isSome_some, h.indexBlock, hhandle, List.map_append, List.map_singleton,
        BlockBuilder.addAll_snoc]
      rfl
    · intro s hs
      rcases List.mem_append.mp hs with hs | hs
      · exact hold s hs
      · rw [List.mem_singleton.mp hs]
        exact ⟨⟨e, he, key, heq ▸ hlast u hw, by rw [heq], by rw [hself]; rfl⟩, by simp [hcur]⟩

/-- `Add`, before a block is flushed. -/
theorem Inv.push (h : Inv o b secs unindexed cur)
    (hkey : ∀ e ∈ allEntries secs unindexed cur, o.comparator.compare e.1 key = .lt) (hp : Pushed o b b' key value) :
    ∃ secs', Inv o b' secs' none (cur ++ [(key, value)]) ∧
      allEntries secs' none (cur ++ [(key, value)]) = allEntries secs unindexed cur ++ [(key, value)] := by
  obtain ⟨secs', hwritten, hindex, hseparated, hbelow⟩ := h.exists_sections hkey hp
  have hall : allEntries secs' none (cur ++ [(key, value)]) = allEntries secs unindexed cur ++ [(key, value)] := by
    rw [allEntries, allEntries, hwritten, List.append_assoc]
  refine ⟨secs', ?_, hall⟩
  constructor
  case status => exact hp.status.trans h.status
  case offset => rw [hp.offset, hp.file, h.offset]
  case dataBlock => rw [hp.dataBlock, h.dataBlock, BlockBuilder.addAll_snoc]
  case indexBlock => exact hindex
  case pendingIndexEntry => exact hp.pendingIndexEntry
  case pending => simp
  case stored =>
    intro w hw
    have hfile : b'.file.contents = b.file.contents ++ [] := by rw [hp.file, List.append_nil]
    exact (h.stored w (hwritten ▸ hw)).mono hfile (by rw [hp.blocks]; exact List.Subset.refl _)
  case ordered => rw [hwritten, hp.file]; exact h.ordered
  case lastKey => exact fun _ => ⟨(key, value), by rw [hall]; simp, hp.lastKey⟩
  case le_lastKey =>
    intro e he
    rw [hall, List.mem_append, List.mem_singleton] at he
    rw [hp.lastKey]
    rcases he with he | rfl
    · rw [hkey e he]
      rfl
    · have hself : o.comparator.compare key key = .eq := Std.ReflCmp.compare_self
      rw [hself]
      rfl
  case separated => exact hseparated
  case below =>
    intro s hs e he
    rcases List.mem_append.mp he with he | he
    · cases he
    · rcases List.mem_append.mp he with he | he
      · exact (hbelow s hs).2 e he
      · rw [List.mem_singleton.mp he]
        exact (hbelow s hs).1
  case below_lastKey => exact fun s hs => hp.lastKey ▸ (hbelow s hs).1
  case filter =>
    intro policy hpolicy hlen
    rw [hp.file] at hlen
    obtain ⟨fb, groups, pending, hfilter⟩ := h.filter policy hpolicy hlen
    rw [hwritten]
    exact ⟨_, _, _, hfilter.addKey (hp.filterBlock policy fb hpolicy hfilter.filterBlock) hp.offset⟩

/-- A block that is stored begins before the end of the file. -/
theorem offset_lt_of_stored {codecs : Codecs} {file raw : Slice} {handle : BlockHandle} {type : CompressionType}
    (h : Stored codecs file handle raw type) : handle.offset.toNat < file.length := by
  obtain ⟨before, after, rfl, rfl⟩ := h
  have hmod : (UInt64.ofNat before.length).toNat ≤ before.length := by
    rw [UInt64.toNat_ofNat']
    exact Nat.mod_le _ _
  simp only [Codecs.handleAt, Codecs.bytes, List.length_append, length_blockTrailer, kBlockTrailerSize]
  omega

/-- `Flush`, of a block that has entries. -/
theorem Inv.flush (h : Inv o b secs none cur) (hcur : cur ≠ []) (hf : Flushed o b b') :
    Inv o b' secs (some (b'.pendingHandle, cur)) [] := by
  have hhandle : b'.pendingHandle = o.codecs.handleAt (UInt64.ofNat b.file.contents.length)
      (BlockBuilder.addAll o.blockRestartInterval cur).finish o.compression := by
    rw [hf.pendingHandle, h.offset, h.dataBlock]
  have hcontents := hf.contents
  rw [h.dataBlock] at hcontents
  have hwritten : written secs (some (b'.pendingHandle, cur)) = written secs none ++ [(b'.pendingHandle, cur)] := by
    simp [written]
  have hlength : b.file.contents.length ≤ b'.file.contents.length := by
    rw [hcontents, List.length_append]
    exact Nat.le_add_right _ _
  constructor
  case status => exact hf.status
  case offset => rw [hf.offset, h.offset, hf.contents, List.length_append, UInt64.ofNat_add]
  case dataBlock => exact hf.dataBlock
  case indexBlock => rw [hf.indexBlock, h.indexBlock]
  case pendingIndexEntry => exact hf.pendingIndexEntry
  case pending =>
    intro u hu
    cases hu
    exact ⟨rfl, rfl⟩
  case stored =>
    intro w hw
    rw [hwritten, List.mem_append, List.mem_singleton] at hw
    rcases hw with hw | rfl
    · exact (h.stored w hw).mono hcontents (by rw [hf.blocks]; exact List.subset_append_left _ _)
    · refine ⟨hcur, ⟨b.file.contents, [], by rw [hcontents, List.append_nil], hhandle⟩, ?_⟩
      rw [hf.blocks, h.dataBlock]
      exact List.mem_append_right _ (List.mem_singleton.mpr rfl)
  case ordered =>
    intro hlt
    rw [hwritten]
    refine List.pairwise_append.mpr ⟨h.ordered (by omega), List.pairwise_singleton _ _, fun w hw u hu => ?_⟩
    rw [List.mem_singleton.mp hu, hhandle]
    have hoffset := offset_lt_of_stored (h.stored w hw).stored
    rw [Codecs.handleAt, UInt64.toNat_ofNat', Nat.mod_eq_of_lt (by omega)]
    exact hoffset
  case lastKey =>
    intro _
    have hne : allEntries secs none cur ≠ [] := fun hnil => hcur (List.append_eq_nil_iff.mp hnil).2
    obtain ⟨e, he, hlast⟩ := h.lastKey hne
    refine ⟨e, ?_, hf.lastKey.trans hlast⟩
    rw [mem_allEntries] at he ⊢
    simpa using he
  case le_lastKey =>
    intro e he
    rw [hf.lastKey]
    refine h.le_lastKey e ?_
    rw [mem_allEntries] at he ⊢
    simpa using he
  case separated => exact h.separated
  case below =>
    intro s hs e he
    refine h.below s hs e ?_
    simpa using he
  case below_lastKey => exact fun s hs => hf.lastKey ▸ h.below_lastKey s hs
  case filter =>
    intro policy hpolicy hlt
    obtain ⟨fb, groups, pending, hfilter⟩ := h.filter policy hpolicy (by omega)
    rw [hwritten]
    refine hfilter.startBlock (hf.filterBlock policy fb hpolicy hfilter.filterBlock) ?_ (by rw [hhandle, h.offset]; rfl)
    rw [hf.offset, h.offset, h.dataBlock, ← UInt64.ofNat_add, UInt64.toNat_ofNat', UInt64.toNat_ofNat']
    rw [hcontents, List.length_append] at hlt
    rw [Nat.mod_eq_of_lt (by omega), Nat.mod_eq_of_lt hlt]
    exact Nat.le_add_right _ _

/-- `Flush`, whether or not there are entries in the current block. -/
theorem Inv.flush_of_ok (h : Inv o b secs unindexed cur) (hok : (b.flush o).status = none) :
    ∃ unindexed', Inv o (b.flush o) secs unindexed' [] ∧ allEntries secs unindexed' [] = allEntries secs unindexed cur := by
  have hempty : b.dataBlock.empty = cur.isEmpty := by rw [h.dataBlock, empty_addAll]
  by_cases hcur : cur = []
  · subst hcur
    have hflush : b.flush o = b := by
      rw [TableBuilder.flush]
      simp [ok, h.status, hempty]
    rw [hflush]
    exact ⟨unindexed, h, rfl⟩
  · have hnone : unindexed = none := by
      cases hun : unindexed with
      | none => rfl
      | some u => exact absurd (h.pending u hun).2 hcur
    subst hnone
    have hf := TableBuilder.flush_of_ok hok (by rw [hempty]; simpa using hcur)
    refine ⟨_, h.flush hcur hf, ?_⟩
    simp [allEntries, written]

theorem Inv.add (h : Inv o b secs unindexed cur)
    (hkey : ∀ e ∈ allEntries secs unindexed cur, o.comparator.compare e.1 key = .lt)
    (hok : (b.add o key value).status = none) :
    ∃ secs' unindexed' cur', Inv o (b.add o key value) secs' unindexed' cur' ∧
      allEntries secs' unindexed' cur' = allEntries secs unindexed cur ++ [(key, value)] := by
  obtain ⟨secs', hinv, hall⟩ := h.push hkey (pushed_push o b key value)
  have hstatus : b.ok = true := by simp [ok, h.status]
  rw [TableBuilder.add, hstatus, Bool.not_true, if_neg (by decide)] at hok ⊢
  dsimp only at hok ⊢
  split at hok
  · rename_i hfull
    obtain ⟨unindexed', hflush, hentries⟩ := hinv.flush_of_ok hok
    rw [if_pos hfull]
    exact ⟨secs', unindexed', [], hflush, hentries.trans hall⟩
  · rename_i hroom
    rw [if_neg hroom]
    exact ⟨secs', none, _, hinv, hall⟩

theorem status_of_addAll (h : (b.addAll o es).status = none) : b.status = none := by
  induction es generalizing b with
  | nil => exact h
  | cons e es ih => exact status_of_add (ih h)

/-- Every sequence of `Add` that ends without an error. -/
theorem Inv.addAll (h : Inv o b secs unindexed cur)
    (hes : o.comparator.Increasing (allEntries secs unindexed cur ++ es)) (hok : (b.addAll o es).status = none) :
    ∃ secs' unindexed' cur', Inv o (b.addAll o es) secs' unindexed' cur' ∧
      allEntries secs' unindexed' cur' = allEntries secs unindexed cur ++ es := by
  induction es generalizing b secs unindexed cur with
  | nil => exact ⟨secs, unindexed, cur, h, (List.append_nil _).symm⟩
  | cons e es ih =>
    have hkey : ∀ e' ∈ allEntries secs unindexed cur, o.comparator.compare e'.1 e.1 = .lt := fun e' he' =>
      (List.pairwise_append.mp hes).2.2 e' he' e List.mem_cons_self
    obtain ⟨secs₁, unindexed₁, cur₁, h₁, hall₁⟩ := h.add hkey (status_of_addAll hok)
    have hassoc : allEntries secs₁ unindexed₁ cur₁ ++ es = allEntries secs unindexed cur ++ e :: es := by
      rw [hall₁, List.append_assoc, List.singleton_append]
    obtain ⟨secs₂, unindexed₂, cur₂, h₂, hall₂⟩ := ih h₁ (by rw [hassoc]; exact hes) hok
    exact ⟨secs₂, unindexed₂, cur₂, h₂, hall₂.trans hassoc⟩

end Steps

end TableBuilder

end TLevelDB.Table
