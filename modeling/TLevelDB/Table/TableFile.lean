import TLevelDB.Table.Written

/-!
# Finished tables

`TableFile` says what is in the file of a table: the data blocks with their separators, the
filter block, the metaindex block, the index block and the footer. A builder that has finished
without an error has written such a file, with the entries that were added to it
(`TableBuilder.exists_tableFile`).
-/

namespace TLevelDB.Table

open Coding

/-- The block is stored in the file, and is among those whose sizes are known. -/
structure HasBlock (codecs : Codecs) (file : Slice) (blocks : List Slice) (handle : BlockHandle) (raw : Slice)
    (type : CompressionType) : Prop where
  stored : Stored codecs file handle raw type
  mem : raw ∈ blocks

/-- What is in the file of a table. -/
structure TableFile (o : Options) (file : Slice) (blocks : List Slice) where
  sections : List TableBuilder.Section
  filterHandle : BlockHandle
  metaindexHandle : BlockHandle
  indexHandle : BlockHandle
  body : Slice
  file_eq : file = body ++ (Footer.mk metaindexHandle indexHandle).encode
  nonempty : ∀ s ∈ sections, s.entries ≠ []
  data : ∀ s ∈ sections,
    HasBlock o.codecs file blocks s.handle (BlockBuilder.addAll o.blockRestartInterval s.entries).finish o.compression
  separated : TableBuilder.Separated o sections
  ordered : sections.Pairwise fun s t => s.handle.offset.toNat < t.handle.offset.toNat
  offset_lt : ∀ s ∈ sections, s.handle.offset.toNat < metaindexHandle.offset.toNat
  index : HasBlock o.codecs file blocks indexHandle
    (BlockBuilder.addAll 1 (sections.map TableBuilder.Section.indexEntry)).finish o.compression
  metaindex : HasBlock o.codecs file blocks metaindexHandle
    (BlockBuilder.addAll o.blockRestartInterval (TableBuilder.metaEntries o filterHandle)).finish o.compression
  filter : ∀ policy, o.filterPolicy = some policy → ∃ fb groups pending,
    HasBlock o.codecs file blocks filterHandle (FilterBlockBuilder.finish policy fb) .noCompression ∧
      fb.Holds policy groups pending ∧ ∀ s ∈ sections, TableBuilder.Covered groups pending (s.handle, s.entries)

/-- The entries of the table. -/
def TableFile.entries {o : Options} {file : Slice} {blocks : List Slice} (t : TableFile o file blocks) :
    List (Slice × Slice) :=
  t.sections.flatMap TableBuilder.Section.entries

namespace TableBuilder

variable {o : Options} {b b' : TableBuilder} {more : Slice} {handle : BlockHandle}

/-! ### The steps of `Finish` -/

/-- The builder has written these bytes, and nothing else has changed that is used later. -/
structure Wrote (b b' : TableBuilder) (more : Slice) : Prop where
  status : b'.status = none
  contents : b'.file.contents = b.file.contents ++ more
  offset : b'.offset = b.offset + UInt64.ofNat more.length
  blocks : b.blocks ⊆ b'.blocks
  indexBlock : b'.indexBlock = b.indexBlock
  pendingIndexEntry : b'.pendingIndexEntry = b.pendingIndexEntry
  pendingHandle : b'.pendingHandle = b.pendingHandle
  lastKey : b'.lastKey = b.lastKey

theorem Wrote.offset_eq (h : Wrote b b' more) (hoffset : b.offset = UInt64.ofNat b.file.contents.length) :
    b'.offset = UInt64.ofNat b'.file.contents.length := by
  rw [h.offset, hoffset, h.contents, List.length_append, UInt64.ofNat_add]

/-- The second builder has at least what the first one has. -/
def Extends (b b' : TableBuilder) : Prop := (∃ more, b'.file.contents = b.file.contents ++ more) ∧ b.blocks ⊆ b'.blocks

theorem Wrote.extends (h : Wrote b b' more) : Extends b b' := ⟨⟨more, h.contents⟩, h.blocks⟩

theorem Extends.trans {b'' : TableBuilder} (h : Extends b b') (h' : Extends b' b'') : Extends b b'' := by
  obtain ⟨⟨more, hmore⟩, hblocks⟩ := h
  obtain ⟨⟨more', hmore'⟩, hblocks'⟩ := h'
  exact ⟨⟨more ++ more', by rw [hmore', hmore, List.append_assoc]⟩, fun _ h => hblocks' (hblocks h)⟩

theorem Extends.length_le (h : Extends b b') : b.file.contents.length ≤ b'.file.contents.length := by
  obtain ⟨⟨more, hmore⟩, -⟩ := h
  rw [hmore, List.length_append]
  exact Nat.le_add_right _ _

theorem Extends.hasBlock (h : Extends b b') {raw : Slice} {type : CompressionType}
    (hblock : HasBlock o.codecs b.file.contents b.blocks handle raw type) :
    HasBlock o.codecs b'.file.contents b'.blocks handle raw type := by
  obtain ⟨⟨more, hmore⟩, hblocks⟩ := h
  exact ⟨hmore ▸ hblock.stored.append more, hblocks hblock.mem⟩

/-- The block that was written at the end of the file. -/
theorem hasBlock_of_contents {raw : Slice} {type : CompressionType} (hoffset : b.offset = UInt64.ofNat b.file.contents.length)
    (hcontents : b'.file.contents = b.file.contents ++ o.codecs.bytes raw type) (hmem : raw ∈ b'.blocks) :
    HasBlock o.codecs b'.file.contents b'.blocks (o.codecs.handleAt b.offset raw type) raw type :=
  ⟨⟨b.file.contents, [], by rw [hcontents, List.append_nil], by rw [hoffset]⟩, hmem⟩

theorem wrote_wrote (b : TableBuilder) (raw data : Slice) (calls : ℕ) :
    Wrote b (wrote { b with blocks := b.blocks ++ [raw] } data calls) data :=
  ⟨rfl, rfl, rfl, List.subset_append_left _ _, rfl, rfl, rfl, rfl⟩

theorem finishFilter_of_ok (h : (b.finishFilter o).1.status = none) : b.status = none ∧
    ∃ more, Wrote b (b.finishFilter o).1 more ∧ ∀ policy fb, o.filterPolicy = some policy → b.filterBlock = some fb →
      more = o.codecs.bytes (fb.finish policy) .noCompression ∧ fb.finish policy ∈ (b.finishFilter o).1.blocks ∧
      (b.finishFilter o).2 = o.codecs.handleAt b.offset (fb.finish policy) .noCompression := by
  unfold finishFilter at h ⊢
  split at h
  · rename_i policy fb hpolicy hfb
    split at h
    · rename_i hok
      have hstatus : b.status = none := by simpa [ok] using hok
      have heq := writeRawBlock_of_ok h
      rw [if_pos hok]
      dsimp only
      rw [heq]
      refine ⟨hstatus, _, wrote_wrote b _ _ 2, fun policy' fb' hpolicy' hfb' => ?_⟩
      rw [hpolicy] at hpolicy'
      rw [hfb] at hfb'
      cases hpolicy'
      cases hfb'
      exact ⟨rfl, List.mem_append_right _ (List.mem_singleton.mpr rfl), rfl⟩
    · rename_i hok
      exact absurd h (by simpa [ok] using hok)
  · rename_i hnone
    refine ⟨h, [], ⟨h, (List.append_nil _).symm, ?_, List.Subset.refl _, rfl, rfl, rfl, rfl⟩, ?_⟩
    · simp
    · intro policy fb hpolicy hfb
      exact absurd hfb (hnone policy fb hpolicy)

/-- A step of `Finish` that writes a block, unless there has been an error before. -/
theorem writeBlock_of_ite {c : TableBuilder} {block : BlockBuilder}
    (h : (if b.ok then c.writeBlock o block else (b, {})).1.status = none) : b.status = none ∧
      (if b.ok then c.writeBlock o block else (b, {})) = c.writeBlock o block ∧
      (c.writeBlock o block).1.status = none := by
  split at h
  · rename_i hok
    rw [if_pos hok]
    exact ⟨by simpa [ok] using hok, rfl, h⟩
  · rename_i hok
    exact absurd h (by simpa [ok] using hok)

theorem wrote_writeBlock {block : BlockBuilder} (h : (b.writeBlock o block).1.status = none)
    (hoffset : b.offset = UInt64.ofNat b.file.contents.length) :
    Wrote b (b.writeBlock o block).1 (o.codecs.bytes block.finish o.compression) ∧
      (b.writeBlock o block).2 = o.codecs.handleAt b.offset block.finish o.compression ∧
      HasBlock o.codecs (b.writeBlock o block).1.file.contents (b.writeBlock o block).1.blocks (b.writeBlock o block).2
        block.finish o.compression := by
  have heq := writeBlock_of_ok h
  have hmem : block.finish ∈ (b.writeBlock o block).1.blocks := by
    rw [heq]
    exact List.mem_append_right _ (List.mem_singleton.mpr rfl)
  have hwrote : Wrote b (b.writeBlock o block).1 (o.codecs.bytes block.finish o.compression) := by
    rw [heq]
    exact wrote_wrote b _ _ 2
  have hhandle : (b.writeBlock o block).2 = o.codecs.handleAt b.offset block.finish o.compression := by rw [heq]
  exact ⟨hwrote, hhandle, hhandle ▸ hasBlock_of_contents hoffset hwrote.contents hmem⟩

theorem finishFooter_of_ok {footer : Footer} (h : (b.finishFooter footer).status = none) : b.status = none ∧
    (b.finishFooter footer).file.contents = b.file.contents ++ footer.encode ∧
      (b.finishFooter footer).blocks = b.blocks := by
  unfold finishFooter at h ⊢
  split at h
  · rename_i hok
    rw [if_pos hok]
    have hstatus : b.status = none := by simpa [ok] using hok
    cases hcall : b.file.outcome b.file.calls with
    | none =>
      have hfooter : b.file.append footer.encode =
          ({ b.file with contents := b.file.contents ++ footer.encode, calls := b.file.calls + 1 }, none) := by
        rw [WritableFile.append, hcall]
      rw [hfooter]
      exact ⟨hstatus, rfl, rfl⟩
    | some e => simp [WritableFile.append, hcall, ok] at h
  · rename_i hok
    exact absurd h (by simpa [ok] using hok)

theorem status_of_finish (h : (b.finish o).status = none) : (b.flush o).status = none := by
  have hindex := (finishFooter_of_ok h).1
  have hmetaindex := (writeBlock_of_ite hindex).1
  have hfilter := (writeBlock_of_ite hmetaindex).1
  exact (finishFilter_of_ok hfilter).1

/-- What the index block is made of, with the last block. -/
theorem Inv.indexed {secs : List Section} {unindexed : Option (BlockHandle × List (Slice × Slice))}
    (h : Inv o b secs unindexed []) (hindex : b'.indexBlock = b.indexBlock)
    (hpending : b'.pendingIndexEntry = b.pendingIndexEntry) (hhandle : b'.pendingHandle = b.pendingHandle)
    (hlast : b'.lastKey = b.lastKey) : ∃ secs', written secs' none = written secs unindexed ∧ Separated o secs' ∧
      (if b'.pendingIndexEntry then b'.addIndexEntry (o.comparator.findShortSuccessor b'.lastKey) else b').indexBlock =
        BlockBuilder.addAll 1 (secs'.map Section.indexEntry) := by
  rw [hpending, h.pendingIndexEntry, hlast]
  cases hun : unindexed with
  | none =>
    refine ⟨secs, rfl, h.separated, ?_⟩
    rw [if_neg (by simp), hindex, h.indexBlock]
  | some u =>
    subst hun
    refine ⟨secs ++ [⟨_, u.1, u.2⟩], written_append _ _, h.separated_snoc (o.comparator.successor b.lastKey), ?_⟩
    rw [if_pos Option.isSome_some, addIndexEntry, hindex, h.indexBlock, hhandle, (h.pending u rfl).1, List.map_append,
      List.map_singleton, BlockBuilder.addAll_snoc]
    rfl

theorem finishMetaindex_of_ok {filterHandle : BlockHandle} (h : (b.finishMetaindex o filterHandle).1.status = none)
    (hoffset : b.offset = UInt64.ofNat b.file.contents.length) : b.status = none ∧
      ∃ raw, raw = (BlockBuilder.addAll o.blockRestartInterval (metaEntries o filterHandle)).finish ∧
      Wrote b (b.finishMetaindex o filterHandle).1 (o.codecs.bytes raw o.compression) ∧
      (b.finishMetaindex o filterHandle).2 = o.codecs.handleAt b.offset raw o.compression ∧
      HasBlock o.codecs (b.finishMetaindex o filterHandle).1.file.contents (b.finishMetaindex o filterHandle).1.blocks
        (b.finishMetaindex o filterHandle).2 raw o.compression := by
  obtain ⟨hok, heq, hstatus⟩ := writeBlock_of_ite h
  rw [finishMetaindex, heq]
  exact ⟨hok, _, rfl, wrote_writeBlock hstatus hoffset⟩

theorem finishIndex_of_ok {entries : List (Slice × Slice)} (h : (b.finishIndex o).1.status = none)
    (hoffset : b.offset = UInt64.ofNat b.file.contents.length)
    (hentries : (if b.pendingIndexEntry then b.addIndexEntry (o.comparator.findShortSuccessor b.lastKey)
      else b).indexBlock = BlockBuilder.addAll 1 entries) : b.status = none ∧
      (b.finishIndex o).1.file.contents =
        b.file.contents ++ o.codecs.bytes (BlockBuilder.addAll 1 entries).finish o.compression ∧
      b.blocks ⊆ (b.finishIndex o).1.blocks ∧
      HasBlock o.codecs (b.finishIndex o).1.file.contents (b.finishIndex o).1.blocks (b.finishIndex o).2
        (BlockBuilder.addAll 1 entries).finish o.compression := by
  obtain ⟨hok, heq, hstatus⟩ := writeBlock_of_ite h
  rw [finishIndex, heq]
  generalize hc : (if b.pendingIndexEntry then b.addIndexEntry (o.comparator.findShortSuccessor b.lastKey) else b) = c
    at hentries hstatus ⊢
  have hfile : c.file = b.file ∧ c.offset = b.offset ∧ c.blocks = b.blocks := by
    rw [← hc]
    split
    · exact ⟨rfl, rfl, rfl⟩
    · exact ⟨rfl, rfl, rfl⟩
  obtain ⟨hfile, hoff, hblocks⟩ := hfile
  obtain ⟨hwrote, -, hblock⟩ := wrote_writeBlock hstatus (by rw [hoff, hoffset, hfile])
  have hcontents := hwrote.contents
  have hsubset := hwrote.blocks
  rw [hfile, hentries] at hcontents
  rw [hblocks] at hsubset
  rw [← hentries] at hcontents ⊢
  exact ⟨hok, hcontents, hsubset, hblock⟩

/-- **What `Finish` has written**, if there was no error. -/
theorem Inv.exists_tableFile {secs : List Section} {unindexed : Option (BlockHandle × List (Slice × Slice))}
    (h : Inv o (b.flush o) secs unindexed []) (hok : (b.finish o).status = none)
    (hlen : (b.finish o).file.contents.length < 2 ^ 64) :
    ∃ t : TableFile o (b.finish o).file.contents (b.finish o).blocks, t.entries = allEntries secs unindexed [] := by
  -- the builder before each of the steps
  generalize hb₁ : { b.flush o with closed := true } = b₁
  have hcontents₁ : b₁.file.contents = (b.flush o).file.contents := by rw [← hb₁]
  have hoffset₁ : b₁.offset = UInt64.ofNat b₁.file.contents.length := by rw [hcontents₁, ← h.offset, ← hb₁]
  have hext₁ : Extends (b.flush o) b₁ := by
    rw [← hb₁]
    exact ⟨⟨[], (List.append_nil _).symm⟩, List.Subset.refl _⟩
  generalize hb₂ : (b₁.finishFilter o).1 = b₂
  generalize hfh : (b₁.finishFilter o).2 = filterHandle
  generalize hb₃ : (b₂.finishMetaindex o filterHandle).1 = b₃
  generalize hmh : (b₂.finishMetaindex o filterHandle).2 = metaindexHandle
  generalize hb₄ : (b₃.finishIndex o).1 = b₄
  generalize hih : (b₃.finishIndex o).2 = indexHandle
  have hfinish : b.finish o = b₄.finishFooter ⟨metaindexHandle, indexHandle⟩ := by
    rw [← hmh, ← hih, ← hb₄, ← hb₃, ← hfh, ← hb₂, ← hb₁]
    rfl
  rw [hfinish] at hok hlen ⊢
  generalize hb₅ : b₄.finishFooter ⟨metaindexHandle, indexHandle⟩ = b₅ at hok hlen ⊢
  -- none of the steps has failed
  obtain ⟨hok₄, hfile, hblocks⟩ := finishFooter_of_ok (hb₅ ▸ hok)
  rw [hb₅] at hfile hblocks
  have hindex : (b₃.finishIndex o).1.status = none := hb₄ ▸ hok₄
  have hmetaindex : (b₂.finishMetaindex o filterHandle).1.status = none := hb₃ ▸ (writeBlock_of_ite hindex).1
  have hfilter : (b₁.finishFilter o).1.status = none := hb₂ ▸ (writeBlock_of_ite hmetaindex).1
  obtain ⟨-, more, hw₂, hfilter⟩ := finishFilter_of_ok hfilter
  rw [hb₂] at hw₂ hfilter
  rw [hfh] at hfilter
  have hoffset₂ := hw₂.offset_eq hoffset₁
  obtain ⟨-, raw, hraw, hw₃, hhandle, hmeta⟩ := finishMetaindex_of_ok hmetaindex hoffset₂
  rw [hb₃] at hw₃ hmeta
  rw [hmh] at hhandle hmeta
  obtain ⟨secs', hwritten, hseparated, hentries⟩ := h.indexed
    (show b₃.indexBlock = _ by rw [hw₃.indexBlock, hw₂.indexBlock, ← hb₁]) (by rw [hw₃.pendingIndexEntry, hw₂.pendingIndexEntry, ← hb₁])
    (by rw [hw₃.pendingHandle, hw₂.pendingHandle, ← hb₁]) (by rw [hw₃.lastKey, hw₂.lastKey, ← hb₁])
  obtain ⟨-, hcontents₄, hsubset₄, hindex⟩ := finishIndex_of_ok hindex (hw₃.offset_eq hoffset₂) hentries
  rw [hb₄] at hcontents₄ hsubset₄ hindex
  rw [hih] at hindex
  have hext₅ : Extends b₄ b₅ := ⟨⟨_, hfile⟩, by rw [hblocks]; exact List.Subset.refl _⟩
  have hext₃ : Extends b₃ b₅ := Extends.trans ⟨⟨_, hcontents₄⟩, hsubset₄⟩ hext₅
  have hext₂ : Extends b₂ b₅ := hw₃.extends.trans hext₃
  have hext : Extends (b.flush o) b₂ := hext₁.trans hw₂.extends
  have hlength := hext.length_le
  have hlength₂ := hext₂.length_le
  have hmem : ∀ s ∈ secs', (s.handle, s.entries) ∈ written secs unindexed := by
    intro s hs
    rw [← hwritten]
    exact List.mem_append_left _ (List.mem_map_of_mem hs)
  have hall : secs'.flatMap Section.entries = allEntries secs unindexed [] := by
    rw [allEntries, List.append_nil, ← hwritten, written, Option.toList_none, List.append_nil, List.flatMap_map]
  refine ⟨⟨secs', filterHandle, metaindexHandle, indexHandle, b₄.file.contents, hfile, ?_, ?_, hseparated, ?_, ?_,
    hext₅.hasBlock hindex, hraw ▸ hext₃.hasBlock hmeta, ?_⟩, hall⟩
  · exact fun s hs => (h.stored _ (hmem s hs)).nonempty
  · intro s hs
    have hstored := h.stored _ (hmem s hs)
    exact (hext.trans hext₂).hasBlock ⟨hstored.stored, hstored.mem⟩
  · have hordered := h.ordered (by omega)
    rw [← hwritten, written, Option.toList_none, List.append_nil, List.pairwise_map] at hordered
    exact hordered
  · intro s hs
    have hlt := offset_lt_of_stored (h.stored _ (hmem s hs)).stored
    rw [hhandle, Codecs.handleAt, hoffset₂, UInt64.toNat_ofNat', Nat.mod_eq_of_lt (by omega)]
    exact hlt.trans_le hlength
  · intro policy hpolicy
    obtain ⟨fb, groups, pending, hinv⟩ := h.filter policy hpolicy (by omega)
    obtain ⟨hmore, hblock, hfh⟩ := hfilter policy fb hpolicy (by rw [← hb₁]; exact hinv.filterBlock)
    refine ⟨fb, groups, pending, ?_, hinv.holds, fun s hs => hinv.covered _ (hmem s hs)⟩
    rw [hfh]
    exact hext₂.hasBlock (hasBlock_of_contents hoffset₁ (hmore ▸ hw₂.contents) hblock)

/-- **A table that was built is a table of its entries.** -/
theorem exists_tableFile {file : WritableFile} {es : List (Slice × Slice)} (hfile : file.contents = [])
    (hes : o.comparator.Increasing es) (hok : (build o file es).status = none)
    (hlen : (build o file es).file.contents.length < 2 ^ 64) :
    ∃ t : TableFile o (build o file es).file.contents (build o file es).blocks, t.entries = es := by
  unfold build at hok hlen ⊢
  have hflush := status_of_finish hok
  obtain ⟨secs, unindexed, cur, hinv, hall⟩ := (inv_new file hfile).addAll (by simpa [allEntries, written] using hes)
    (status_of_flush hflush)
  obtain ⟨unindexed', hinv', hall'⟩ := hinv.flush_of_ok hflush
  obtain ⟨t, ht⟩ := hinv'.exists_tableFile hok hlen
  exact ⟨t, ht.trans (hall'.trans hall)⟩

end TableBuilder

end TLevelDB.Table
