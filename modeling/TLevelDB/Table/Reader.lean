import TLevelDB.Table.BlockIterator
import TLevelDB.Table.TableFile

/-!
# Reading tables

A table is opened by reading its footer and its index block, and its filter block if there is
a filter policy. An iterator over it has two levels: one over the index block, and one over a
data block that `BlockReader` gets from the block cache or reads from the file.

The block cache is a parameter, of which only this is used: what is found in it under a key was
put into it under that key (`BlockCache`). To have no cache is to have one that keeps nothing.

A table that was built opens, and its iterator is a cursor over its entries (`table_roundTrip`).
-/

namespace TLevelDB.Table

open Coding Log Cursors Block

/-! ### The model -/

structure ReadOptions where
  verifyChecksums : Bool := false
  fillCache : Bool := true

/-- `Cache`, as far as blocks are concerned: `σ` is what is in it. -/
structure BlockCache (σ : Type) where
  /-- A block under a key that is in the cache. -/
  Holds : σ → Slice → Block → Prop
  lookup : σ → Slice → σ × Option Block
  insert : σ → Slice → Block → σ
  holds_of_lookup : ∀ {s key block}, (lookup s key).2 = some block → Holds s key block
  holds_lookup : ∀ {s key key' block'}, Holds (lookup s key).1 key' block' → Holds s key' block'
  holds_insert : ∀ {s key block key' block'}, Holds (insert s key block) key' block' →
    Holds s key' block' ∨ key' = key ∧ block' = block

/-- `Table::Rep`. -/
structure Rep where
  file : RandomAccessFile
  cacheId : UInt64
  filter : Option FilterBlockReader
  /-- Handle of the metaindex block, saved from the footer. -/
  metaindexHandle : BlockHandle
  indexBlock : Block

namespace Rep

variable (o : Options) {σ : Type} (cache : BlockCache σ) (options : ReadOptions)

def readFilter (file : RandomAccessFile) (filterHandleValue : Slice) : Option FilterBlockReader :=
  match BlockHandle.decodeFrom filterHandleValue with
  | .error _ => none
  | .ok (filterHandle, _) =>
    match readBlock o.codecs file o.paranoidChecks filterHandle with
    | .error _ => none
    | .ok block => some (FilterBlockReader.new block.data)

/-- `ReadMeta`. Errors are not propagated, since meta info is not needed for operation. -/
def readMeta (file : RandomAccessFile) (footer : Footer) : Option FilterBlockReader :=
  match o.filterPolicy with
  | none => none
  | some policy =>
    match readBlock o.codecs file o.paranoidChecks footer.metaindexHandle with
    | .error _ => none
    | .ok contents =>
      let key := TableBuilder.filterKey ++ policy.name
      let ops : CursorOps Unit BlockIterator Slice Slice := BlockIterator.ops bytewiseComparator
      match ops.current (ops.seek key ((), (Block.new contents.data).newIterator)).2 with
      | none => none
      | some (found, value) => if found = key then readFilter o file value else none

/-- `Open`; the id is the one that the block cache gives out for the table. -/
def openTable (file : RandomAccessFile) (size : ℕ) (cacheId : UInt64) : Except Error Rep :=
  if size < Footer.kEncodedLength then .error (.corruption "file is too short to be an sstable")
  else
    match file.read (size - Footer.kEncodedLength) Footer.kEncodedLength with
    | .error e => .error e
    | .ok footerInput =>
      match Footer.decodeFrom (footerInput.bytes 0 footerInput.size) with
      | .error e => .error e
      | .ok footer =>
        match readBlock o.codecs file o.paranoidChecks footer.indexHandle with
        | .error e => .error e
        | .ok contents => .ok ⟨file, cacheId, readMeta o file footer, footer.metaindexHandle, Block.new contents.data⟩

/-- `cache_key_buffer`. -/
def cacheKey (cacheId offset : UInt64) : Slice := encodeFixed64 cacheId ++ encodeFixed64 offset

/-- `BlockReader`: an iterator over the block that an index value stands for. -/
def blockReader (t : Rep) (s : σ) (indexValue : Slice) : σ × BlockIterator :=
  match BlockHandle.decodeFrom indexValue with
  | .error e => (s, .empty (some e))
  | .ok (handle, _) =>
    let key := cacheKey t.cacheId handle.offset
    match cache.lookup s key with
    | (s, some block) => (s, block.newIterator)
    | (s, none) =>
      match readBlock o.codecs t.file options.verifyChecksums handle with
      | .error e => (s, .empty (some e))
      | .ok contents =>
        let block := Block.new contents.data
        (if contents.cachable && options.fillCache then cache.insert s key block else s, block.newIterator)

/-- What `NewIterator` returns. -/
abbrev TableIterator := TwoLevelIterator BlockIterator BlockIterator Slice

def newIterator (t : Rep) : TableIterator := TwoLevelIterator.new t.indexBlock.newIterator

/-- Its operations. There are not more entries in the index than bytes. -/
def iteratorOps (t : Rep) : CursorOps σ TableIterator Slice Slice :=
  TwoLevelIterator.cursorOps (BlockIterator.ops o.comparator) (BlockIterator.ops o.comparator) (blockReader o cache options t)
    (fun _ => t.indexBlock.data.length) fun _ => t.indexBlock.data.length

end Rep

/-! ### Opening -/

section Open

variable {o : Options} {blocks : List Slice} {file : RandomAccessFile}

theorem HasBlock.readBlock {handle : BlockHandle} {raw : Slice} {type : CompressionType}
    (h : HasBlock o.codecs file.contents blocks handle raw type) (hfile : file.contents.length < 2 ^ 63)
    (verifyChecksums : Bool) : ∃ cachable, readBlock o.codecs file verifyChecksums handle = .ok ⟨raw, cachable⟩ :=
  h.stored.readBlock hfile verifyChecksums

/-- The index block of a table. -/
def TableFile.indexRaw {contents : Slice} (t : TableFile o contents blocks) : Slice :=
  (BlockBuilder.addAll 1 (t.sections.map TableBuilder.Section.indexEntry)).finish

theorem TableFile.length_eq {contents : Slice} (t : TableFile o contents blocks) :
    contents.length = t.body.length + Footer.kEncodedLength := by
  have hlength := congrArg List.length t.file_eq
  rwa [List.length_append, Footer.length_encode] at hlength

/-- What a table is when it is open. -/
def TableFile.rep (t : TableFile o file.contents blocks) (cacheId : UInt64) : Rep :=
  ⟨file, cacheId, Rep.readMeta o file ⟨t.metaindexHandle, t.indexHandle⟩, t.metaindexHandle, Block.new t.indexRaw⟩

/-- **A table opens.** -/
theorem TableFile.openTable_eq (t : TableFile o file.contents blocks) (hfile : file.contents.length < 2 ^ 63)
    (cacheId : UInt64) : Rep.openTable o file file.contents.length cacheId = .ok (t.rep cacheId) := by
  have hlength := t.length_eq
  have hpos : 0 < Footer.kEncodedLength := by decide
  obtain ⟨v, hread, hsize, hv⟩ := RandomAccessFile.exists_read hfile hpos
    (show file.contents.length - Footer.kEncodedLength + Footer.kEncodedLength ≤ file.contents.length by omega)
  have hbytes : v.bytes 0 v.size = (Footer.mk t.metaindexHandle t.indexHandle).encode := by
    have hlt : v.size < 2 ^ 64 := by omega
    have hdrop : file.contents.drop (file.contents.length - Footer.kEncodedLength) =
        (Footer.mk t.metaindexHandle t.indexHandle).encode := by
      rw [hlength, Nat.add_sub_cancel]
      exact (congrArg (List.drop t.body.length) t.file_eq).trans List.drop_left
    rw [hv.bytes hlt (by omega), add_zero, hdrop, hsize, List.take_of_length_le (Footer.length_encode _).le]
  obtain ⟨cachable, hindex⟩ := t.index.readBlock hfile o.paranoidChecks
  rw [Rep.openTable, if_neg (by omega), hread]
  dsimp only
  rw [hbytes, Footer.decodeFrom_encode]
  dsimp only
  rw [hindex]
  rfl

end Open

/-! ### Blocks -/

namespace TableFile

variable {o : Options} {contents : Slice} {blocks : List Slice} (t : TableFile o contents blocks)

/-- The block of a section. -/
def raw (_ : TableFile o contents blocks) (s : TableBuilder.Section) : Slice :=
  (BlockBuilder.addAll o.blockRestartInterval s.entries).finish

/-- The entries of the block that an index value stands for. -/
def entriesOf (indexValue : Slice) : List (Slice × Slice) :=
  ((t.sections.find? fun s => s.handle.encode = indexValue).map TableBuilder.Section.entries).getD []

variable {t} {s s' : TableBuilder.Section}

theorem eq_of_offset (hs : s ∈ t.sections) (hs' : s' ∈ t.sections) (h : s.handle.offset = s'.handle.offset) : s = s' := by
  have hnodup : (t.sections.map fun s => s.handle.offset).Nodup := by
    rw [List.Nodup, List.pairwise_map]
    exact t.ordered.imp fun hlt heq => absurd hlt (by rw [heq]; exact lt_irrefl _)
  exact List.inj_on_of_nodup_map hnodup hs hs' h

theorem eq_of_encode (hs : s ∈ t.sections) (hs' : s' ∈ t.sections) (h : s.handle.encode = s'.handle.encode) : s = s' := by
  have hdecode := BlockHandle.decodeFrom_encode s.handle []
  rw [h, BlockHandle.decodeFrom_encode] at hdecode
  have hhandle : s'.handle = s.handle := (Prod.mk.injEq _ _ _ _ ▸ Except.ok.inj hdecode).1
  exact eq_of_offset hs hs' (congrArg BlockHandle.offset hhandle.symm)

theorem entriesOf_encode (hs : s ∈ t.sections) : t.entriesOf s.handle.encode = s.entries := by
  rw [entriesOf]
  cases hfind : t.sections.find? fun s' => s'.handle.encode = s.handle.encode with
  | none => exact absurd (List.find?_eq_none.mp hfind s hs) (by simp)
  | some s' =>
    have henc : s'.handle.encode = s.handle.encode := by simpa using List.find?_some hfind
    rw [eq_of_encode (List.mem_of_find?_eq_some hfind) hs henc]
    rfl

theorem increasing_index (t : TableFile o contents blocks) :
    o.comparator.Increasing (t.sections.map TableBuilder.Section.indexEntry) := by
  rw [Comparator.Increasing, List.pairwise_map]
  refine List.Pairwise.imp_of_mem (fun {s s'} hs hs' hhigh => ?_) t.separated.high
  obtain ⟨e, es, hes⟩ := List.exists_cons_of_ne_nil (t.nonempty s' hs')
  have hmem : e ∈ s'.entries := hes ▸ List.mem_cons_self
  exact Std.TransCmp.lt_of_lt_of_isLE (hhigh e hmem).lt (t.separated.low s' hs' e hmem)

end TableFile

/-! ### The iterator -/

section Cursor

variable {o : Options} {σ : Type} {cache : BlockCache σ} {options : ReadOptions} {file : RandomAccessFile}
  {blocks : List Slice} (t : TableFile o file.contents blocks) (cacheId : UInt64) {s : TableBuilder.Section} {st : σ}

/-- What is in the cache for this table is right. -/
def CacheInv (cache : BlockCache σ) (st : σ) : Prop :=
  ∀ s ∈ t.sections, ∀ block, cache.Holds st (Rep.cacheKey cacheId s.handle.offset) block → block = Block.new (t.raw s)

theorem cacheKey_injective {a b : UInt64} (h : Rep.cacheKey cacheId a = Rep.cacheKey cacheId b) : a = b := by
  have hoffset : encodeFixed64 a ++ [] = encodeFixed64 b ++ [] := by
    rw [List.append_nil, List.append_nil]
    exact List.append_cancel_left h
  have hdecode := congrArg decodeFixed64 hoffset
  rwa [decodeFixed64_encodeFixed64, decodeFixed64_encodeFixed64] at hdecode

variable {t cacheId}

/-- An iterator over the block of a section, from the cache or from the file. -/
theorem blockReader_of_mem (hfile : file.contents.length < 2 ^ 63) (hs : s ∈ t.sections) (hinv : CacheInv t cacheId cache st) :
    CacheInv t cacheId cache ((t.rep cacheId).blockReader o cache options st s.handle.encode).1 ∧
      ((t.rep cacheId).blockReader o cache options st s.handle.encode).2 = (Block.new (t.raw s)).newIterator := by
  obtain ⟨cachable, hread⟩ := (t.data s hs).readBlock hfile options.verifyChecksums
  rw [Rep.blockReader, s.handle.decodeFrom_encode_nil]
  dsimp only
  cases hlookup : cache.lookup st (Rep.cacheKey (t.rep cacheId).cacheId s.handle.offset) with
  | mk st' found =>
    have hinv' : CacheInv t cacheId cache st' := by
      intro s' hs' block hblock
      have hstate : (cache.lookup st (Rep.cacheKey (t.rep cacheId).cacheId s.handle.offset)).1 = st' := by rw [hlookup]
      exact hinv s' hs' block (cache.holds_lookup (hstate ▸ hblock))
    cases found with
    | some block =>
      have hblock := hinv s hs block (cache.holds_of_lookup (congrArg Prod.snd hlookup))
      exact ⟨hinv', by rw [hblock]⟩
    | none =>
      have hread' : readBlock o.codecs (t.rep cacheId).file options.verifyChecksums s.handle = .ok ⟨t.raw s, cachable⟩ := hread
      dsimp only
      rw [hread']
      refine ⟨?_, rfl⟩
      dsimp only
      split
      · intro s' hs' block hblock
        rcases cache.holds_insert hblock with hold | ⟨hkey, rfl⟩
        · exact hinv' s' hs' block hold
        · rw [TableFile.eq_of_offset hs' hs (cacheKey_injective cacheId hkey)]
      · exact hinv'

variable (t cacheId) in
/-- The iterator is one over the block of the section that has this handle. -/
def OnSection (hblocks : ∀ raw ∈ blocks, raw.length < 2 ^ 32) (indexValue : Slice) (it : BlockIterator)
    (c : Cursor (Slice × Slice)) : Prop :=
  ∃ s, ∃ hs : s ∈ t.sections, s.handle.encode = indexValue ∧
    BlockIterator.Stands (BlockBuilder.layout o.restartInterval_pos (hblocks _ (t.data s hs).mem)) it c

variable (hblocks : ∀ raw ∈ blocks, raw.length < 2 ^ 32) (hes : o.comparator.Increasing t.entries)

include hes in
theorem implements_data (indexValue : Slice) : (BlockIterator.ops o.comparator : CursorOps σ _ _ _).Implements
    (fun key target => (o.comparator.compare key target).isGE = true) (CacheInv t cacheId cache) (t.entriesOf indexValue)
    (OnSection t hblocks indexValue) := by
  have hincreasing : ∀ s ∈ t.sections, o.comparator.Increasing s.entries := (List.pairwise_flatMap.mp hes).1
  have hsection : ∀ s (hs : s ∈ t.sections), (BlockIterator.ops o.comparator : CursorOps σ _ _ _).Implements
      (fun key target => (o.comparator.compare key target).isGE = true) (CacheInv t cacheId cache) s.entries
      (BlockIterator.Stands (BlockBuilder.layout o.restartInterval_pos (hblocks _ (t.data s hs).mem))) :=
    fun s hs => BlockIterator.implements_ops (hincreasing s hs) _
  constructor
  · rintro it z ⟨s, hs, rfl, h⟩
    rw [TableFile.entriesOf_encode hs]
    exact (hsection s hs).toList h
  · rintro it c ⟨s, hs, rfl, h⟩
    exact (hsection s hs).current h
  · rintro it c ⟨s, hs, rfl, h⟩
    exact (hsection s hs).status h
  · rintro r it c hr ⟨s, hs, rfl, h⟩ call hlegal
    obtain ⟨hr', h'⟩ := (hsection s hs).call hr h call hlegal
    rw [TableFile.entriesOf_encode hs]
    exact ⟨hr', s, hs, rfl, h'⟩

theorem data_new (contents : Slice) : (Block.new contents).data = contents := by
  simp only [Block.new]
  split_ifs <;> rfl

/-- There are not more entries in a block than bytes. -/
theorem length_le_finish {interval : ℕ} {es : List (Slice × Slice)} (hpos : 0 < interval)
    (hsize : (BlockBuilder.addAll interval es).finish.length < 2 ^ 32) :
    es.length ≤ (BlockBuilder.addAll interval es).finish.length := by
  have hle := (BlockBuilder.layout hpos hsize).length_le_restarts
  rw [BlockBuilder.length_finish]
  omega

variable (cache cacheId) in
include hes in
theorem TableFile.parts (hfile : file.contents.length < 2 ^ 63) (options : ReadOptions) :
    TwoLevelIterator.Parts (BlockIterator.ops o.comparator) (BlockIterator.ops o.comparator)
      ((t.rep cacheId).blockReader o cache options) (fun _ => (t.rep cacheId).indexBlock.data.length)
      (fun _ => (t.rep cacheId).indexBlock.data.length)
      (fun key target => (o.comparator.compare key target).isGE = true) (CacheInv t cacheId cache)
      (t.sections.map TableBuilder.Section.indexEntry) t.entriesOf
      (BlockIterator.Stands (BlockBuilder.layout Nat.one_pos (hblocks _ t.index.mem))) (OnSection t hblocks) := by
  have hindex := BlockIterator.implements_ops (L := BlockBuilder.layout Nat.one_pos (hblocks _ t.index.mem))
    t.increasing_index (CacheInv t cacheId cache)
  have hlength := length_le_finish Nat.one_pos (hblocks _ t.index.mem)
  have hdata : (t.rep cacheId).indexBlock.data = t.indexRaw := data_new _
  constructor
  case index => exact hindex
  case data => exact implements_data hblocks hes
  case block =>
    intro r e hr he
    obtain ⟨s, hs, rfl⟩ := List.mem_map.mp he
    obtain ⟨hr', hiter⟩ := blockReader_of_mem hfile hs hr
    exact ⟨hr', s, hs, rfl, hiter ▸ BlockBuilder.stands_newIterator _ _⟩
  case left =>
    intro i zs h
    have hlen := congrArg List.length (hindex.toList h)
    simp only [Zipper.toList, List.length_append, List.length_cons] at hlen
    rw [hdata, TableFile.indexRaw]
    omega
  case right =>
    intro i zs h
    have hlen := congrArg List.length (hindex.toList h)
    simp only [Zipper.toList, List.length_append, List.length_reverse] at hlen
    rw [hdata, TableFile.indexRaw]
    omega
  case low =>
    intro e he target hbelow e' he'
    obtain ⟨s, hs, rfl⟩ := List.mem_map.mp he
    rw [TableBuilder.Section.indexEntry, TableFile.entriesOf_encode hs] at he'
    exact TwoLevelIterator.not_isGE_of_isLE (t.separated.low s hs e' he') hbelow
  case high =>
    rw [List.pairwise_map]
    refine List.Pairwise.imp_of_mem (fun {s s'} _ hs' hhigh target hge e he => ?_) t.separated.high
    rw [TableBuilder.Section.indexEntry, TableFile.entriesOf_encode hs'] at he
    exact TwoLevelIterator.isGE_of_lt (hhigh e he).lt hge

include hblocks hes in
/-- **The iterator over a table is a cursor** over its entries. -/
theorem TableFile.calls (hfile : file.contents.length < 2 ^ 63) (hinv : CacheInv t cacheId cache st)
    {calls : List (IteratorCall Slice)}
    (hlegal : ((t.rep cacheId).iteratorOps o cache options).LegalCalls (st, (t.rep cacheId).newIterator) calls) :
    let ops := (t.rep cacheId).iteratorOps o cache options
    let it := (calls.foldl ops.call (st, (t.rep cacheId).newIterator)).2
    ops.current it = (calls.foldl (listCall (fun key target => (o.comparator.compare key target).isGE = true) t.entries)
        none).map Zipper.cur ∧ ops.status it = none := by
  have P := TableFile.parts cache cacheId hblocks hes hfile options
  have himplements := P.implements P.inits
  have hentries : (t.sections.map TableBuilder.Section.indexEntry).flatMap (fun e => t.entriesOf e.2) = t.entries := by
    rw [List.flatMap_map]
    exact List.flatMap_congr fun s hs => TableFile.entriesOf_encode hs
  rw [hentries] at himplements
  have hnew : TwoLevelIterator.Stands (BlockIterator.Stands (BlockBuilder.layout Nat.one_pos (hblocks _ t.index.mem)))
      (OnSection t hblocks) t.entriesOf (t.rep cacheId).newIterator none :=
    .nowhere ⟨BlockBuilder.stands_newIterator _ _, by simp [Rep.newIterator, TwoLevelIterator.new], rfl⟩ rfl
  dsimp only
  rw [Rep.iteratorOps, TwoLevelIterator.cursorOps] at hlegal ⊢
  have hstands := himplements.calls hinv hnew hlegal
  exact ⟨himplements.current hstands, himplements.status hstands⟩

end Cursor

/-- **What was built into a table is read from it.** A file that was built without an error opens,
and its iterator, from the beginning on and for every sequence of calls that is allowed, is a
cursor over the entries that were added. The cache has given out a new id, so nothing is in it for
this table yet. -/
theorem table_roundTrip {o : Options} {out : WritableFile} {es : List (Slice × Slice)} (hout : out.contents = [])
    (hes : o.comparator.Increasing es) (hok : (TableBuilder.build o out es).status = none)
    (hblocks : ∀ raw ∈ (TableBuilder.build o out es).blocks, raw.length < 2 ^ 32) {file : RandomAccessFile}
    (hfile : file.contents = (TableBuilder.build o out es).file.contents) (hlen : file.contents.length < 2 ^ 63)
    (cacheId : UInt64) :
    ∃ t, Rep.openTable o file file.contents.length cacheId = .ok t ∧
      ∀ {σ : Type} (cache : BlockCache σ) (options : ReadOptions) (st : σ),
        (∀ offset block, ¬ cache.Holds st (Rep.cacheKey cacheId offset) block) →
        ∀ calls, (t.iteratorOps o cache options).LegalCalls (st, t.newIterator) calls →
          let ops := t.iteratorOps o cache options
          let it := (calls.foldl ops.call (st, t.newIterator)).2
          ops.current it = (calls.foldl (listCall (fun key target => (o.comparator.compare key target).isGE = true) es)
              none).map Zipper.cur ∧ ops.status it = none := by
  have htable := TableBuilder.exists_tableFile hout hes hok (by rw [← hfile]; omega)
  rw [← hfile] at htable
  obtain ⟨t, ht⟩ := htable
  refine ⟨t.rep cacheId, t.openTable_eq hlen cacheId, fun {σ} cache options st hfresh calls hlegal => ?_⟩
  have hinv : CacheInv t cacheId cache st := fun s _ block hblock => absurd hblock (hfresh s.handle.offset block)
  have hcalls := TableFile.calls hblocks (by rw [ht]; exact hes) hlen hinv hlegal
  rw [ht] at hcalls
  exact hcalls

/-- A cache that keeps nothing. -/
def noCache : BlockCache Unit where
  Holds _ _ _ := False
  lookup s _ := (s, none)
  insert s _ _ := s
  holds_of_lookup h := by cases h
  holds_lookup h := h
  holds_insert h := h.elim

/-- Blocks of two entries or less, without compression and filters. -/
def smallBlocks : Options where
  comparator := bytewiseComparator
  blockSize := 24
  blockRestartInterval := 2
  restartInterval_pos := by decide
  compression := .noCompression
  codecs := ⟨noCodec, noCodec⟩
  filterPolicy := none
  paranoidChecks := false

/-- The file of a table of three entries. -/
def threeEntries : Slice :=
  (TableBuilder.build smallBlocks { outcome := fun _ => none } [([1], [10]), ([1, 2], [11]), ([3], [12])]).file.contents

theorem table_roundTrip_three : ∃ t, Rep.openTable smallBlocks ⟨threeEntries, true, fun _ => 0⟩ threeEntries.length 1 = .ok t ∧
    (t.iteratorOps smallBlocks noCache {}).current
      ((t.iteratorOps smallBlocks noCache {}).call ((), t.newIterator) (.seek [1, 1])).2 = some ([1, 2], [11]) := by
  obtain ⟨t, hopen, hcalls⟩ := @table_roundTrip smallBlocks { outcome := fun _ => none }
    [([1], [10]), ([1, 2], [11]), ([3], [12])] rfl (by decide) (by decide) (by decide)
    ⟨threeEntries, true, fun _ => 0⟩ rfl (by decide) 1
  refine ⟨t, hopen, ?_⟩
  exact (hcalls noCache {} () (fun _ _ h => h) [.seek [1, 1]] ⟨trivial, trivial⟩).1.trans (by decide)

end TLevelDB.Table
