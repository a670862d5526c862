import TLevelDB.Table.Format
import TLevelDB.Table.FilterBlock

/-!
# `TableBuilder`

A table is built by adding entries with increasing keys. They go into data blocks, which are
written to the file when they have become large enough. The entry of the index block for a
data block is added together with the first entry of the next block, since its key is a
short separator between the two. At the end come the filter block, if there is a filter
policy, the metaindex block, the index block and the footer.

An `Append` or `Flush` of the file may fail; the builder then keeps the status and does not
write any more.
-/

namespace TLevelDB.Table

open Coding

/-! ### The model -/

/-- `Options`, as far as tables are concerned, and the compression libraries. -/
structure Options where
  comparator : Comparator
  blockSize : ℕ
  blockRestartInterval : ℕ
  /-- Asserted by `BlockBuilder`. -/
  restartInterval_pos : 0 < blockRestartInterval
  compression : CompressionType
  codecs : Codecs
  filterPolicy : Option FilterPolicy
  paranoidChecks : Bool

structure WritableFile where
  contents : Slice := []
  /-- The number of calls so far. -/
  calls : ℕ := 0
  /-- What a call returns. -/
  outcome : ℕ → Status

namespace WritableFile

/-- What a failed call has left in the file is not used. -/
def append (f : WritableFile) (data : Slice) : WritableFile × Status :=
  match f.outcome f.calls with
  | none => ({ f with contents := f.contents ++ data, calls := f.calls + 1 }, none)
  | some e => ({ f with calls := f.calls + 1 }, some e)

def flush (f : WritableFile) : WritableFile × Status := ({ f with calls := f.calls + 1 }, f.outcome f.calls)

end WritableFile

/-- `TableBuilder::Rep`. -/
structure TableBuilder where
  file : WritableFile
  offset : UInt64 := 0
  status : Status := none
  dataBlock : BlockBuilder := {}
  indexBlock : BlockBuilder := {}
  lastKey : Slice := []
  numEntries : ℕ := 0
  /-- Either `Finish` or `Abandon` has been called. -/
  closed : Bool := false
  filterBlock : Option FilterBlockBuilder := none
  /-- True only if `dataBlock` is empty. -/
  pendingIndexEntry : Bool := false
  /-- Handle to add to the index block. -/
  pendingHandle : BlockHandle := {}
  /-- The blocks that were written, before compression. It is not in the source; statements
  about the sizes of blocks speak about it. -/
  blocks : List Slice := []

namespace TableBuilder

variable (o : Options)

/-- A call to the filter block builder, if there is one. -/
def onFilter (b : TableBuilder) (f : FilterPolicy → FilterBlockBuilder → FilterBlockBuilder) : TableBuilder :=
  match o.filterPolicy, b.filterBlock with
  | some policy, some filterBlock => { b with filterBlock := some (f policy filterBlock) }
  | _, _ => b

def new (file : WritableFile) : TableBuilder :=
  onFilter o { file := file, filterBlock := o.filterPolicy.map fun _ => {} } fun policy fb => fb.startBlock policy 0

def ok (b : TableBuilder) : Bool := b.status.isNone

def writeRawBlock (b : TableBuilder) (contents : Slice) (type : CompressionType) : TableBuilder × BlockHandle :=
  let handle : BlockHandle := ⟨b.offset, UInt64.ofNat contents.length⟩
  let (file, status) := b.file.append contents
  let b := { b with file := file, status := status }
  if b.ok then
    let (file, status) := b.file.append (blockTrailer type contents)
    let b := { b with file := file, status := status }
    if b.ok then ({ b with offset := b.offset + UInt64.ofNat (contents.length + kBlockTrailerSize) }, handle)
    else (b, handle)
  else (b, handle)

/-- `WriteBlock`; the caller resets the block. -/
def writeBlock (b : TableBuilder) (block : BlockBuilder) : TableBuilder × BlockHandle :=
  let raw := block.finish
  let (contents, type) := o.codecs.store raw o.compression
  writeRawBlock { b with blocks := b.blocks ++ [raw] } contents type

def flush (b : TableBuilder) : TableBuilder :=
  if !b.ok then b
  else if b.dataBlock.empty then b
  else
    let (b, handle) := b.writeBlock o b.dataBlock
    let b := { b with dataBlock := {}, pendingHandle := handle }
    let b := if b.ok then
        let (file, status) := b.file.flush
        { b with pendingIndexEntry := true, file := file, status := status }
      else b
    b.onFilter o fun policy fb => fb.startBlock policy b.offset

/-- The index entry of the last block, where its key is given. -/
def addIndexEntry (b : TableBuilder) (key : Slice) : TableBuilder :=
  { b with indexBlock := b.indexBlock.add 1 key b.pendingHandle.encode, pendingIndexEntry := false }

/-- `Add`, up to the point where a block is flushed that is large enough. -/
def push (b : TableBuilder) (key value : Slice) : TableBuilder :=
  let b := if b.pendingIndexEntry then b.addIndexEntry (o.comparator.findShortestSeparator b.lastKey key) else b
  let b := b.onFilter o fun _ fb => fb.addKey key
  { b with lastKey := key, numEntries := b.numEntries + 1, dataBlock := b.dataBlock.add o.blockRestartInterval key value }

def add (b : TableBuilder) (key value : Slice) : TableBuilder :=
  if !b.ok then b
  else
    let b := b.push o key value
    if o.blockSize ≤ b.dataBlock.currentSizeEstimate then b.flush o else b

/-- `"filter."`. -/
def filterKey : Slice := [0x66, 0x69, 0x6c, 0x74, 0x65, 0x72, 0x2e]

/-- The entries of the metaindex block. -/
def metaEntries (filterBlockHandle : BlockHandle) : List (Slice × Slice) :=
  match o.filterPolicy with
  | some policy => [(filterKey ++ policy.name, filterBlockHandle.encode)]
  | none => []

/-- The first part of `Finish`: the filter block. -/
def finishFilter (b : TableBuilder) : TableBuilder × BlockHandle :=
  match o.filterPolicy, b.filterBlock with
  | some policy, some filterBlock =>
    if b.ok then
      let raw := filterBlock.finish policy
      writeRawBlock { b with blocks := b.blocks ++ [raw] } raw .noCompression
    else (b, {})
  | _, _ => (b, {})

/-- The metaindex block. -/
def finishMetaindex (b : TableBuilder) (filterBlockHandle : BlockHandle) : TableBuilder × BlockHandle :=
  if b.ok then b.writeBlock o (BlockBuilder.addAll o.blockRestartInterval (metaEntries o filterBlockHandle))
  else (b, {})

/-- The index block. -/
def finishIndex (b : TableBuilder) : TableBuilder × BlockHandle :=
  if b.ok then
    let b := if b.pendingIndexEntry then b.addIndexEntry (o.comparator.findShortSuccessor b.lastKey) else b
    b.writeBlock o b.indexBlock
  else (b, {})

/-- The footer. -/
def finishFooter (b : TableBuilder) (footer : Footer) : TableBuilder :=
  if b.ok then
    let (file, status) := b.file.append footer.encode
    let b := { b with file := file, status := status }
    if b.ok then { b with offset := b.offset + UInt64.ofNat footer.encode.length } else b
  else b

def finish (b : TableBuilder) : TableBuilder :=
  let b := { b.flush o with closed := true }
  let (b, filterBlockHandle) := b.finishFilter o
  let (b, metaindexBlockHandle) := b.finishMetaindex o filterBlockHandle
  let (b, indexBlockHandle) := b.finishIndex o
  b.finishFooter ⟨metaindexBlockHandle, indexBlockHandle⟩

/-- `Add` for each of these entries. -/
def addAll (b : TableBuilder) (es : List (Slice × Slice)) : TableBuilder := es.foldl (fun b e => b.add o e.1 e.2) b

/-- A table of these entries: `Add` for each of them, and `Finish`. -/
def build (file : WritableFile) (es : List (Slice × Slice)) : TableBuilder := ((new o file).addAll o es).finish o

/-! ### What a call that succeeds does -/

section Effects

variable {o} {b : TableBuilder}

/-- The builder after these bytes have been written. -/
def wrote (b : TableBuilder) (data : Slice) (calls : ℕ) : TableBuilder :=
  { b with
    file := { b.file with contents := b.file.contents ++ data, calls := b.file.calls + calls }
    status := none
    offset := b.offset + UInt64.ofNat data.length }

theorem writeRawBlock_of_ok {contents : Slice} {type : CompressionType}
    (h : (b.writeRawBlock contents type).1.status = none) : b.writeRawBlock contents type =
      (b.wrote (contents ++ blockTrailer type contents) 2, ⟨b.offset, UInt64.ofNat contents.length⟩) := by
  unfold writeRawBlock WritableFile.append at h ⊢
  cases h₁ : b.file.outcome b.file.calls with
  | some e =>
    simp [h₁, ok] at h
  | none =>
    simp only [h₁, ok, Option.isNone_none, if_true] at h ⊢
    cases h₂ : b.file.outcome (b.file.calls + 1) with
    | some e => simp [h₂] at h
    | none => simp [wrote]

theorem writeBlock_of_ok {block : BlockBuilder} (h : (b.writeBlock o block).1.status = none) : b.writeBlock o block =
    (wrote { b with blocks := b.blocks ++ [block.finish] } (o.codecs.bytes block.finish o.compression) 2,
      o.codecs.handleAt b.offset block.finish o.compression) :=
  writeRawBlock_of_ok h

theorem onFilter_eq (f : FilterPolicy → FilterBlockBuilder → FilterBlockBuilder) :
    b.onFilter o f = { b with filterBlock := (b.onFilter o f).filterBlock } := by
  unfold onFilter
  split <;> rfl

theorem status_onFilter (f : FilterPolicy → FilterBlockBuilder → FilterBlockBuilder) :
    (b.onFilter o f).status = b.status := by
  rw [onFilter_eq]

theorem filterBlock_onFilter {f : FilterPolicy → FilterBlockBuilder → FilterBlockBuilder} {policy : FilterPolicy}
    {fb : FilterBlockBuilder} (hpolicy : o.filterPolicy = some policy) (hfb : b.filterBlock = some fb) :
    (b.onFilter o f).filterBlock = some (f policy fb) := by
  simp [onFilter, hpolicy, hfb]

theorem status_of_flush (h : (b.flush o).status = none) : b.status = none := by
  unfold flush at h
  split at h
  · exact h
  · rename_i hok
    simpa [ok] using hok

theorem status_of_add {key value : Slice} (h : (b.add o key value).status = none) : b.status = none := by
  unfold add at h
  split at h
  · exact h
  · rename_i hok
    simpa [ok] using hok

/-- What `Flush` does to a block that has entries. -/
structure Flushed (o : Options) (b b' : TableBuilder) : Prop where
  status : b'.status = none
  contents : b'.file.contents = b.file.contents ++ o.codecs.bytes b.dataBlock.finish o.compression
  offset : b'.offset = b.offset + UInt64.ofNat (o.codecs.bytes b.dataBlock.finish o.compression).length
  dataBlock : b'.dataBlock = {}
  indexBlock : b'.indexBlock = b.indexBlock
  lastKey : b'.lastKey = b.lastKey
  pendingIndexEntry : b'.pendingIndexEntry = true
  pendingHandle : b'.pendingHandle = o.codecs.handleAt b.offset b.dataBlock.finish o.compression
  filterBlock : ∀ policy fb, o.filterPolicy = some policy → b.filterBlock = some fb →
    b'.filterBlock = some (fb.startBlock policy b'.offset)
  blocks : b'.blocks = b.blocks ++ [b.dataBlock.finish]

theorem flush_of_ok (h : (b.flush o).status = none) (hne : b.dataBlock.empty = false) : Flushed o b (b.flush o) := by
  have hok := status_of_flush h
  have hwrite : (b.writeBlock o b.dataBlock).1.status = none := by
    cases hs : (b.writeBlock o b.dataBlock).1.status with
    | none => rfl
    | some e =>
      unfold flush at h
      simp [ok, hok, hne, hs, status_onFilter] at h
  have heq := writeBlock_of_ok hwrite
  unfold flush at h ⊢
  simp only [ok, hok, hne, heq, Option.isNone_none, Bool.not_true, Bool.false_eq_true, if_false, wrote, if_true,
    status_onFilter] at h ⊢
  rw [onFilter_eq]
  exact ⟨h, rfl, rfl, rfl, rfl, rfl, rfl, rfl, fun policy fb hpolicy hfb => filterBlock_onFilter hpolicy hfb, rfl⟩

/-- What `push` does. -/
structure Pushed (o : Options) (b b' : TableBuilder) (key value : Slice) : Prop where
  status : b'.status = b.status
  file : b'.file = b.file
  offset : b'.offset = b.offset
  blocks : b'.blocks = b.blocks
  dataBlock : b'.dataBlock = b.dataBlock.add o.blockRestartInterval key value
  lastKey : b'.lastKey = key
  pendingIndexEntry : b'.pendingIndexEntry = false
  indexBlock : b'.indexBlock = if b.pendingIndexEntry then
    b.indexBlock.add 1 (o.comparator.findShortestSeparator b.lastKey key) b.pendingHandle.encode else b.indexBlock
  filterBlock : ∀ policy fb, o.filterPolicy = some policy → b.filterBlock = some fb →
    b'.filterBlock = some (fb.addKey key)

theorem pushed_push (o : Options) (b : TableBuilder) (key value : Slice) : Pushed o b (b.push o key value) key value := by
  unfold push
  cases hpending : b.pendingIndexEntry with
  | true =>
    rw [if_pos rfl]
    dsimp only
    rw [onFilter_eq]
    exact ⟨rfl, rfl, rfl, rfl, rfl, rfl, rfl, (if_pos hpending).symm,
      fun policy fb hpolicy hfb => filterBlock_onFilter (b := b.addIndexEntry _) hpolicy hfb⟩
  | false =>
    rw [if_neg (by decide)]
    dsimp only
    rw [onFilter_eq]
    exact ⟨rfl, rfl, rfl, rfl, rfl, rfl, hpending, (if_neg (by simp [hpending])).symm,
      fun policy fb hpolicy hfb => filterBlock_onFilter hpolicy hfb⟩

end Effects

end TableBuilder

end TLevelDB.Table
