import TLevelDB.Table.Iterator
import TLevelDB.Util.Comparator

/-!
# Blocks

A block of a table holds entries with increasing keys. Of a key only what it does not share
with the key before it is stored, except at the restart points, where keys are stored in
full; the offsets of the restart points stand at the end of the block, and their number.

`BlockBuilder` builds a block. `Block` and `Block::Iter` read one; the pointer of `value_`
is its offset in the block, and a pointer into the block that comes with a limit is the
list of bytes from there to the limit. Offsets and indices are `uint32_t`.
-/

namespace TLevelDB.Table

open Coding Log

/-! ### `BlockBuilder` -/

structure BlockBuilder where
  buffer : Slice := []
  /-- The first restart point is at offset 0. -/
  restarts : List UInt32 := [0]
  /-- Number of entries emitted since the last restart. -/
  counter : ℕ := 0
  lastKey : Slice := []
deriving DecidableEq

namespace BlockBuilder

def currentSizeEstimate (b : BlockBuilder) : ℕ := b.buffer.length + b.restarts.length * 4 + 4

def finish (b : BlockBuilder) : Slice :=
  b.buffer ++ (b.restarts.flatMap encodeFixed32 ++ encodeFixed32 (UInt32.ofNat b.restarts.length))

/-- What `Add` appends for an entry whose key shares that many bytes with the key before. -/
def entryBytes (shared : ℕ) (key value : Slice) : Slice :=
  encodeVarint32 (UInt32.ofNat shared) ++ (encodeVarint32 (UInt32.ofNat (key.length - shared)) ++
    (encodeVarint32 (UInt32.ofNat value.length) ++ (key.drop shared ++ value)))

/-- How much of the last key `Add` shares; nothing at a restart. -/
def shared (interval : ℕ) (b : BlockBuilder) (key : Slice) : ℕ :=
  if b.counter < interval then commonPrefix b.lastKey key else 0

def add (interval : ℕ) (b : BlockBuilder) (key value : Slice) : BlockBuilder :=
  { buffer := b.buffer ++ entryBytes (b.shared interval key) key value
    restarts := if b.counter < interval then b.restarts else b.restarts ++ [UInt32.ofNat b.buffer.length]
    counter := (if b.counter < interval then b.counter else 0) + 1
    lastKey := b.lastKey.take (b.shared interval key) ++ key.drop (b.shared interval key) }

def empty (b : BlockBuilder) : Bool := b.buffer.isEmpty

/-- A block of these entries. -/
def addAll (interval : ℕ) (es : List (Slice × Slice)) : BlockBuilder :=
  es.foldl (fun b e => b.add interval e.1 e.2) {}

end BlockBuilder

/-! ### `Block` -/

structure Block where
  data : Slice
  /-- Zero marks an error. -/
  size : ℕ
  restartOffset : ℕ
deriving DecidableEq

namespace Block

/-- `NumRestarts` of a block of this size. -/
def numRestartsAt (data : Slice) (size : ℕ) : ℕ := (decodeFixed32 (data.drop (size - 4))).toNat

def numRestarts (b : Block) : ℕ := numRestartsAt b.data b.size

def new (contents : Slice) : Block :=
  let size := contents.length
  if size < 4 then ⟨contents, 0, 0⟩
  else
    let maxRestartsAllowed := (size - 4) / 4
    let numRestarts := numRestartsAt contents size
    if maxRestartsAllowed < numRestarts then ⟨contents, 0, 0⟩
    else ⟨contents, size, (size - (1 + numRestarts) % 2 ^ 32 * 4) % 2 ^ 32⟩

/-- What `DecodeEntry` finds, and the bytes from the key delta up to the limit. -/
structure DecodedEntry where
  shared : UInt32
  nonShared : UInt32
  valueLength : UInt32
  keyDelta : Slice
deriving DecidableEq

/-- The three varints one after the other. -/
def decodeLengths (p : Slice) : Option DecodedEntry := do
  let (shared, p) ← getVarint32Ptr p
  let (nonShared, p) ← getVarint32Ptr p
  let (valueLength, p) ← getVarint32Ptr p
  some ⟨shared, nonShared, valueLength, p⟩

/-- There must be as many bytes as the lengths say. -/
def DecodedEntry.check (e : DecodedEntry) : Option DecodedEntry :=
  if e.keyDelta.length % 2 ^ 32 < (e.nonShared + e.valueLength).toNat then none else some e

def decodeEntry : Slice → Option DecodedEntry
  | b₀ :: b₁ :: b₂ :: p =>
    if (b₀ ||| b₁ ||| b₂).toNat < 128 then
      -- fast path: all three values are encoded in one byte each
      DecodedEntry.check ⟨UInt32.ofNat b₀.toNat, UInt32.ofNat b₁.toNat, UInt32.ofNat b₂.toNat, p⟩
    else (decodeLengths (b₀ :: b₁ :: b₂ :: p)).bind DecodedEntry.check
  | _ => none

/-! ### `Block::Iter` -/

structure Iter where
  data : Slice
  /-- Offset of the restart array. -/
  restarts : ℕ
  numRestarts : ℕ
  /-- Offset of the current entry; not below `restarts` if the iterator is not valid. -/
  current : ℕ
  /-- Index of the restart block in which `current` falls. -/
  restartIndex : ℕ
  key : Slice
  /-- `value_.data() - data_`. -/
  valueStart : ℕ
  /-- `value_.size()`. -/
  valueSize : ℕ
  status : Status
deriving DecidableEq

namespace Iter

def new (data : Slice) (restarts numRestarts : ℕ) : Iter := ⟨data, restarts, numRestarts, restarts, numRestarts, [], 0, 0, none⟩

def valid (it : Iter) : Bool := it.current < it.restarts

/-- `value()`. -/
def value (it : Iter) : Slice := (it.data.drop it.valueStart).take it.valueSize

def nextEntryOffset (it : Iter) : ℕ := (it.valueStart + it.valueSize) % 2 ^ 32

def getRestartPoint (it : Iter) (index : ℕ) : ℕ := (decodeFixed32 (it.data.drop (it.restarts + index * 4))).toNat

def seekToRestartPoint (it : Iter) (index : ℕ) : Iter :=
  { it with key := [], restartIndex := index, valueStart := it.getRestartPoint index, valueSize := 0 }

/-- Past the end. -/
def invalidate (it : Iter) : Iter := { it with current := it.restarts, restartIndex := it.numRestarts }

def corruptionError (it : Iter) : Iter :=
  { it.invalidate with status := some badEntry, key := [], valueStart := 0, valueSize := 0 }

/-- The loop of `ParseNextKey` over the restart points before the current entry. -/
def restartLoop (it : Iter) : ℕ → ℕ → ℕ
  | 0, index => index
  | n + 1, index =>
    if index + 1 < it.numRestarts ∧ it.getRestartPoint (index + 1) < it.current then restartLoop it n (index + 1)
    else index

def decodeAt (it : Iter) (offset : ℕ) : Option DecodedEntry := decodeEntry ((it.data.take it.restarts).drop offset)

/-- The end of `ParseNextKey`, where the entry has been decoded. Where a corrupt entry has a key that
goes on into the restart array, this key ends there; `key_.append` takes bytes of the array. -/
def setEntry (it : Iter) (e : DecodedEntry) : Iter :=
  { it with
    key := it.key.take e.shared.toNat ++ e.keyDelta.take e.nonShared.toNat
    valueStart := it.restarts - e.keyDelta.length + e.nonShared.toNat
    valueSize := e.valueLength.toNat
    restartIndex := it.restartLoop it.numRestarts it.restartIndex }

/-- `ParseNextKey`, where `current` is set; also whether there was an entry. -/
def parseCurrent (it : Iter) : Iter × Bool :=
  if it.restarts ≤ it.current then (it.invalidate, false)
  else
    match it.decodeAt it.current with
    | none => (it.corruptionError, false)
    | some e => if it.key.length < e.shared.toNat then (it.corruptionError, false) else (it.setEntry e, true)

def parseNextKey (it : Iter) : Iter × Bool := parseCurrent { it with current := it.nextEntryOffset }

def next (it : Iter) : Iter := it.parseNextKey.1

/-- The loops of `Prev` and `SeekToLast`: to the entry whose end is at this offset. -/
def scanLoop (limit : ℕ) : ℕ → Iter → Iter
  | 0, it => it
  | n + 1, it =>
    let (it, found) := it.parseNextKey
    if found && it.nextEntryOffset < limit then scanLoop limit n it else it

/-- The loop of `Prev` back to a restart point before the entry. -/
def backLoop (it : Iter) (original : ℕ) : ℕ → Option ℕ
  | 0 => if original ≤ it.getRestartPoint 0 then none else some 0
  | index + 1 => if original ≤ it.getRestartPoint (index + 1) then backLoop it original index else some (index + 1)

def prev (it : Iter) : Iter :=
  match it.backLoop it.current it.restartIndex with
  | none => it.invalidate
  | some index => scanLoop it.current (it.restarts + 1) (it.seekToRestartPoint index)

def seekToFirst (it : Iter) : Iter := (it.seekToRestartPoint 0).parseNextKey.1

def seekToLast (it : Iter) : Iter := scanLoop it.restarts (it.restarts + 1) (it.seekToRestartPoint (it.numRestarts - 1))

variable (c : Comparator)

/-- The binary search of `Seek`; none is a corruption. -/
def searchLoop (it : Iter) (target : Slice) : ℕ → ℕ → ℕ → Option ℕ
  | 0, left, _ => some left
  | n + 1, left, right =>
    if left < right then
      let mid := (left + right + 1) % 2 ^ 32 / 2
      match it.decodeAt (it.getRestartPoint mid) with
      | none => none
      | some e =>
        if e.shared ≠ 0 then none
        else if c.compare (e.keyDelta.take e.nonShared.toNat) target = .lt then searchLoop it target n mid right
        else searchLoop it target n left (mid - 1)
    else some left

/-- The linear search of `Seek`. -/
def linearLoop (target : Slice) : ℕ → Iter → Iter
  | 0, it => it
  | n + 1, it =>
    let (it, found) := it.parseNextKey
    if !found then it
    else if (c.compare it.key target).isGE then it
    else linearLoop target n it

/-- `Seek` with what the comparison of the current key, if there is one, has given. -/
def seekFrom (it : Iter) (target : Slice) (left right : ℕ) (below : Bool) : Iter :=
  match it.searchLoop c target it.numRestarts left right with
  | none => it.corruptionError
  | some left =>
    let skipSeek := left == it.restartIndex && below
    linearLoop c target (it.restarts + 1) (if skipSeek then it else it.seekToRestartPoint left)

def seek (it : Iter) (target : Slice) : Iter :=
  if it.valid then
    match c.compare it.key target with
    | .lt => it.seekFrom c target it.restartIndex (it.numRestarts - 1) true
    | .gt => it.seekFrom c target 0 it.restartIndex false
    | .eq => it
  else it.seekFrom c target 0 (it.numRestarts - 1) false

end Iter

end Block

end TLevelDB.Table
