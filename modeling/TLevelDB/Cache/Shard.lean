import TLevelDB.Lib.ChainedTable
import Mathlib.Data.UInt
import Mathlib.Logic.Function.Basic

/-!
# A shard of the cache

`LRUCache` is one shard of the sharded cache of `util/cache.cc`. It has entries
(`LRUHandle`) that are shared between the cache and its clients: each entry counts the
references to it, the cache's own and those of the handles that clients hold. An entry in
the cache is on one of two lists, `lru_` (oldest first) or `in_use_`, and in the hash
table.

## The model

An entry is known by the number of its insertion. `heap` gives the entries that are
allocated; an operation that uses an entry that has been freed, unlinks one that is on no
list, or fails an assertion has the result `none`. `deleted` are the entries whose deleter
has run, in this order.

Sizes are `size_t` (`UInt64`) and a reference count is a `uint32_t`, with their arithmetic:
the count wraps where there are 2³² references to an entry.
-/

namespace TLevelDB.Cache

open ChainedTable

variable {K V : Type} [DecidableEq K]

/-- An entry, without the links of the lists it is on. -/
structure LRUHandle (K V : Type) where
  key : K
  /-- The hash of the key, as the caller has computed it. -/
  hash : UInt32
  value : V
  charge : UInt64
  /-- Whether the cache has a reference. -/
  inCache : Bool
  /-- The references, with the one of the cache. -/
  refs : UInt32

structure LRUCache (K V : Type) where
  capacity : UInt64
  usage : UInt64
  /-- The entries that only the cache refers to, from the oldest to the newest. -/
  lru : List ℕ
  /-- The other entries in the cache. -/
  inUse : List ℕ
  table : Table ℕ
  /-- The entries that are allocated. -/
  heap : ℕ → Option (LRUHandle K V)
  /-- The number of insertions. -/
  next : ℕ
  /-- The entries that have been passed to their deleters. -/
  deleted : List ℕ

/-- What `FindPointer` compares of an entry. -/
def keyOf (heap : ℕ → Option (LRUHandle K V)) (e : ℕ) : Option (K × UInt32) := (heap e).map fun h => (h.key, h.hash)

/-- The hash by which `FindPointer` chooses a chain. -/
def hashOf (key : Option (K × UInt32)) : UInt32 := (key.map Prod.snd).getD 0

namespace LRUCache

/-- `LRUCache::LRUCache` and `SetCapacity`. -/
def create (capacity : UInt64) : LRUCache K V :=
  ⟨capacity, 0, [], [], Table.empty, fun _ => none, 0, []⟩

/-- An assignment to fields of an entry. -/
def setHandle (s : LRUCache K V) (e : ℕ) (h : LRUHandle K V) : LRUCache K V :=
  { s with heap := Function.update s.heap e (some h) }

/-- `LRU_Remove` takes the entry from the list it is on. -/
def lruRemove (s : LRUCache K V) (e : ℕ) : Option (LRUCache K V) :=
  if e ∈ s.lru then some { s with lru := s.lru.erase e }
  else if e ∈ s.inUse then some { s with inUse := s.inUse.erase e }
  else none

/-- `LRU_Append(&lru_, e)`. -/
def appendLru (s : LRUCache K V) (e : ℕ) : LRUCache K V := { s with lru := s.lru ++ [e] }

/-- `LRU_Append(&in_use_, e)`. -/
def appendInUse (s : LRUCache K V) (e : ℕ) : LRUCache K V := { s with inUse := s.inUse ++ [e] }

def ref (s : LRUCache K V) (e : ℕ) : Option (LRUCache K V) := do
  let h ← s.heap e
  let s ← if h.refs = 1 ∧ h.inCache then (s.lruRemove e).map (·.appendInUse e) else some s
  some (s.setHandle e { h with refs := h.refs + 1 })

def unref (s : LRUCache K V) (e : ℕ) : Option (LRUCache K V) := do
  let h ← s.heap e
  guard (0 < h.refs)
  let h := { h with refs := h.refs - 1 }
  if h.refs = 0 then
    guard (h.inCache = false)
    some { s with heap := Function.update s.heap e none, deleted := s.deleted ++ [e] }
  else if h.inCache ∧ h.refs = 1 then ((s.setHandle e h).lruRemove e).map (·.appendLru e)
  else some (s.setHandle e h)

/-- `FinishErase`, of an entry that the table does not have any more. -/
def finishErase (s : LRUCache K V) : Option ℕ → Option (LRUCache K V)
  | none => some s
  | some e => do
    let h ← s.heap e
    guard (h.inCache = true)
    let s ← s.lruRemove e
    let s := s.setHandle e { h with inCache := false }
    { s with usage := s.usage - h.charge }.unref e

def lookup (s : LRUCache K V) (key : K) (hash : UInt32) : Option (Option ℕ × LRUCache K V) :=
  match s.table.lookup (keyOf s.heap) hashOf (some (key, hash)) with
  | none => some (none, s)
  | some e => (s.ref e).map fun s => (some e, s)

def release (s : LRUCache K V) (handle : ℕ) : Option (LRUCache K V) := s.unref handle

/-- `FinishErase(table_.Remove(key, hash))`, and whether there was an entry. -/
def removeKey (s : LRUCache K V) (key : Option (K × UInt32)) : Option (Bool × LRUCache K V) :=
  let removed := s.table.remove (keyOf s.heap) hashOf key
  ({ s with table := removed.2 }.finishErase removed.1).map fun s => (removed.1.isSome, s)

/-- The body of the loops, for the oldest entry. -/
def evict (s : LRUCache K V) (old : ℕ) : Option (LRUCache K V) := do
  let h ← s.heap old
  guard (h.refs = 1)
  let (erased, s) ← s.removeKey (some (h.key, h.hash))
  guard (erased = true)
  some s

/-- The loops of `Insert` and `Prune`; `Insert` also tests whether the usage is over the capacity. -/
def evictLoop (full : LRUCache K V → Bool) : ℕ → LRUCache K V → Option (LRUCache K V)
  | 0, s => some s
  | fuel + 1, s =>
    match s.lru with
    | [] => some s
    | old :: _ => if full s then (s.evict old).bind (evictLoop full fuel) else some s

/-- The part of `Insert` for a cache with a capacity: the entry is cached, in place of the
one with its key. -/
def cacheEntry (s : LRUCache K V) (e : ℕ) (h : LRUHandle K V) : Option (LRUCache K V) := do
  let s : LRUCache K V := (s.setHandle e { h with refs := h.refs + 1, inCache := true }).appendInUse e
  let s : LRUCache K V := { s with usage := s.usage + h.charge }
  let (old, table) ← s.table.insert (keyOf s.heap) hashOf e
  { s with table := table }.finishErase old

/-- `Insert`: a turn of its loop takes an entry from `lru_`. -/
def insert (s : LRUCache K V) (key : K) (hash : UInt32) (value : V) (charge : UInt64) :
    Option (ℕ × LRUCache K V) := do
  let e := s.next
  let h : LRUHandle K V := ⟨key, hash, value, charge, false, 1⟩
  let s : LRUCache K V := { s.setHandle e h with next := s.next + 1 }
  let s ← if 0 < s.capacity then s.cacheEntry e h else some s
  let s ← s.evictLoop (fun s => s.capacity < s.usage) s.lru.length
  some (e, s)

def erase (s : LRUCache K V) (key : K) (hash : UInt32) : Option (LRUCache K V) :=
  (s.removeKey (some (key, hash))).map Prod.snd

def prune (s : LRUCache K V) : Option (LRUCache K V) := s.evictLoop (fun _ => true) s.lru.length

end LRUCache

end TLevelDB.Cache
