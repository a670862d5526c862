import TLevelDB.Db.Iter
import TLevelDB.Lib.SortedSearch
import Mathlib.Algebra.BigOperators.Group.Finset.Basic
import Mathlib.Data.Fintype.BigOperators
import Mathlib.Data.List.FinRange

/-!
# Iterators below the database iterator

The internal iterator of a `DBIter` is a `MergingIterator` over the iterators of the
memtable, of the memtable that is being written out, and of tables (`table/merger.cc`,
`db/skiplist.h`). Each of these stands on an entry or nowhere; the list of a memtable may
grow between two calls, so that every operation is given the current lists.

A list of entries stands for a skip list or for a table: a node of a skip list is known by its
entry, and its link of the lowest level leads to the entry after it.
-/

namespace TLevelDB.Db

open SortedSearch

variable {S K V : Type}

variable [LinearOrder K]

/-- The entries of a memtable or a table, in the order of the internal key comparator. -/
abbrev Ordered (L : List (Entry K V)) : Prop := Increasing Entry.key L

/-! ### One list -/

/-- The link of a node, of the lowest level. -/
def nodeNext (L : List (Entry K V)) (node : Entry K V) : Option (Entry K V) :=
  (L.dropWhile fun x => decide (x.key ≠ node.key)).tail.head?

/-- `FindGreaterOrEqual`: the earliest node that comes at or after the key. -/
def findGreaterOrEqual (L : List (Entry K V)) (key : InternalKey K) : Option (Entry K V) := L.find? fun x => key ≤ x.key

/-- `FindLessThan`: the latest node before the key. -/
def findLessThan (L : List (Entry K V)) (key : InternalKey K) : Option (Entry K V) :=
  (L.takeWhile fun x => x.key < key).getLast?

/-- `SkipList::Iterator`, and the iterators over tables, by the entry they stand on. -/
def listOps (L : List (Entry K V)) : InternalOps (Option (Entry K V)) K V where
  current node := node
  seekToFirst _ := L.head?
  seekToLast _ := L.getLast?
  seek target _ := findGreaterOrEqual L target
  next node := node.bind (nodeNext L)
  prev node := node.bind fun x => findLessThan L x.key
  size := L.length

/-! ### Several lists -/

/-- `MergingIterator` over `n` children. -/
structure MergingIterator (n : ℕ) (K V : Type) where
  /-- Where the children stand. -/
  children : Fin n → Option (Entry K V)
  current : Option (Fin n)
  direction : Direction

namespace MergingIterator

variable {n : ℕ}

omit [LinearOrder K] in
/-- `MergingIterator::MergingIterator`. -/
def new (n : ℕ) (K V : Type) : MergingIterator n K V := ⟨fun _ => none, none, .forward⟩

/-- `FindSmallest`: the first of the children with the smallest key. -/
def findSmallest (children : Fin n → Option (Entry K V)) : Option (Fin n) :=
  firstMin (List.finRange n) fun i => (children i).map Entry.key

/-- `FindLargest`: the last of the children with the largest key. -/
def findLargest (children : Fin n → Option (Entry K V)) : Option (Fin n) :=
  firstMin (List.finRange n).reverse fun i => (children i).map (OrderDual.toDual ∘ Entry.key)

/-- What `Next` does with the other children after moving backward. -/
def turnForward (L : List (Entry K V)) (key : InternalKey K) (child : Option (Entry K V)) : Option (Entry K V) :=
  let child := (listOps L).seek key child
  if child.any fun x => key = x.key then (listOps L).next child else child

/-- What `Prev` does with the other children after moving forward. -/
def turnBack (L : List (Entry K V)) (key : InternalKey K) (child : Option (Entry K V)) : Option (Entry K V) :=
  let child := (listOps L).seek key child
  if child.isSome then (listOps L).prev child else (listOps L).seekToLast child

variable (contents : Fin n → List (Entry K V))

/-- `Next`, where the current child `i` stands on `x`. -/
def nextAt (m : MergingIterator n K V) (i : Fin n) (x : Entry K V) : MergingIterator n K V :=
  let children := match m.direction with
    | .forward => m.children
    | .reverse => fun j => if j = i then m.children j else turnForward (contents j) x.key (m.children j)
  let children := Function.update children i ((listOps (contents i)).next (children i))
  ⟨children, findSmallest children, .forward⟩

/-- `Prev`, where the current child `i` stands on `x`. -/
def prevAt (m : MergingIterator n K V) (i : Fin n) (x : Entry K V) : MergingIterator n K V :=
  let children := match m.direction with
    | .reverse => m.children
    | .forward => fun j => if j = i then m.children j else turnBack (contents j) x.key (m.children j)
  let children := Function.update children i ((listOps (contents i)).prev (children i))
  ⟨children, findLargest children, .reverse⟩

omit [LinearOrder K] in
/-- The child that is current, and the entry that it stands on. -/
def currentChild (m : MergingIterator n K V) : Option (Fin n × Entry K V) :=
  m.current.bind fun i => (m.children i).map fun x => (i, x)

def ops : InternalOps (MergingIterator n K V) K V where
  current m := m.currentChild.map Prod.snd
  seekToFirst m :=
    let children := fun i => (listOps (contents i)).seekToFirst (m.children i)
    ⟨children, findSmallest children, .forward⟩
  seekToLast m :=
    let children := fun i => (listOps (contents i)).seekToLast (m.children i)
    ⟨children, findLargest children, .reverse⟩
  seek target m :=
    let children := fun i => (listOps (contents i)).seek target (m.children i)
    ⟨children, findSmallest children, .forward⟩
  next m := m.currentChild.elim m fun p => m.nextAt contents p.1 p.2
  prev m := m.currentChild.elim m fun p => m.prevAt contents p.1 p.2
  size := ∑ i, (contents i).length

end MergingIterator

omit [LinearOrder K] in
/-- What `NewMergingIterator` returns: the only child, or a `MergingIterator`. -/
def InternalIterator (K V : Type) : ℕ → Type
  | 0 => MergingIterator 0 K V
  | 1 => Option (Entry K V)
  | n + 2 => MergingIterator (n + 2) K V

omit [LinearOrder K] in
/-- `NewMergingIterator`; one over no children is an empty iterator. -/
def newMergingIterator : (n : ℕ) → InternalIterator K V n
  | 0 => MergingIterator.new 0 K V
  | 1 => (none : Option (Entry K V))
  | n + 2 => MergingIterator.new (n + 2) K V

/-- The operations of an internal iterator over these lists. -/
def internalOps : {n : ℕ} → (Fin n → List (Entry K V)) → InternalOps (InternalIterator K V n) K V
  | 0, contents => MergingIterator.ops contents
  | 1, contents => listOps (contents 0)
  | _ + 2, contents => MergingIterator.ops contents

end TLevelDB.Db
