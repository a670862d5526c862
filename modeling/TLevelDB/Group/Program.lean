import TLevelDB.Lib.PersistentMemory
import Mathlib.Data.Finset.Basic

/-!
# The group manager's programs

A *group* (`src/groupManager.cc`) is one partition of persistent memory: a
`libpmemobj` pool whose root object `listroot` heads a singly linked list of
`listnode`s, together with a few fields of the `Group` object in DRAM. This
module gives each operation of `Group` as a program over persistent memory, in
the order in which the source makes its loads, stores, flushes and drains.

## The model

The lines that the operations write are those of the root object and, for each
node, the one that holds `next`. A node's `data` is not touched by any operation
here and is left out. `libpmemobj` aligns its objects to 16 bytes, so a `next` is
in one line, but the 56 bytes of `listroot` may reach into a second line, and the
64 bytes that the source flushes as one range then do too. Where they lie is a
parameter (`Placement`). An assignment to a field is one store to each line that
has a part of it.

`pmemobj_alloc` and `pmemobj_free` are indivisible and durable when they return:
an allocation writes and persists the new node by `listnode_construct` and then
marks it allocated. Which node it returns is the argument of `allocNode`; `none`
is the allocation that fails, on which the source throws. `pmemobj_root` gives
the root object, or `OID_NULL` when the pool has none to give (`rootFound`).

`node_count` and `_node_count_dram` are C++ `int`s, here `ℤ`: a pool that fits an
address space holds far fewer than 2³¹ nodes of 256 MiB.
-/

namespace TLevelDB.Group

open PersistentMemory

/-! ### The data -/

/-- A persistent pointer: the pool, and the offset in it. -/
structure PMEMoid where
  /-- The pool's identifier. -/
  poolUuidLo : ℕ
  /-- The offset in the pool. -/
  off : ℕ
  deriving DecidableEq, Repr

def oidNull : PMEMoid := ⟨0, 0⟩

/-- `OID_IS_NULL`, which looks at the offset alone. -/
def PMEMoid.IsNull (o : PMEMoid) : Prop := o.off = 0

instance (o : PMEMoid) : Decidable o.IsNull := inferInstanceAs (Decidable (o.off = 0))

/-- `listroot`, the root object of a pool. -/
structure ListRoot where
  /-- The write pointer. -/
  writeFront : PMEMoid
  /-- The number of nodes of the list. -/
  nodeCount : ℤ
  /-- The number of the partition. -/
  gid : ℤ
  /-- The first node. -/
  head : PMEMoid
  /-- The last node. -/
  tail : PMEMoid
  deriving DecidableEq, Repr

/-- The root object as `pmemobj_root` creates it: zeroed. -/
def ListRoot.zeroed : ListRoot := ⟨oidNull, 0, 0, oidNull, oidNull⟩

/-- Where the root object lies: its address modulo the size of a line. -/
inductive Placement where
  | at0 | at16 | at32 | at48
  deriving DecidableEq

/-- The root object with the bytes of `r` in its first line and those of `r'` in the second. -/
def Placement.join : Placement → ListRoot → ListRoot → ListRoot
  | .at0, r, _ => r
  | .at16, r, r' => { r with tail := ⟨r.tail.poolUuidLo, r'.tail.off⟩ }
  | .at32, r, r' => { r with head := ⟨r.head.poolUuidLo, r'.head.off⟩, tail := r'.tail }
  | .at48, r, r' => { r' with writeFront := r.writeFront }

@[simp] theorem Placement.join_self (p : Placement) (r : ListRoot) : p.join r r = r := by cases p <;> rfl

/-- The first line keeps what it has. -/
@[simp] theorem Placement.join_join_left (p : Placement) (r r' s : ListRoot) : p.join (p.join r r') s = p.join r s := by
  cases p <;> rfl

@[simp] theorem Placement.join_join_right (p : Placement) (r s s' : ListRoot) : p.join r (p.join s s') = p.join r s' := by
  cases p <;> rfl

/-- The lines the operations write. -/
inductive Line where
  /-- The line in which the root object begins. -/
  | root
  /-- The line after it. -/
  | rootEnd
  /-- The last line of a node, with its `next`. -/
  | node (o : PMEMoid)
  deriving DecidableEq

/-- What a line holds: a root object of which the line has its part, or a node's `next`. -/
abbrev Content : Line → Type
  | .root | .rootEnd => ListRoot
  | .node _ => PMEMoid

/-- The fields of a `Group` object in DRAM. -/
structure Dram where
  /-- `_gid_dram`. -/
  gid : ℤ
  /-- `_node_count_dram`. -/
  nodeCount : ℤ
  /-- `_tail_dram`, as the persistent pointer it is the address of. -/
  tail : PMEMoid
  /-- `_offset_dram`. -/
  offset : ℕ
  deriving DecidableEq, Repr

/-- What the programs use beside the lines. -/
structure Aux where
  /-- The pool's identifier. -/
  uuid : ℕ
  /-- Whether `pmemobj_root` gives the root object. -/
  rootFound : Bool
  placement : Placement
  /-- The nodes allocated from the pool and not freed. -/
  allocated : Finset PMEMoid
  /-- The `Group` object. -/
  dram : Dram

/-- The state: persistent memory, the allocator and the `Group` object. -/
abbrev State := Machine Content Aux

/-- A program of the group manager. -/
abbrev GroupProg := Prog Content Aux

/-- The root object as loads see it. -/
def root (m : State) : ListRoot := m.aux.placement.join (m.pm.mem .root) (m.pm.mem .rootEnd)

@[simp] theorem join_mem (m : State) : m.aux.placement.join (m.pm.mem .root) (m.pm.mem .rootEnd) = root m := rfl

/-- A node's `next` as loads see it. -/
def next (m : State) (o : PMEMoid) : PMEMoid := m.pm.mem (.node o)

/-! ### The operations -/

/-- `pmemobj_root`, with what the caller does on `OID_NULL` and otherwise. -/
def pmemobjRoot (onNull k : GroupProg) : GroupProg := .ask fun a => if a.rootFound then k else onNull

/-- A read of the root object. -/
def loadRoot (k : ListRoot → GroupProg) : GroupProg :=
  .ask fun a => .load .root fun r => .load .rootEnd fun r' => k (a.placement.join r r')

/-- An assignment to a field of the root object. -/
def assignRoot (f : ListRoot → ListRoot) (k : GroupProg) : GroupProg :=
  loadRoot fun r => .store .root (f r) <| .store .rootEnd (f r) k

/-- `pmemobj_flush` of the root object. -/
def flushRoot (k : GroupProg) : GroupProg := .flush .root <| .flush .rootEnd k

/-- An assignment to a field of the `Group` object. -/
def assignDram (f : Dram → Dram) (k : GroupProg) : GroupProg := .aux (fun a => { a with dram := f a.dram }) k

/-- The test of `Group::check_list_exist` on the root object. -/
def ListRoot.listExists (r : ListRoot) : Bool :=
  if r.nodeCount = 0 ∨ r.head.off = 0 ∨ 0 = r.tail.off then false else true

/-- `Group::check_list_exist`. -/
def checkListExist (k : Bool → GroupProg) : GroupProg :=
  pmemobjRoot (k false) <| loadRoot fun r => k r.listExists

/-- `Group::alloc_node`, for what `pmemobj_alloc` returned. -/
def allocNode (new : Option PMEMoid) (k : PMEMoid → GroupProg) : GroupProg :=
  match new with
  | none => .done
  | some o =>
    .persist (.node o) oidNull <|
    .aux (fun a => { a with allocated := insert o a.allocated }) <|
    assignDram (fun d => { d with nodeCount := d.nodeCount + 1 }) <|
    k o

/-- `Group::free_node`. -/
def freeNode (o : PMEMoid) (k : GroupProg) : GroupProg :=
  .aux (fun a => { a with allocated := a.allocated.erase o }) <|
  assignDram (fun d => { d with nodeCount := d.nodeCount - 1 }) k

/-- `Group::Group` after it has allocated the first node. -/
def linkFirst (gid : ℤ) (newNode : PMEMoid) : GroupProg :=
  assignRoot (fun r => { r with head := newNode }) <|
  assignRoot (fun r => { r with tail := newNode }) <|
  flushRoot <|
  .drain <|
  assignDram (fun d => { d with gid := gid, nodeCount := 0 }) <|
  assignDram (fun d => { d with tail := newNode, offset := 0 })
  .done

/-- `Group::Group`, on the pool the state holds. The new object lies in `storage`,
whose fields keep what they hold until they are assigned; `new` is what
`pmemobj_alloc` returns. -/
def construct (storage : Dram) (gid : ℤ) (new : Option PMEMoid) : GroupProg :=
  assignDram (fun _ => { storage with gid := gid }) <|
  checkListExist fun exist =>
    if exist then .done
    else
      pmemobjRoot .done <|
      assignRoot (fun r => { r with gid := gid }) <|
      assignRoot (fun r => { r with nodeCount := 1 }) <|
      allocNode new (linkFirst gid)

/-- `Group::add_node_to_tail`. -/
def addNodeToTail (node : PMEMoid) : GroupProg :=
  pmemobjRoot .done <|
  loadRoot fun r =>
    .store (.node r.tail) node <|
    assignRoot (fun r => { r with tail := node }) <|
    assignRoot (fun r => { r with nodeCount := r.nodeCount + 1 }) <|
    .flush (.node r.tail) <|
    flushRoot <|
    .drain .done

/-- `Group::delete_node_from_list`. -/
def deleteNodeFromList (prev node : PMEMoid) : GroupProg :=
  pmemobjRoot .done <|
  assignRoot (fun r => { r with nodeCount := r.nodeCount - 1 }) <|
  .load (.node node) fun curNext =>
    .store (.node prev) curNext <|
    freeNode node <|
    loadRoot fun r =>
      let flushBoth : GroupProg := .flush (.node prev) <| flushRoot <| .drain .done
      if node.off = r.tail.off then assignRoot (fun r => { r with tail := prev }) flushBoth else flushBoth

/-- `Group::~Group` gives the pool back and writes nothing. -/
def destruct : GroupProg := .done

end TLevelDB.Group
