import TLevelDB.Group.List
import Mathlib.Data.Finset.Card

/-!
# What the `Group` object remembers of its pool

`_node_count_dram` is declared as the number of nodes that have been allocated, and
`_tail_dram` as the node to write to. Both are kept in DRAM next to the persistent list,
by different routines: the counter in `alloc_node` and `free_node`, the tail only in the
constructor. A `Session` is the life of one `Group` object from its construction on an
empty pool; the caller may free any allocated node and link any allocated one.

The constructor assigns zero to the counter after it has allocated the first node, so
the counter is one short for ever. The tail stays the first node, which is the
persistent tail only where the list ends with its head.
-/

namespace TLevelDB.Group

open PersistentMemory

variable {m : State}

/-- What a caller may do with a constructed `Group`. -/
def Op.InSession (m : State) : Op → Prop
  | .construct _ _ _ => False
  | .destruct => False
  | .allocNode new => Fresh m new
  | .freeNode node => node ∈ m.aux.allocated
  | .addNodeToTail node => node ∈ m.aux.allocated
  | .deleteNodeFromList prev node => node ∈ m.aux.allocated ∧ next m prev = node

/-- The states of a `Group` object constructed on an empty pool. -/
inductive Session : State → Prop where
  /-- The constructor. -/
  | construct {m : State} {new : PMEMoid} (storage : Dram) (gid : ℤ) :
      EmptyPool m → Fresh m new → Session ((construct storage gid (some new)).run m)
  /-- One operation more. -/
  | step {m : State} (op : Op) : Session m → op.InSession m → Session (op.prog.run m)

/-- The counter is the number of nodes allocated and not freed. -/
def CountMirrored (m : State) : Prop := m.aux.dram.nodeCount = m.aux.allocated.card

/-- The write pointer is the node the persistent tail names. -/
def TailMirrored (m : State) : Prop := m.aux.dram.tail = (root m).tail

/-- What holds throughout a session. -/
structure SessionInv (m : State) : Prop where
  rootFound : m.aux.rootFound = true
  settled : m.pm.Settled
  nodeCount : m.aux.dram.nodeCount + 1 = m.aux.allocated.card
  tail : m.aux.dram.tail = (root m).head

theorem EmptyPool.sessionInv_construct (h : EmptyPool m) (storage : Dram) (gid : ℤ) (new : PMEMoid) :
    SessionInv ((construct storage gid (some new)).run m) := by
  rw [construct_run h.settled h.rootFound h.not_listExists]
  show SessionInv (written m new oidNull _ _)
  refine ⟨h.rootFound, settled_written _ _ _ _, ?_, by rw [root_written]; rfl⟩
  show (0 : ℤ) + 1 = (insert new m.aux.allocated).card
  rw [h.allocated]
  rfl

theorem SessionInv.allocNode (h : SessionInv m) {new : PMEMoid} (hn : Fresh m new) :
    SessionInv ((Op.allocNode new).prog.run m) := by
  rw [Op.prog, allocNode_run h.settled]
  refine ⟨h.rootFound, rfl, ?_, h.tail⟩
  show m.aux.dram.nodeCount + 1 + 1 = (insert new m.aux.allocated).card
  rw [Finset.card_insert_of_notMem hn.1, h.nodeCount]
  push_cast
  rfl

/-- Freeing an allocated node counts it out, whether it is linked or not. -/
theorem SessionInv.nodeCount_erase (h : SessionInv m) {node : PMEMoid} (hn : node ∈ m.aux.allocated) :
    m.aux.dram.nodeCount - 1 + 1 = (m.aux.allocated.erase node).card := by
  have hcard := Finset.card_erase_add_one hn
  have hcount := h.nodeCount
  omega

theorem SessionInv.freeNode (h : SessionInv m) {node : PMEMoid} (hn : node ∈ m.aux.allocated) :
    SessionInv ((Op.freeNode node).prog.run m) := by
  rw [Op.prog, freeNode_run]
  exact ⟨h.rootFound, h.settled, h.nodeCount_erase hn, h.tail⟩

theorem SessionInv.addNodeToTail (h : SessionInv m) (node : PMEMoid) :
    SessionInv ((Op.addNodeToTail node).prog.run m) := by
  rw [Op.prog, addNodeToTail_run h.settled h.rootFound]
  show SessionInv (written m (root m).tail node _ _)
  exact ⟨h.rootFound, settled_written _ _ _ _, h.nodeCount, by rw [root_written]; exact h.tail⟩

theorem SessionInv.deleteNodeFromList (h : SessionInv m) {node : PMEMoid} (prev : PMEMoid)
    (hn : node ∈ m.aux.allocated) : SessionInv ((Op.deleteNodeFromList prev node).prog.run m) := by
  rw [Op.prog, deleteNodeFromList_run h.settled h.rootFound]
  show SessionInv (written m prev (next m node) _ _)
  exact ⟨h.rootFound, settled_written _ _ _ _, h.nodeCount_erase hn, by rw [root_written]; exact h.tail⟩

theorem Session.inv (h : Session m) : SessionInv m := by
  induction h with
  | construct storage gid hempty _ => exact hempty.sessionInv_construct storage gid _
  | step op _ hop ih =>
    cases op with
    | construct | destruct => exact hop.elim
    | allocNode new => exact ih.allocNode hop
    | freeNode node => exact ih.freeNode hop
    | addNodeToTail node => exact ih.addNodeToTail node
    | deleteNodeFromList prev node => exact ih.deleteNodeFromList prev hop.1

/-- **What the object remembers**: throughout a session the counter is one less than the
number of allocated nodes, and the write pointer is the persistent tail exactly where
the list ends with its head. -/
theorem Session.mirrored_iff (h : Session m) :
    m.aux.dram.nodeCount = m.aux.allocated.card - 1 ∧ ¬ CountMirrored m ∧
      (TailMirrored m ↔ (root m).head = (root m).tail) := by
  have hinv := h.inv
  have hcount := hinv.nodeCount
  refine ⟨by omega, fun hm => ?_, by rw [TailMirrored, hinv.tail]⟩
  rw [CountMirrored] at hm
  omega

theorem session_onePool : Session onePool :=
  .construct _ 0 (emptyPool_emptyPool _ _) ⟨by decide, by decide, by decide⟩

theorem mirrored_iff_onePool : ¬ CountMirrored onePool ∧ TailMirrored onePool :=
  ⟨session_onePool.mirrored_iff.2.1, session_onePool.mirrored_iff.2.2.mpr (by decide)⟩

/-- A second node is allocated and linked. -/
def twoPool : State := (Op.addNodeToTail (node 2)).prog.run ((Op.allocNode (node 2)).prog.run onePool)

theorem session_twoPool : Session twoPool :=
  .step (.addNodeToTail (node 2)) (.step (.allocNode (node 2)) session_onePool ⟨by decide, by decide, by decide⟩)
    (show node 2 ∈ _ by decide)

/-- The counter is wrong after the constructor, and the tail after a node is added. -/
theorem not_mirrored :
    (¬ ∀ m : State, Session m → CountMirrored m) ∧ ¬ ∀ m : State, Session m → TailMirrored m := by
  constructor
  · intro h
    exact absurd (h onePool session_onePool) (by unfold CountMirrored; decide)
  · intro h
    exact absurd (h twoPool session_twoPool) (by unfold TailMirrored; decide)

end TLevelDB.Group
