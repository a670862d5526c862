import TLevelDB.Group.Program
import TLevelDB.Lib.LinkedList

/-!
# The persistent list of a group

What the operations of a group do to its list as long as the power holds. The
list is modelled by the list of its nodes (`none` when the pool has no list
yet): the constructor on an empty pool makes a list of one node,
`add_node_to_tail` appends a node, `delete_node_from_list` removes one, and
`alloc_node` and `free_node` of a node that is not linked leave it alone
(`Op.model`). `Run` is every sequence of such operations, starting from an empty
pool, in which the caller keeps to what the source expects of it (`Op.Legal`).

`Inv` is what holds after every operation: the persistent list is the modelled
one (`IsList`), nothing is on its way to the medium, and every allocated node
that is not in the list still has the `OID_NULL` that `listnode_construct` put
there, which is why linking it ends the list.
-/

namespace TLevelDB.Group

open PersistentMemory LinkedList

/-! ### What each operation computes -/

/-- After the two flushes and the drain that end an operation, everything is on the
medium. -/
theorem settled_of_flushed {p : Pmem Content}
    (h : ∀ o, p.older (.node o) = [] ∧ p.sinceFlush (.node o) = none ∨ p.sinceFlush (.node o) = some []) :
    ((p.flush .root).flush .rootEnd).drain = Pmem.settled p.mem := by
  refine Pmem.settled_drain fun l => ?_
  cases l with
  | root => exact Or.inr (by simp [Pmem.flush])
  | rootEnd => exact Or.inr (by simp [Pmem.flush])
  | node o => simpa [Pmem.flush] using h o

variable {m : State}

theorem allocNode_run (hs : m.pm.Settled) (n : PMEMoid) (k : PMEMoid → GroupProg) :
    (allocNode (some n) k).run m = (k n).run
      ⟨Pmem.settled (Function.update m.pm.mem (.node n) oidNull),
        { m.aux with
          allocated := insert n m.aux.allocated
          dram := { m.aux.dram with nodeCount := m.aux.dram.nodeCount + 1 } }⟩ := by
  have hp : m.pm.persist (.node n) oidNull = Pmem.settled (Function.update m.pm.mem (.node n) oidNull) :=
    hs.persist _ _
  simp only [allocNode, assignDram, Prog.run, hp]

theorem freeNode_run (n : PMEMoid) (k : GroupProg) :
    (freeNode n k).run m = k.run
      { m with aux := { m.aux with
          allocated := m.aux.allocated.erase n
          dram := { m.aux.dram with nodeCount := m.aux.dram.nodeCount - 1 } } } := rfl

/-- The state after a `next` and the root object have been written. -/
def written (m : State) (t v : PMEMoid) (r : ListRoot) (aux : Aux) : State :=
  ⟨Pmem.settled (Function.update (Function.update (Function.update m.pm.mem (.node t) v) .root r) .rootEnd r), aux⟩

@[simp] theorem root_written (t v : PMEMoid) (r : ListRoot) (aux : Aux) : root (written m t v r aux) = r := by
  simp [root, written, Pmem.settled]

@[simp] theorem next_written (t v : PMEMoid) (r : ListRoot) (aux : Aux) :
    next (written m t v r aux) = Function.update (next m) t v := by
  funext o
  by_cases h : o = t
  · subst h; simp [next, written, Pmem.settled]
  · simp [next, written, Pmem.settled, h]

@[simp] theorem aux_written (t v : PMEMoid) (r : ListRoot) (aux : Aux) : (written m t v r aux).aux = aux := rfl

theorem settled_written (t v : PMEMoid) (r : ListRoot) (aux : Aux) : (written m t v r aux).pm.Settled := rfl

/-- The end of an operation that has stored to the root object and to the `next` of `t`. -/
theorem flushed_eq_written {p : Pmem Content} {t v : PMEMoid} {r : ListRoot} {aux : Aux} (hs : m.pm.Settled)
    (hmem : p.mem = (written m t v r aux).pm.mem)
    (hnode : ∀ o, o ≠ t → p.older (.node o) = m.pm.older (.node o) ∧ p.sinceFlush (.node o) = m.pm.sinceFlush (.node o))
    (ht : p.older (.node t) = [] ∧ p.sinceFlush (.node t) = none ∨ p.sinceFlush (.node t) = some []) :
    (⟨((p.flush .root).flush .rootEnd).drain, aux⟩ : State) = written m t v r aux := by
  rw [settled_of_flushed fun o => ?_, hmem]
  · rfl
  by_cases ho : o = t
  · exact ho ▸ ht
  · rw [(hnode o ho).1, (hnode o ho).2]
    exact Or.inl (Pmem.settled_iff.mp hs _)

theorem addNodeToTail_run (hs : m.pm.Settled) (hr : m.aux.rootFound = true) (n : PMEMoid) :
    (addNodeToTail n).run m =
      written m (root m).tail n { root m with tail := n, nodeCount := (root m).nodeCount + 1 } m.aux := by
  unfold addNodeToTail pmemobjRoot assignRoot loadRoot flushRoot
  simp only [Prog.run, hr, if_true]
  refine flushed_eq_written hs ?_ (fun o ho => ?_) (Or.inr ?_)
  · simp [written, Pmem.settled, Function.update_comm]
  · simp [Pmem.store, Pmem.flush, ho]
  · simp [Pmem.flush]

/-- The root object after `delete_node_from_list`: the tail moves back when it is the
node removed. -/
def deletedRoot (r : ListRoot) (prev node : PMEMoid) : ListRoot :=
  { r with nodeCount := r.nodeCount - 1, tail := if node.off = r.tail.off then prev else r.tail }

theorem deleteNodeFromList_run (hs : m.pm.Settled) (hr : m.aux.rootFound = true) (p n : PMEMoid) :
    (deleteNodeFromList p n).run m =
      written m p (next m n) (deletedRoot (root m) p n)
        { m.aux with
          allocated := m.aux.allocated.erase n
          dram := { m.aux.dram with nodeCount := m.aux.dram.nodeCount - 1 } } := by
  unfold deleteNodeFromList pmemobjRoot assignRoot loadRoot flushRoot
  simp only [Prog.run, hr, if_true, freeNode_run]
  split_ifs with ht <;> refine flushed_eq_written hs ?_ (fun o ho => ?_) (Or.inr ?_)
  · have ht' : n.off = (root m).tail.off := by simpa using ht
    simp [next, deletedRoot, Function.update_comm, ht', written, Pmem.settled]
  · simp [Pmem.store, Pmem.flush, ho]
  · simp [Pmem.flush]
  · have ht' : n.off ≠ (root m).tail.off := by simpa using ht
    simp [next, deletedRoot, Function.update_comm, ht', written, Pmem.settled]
  · simp [Pmem.store, Pmem.flush, ho]
  · simp [Pmem.flush]

/-- The root object after the constructor has made a list. -/
def constructedRoot (r : ListRoot) (gid : ℤ) (n : PMEMoid) : ListRoot :=
  { r with gid := gid, nodeCount := 1, head := n, tail := n }

/-- The constructor on a pool without a list makes one. -/
theorem construct_run (hs : m.pm.Settled) (hr : m.aux.rootFound = true) (he : (root m).listExists = false)
    (storage : Dram) (gid : ℤ) (n : PMEMoid) :
    (construct storage gid (some n)).run m =
      written m n oidNull (constructedRoot (root m) gid n)
        { m.aux with
          allocated := insert n m.aux.allocated
          dram := ⟨gid, 0, n, 0⟩ } := by
  unfold construct linkFirst checkListExist pmemobjRoot assignRoot loadRoot flushRoot assignDram
  simp only [Prog.run, hr, if_true, join_mem, he, Bool.false_eq_true, if_false, allocNode, assignDram]
  refine flushed_eq_written hs ?_ (fun o ho => ?_) (Or.inl ?_)
  · simp [constructedRoot, Function.update_comm, written, Pmem.settled]
  · simp [Pmem.store, Pmem.persist, ho]
  · simp [Pmem.store, Pmem.persist]

/-- The constructor on a pool with a list changes nothing but the object's number. -/
theorem construct_run_exists (hr : m.aux.rootFound = true) (he : (root m).listExists = true)
    (storage : Dram) (gid : ℤ) (new : Option PMEMoid) :
    (construct storage gid new).run m = { m with aux := { m.aux with dram := { storage with gid := gid } } } := by
  unfold construct checkListExist pmemobjRoot loadRoot assignDram
  simp only [Prog.run, hr, if_true, join_mem, he]

/-! ### Runs -/

/-- The operations of a group; the nodes they name are those the caller passes, and
for an allocation the one it returns. -/
inductive Op where
  /-- `Group::Group`. -/
  | construct (storage : Dram) (gid : ℤ) (new : PMEMoid)
  /-- `Group::~Group`. -/
  | destruct
  /-- `Group::alloc_node`. -/
  | allocNode (new : PMEMoid)
  /-- `Group::free_node`. -/
  | freeNode (node : PMEMoid)
  /-- `Group::add_node_to_tail`. -/
  | addNodeToTail (node : PMEMoid)
  /-- `Group::delete_node_from_list`. -/
  | deleteNodeFromList (prev node : PMEMoid)

/-- The program of an operation. -/
def Op.prog : Op → GroupProg
  | .construct storage gid new => Group.construct storage gid (some new)
  | .destruct => Group.destruct
  | .allocNode new => Group.allocNode (some new) fun _ => .done
  | .freeNode node => Group.freeNode node .done
  | .addNodeToTail node => Group.addNodeToTail node
  | .deleteNodeFromList prev node => Group.deleteNodeFromList prev node

/-- What an operation does to the modelled list; `none` is a pool without a list. -/
def Op.model : Op → Option (List PMEMoid) → Option (List PMEMoid)
  | .construct _ _ new, none => some [new]
  | .addNodeToTail node, some l => some (l ++ [node])
  | .deleteNodeFromList _ node, some l => some (l.erase node)
  | _, l => l

/-- A node that `pmemobj_alloc` may return: of this pool, and not in use. -/
def Fresh (m : State) (n : PMEMoid) : Prop :=
  n ∉ m.aux.allocated ∧ n.off ≠ 0 ∧ n.poolUuidLo = m.aux.uuid

/-- What the caller keeps to. On a pool without a list it can only construct the
group; afterwards it adds nodes it has allocated and not linked yet, and removes
the successor of a node of the list. -/
def Op.Legal (m : State) : Op → Option (List PMEMoid) → Prop
  | .construct _ _ new, none => Fresh m new
  | _, none => False
  | .construct _ _ _, some _ => True
  | .destruct, some _ => True
  | .allocNode new, some _ => Fresh m new
  | .freeNode node, some l => node ∈ m.aux.allocated ∧ node ∉ l
  | .addNodeToTail node, some l => node ∈ m.aux.allocated ∧ node ∉ l
  | .deleteNodeFromList prev node, some l => prev ∈ l ∧ next m prev = node ∧ ¬ node.IsNull

/-- A pool on which no group has been constructed. -/
structure EmptyPool (m : State) : Prop where
  /-- The root object can be had. -/
  rootFound : m.aux.rootFound = true
  /-- It is as it was created. -/
  zeroed : root m = ListRoot.zeroed
  /-- No node is allocated. -/
  allocated : m.aux.allocated = ∅
  /-- Nothing is on its way to the medium. -/
  settled : m.pm.Settled

/-- The states reached from an empty pool, each with the modelled list. -/
inductive Run : State → Option (List PMEMoid) → Prop where
  /-- An empty pool. -/
  | empty {m : State} : EmptyPool m → Run m none
  /-- One operation more. -/
  | step {m : State} {l : Option (List PMEMoid)} (op : Op) :
      Run m l → op.Legal m l → Run (op.prog.run m) (op.model l)

/-! ### The invariant -/

/-- **The persistent list is `l`**: following `next` from the root's head visits `l`,
which are distinct allocated nodes, the last of them the root's tail, whose `next`
is `OID_NULL`; and the root's count is the number of them, at least one. -/
structure IsList (m : State) (l : List PMEMoid) : Prop where
  /-- Following `next` from the head visits `l`. -/
  chain : Chain PMEMoid.IsNull (next m) (root m).head l
  /-- The nodes are distinct. -/
  nodup : l.Nodup
  /-- They are allocated. -/
  allocated : ∀ n ∈ l, n ∈ m.aux.allocated
  /-- The last one is the tail. -/
  last : l.getLast? = some (root m).tail
  /-- Nothing follows it. -/
  next_tail : next m (root m).tail = oidNull
  /-- The count is right. -/
  count : (root m).nodeCount = l.length
  /-- There is at least one node. -/
  pos : 1 ≤ (root m).nodeCount

/-- What holds after every operation, beside the list. -/
structure Inv (m : State) (l : List PMEMoid) : Prop extends IsList m l where
  /-- The root object can be had. -/
  rootFound : m.aux.rootFound = true
  /-- Nothing is on its way to the medium. -/
  settled : m.pm.Settled
  /-- The allocated nodes are of this pool. -/
  ofPool : ∀ n ∈ m.aux.allocated, n.off ≠ 0 ∧ n.poolUuidLo = m.aux.uuid
  /-- A node that is not linked is as `listnode_construct` left it. -/
  unlinked : ∀ n ∈ m.aux.allocated, n ∉ l → next m n = oidNull

/-- The invariant of a run: an empty pool, or a list. -/
def RunInv (m : State) : Option (List PMEMoid) → Prop
  | none => EmptyPool m
  | some l => Inv m l

variable {l : List PMEMoid} {n p : PMEMoid}

theorem IsList.exists_init (h : IsList m l) : ∃ xs, l = xs ++ [(root m).tail] :=
  List.getLast?_eq_some_iff.mp h.last

theorem IsList.tail_mem (h : IsList m l) : (root m).tail ∈ l := by
  obtain ⟨xs, hxs⟩ := h.exists_init
  rw [hxs]
  simp

/-- A list exists for `check_list_exist`, which looks at offsets. -/
theorem Inv.listExists (h : Inv m l) : (root m).listExists = true := by
  have hpos : (root m).nodeCount ≠ 0 := by have := h.pos; omega
  have htail : (root m).tail.off ≠ 0 := (h.ofPool _ (h.allocated _ h.tail_mem)).1
  have hhead : (root m).head.off ≠ 0 := by
    cases l with
    | nil => simpa using h.last
    | cons x xs => exact h.chain.1 ▸ (h.ofPool _ (h.allocated x List.mem_cons_self)).1
  simp [ListRoot.listExists, hpos, hhead, Ne.symm htail]

theorem EmptyPool.not_listExists (h : EmptyPool m) : (root m).listExists = false := by
  rw [h.zeroed]
  decide

/-! ### What one operation preserves -/

theorem inv_construct (h : EmptyPool m) (hn : Fresh m n) (storage : Dram) (gid : ℤ) :
    Inv ((construct storage gid (some n)).run m) [n] := by
  rw [construct_run h.settled h.rootFound h.not_listExists]
  refine ⟨⟨?_, ?_, ?_, ?_, ?_, ?_, ?_⟩, h.rootFound, settled_written .., ?_, ?_⟩ <;>
    simp [constructedRoot, h.allocated, hn.2.1, hn.2.2, PMEMoid.IsNull, oidNull]

theorem inv_allocNode (h : Inv m l) (hn : Fresh m n) :
    Inv ((allocNode (some n) fun _ => .done).run m) l := by
  have hnl : n ∉ l := fun hl => hn.1 (h.allocated n hl)
  have hnt : (root m).tail ≠ n := fun e => hnl (e ▸ h.tail_mem)
  rw [allocNode_run h.settled]
  set m' : State := Prog.done.run _ with hm'
  have hroot : root m' = root m := rfl
  have hnext : next m' = Function.update (next m) n oidNull := by
    funext o
    by_cases ho : o = n
    · subst ho; simp [hm', Prog.run, next, Pmem.settled]
    · simp [hm', Prog.run, next, Pmem.settled, ho]
  have hall : m'.aux.allocated = insert n m.aux.allocated := rfl
  refine ⟨⟨?_, h.nodup, ?_, ?_, ?_, ?_, ?_⟩, h.rootFound, rfl, ?_, ?_⟩
  · simpa [hroot, hnext, chain_update_of_not_mem hnl] using h.chain
  · exact fun x hx => Finset.mem_insert_of_mem (h.allocated x hx)
  · simpa [hroot] using h.last
  · simpa [hroot, hnext, hnt] using h.next_tail
  · simpa [hroot] using h.count
  · simpa [hroot] using h.pos
  · rw [hall]
    simp only [Finset.mem_insert]
    rintro x (rfl | hx)
    · exact hn.2
    · exact h.ofPool x hx
  · rw [hall, hnext]
    simp only [Finset.mem_insert]
    rintro x (rfl | hx) hxl
    · simp
    · by_cases hxn : x = n
      · subst hxn; simp
      · simpa [hxn] using h.unlinked x hx hxl

/-- `free_node` of a node that is not linked leaves the list alone. -/
theorem inv_freeNode (h : Inv m l) (hn : n ∉ l) :
    Inv ((freeNode n .done).run m) l where
  chain := h.chain
  nodup := h.nodup
  allocated x hx := Finset.mem_erase_of_ne_of_mem (fun e => hn (e ▸ hx)) (h.allocated x hx)
  last := h.last
  next_tail := h.next_tail
  count := h.count
  pos := h.pos
  rootFound := h.rootFound
  settled := h.settled
  ofPool x hx := h.ofPool x (Finset.mem_of_mem_erase hx)
  unlinked x hx hxl := h.unlinked x (Finset.mem_of_mem_erase hx) hxl

theorem inv_addNodeToTail (h : Inv m l) (ha : n ∈ m.aux.allocated) (hn : n ∉ l) :
    Inv ((addNodeToTail n).run m) (l ++ [n]) := by
  obtain ⟨xs, hxs⟩ := h.exists_init
  rw [addNodeToTail_run h.settled h.rootFound]
  have hnt : n ≠ (root m).tail := fun e => hn (e ▸ h.tail_mem)
  have hnn : next m n = oidNull := h.unlinked n ha hn
  refine ⟨⟨?_, ?_, ?_, ?_, ?_, ?_, ?_⟩, h.rootFound, settled_written .., h.ofPool, ?_⟩
  · have hc := h.chain
    have hd := h.nodup
    rw [hxs] at hc hd hn ⊢
    simpa using hc.link hd hn (h.ofPool n ha).1 (by rw [hnn]; rfl)
  · exact h.nodup.append (List.nodup_singleton n) (by simpa using hn)
  · simp only [List.mem_append, List.mem_singleton]
    rintro x (hx | rfl)
    · exact h.allocated x hx
    · exact ha
  · simp
  · simpa [hnt] using hnn
  · simp [h.count]
  · have := h.pos
    simp only [root_written]
    omega
  · simp only [List.mem_append, List.mem_singleton, not_or, next_written]
    rintro x hx ⟨hxl, hxn⟩
    have hxt : x ≠ (root m).tail := fun e => hxl (e ▸ h.tail_mem)
    simpa [hxt] using h.unlinked x hx hxl

/-- In one pool the offset says which node it is. -/
theorem Inv.eq_of_off (h : Inv m l) {a b : PMEMoid} (ha : a ∈ m.aux.allocated)
    (hb : b ∈ m.aux.allocated) (hoff : a.off = b.off) : a = b := by
  have hu : a.poolUuidLo = b.poolUuidLo := (h.ofPool a ha).2.trans (h.ofPool b hb).2.symm
  cases a
  cases b
  simp_all

theorem erase_middle {xs ys : List PMEMoid} (hd : (xs ++ p :: n :: ys).Nodup) :
    (xs ++ p :: n :: ys).erase n = xs ++ p :: ys := by
  simp only [List.nodup_append, List.nodup_cons, List.mem_cons] at hd
  have hxs : n ∉ xs := fun hx => hd.2.2 n hx n (by simp) rfl
  have hpn : p ≠ n := fun e => hd.2.1.1 (Or.inl e)
  rw [List.erase_append_right _ hxs, List.erase_cons_tail (by simpa using hpn), List.erase_cons_head]

/-- The tail after removing the successor of `p`: `p` when the successor was the last
node, and as before otherwise. Nothing follows it. -/
theorem Inv.deletedRoot_tail {xs ys : List PMEMoid} (h : Inv m (xs ++ p :: n :: ys)) :
    (xs ++ p :: ys).getLast? = some (deletedRoot (root m) p n).tail ∧
      Function.update (next m) p (next m n) (deletedRoot (root m) p n).tail = oidNull := by
  have hlast := h.last
  have hd := h.nodup
  have hna : n ∈ m.aux.allocated := h.allocated n (by simp)
  cases ys using List.reverseRecOn with
  | nil =>
    have ht : (root m).tail = n := by simpa using hlast.symm
    have hnn : next m n = oidNull := ht ▸ h.next_tail
    simp [deletedRoot, ht, hnn]
  | append_singleton zs z =>
    have ht : (root m).tail = z := by
      rw [show xs ++ p :: n :: (zs ++ [z]) = (xs ++ p :: n :: zs) ++ [z] by simp, List.getLast?_concat] at hlast
      exact (Option.some.inj hlast).symm
    have hza : z ∈ m.aux.allocated := h.allocated z (by simp)
    have hzp : z ≠ p := by
      rintro rfl
      simp [List.nodup_append] at hd
    have hnz : n.off ≠ z.off := by
      intro e
      rw [h.eq_of_off hna hza e] at hd
      simp [List.nodup_append] at hd
    have htail : (deletedRoot (root m) p n).tail = z := by simp [deletedRoot, ht, hnz]
    rw [htail, show xs ++ p :: (zs ++ [z]) = (xs ++ p :: zs) ++ [z] by simp, List.getLast?_concat,
      Function.update_of_ne hzp]
    exact ⟨rfl, ht ▸ h.next_tail⟩

theorem inv_deleteNodeFromList (h : Inv m l) (hp : p ∈ l)
    (hpn : next m p = n) (hn : ¬ n.IsNull) : Inv ((deleteNodeFromList p n).run m) (l.erase n) := by
  obtain ⟨xs, ys, rfl⟩ := h.chain.exists_split hp (hpn ▸ hn)
  rw [hpn] at h ⊢
  rw [deleteNodeFromList_run h.settled h.rootFound, erase_middle h.nodup]
  obtain ⟨hlast, hnull⟩ := h.deletedRoot_tail
  have hd := h.nodup
  have hsub : ∀ x ∈ xs ++ p :: ys, x ∈ xs ++ p :: n :: ys ∧ x ≠ n := by
    intro x hx
    have hnot : n ∉ xs ++ p :: ys := by rw [← erase_middle hd]; exact hd.not_mem_erase
    exact ⟨by simp only [List.mem_append, List.mem_cons] at hx ⊢; tauto, fun e => hnot (e ▸ hx)⟩
  have hchain : Chain PMEMoid.IsNull (Function.update (next m) p (next m n)) (root m).head (xs ++ p :: ys) :=
    h.chain.unlink hd
  refine ⟨⟨?_, ?_, ?_, ?_, ?_, ?_, ?_⟩, h.rootFound, settled_written .., ?_, ?_⟩
  · simpa [deletedRoot] using hchain
  · rw [← erase_middle hd]
    exact hd.erase n
  · intro x hx
    exact Finset.mem_erase_of_ne_of_mem (hsub x hx).2 (h.allocated x (hsub x hx).1)
  · simpa using hlast
  · simpa using hnull
  · have hcount := h.count
    simp only [List.length_append, List.length_cons] at hcount
    simp only [root_written, deletedRoot, List.length_append, List.length_cons]
    omega
  · have hcount := h.count
    simp only [List.length_append, List.length_cons] at hcount
    simp only [root_written, deletedRoot]
    omega
  · exact fun x hx => h.ofPool x (Finset.mem_of_mem_erase hx)
  · simp only [aux_written, Finset.mem_erase, next_written]
    rintro x ⟨hxn, hx⟩ hxl
    have hxp : x ≠ p := fun e => hxl (by simp [e])
    rw [Function.update_of_ne hxp]
    refine h.unlinked x hx fun hx' => hxl ?_
    simp only [List.mem_append, List.mem_cons] at hx' ⊢
    tauto

/-! ### What a run preserves -/

theorem runInv_step {l : Option (List PMEMoid)} (h : RunInv m l) (op : Op) (hl : op.Legal m l) :
    RunInv (op.prog.run m) (op.model l) := by
  cases l with
  | none =>
    cases op with
    | construct storage gid new => exact inv_construct h hl storage gid
    | _ => exact hl.elim
  | some l =>
    have h : Inv m l := h
    cases op with
    | construct storage gid new =>
      simp only [Op.prog, Op.model, construct_run_exists h.rootFound h.listExists]
      exact { h with }
    | destruct => exact h
    | allocNode new => exact inv_allocNode h hl
    | freeNode node => exact inv_freeNode h hl.2
    | addNodeToTail node => exact inv_addNodeToTail h hl.1 hl.2
    | deleteNodeFromList prev node => exact inv_deleteNodeFromList h hl.1 hl.2.1 hl.2.2

theorem Run.inv {l : Option (List PMEMoid)} (h : Run m l) : RunInv m l := by
  induction h with
  | empty h => exact h
  | step op _ hl ih => exact runInv_step ih op hl

/-- **The persistent list is the modelled one** after every sequence of operations. -/
theorem run_isList {l : List PMEMoid} (h : Run m (some l)) : IsList m l := (Run.inv h).toIsList

/-- An empty pool, with any content where no node is allocated. -/
def emptyPool (uuid : ℕ) (storage : Dram) : State :=
  ⟨Pmem.settled fun | .root | .rootEnd => ListRoot.zeroed | .node _ => ⟨3, 5⟩, ⟨uuid, true, .at16, ∅, storage⟩⟩

theorem emptyPool_emptyPool (uuid : ℕ) (storage : Dram) : EmptyPool (emptyPool uuid storage) :=
  ⟨rfl, rfl, rfl, rfl⟩

/-- The nodes of the three-node script of the tests. -/
def node (k : ℕ) : PMEMoid := ⟨7, 64 * k⟩

/-- The operations one after the other. -/
def runOps (ops : List Op) (m : State) : State := ops.foldl (fun m op => op.prog.run m) m

theorem run_isList_script :
    IsList (runOps [.construct ⟨0, 0, oidNull, 0⟩ 0 (node 1), .allocNode (node 2), .addNodeToTail (node 2),
      .allocNode (node 3), .addNodeToTail (node 3), .deleteNodeFromList (node 2) (node 3)]
      (emptyPool 7 ⟨0, 0, oidNull, 0⟩)) [node 1, node 2] := by
  refine run_isList (.step _ (.step _ (.step _ (.step _ (.step _ (.step _
    (.empty (emptyPool_emptyPool _ _)) ?_) ?_) ?_) ?_) ?_) ?_)
  · exact ⟨by decide, by decide, by decide⟩
  · exact ⟨by decide, by decide, by decide⟩
  · exact ⟨by decide, by decide⟩
  · exact ⟨by decide, by decide, by decide⟩
  · exact ⟨by decide, by decide⟩
  · exact ⟨by decide, by decide, by decide⟩

/-! ### Closing and reopening -/

/-- The state after the group is closed and a new `Group` is built on the same pool, in
`storage`. -/
def reopen (storage : Dram) (gid : ℤ) (new : Option PMEMoid) (m : State) : State :=
  (construct storage gid new).run (destruct.run m)

/-- The write state of the `Group` object of `m'` is the one `m` was closed with: the tail
node is the one the persistent tail names, and the offset and the count are the same. -/
def WriteStateKept (m m' : State) : Prop :=
  m'.aux.dram.tail = (root m).tail ∧ m'.aux.dram.offset = m.aux.dram.offset ∧
    m'.aux.dram.nodeCount = m.aux.dram.nodeCount

/-- Reopening finds the list the group was closed with. -/
theorem isList_reopen (h : Inv m l) (storage : Dram) (gid : ℤ) (new : Option PMEMoid) :
    IsList (reopen storage gid new m) l := by
  have hrun : reopen storage gid new m = { m with aux := { m.aux with dram := { storage with gid := gid } } } :=
    construct_run_exists h.rootFound h.listExists storage gid new
  rw [hrun]
  exact { h.toIsList with }

/-- **Reopening keeps the list and forgets where to write**: neither the destructor nor
the constructor copies the write state, so it is kept only where the storage of the new
object happens to hold it already. -/
theorem reopen_iff {l : List PMEMoid} (h : Run m (some l)) (storage : Dram) (gid : ℤ) (new : Option PMEMoid) :
    IsList (reopen storage gid new m) l ∧
      (WriteStateKept m (reopen storage gid new m) ↔
        storage.tail = (root m).tail ∧ storage.offset = m.aux.dram.offset ∧
          storage.nodeCount = m.aux.dram.nodeCount) := by
  have hinv : Inv m l := h.inv
  refine ⟨isList_reopen hinv storage gid new, ?_⟩
  have hrun : reopen storage gid new m = { m with aux := { m.aux with dram := { storage with gid := gid } } } :=
    construct_run_exists hinv.rootFound hinv.listExists storage gid new
  rw [hrun]
  rfl

/-- A pool with a list of one node. -/
def onePool : State := (construct ⟨0, 0, oidNull, 0⟩ 0 (some (node 1))).run (emptyPool 7 ⟨0, 0, oidNull, 0⟩)

theorem run_onePool : Run onePool (some [node 1]) :=
  .step (.construct _ 0 (node 1)) (.empty (emptyPool_emptyPool _ _)) ⟨by decide, by decide, by decide⟩

theorem reopen_iff_onePool : ¬ WriteStateKept onePool (reopen ⟨0, 0, node 5, 9⟩ 0 none onePool) := by
  rw [(reopen_iff run_onePool ⟨0, 0, node 5, 9⟩ 0 none).2]
  decide

/-- The write state is not kept where the new object's storage holds something else. -/
theorem not_writeStateKept_reopen :
    ¬ ∀ (m : State) (l : List PMEMoid), Run m (some l) → ∀ (storage : Dram) (gid : ℤ) (new : Option PMEMoid),
      WriteStateKept m (reopen storage gid new m) := by
  intro h
  have hkept := h onePool [node 1] run_onePool ⟨0, 0, node 5, 9⟩ 0 none
  exact absurd hkept.1 (by decide)

end TLevelDB.Group
