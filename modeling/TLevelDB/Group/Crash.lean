import TLevelDB.Group.List

/-!
# Power failure in a group

What is found on reopening when the power fails inside an operation of a group.
A power failure comes at one of the points of the operation's program, and
leaves in each line the content it has there or an earlier one that the medium
may still hold; the allocator's changes are durable when they are made.

An operation is *atomic* at a failure if what is found is the list before it or
the list after it (`Atomic`). The constructor is, if what `check_list_exist` looks
at is in one line: a root object that is only partly written is then taken for
none. Where the root object reaches into a second line, the test may pass while
the first one lacks a part of the tail or of the head. And `add_node_to_tail` and
`delete_node_from_list` write the root and a node's last line with
nothing that orders them, and `delete_node_from_list` frees the node while it is
still linked on the medium. `atomic_iff` says exactly which failures are
survived: those that leave none of the operation's stores on the medium (and, for
a removal, come before the node is freed), and those that leave all of them.
-/

namespace TLevelDB.Group

open PersistentMemory LinkedList

variable {m c : State} {l : List PMEMoid} {n : PMEMoid} {d : ∀ l, Content l}

/-! ### What is found -/

/-- The state found on reopening, when the power fails in state `c` and leaves `d`. -/
def reopened (c : State) (d : ∀ l, Content l) : State := ⟨Pmem.settled d, c.aux⟩

@[simp] theorem next_reopened (c : State) (d : ∀ l, Content l) : next (reopened c d) = fun o => d (.node o) := rfl

@[simp] theorem aux_reopened (c : State) (d : ∀ l, Content l) : (reopened c d).aux = c.aux := rfl

/-- What `check_list_exist` and then following the list from the head find: no list,
or the well-formed list `l`. -/
def Found (m : State) : Option (List PMEMoid) → Prop
  | none => (root m).listExists = false
  | some l => (root m).listExists = true ∧ IsList m l

/-- The operation is atomic when the power fails in `c` and leaves `d`: what is found
is the list before it or the list after it. -/
def Atomic (op : Op) (l : Option (List PMEMoid)) (c : State) (d : ∀ l, Content l) : Prop :=
  Found (reopened c d) l ∨ Found (reopened c d) (op.model l)

/-- None of the operation's stores has reached the medium, and no node that the list
still names has been freed. Of the constructor's stores, none that matters to
`check_list_exist`. -/
def NoneKept (m : State) (c : State) (d : ∀ l, Content l) : Op → Prop
  | .construct _ _ _ => (root (reopened c d)).listExists = (root m).listExists
  | .addNodeToTail _ => root (reopened c d) = root m ∧ d (.node (root m).tail) = next m (root m).tail
  | .deleteNodeFromList prev node =>
    root (reopened c d) = root m ∧ d (.node prev) = node ∧ node ∈ c.aux.allocated
  | _ => True

/-- All of the operation's stores have reached the medium. -/
def AllKept (m : State) (c : State) (d : ∀ l, Content l) : Op → Prop
  | .construct _ gid new => root (reopened c d) = constructedRoot (root m) gid new
  | .addNodeToTail node =>
    root (reopened c d) = { root m with tail := node, nodeCount := (root m).nodeCount + 1 } ∧
      d (.node (root m).tail) = node
  | .deleteNodeFromList prev node =>
    root (reopened c d) = deletedRoot (root m) prev node ∧ d (.node prev) = next m node
  | _ => True

/-! ### What the medium may hold -/

/-- The root object's lines are as before or hold parts of `roots`, the `next` of `t` is as
before or `v`, and every other `next` is as before. -/
def nodeContents (m : State) (t v : PMEMoid) (roots : Set ListRoot) : ∀ l, Set (Content l)
  | .root => insert (m.pm.mem .root) roots
  | .rootEnd => insert (m.pm.mem .rootEnd) roots
  | .node o => if o = t then {next m t, v} else {next m o}

theorem within_of_settled (h : m.pm.Settled) (t v : PMEMoid) (roots : Set ListRoot) {Q : Set Aux} (haux : m.aux ∈ Q) :
    m.Within (nodeContents m t v roots) Q := by
  rw [show m = ⟨Pmem.settled m.pm.mem, m.aux⟩ from Machine.ext h rfl]
  refine Machine.within_settled (fun l => ?_) haux
  cases l with
  | root => exact Set.mem_insert _ _
  | rootEnd => exact Set.mem_insert _ _
  | node o =>
    simp only [nodeContents]
    split_ifs with ho
    · subst ho; exact Or.inl rfl
    · rfl

/-- What the medium holds where only the root object and one `next` have been written: each line
of the root object has its part of one of `roots`. -/
theorem image_of_within {t v : PMEMoid} {roots : Set ListRoot} {Q : Set Aux}
    (hw : c.Within (nodeContents m t v roots) Q) (hroot : root m ∈ roots) (hQ : ∀ a ∈ Q, a.placement = m.aux.placement)
    (hd : c.pm.Image d) :
    (∃ r ∈ roots, ∃ r' ∈ roots, root (reopened c d) = m.aux.placement.join r r') ∧
      ((fun o => d (.node o)) = next m ∨ (fun o => d (.node o)) = Function.update (next m) t v) := by
  constructor
  · rw [show root (reopened c d) = m.aux.placement.join (d .root) (d .rootEnd) by rw [← hQ _ hw.aux]; rfl]
    obtain ⟨r, hr, heq⟩ : ∃ r ∈ roots, ∀ x, m.aux.placement.join (d .root) x = m.aux.placement.join r x := by
      rcases hw.image hd .root with h | h
      · exact ⟨root m, hroot, fun x => by rw [h, root, Placement.join_join_left]⟩
      · exact ⟨_, h, fun _ => rfl⟩
    obtain ⟨r', hr', heq'⟩ : ∃ r' ∈ roots, ∀ x, m.aux.placement.join x (d .rootEnd) = m.aux.placement.join x r' := by
      rcases hw.image hd .rootEnd with h | h
      · exact ⟨root m, hroot, fun x => by rw [h, root, Placement.join_join_right]⟩
      · exact ⟨_, h, fun _ => rfl⟩
    exact ⟨r, hr, r', hr', by rw [heq, heq']⟩
  have ho : ∀ o, o ≠ t → d (.node o) = next m o := fun o ho => by
    simpa [nodeContents, ho] using hw.image hd (.node o)
  have ht : d (.node t) = next m t ∨ d (.node t) = v := by simpa [nodeContents] using hw.image hd (.node t)
  rcases ht with ht | ht
  · refine Or.inl (funext fun o => ?_)
    by_cases hot : o = t
    · subst hot; exact ht
    · exact ho o hot
  · refine Or.inr (funext fun o => ?_)
    by_cases hot : o = t
    · subst hot; simpa using ht
    · simpa [hot] using ho o hot

/-- Whether there is a list depends on the root object, the `next`s and the allocated
nodes alone. -/
theorem IsList.congr {m' : State} (h : IsList m l) (hr : root m' = root m)
    (hn : next m' = next m) (ha : ∀ n ∈ l, n ∈ m'.aux.allocated) : IsList m' l where
  chain := by rw [hr, hn]; exact h.chain
  nodup := h.nodup
  allocated := ha
  last := by rw [hr]; exact h.last
  next_tail := by rw [hr, hn]; exact h.next_tail
  count := by rw [hr]; exact h.count
  pos := by rw [hr]; exact h.pos

/-- What a root object has beside the tail and the count. -/
def ListRoot.rest (r : ListRoot) : PMEMoid × ℤ × PMEMoid := (r.writeFront, r.gid, r.head)

theorem rest_join {r r' : ListRoot} {x : PMEMoid × ℤ × PMEMoid} (p : Placement) (h : r.rest = x) (h' : r'.rest = x) :
    (p.join r r').rest = x := by
  subst h
  simp only [ListRoot.rest, Prod.mk.injEq] at h'
  cases p <;> simp [Placement.join, ListRoot.rest, h']

/-- The tail and the count are told by the list. -/
theorem IsList.root_eq {m' : State} (h : IsList m l) (h' : IsList m' l) (hrest : (root m).rest = (root m').rest) :
    root m = root m' := by
  have htail : (root m).tail = (root m').tail := Option.some.inj (h.last.symm.trans h'.last)
  have hcount : (root m).nodeCount = (root m').nodeCount := h.count.trans h'.count.symm
  generalize root m = r at *
  generalize root m' = r' at *
  cases r
  cases r'
  simp_all [ListRoot.rest]

/-- The list is told by the head and the `next`s. -/
theorem IsList.unique {m' : State} {l' : List PMEMoid} (h : IsList m l) (h' : IsList m' l')
    (hrest : (root m).rest = (root m').rest) (hnext : next m = next m') : l = l' := by
  have hhead : (root m).head = (root m').head := congrArg (fun r => r.2.2) hrest
  have hchain := h.chain
  rw [hhead, hnext] at hchain
  exact hchain.unique h'.chain

/-- An operation writes the `next` of `t` and the root object, and makes `l'` of the list. Of the
two lists that one is found of which both are on the medium. -/
theorem found_iff {m' : State} {l' : List PMEMoid} {t v : PMEMoid} (h : Inv m l) (h' : Inv m' l')
    (hnext' : next m' = Function.update (next m) t v) (hrest' : (root m').rest = (root m).rest)
    (hrest : (root (reopened c d)).rest = (root m).rest) (hne : l ≠ l') (hv : next m t ≠ v)
    (hnext : (fun o => d (.node o)) = next m ∨ (fun o => d (.node o)) = Function.update (next m) t v)
    (halloc : ∀ x ∈ l', x ∈ c.aux.allocated) :
    Found (reopened c d) (some l) ∨ Found (reopened c d) (some l') ↔
      (root (reopened c d) = root m ∧ d (.node t) = next m t ∧ ∀ x ∈ l, x ∈ c.aux.allocated) ∨
        root (reopened c d) = root m' ∧ d (.node t) = v := by
  have hrest'' : (root (reopened c d)).rest = (root m').rest := hrest.trans hrest'.symm
  rcases hnext with hnext | hnext
  · -- the `next` has not been written
    have ht : d (.node t) = next m t := congrFun hnext t
    simp only [ht, hv, and_false, or_false, true_and]
    constructor
    · rintro (⟨-, hf⟩ | ⟨-, hf⟩)
      · exact ⟨hf.root_eq h.toIsList hrest, hf.allocated⟩
      · exact absurd (hf.unique h.toIsList hrest hnext).symm hne
    · rintro ⟨hr, hl⟩
      exact Or.inl ⟨by rw [hr]; exact h.listExists, h.toIsList.congr hr hnext hl⟩
  · have ht : d (.node t) = v := by simpa using congrFun hnext t
    simp only [ht, hv.symm, false_and, and_false, false_or, and_true]
    constructor
    · rintro (⟨-, hf⟩ | ⟨-, hf⟩)
      · exact absurd (hf.unique h'.toIsList hrest'' (hnext.trans hnext'.symm)) hne
      · exact hf.root_eq h'.toIsList hrest''
    · intro hr
      exact Or.inr ⟨by rw [hr]; exact h'.listExists, h'.toIsList.congr hr (hnext.trans hnext'.symm) halloc⟩

/-! ### Appending -/

/-- The root objects that `add_node_to_tail` stores: with the new tail, then also with
the new count. -/
def addedRoots (r : ListRoot) (n : PMEMoid) : Set ListRoot :=
  {r, { r with tail := n }, { r with tail := n, nodeCount := r.nodeCount + 1 }}

theorem addNodeToTail_within (hr : m.aux.rootFound = true) (n : PMEMoid) :
    (addNodeToTail n).Within (nodeContents m (root m).tail n (addedRoots (root m) n)) {m.aux} m := by
  unfold addNodeToTail pmemobjRoot assignRoot loadRoot flushRoot
  simp [Prog.Within, hr, nodeContents, addedRoots]

theorem atomic_addNodeToTail_iff (h : Inv m l) (ha : n ∈ m.aux.allocated) (hn : n ∉ l)
    (hc : c ∈ (addNodeToTail n).points m) (hd : c.pm.Image d) :
    Atomic (.addNodeToTail n) (some l) c d ↔
      NoneKept m c d (.addNodeToTail n) ∨ AllKept m c d (.addNodeToTail n) := by
  have hw := Prog.within_points (addNodeToTail_within h.rootFound n) (within_of_settled h.settled _ _ _ rfl) c hc
  obtain ⟨⟨r, hr, r', hr', hjoin⟩, hnext⟩ := image_of_within hw (Or.inl rfl) (by simp) hd
  have haux : c.aux = m.aux := hw.aux
  have hnull : next m (root m).tail ≠ n := by
    rw [h.next_tail]
    exact fun e => (h.ofPool n ha).1 (e ▸ rfl)
  have hadd := inv_addNodeToTail h ha hn
  rw [addNodeToTail_run h.settled h.rootFound n] at hadd
  have hrest : ∀ r ∈ addedRoots (root m) n, r.rest = (root m).rest := by rintro r (rfl | rfl | rfl) <;> rfl
  have hroots : (root (reopened c d)).rest = (root m).rest := hjoin ▸ rest_join _ (hrest r hr) (hrest r' hr')
  have hiff := found_iff h hadd (next_written _ _ _ _) (by rw [root_written]; rfl) hroots (by simp) hnull hnext
    (haux ▸ hadd.allocated)
  rw [root_written] at hiff
  refine hiff.trans (or_congr_left ⟨fun hk => ⟨hk.1, hk.2.1⟩, fun hk => ⟨hk.1, hk.2, haux ▸ h.allocated⟩⟩)

/-- Every append can be torn: where the power fails before the drain, the root's line
may have reached the medium and the old tail's not, and then the new tail cannot be
reached from the head. -/
theorem addNodeToTail_torn (h : Inv m l) (ha : n ∈ m.aux.allocated) (hn : n ∉ l) :
    ∃ c ∈ (addNodeToTail n).points m, ∃ d, c.pm.Image d ∧ ¬ Atomic (.addNodeToTail n) (some l) c d := by
  let r : ListRoot := { root m with tail := n, nodeCount := (root m).nodeCount + 1 }
  let r₁ : ListRoot := { root m with tail := n }
  let c : State := { m with
    pm := ((((m.pm.store (.node (root m).tail) n).store .root r₁).store .rootEnd r₁).store .root r).store .rootEnd r }
  let d : ∀ l, Content l := Function.update (Function.update m.pm.mem .root r) .rootEnd r
  have hc : c ∈ (addNodeToTail n).points m := by
    unfold addNodeToTail pmemobjRoot assignRoot loadRoot flushRoot
    simp [Prog.points, h.rootFound, c, r, r₁]
  have hroot : root (reopened c d) = r := by simp [root, reopened, d, Pmem.settled, -join_mem]
  have hd : c.pm.Image d := by
    intro o
    cases o with
    | root => exact Or.inl (by simp [c, d])
    | rootEnd => exact Or.inl (by simp [c, d])
    | node o =>
      by_cases ho : o = (root m).tail
      · right; subst ho; simp [c, d, Pmem.store]
      · left; simp [c, d, ho]
  refine ⟨c, hc, d, hd, ?_⟩
  rw [atomic_addNodeToTail_iff h ha hn hc hd]
  rintro (⟨hr, -⟩ | ⟨-, hnext⟩)
  · have hcount : (root m).nodeCount + 1 = (root m).nodeCount := congrArg ListRoot.nodeCount (hroot.symm.trans hr)
    omega
  · have hnext : next m (root m).tail = n := by simpa [d, next] using hnext
    rw [h.next_tail] at hnext
    exact (h.ofPool n ha).1 (hnext ▸ rfl)

/-! ### Removing -/

/-- The root objects that `delete_node_from_list` stores: with the new count, then also
with the new tail. -/
def removedRoots (r : ListRoot) (p n : PMEMoid) : Set ListRoot :=
  {r, { r with nodeCount := r.nodeCount - 1 }, deletedRoot r p n}

theorem deleteNodeFromList_within (hr : m.aux.rootFound = true) (p n : PMEMoid) :
    (deleteNodeFromList p n).Within (nodeContents m p (next m n) (removedRoots (root m) p n))
      {a | a.placement = m.aux.placement ∧
        (a.allocated = m.aux.allocated ∨ a.allocated = m.aux.allocated.erase n)} m := by
  unfold deleteNodeFromList pmemobjRoot assignRoot loadRoot flushRoot freeNode assignDram
  simp only [Prog.Within, hr, if_true]
  split_ifs with ht
  · have ht' : n.off = (root m).tail.off := by simpa using ht
    simp [Prog.Within, nodeContents, removedRoots, next, deletedRoot, ht']
  · have ht' : n.off ≠ (root m).tail.off := by simpa using ht
    simp [Prog.Within, nodeContents, removedRoots, next]

theorem atomic_deleteNodeFromList_iff {p : PMEMoid} (h : Inv m l) (hp : p ∈ l) (hpn : next m p = n) (hn : ¬ n.IsNull)
    (hc : c ∈ (deleteNodeFromList p n).points m) (hd : c.pm.Image d) :
    Atomic (.deleteNodeFromList p n) (some l) c d ↔
      NoneKept m c d (.deleteNodeFromList p n) ∨ AllKept m c d (.deleteNodeFromList p n) := by
  have hw := Prog.within_points (deleteNodeFromList_within h.rootFound p n)
    (within_of_settled h.settled _ _ _ ⟨rfl, Or.inl rfl⟩) c hc
  obtain ⟨⟨r, hr, r', hr', hjoin⟩, hnext⟩ := image_of_within hw (Or.inl rfl) (fun _ ha => ha.1) hd
  have hdel := inv_deleteNodeFromList h hp hpn hn
  have hnl : n ∈ l := by
    obtain ⟨xs, ys, hl⟩ := h.chain.exists_split hp (hpn ▸ hn)
    rw [hl, hpn]
    simp
  rw [deleteNodeFromList_run h.settled h.rootFound] at hdel
  have hrests : ∀ r ∈ removedRoots (root m) p n, r.rest = (root m).rest := by rintro r (rfl | rfl | rfl) <;> rfl
  have hroots : (root (reopened c d)).rest = (root m).rest := hjoin ▸ rest_join _ (hrests r hr) (hrests r' hr')
  have hrest : ∀ x ∈ l.erase n, x ∈ c.aux.allocated := by
    intro x hx
    have hxa : x ∈ m.aux.allocated.erase n := hdel.allocated x hx
    rcases hw.aux.2 with ha | ha
    · rw [ha]
      exact Finset.mem_of_mem_erase hxa
    · rwa [ha]
  have hiff := found_iff h hdel (next_written _ _ _ _) (by rw [root_written]; rfl) hroots
    (fun e => h.nodup.not_mem_erase (e ▸ hnl)) (hpn ▸ (h.chain.next_ne h.nodup hnl).symm) hnext hrest
  rw [root_written, hpn] at hiff
  refine hiff.trans (or_congr_left (and_congr_right' (and_congr_right' ⟨fun hall => hall n hnl, fun hfree x hx => ?_⟩)))
  by_cases hxn : x = n
  · exact hxn ▸ hfree
  · exact hrest x ((List.mem_erase_of_ne hxn).mpr hx)

/-! ### The other operations -/

/-- The root objects that the constructor stores before it allocates the node. -/
def earlyRoots (r : ListRoot) (gid : ℤ) : Set ListRoot := {r, { r with gid := gid }, { r with gid := gid, nodeCount := 1 }}

/-- All root objects that the constructor stores. -/
def constructRoots (r : ListRoot) (gid : ℤ) (n : PMEMoid) : Set ListRoot :=
  earlyRoots r gid ∪ {{ r with gid := gid, nodeCount := 1, head := n }, constructedRoot r gid n}

/-- As long as the head or the tail is null, `check_list_exist` finds no list. -/
theorem not_listExists_early {r r' : ListRoot} {gid : ℤ} (p : Placement) (hr : r ∈ earlyRoots .zeroed gid)
    (hr' : r' ∈ earlyRoots .zeroed gid) : (p.join r r').listExists = false := by
  rcases hr with rfl | rfl | rfl <;> rcases hr' with rfl | rfl | rfl <;> cases p <;>
    simp [Placement.join, ListRoot.listExists, ListRoot.zeroed, oidNull]

/-- A list is found only where the parts of the two lines are late enough. -/
theorem join_of_listExists {r r' : ListRoot} {gid : ℤ} {n : PMEMoid} {p : Placement}
    (hr : r ∈ constructRoots .zeroed gid n) (hr' : r' ∈ constructRoots .zeroed gid n)
    (he : (p.join r r').listExists = true) :
    (p.join r r').writeFront = oidNull ∧ (p.join r r').gid = gid ∧
      (p = .at0 ∨ p = .at48 → p.join r r' = constructedRoot .zeroed gid n) := by
  rcases hr with (rfl | rfl | rfl) | rfl | rfl <;> rcases hr' with (rfl | rfl | rfl) | rfl | rfl <;> cases p <;>
    simp [Placement.join, ListRoot.listExists, ListRoot.zeroed, oidNull, constructedRoot] at he ⊢

theorem assignRoot_points (f : ListRoot → ListRoot) (k : GroupProg) : (assignRoot f k).points m =
    m :: { m with pm := m.pm.store .root (f (root m)) } ::
      k.points { m with pm := (m.pm.store .root (f (root m))).store .rootEnd (f (root m)) } := rfl

theorem root_stored (p : Pmem Content) (r : ListRoot) (a : Aux) : root ⟨(p.store .root r).store .rootEnd r, a⟩ = r := by
  simp [root, -join_mem]

theorem linkFirst_within {m' : State} {Q : Set Aux} {gid : ℤ} {t v : PMEMoid}
    (hroot : root m = { ListRoot.zeroed with gid := gid, nodeCount := 1 }) (hQ : ∀ a ∈ Q, ∀ d, { a with dram := d } ∈ Q)
    (haux : m.aux ∈ Q) : (linkFirst gid n).Within (nodeContents m' t v (constructRoots .zeroed gid n)) Q m := by
  unfold linkFirst assignRoot loadRoot flushRoot assignDram
  simp [Prog.Within, hroot, nodeContents, constructRoots, constructedRoot, hQ, haux]

/-- What may be found at a point of the constructor: no list, or a list after the node has been
allocated. -/
theorem construct_points (h : EmptyPool m) (storage : Dram) (gid : ℤ) (n : PMEMoid)
    (hc : c ∈ (construct storage gid (some n)).points m) (hd : c.pm.Image d) :
    (root (reopened c d)).listExists = false ∨
      (∃ r ∈ constructRoots .zeroed gid n, ∃ r' ∈ constructRoots .zeroed gid n,
        root (reopened c d) = m.aux.placement.join r r') ∧ d (.node n) = oidNull ∧ n ∈ c.aux.allocated := by
  let Q : Set Aux := {a | a.placement = m.aux.placement}
  let W := nodeContents m n oidNull (earlyRoots .zeroed gid)
  have hearly : c.Within W Q → (root (reopened c d)).listExists = false := by
    intro hw
    obtain ⟨⟨r, hr, r', hr', hjoin⟩, -⟩ := image_of_within hw (Or.inl h.zeroed) (fun _ ha => ha) hd
    rw [hjoin, not_listExists_early _ hr hr']
  -- the root objects up to the allocation, and the states there
  let r₁ : ListRoot := { root m with gid := gid }
  let r₂ : ListRoot := { root m with gid := gid, nodeCount := 1 }
  have hr₁ : r₁ ∈ earlyRoots .zeroed gid := Or.inr (Or.inl (by rw [← h.zeroed]))
  have hr₂ : r₂ ∈ earlyRoots .zeroed gid := Or.inr (Or.inr (by rw [← h.zeroed]; rfl))
  have h₀ : m.Within W Q := within_of_settled h.settled _ _ _ rfl
  have h₁ : ∀ a ∈ Q, Machine.Within W Q ⟨m.pm, a⟩ := fun a ha => { h₀ with aux := ha }
  have h₂ : ∀ a ∈ Q, Machine.Within W Q ⟨m.pm.store .root r₁, a⟩ := fun a ha => (h₁ a ha).store (Or.inr hr₁)
  have h₃ : ∀ a ∈ Q, Machine.Within W Q ⟨(m.pm.store .root r₁).store .rootEnd r₁, a⟩ :=
    fun a ha => (h₂ a ha).store (Or.inr hr₁)
  have h₄ : ∀ a ∈ Q, Machine.Within W Q ⟨((m.pm.store .root r₁).store .rootEnd r₁).store .root r₂, a⟩ :=
    fun a ha => (h₃ a ha).store (Or.inr hr₂)
  let p : Pmem Content := (((m.pm.store .root r₁).store .rootEnd r₁).store .root r₂).store .rootEnd r₂
  have h₅ : ∀ a ∈ Q, Machine.Within W Q ⟨p, a⟩ := fun a ha => (h₄ a ha).store (Or.inr hr₂)
  have h₆ : ∀ a ∈ Q, Machine.Within W Q ⟨p.persist (.node n) oidNull, a⟩ :=
    fun a ha => (h₅ a ha).persist (by simp [W, nodeContents]) fun _ _ => subset_rfl
  -- from the allocation on, the node's `next` is null
  let m' : State := ⟨Pmem.settled (Function.update m.pm.mem (.node n) oidNull), m.aux⟩
  let W' := nodeContents m' n oidNull (constructRoots .zeroed gid n)
  let Q' : Set Aux := {a | a ∈ Q ∧ n ∈ a.allocated}
  have hW : ∀ k, k ≠ .node n → W k ⊆ W' k := by
    intro k hk
    cases k with
    | root => exact Set.insert_subset_insert Set.subset_union_left
    | rootEnd => exact Set.insert_subset_insert Set.subset_union_left
    | node o =>
      have ho : o ≠ n := fun e => hk (e ▸ rfl)
      simp [W, W', nodeContents, ho, next, m', Pmem.settled]
  have h₇ : ∀ a ∈ Q', Machine.Within W' Q' ⟨p.persist (.node n) oidNull, a⟩ := by
    intro a ha
    have hset : Machine.Within W' Q ⟨p.persist (.node n) oidNull, a⟩ :=
      (h₅ a ha.1).persist (by simp [W', nodeContents]) hW
    exact { hset with aux := ha }
  have hlate : c.Within W' Q' → (∃ r ∈ constructRoots .zeroed gid n, ∃ r' ∈ constructRoots .zeroed gid n,
      root (reopened c d) = m.aux.placement.join r r') ∧ d (.node n) = oidNull ∧ n ∈ c.aux.allocated := by
    intro hw
    obtain ⟨hroots, hnext⟩ := image_of_within (m := m') hw (Or.inl (Or.inl h.zeroed)) (fun _ ha => ha.1) hd
    refine ⟨hroots, ?_, hw.aux.2⟩
    rcases hnext with hnext | hnext
    · simpa [next, m', Pmem.settled] using congrFun hnext n
    · simpa using congrFun hnext n
  unfold construct checkListExist pmemobjRoot assignDram loadRoot at hc
  simp only [Prog.points, h.rootFound, if_true, join_mem, h.not_listExists, Bool.false_eq_true, if_false] at hc
  rw [assignRoot_points, assignRoot_points] at hc
  simp only [root_stored, allocNode, assignDram, Prog.points, List.mem_cons] at hc
  rcases hc with rfl | rfl | rfl | rfl | rfl | rfl | rfl | rfl | hc
  · exact Or.inl (hearly h₀)
  · exact Or.inl (hearly (h₁ _ rfl))
  · exact Or.inl (hearly (h₂ _ rfl))
  · exact Or.inl (hearly (h₃ _ rfl))
  · exact Or.inl (hearly (h₄ _ rfl))
  · exact Or.inl (hearly (h₅ _ rfl))
  · exact Or.inl (hearly (h₆ _ rfl))
  · exact Or.inr (hlate (h₇ _ ⟨rfl, Finset.mem_insert_self _ _⟩))
  · refine Or.inr (hlate (Prog.within_points (linkFirst_within ?_ (fun a ha d => ha) ?_) ?_ c hc))
    · exact (root_stored ((m.pm.store .root r₁).store .rootEnd r₁) r₂ m.aux).trans (by rw [← h.zeroed])
    · exact ⟨rfl, Finset.mem_insert_self _ _⟩
    · exact h₇ _ ⟨rfl, Finset.mem_insert_self _ _⟩

theorem atomic_construct_iff (h : EmptyPool m) (hn : Fresh m n) (storage : Dram) (gid : ℤ)
    (hc : c ∈ (construct storage gid (some n)).points m) (hd : c.pm.Image d) :
    (Atomic (.construct storage gid n) none c d ↔
      NoneKept m c d (.construct storage gid n) ∨ AllKept m c d (.construct storage gid n)) ∧
      (m.aux.placement = .at0 ∨ m.aux.placement = .at48 → Atomic (.construct storage gid n) none c d) := by
  have hoff : n.off ≠ 0 := hn.2.1
  have hz := h.zeroed
  rcases construct_points h storage gid n hc hd with hnone | ⟨⟨r, hr, r', hr', hjoin⟩, hnext, hna⟩
  · exact ⟨iff_of_true (Or.inl hnone) (Or.inl (hnone.trans h.not_listExists.symm)), fun _ => Or.inl hnone⟩
  have hfound : AllKept m c d (.construct storage gid n) → Found (reopened c d) (some [n]) := by
    intro hall
    have hall : root (reopened c d) = constructedRoot (root m) gid n := hall
    refine ⟨by simp [hall, constructedRoot, ListRoot.listExists, hoff, hoff.symm], ?_⟩
    constructor <;> simp [hall, hnext, hna, constructedRoot, hoff, PMEMoid.IsNull, oidNull]
  cases he : (root (reopened c d)).listExists with
  | false => exact ⟨iff_of_true (Or.inl he) (Or.inl (he.trans h.not_listExists.symm)), fun _ => Or.inl he⟩
  | true =>
    obtain ⟨hfront, hgid, hline⟩ := join_of_listExists hr hr' (hjoin ▸ he)
    rw [← hjoin] at hfront hgid hline
    refine ⟨⟨?_, ?_⟩, fun hp => Or.inr (hfound ?_)⟩
    · rintro (hf | ⟨-, hf⟩)
      · exact absurd (he.symm.trans hf) (by decide)
      · have hhead : (root (reopened c d)).head = n := hf.chain.1
        have htail : n = (root (reopened c d)).tail := Option.some.inj hf.last
        have hcount : (root (reopened c d)).nodeCount = 1 := hf.count
        refine Or.inr (show root (reopened c d) = _ from ?_)
        generalize root (reopened c d) = r at *
        cases r
        simp_all [constructedRoot, ListRoot.zeroed]
    · rintro (hnone | hall)
      · exact absurd (he.symm.trans (hnone.trans h.not_listExists)) (by decide)
      · exact Or.inr (hfound hall)
    · show root (reopened c d) = _
      rw [hline hp, hz]

/-- Where the medium is settled, what is found is what there is. -/
theorem found_of_settled (hs : c.pm.Settled) (hd : c.pm.Image d)
    (he : (root c).listExists = true) (h : IsList c l) : Found (reopened c d) (some l) := by
  have hd' : d = c.pm.mem := hs.image hd
  subst hd'
  exact ⟨he, h.congr rfl rfl h.allocated⟩

theorem atomic_allocNode (h : Inv m l) (hn : Fresh m n)
    (hc : c ∈ (allocNode (some n) fun _ => .done).points m) (hd : c.pm.Image d) :
    Atomic (.allocNode n) (some l) c d := by
  have hl := inv_allocNode h hn
  rw [allocNode_run h.settled] at hl
  have hp : m.pm.persist (.node n) oidNull = Pmem.settled (Function.update m.pm.mem (.node n) oidNull) :=
    h.settled.persist _ _
  have hnl : n ∉ l := fun hx => hn.1 (h.allocated n hx)
  simp only [allocNode, assignDram, Prog.points, List.mem_cons, List.not_mem_nil, or_false, hp] at hc
  left
  rcases hc with rfl | rfl | rfl | rfl
  · exact found_of_settled h.settled hd h.listExists h.toIsList
  · -- the node has been written and is not allocated yet
    refine found_of_settled rfl hd hl.listExists (hl.toIsList.congr rfl rfl fun x hx => ?_)
    exact h.allocated x hx
  · exact found_of_settled rfl hd hl.listExists (hl.toIsList.congr rfl rfl hl.allocated)
  · exact found_of_settled rfl hd hl.listExists hl.toIsList

theorem atomic_freeNode (h : Inv m l) (hn : n ∉ l) (hc : c ∈ (freeNode n .done).points m) (hd : c.pm.Image d) :
    Atomic (.freeNode n) (some l) c d := by
  have hl := inv_freeNode h hn
  simp only [freeNode, assignDram, Prog.points, List.mem_cons, List.not_mem_nil, or_false] at hc
  left
  rcases hc with rfl | rfl | rfl
  · exact found_of_settled h.settled hd h.listExists h.toIsList
  · exact found_of_settled h.settled hd h.listExists (hl.toIsList.congr rfl rfl hl.allocated)
  · exact found_of_settled h.settled hd h.listExists (hl.toIsList.congr rfl rfl hl.allocated)

theorem atomic_construct_exists (h : Inv m l) (storage : Dram) (gid : ℤ) (n : PMEMoid)
    (hc : c ∈ (construct storage gid (some n)).points m) (hd : c.pm.Image d) :
    Atomic (.construct storage gid n) (some l) c d ∧ NoneKept m c d (.construct storage gid n) := by
  unfold construct checkListExist pmemobjRoot loadRoot assignDram at hc
  simp only [Prog.points, h.rootFound, if_true, join_mem, h.listExists, List.mem_cons, List.not_mem_nil, or_false] at hc
  have hfound : Found (reopened c d) (some l) := by
    rcases hc with rfl | rfl
    · exact found_of_settled h.settled hd h.listExists h.toIsList
    · exact found_of_settled h.settled hd h.listExists (h.toIsList.congr rfl rfl h.allocated)
  exact ⟨Or.inl hfound, hfound.1.trans h.listExists.symm⟩

/-! ### Which failures are survived -/

/-- **Which power failures an operation survives**: `alloc_node` and `free_node` survive all
of them, the others those that leave none of their stores on the medium (a removed node
being still allocated) or all of them. The constructor survives all of them if the root
object lies so that the count and the offsets of head and tail are in one line. -/
theorem atomic_iff {l : Option (List PMEMoid)} (h : Run m l) (op : Op) (hl : op.Legal m l) {c : State}
    (hc : c ∈ op.prog.points m) {d : ∀ l, Content l} (hd : c.pm.Image d) :
    (Atomic op l c d ↔ NoneKept m c d op ∨ AllKept m c d op) ∧
      ((m.aux.placement = .at0 ∨ m.aux.placement = .at48) → (∃ storage gid new, op = .construct storage gid new) →
        Atomic op l c d) := by
  have hinv := h.inv
  cases l with
  | none =>
    cases op with
    | construct storage gid new =>
      have hiff := atomic_construct_iff hinv hl storage gid hc hd
      exact ⟨hiff.1, fun hp _ => hiff.2 hp⟩
    | _ => exact hl.elim
  | some l =>
    have hinv : Inv m l := hinv
    cases op with
    | construct storage gid new =>
      obtain ⟨hatomic, hnone⟩ := atomic_construct_exists hinv storage gid new hc hd
      exact ⟨iff_of_true hatomic (Or.inl hnone), fun _ _ => hatomic⟩
    | destruct =>
      obtain rfl : c = m := by simpa [Op.prog, destruct, Prog.points] using hc
      exact ⟨iff_of_true (Or.inl (found_of_settled hinv.settled hd hinv.listExists hinv.toIsList)) (Or.inl trivial),
        by simp⟩
    | allocNode new => exact ⟨iff_of_true (atomic_allocNode hinv hl hc hd) (Or.inl trivial), by simp⟩
    | freeNode node => exact ⟨iff_of_true (atomic_freeNode hinv hl.2 hc hd) (Or.inl trivial), by simp⟩
    | addNodeToTail node => exact ⟨atomic_addNodeToTail_iff hinv hl.1 hl.2 hc hd, by simp⟩
    | deleteNodeFromList prev node => exact ⟨atomic_deleteNodeFromList_iff hinv hl.1 hl.2.1 hl.2.2 hc hd, by simp⟩

/-- The list of one node with a second one allocated, in a pool of identifier 7. -/
def oneNode : State :=
  runOps [.construct ⟨0, 0, oidNull, 0⟩ 0 (node 1), .allocNode (node 2)] (emptyPool 7 ⟨0, 0, oidNull, 0⟩)

theorem run_oneNode : Run oneNode (some [node 1]) :=
  .step (.allocNode (node 2))
    (.step (.construct _ 0 (node 1)) (.empty (emptyPool_emptyPool _ _)) ⟨by decide, by decide, by decide⟩)
    ⟨by decide, by decide, by decide⟩

/-- The power fails before the drain of `add_node_to_tail`, and only the root's line
has reached the medium. -/
theorem not_atomic_addNodeToTail :
    ¬ ∀ (m : State) (l : Option (List PMEMoid)) (op : Op), Run m l → op.Legal m l → ∀ c ∈ op.prog.points m,
      ∀ d, c.pm.Image d → Atomic op l c d := by
  intro h
  obtain ⟨c, hc, d, hd, hn⟩ := addNodeToTail_torn run_oneNode.inv (n := node 2) (by decide) (by decide)
  exact hn (h oneNode _ (.addNodeToTail (node 2)) run_oneNode ⟨by decide, by decide⟩ c hc d hd)

theorem atomic_iff_drained :
    Atomic (.addNodeToTail (node 2)) (some [node 1]) ((addNodeToTail (node 2)).run oneNode)
      ((addNodeToTail (node 2)).run oneNode).pm.mem := by
  refine (atomic_iff run_oneNode (.addNodeToTail (node 2)) ⟨by decide, by decide⟩ (Prog.run_mem_points _ _)
    fun _ => Or.inl rfl).1.mpr (Or.inr ⟨?_, ?_⟩)
  · decide
  · decide

end TLevelDB.Group
