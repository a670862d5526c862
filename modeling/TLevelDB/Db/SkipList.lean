import TLevelDB.Lib.LinkedList
import TLevelDB.Lib.Levels
import TLevelDB.Lib.SortedSearch
import Mathlib.Order.Compare
import Mathlib.Data.List.Perm.Subperm

/-!
# The skip list of a memtable

`SkipList` is the template of `db/skiplist.h`. A node is an address of the arena; the head is
the first one. A node has as many links as it is high, and reading or storing a link that it
does not have is a fault (`none`), as is a search that does not come to an end.

Readers do not lock: they may run between any two stores of an `Insert`. `Insertion` has the
local variables of an `Insert`, and each of its steps makes one store. `Reaches` are the
states in which readers can find the list.
-/

namespace TLevelDB.Db

open LinkedList Levels

namespace SkipList

def kMaxHeight : ℕ := 12

end SkipList

structure SkipList.Node (K : Type) where
  key : K
  /-- The node that `next_[n]` points to; as many as the node is high. -/
  next : List (Option ℕ)
  deriving DecidableEq

structure SkipList (K : Type) where
  /-- The nodes of the arena. -/
  nodes : List (SkipList.Node K)
  maxHeight : ℕ
  deriving DecidableEq

namespace SkipList

variable {K : Type}

def head : ℕ := 0

/-- The constructor; any key will do for the head. -/
def create (anyKey : K) : SkipList K := ⟨[⟨anyKey, List.replicate kMaxHeight none⟩], 1⟩

/-- `Next` and `NoBarrier_Next`. -/
def next (s : SkipList K) (x n : ℕ) : Option (Option ℕ) := s.nodes[x]?.bind fun node => node.next[n]?

def key (s : SkipList K) (x : ℕ) : Option K := s.nodes[x]?.map Node.key

/-- `SetNext` and `NoBarrier_SetNext`. -/
def setNext (s : SkipList K) (x n : ℕ) (y : Option ℕ) : Option (SkipList K) :=
  if (s.next x n).isSome then
    some { s with nodes := s.nodes.modify x fun node => { node with next := node.next.set n y } }
  else none

/-! ### Searching -/

/-- The loop of the three searches: along a level while the next node is to be passed, and then
down. The result is the node at which it stops, the next one, and the node at which it left
each level. -/
def searchLoop (s : SkipList K) (passes : K → Bool) : ℕ → ℕ → ℕ → (ℕ → ℕ) → Option (ℕ × Option ℕ × (ℕ → ℕ))
  | 0, _, _, _ => none
  | fuel + 1, x, level, prev => do
    let next ← s.next x level
    let passed ← match next with
      | none => some false
      | some y => (s.key y).map passes
    if passed then s.searchLoop passes fuel (next.getD head) level prev
    else
      let prev := Function.update prev level x
      if level = 0 then some (x, next, prev) else s.searchLoop passes fuel x (level - 1) prev

/-- From the head and the highest level on. -/
def search (s : SkipList K) (passes : K → Bool) (prev : ℕ → ℕ) : Option (ℕ × Option ℕ × (ℕ → ℕ)) :=
  s.searchLoop passes (s.nodes.length + s.maxHeight) head (s.maxHeight - 1) prev

variable (cmp : K → K → Ordering)

/-- `KeyIsAfterNode`, for a node with this key. -/
def keyIsAfterNode (key : K) (nodeKey : K) : Bool := cmp nodeKey key = .lt

/-- The first node that is not before `key`, and what is stored in `prev`. -/
def findGreaterOrEqual (s : SkipList K) (key : K) (prev : ℕ → ℕ) : Option (Option ℕ × (ℕ → ℕ)) :=
  (s.search (keyIsAfterNode cmp key) prev).map Prod.snd

def findLessThan (s : SkipList K) (key : K) : Option ℕ :=
  (s.search (fun nodeKey => ¬ (cmp nodeKey key).isGE) fun _ => head).map Prod.fst

def findLast (s : SkipList K) : Option ℕ := (s.search (fun _ => true) fun _ => head).map Prod.fst

def contains (s : SkipList K) (key : K) : Option Bool := do
  match ← s.findGreaterOrEqual cmp key fun _ => head with
  | (some x, _) => (s.key x).map fun nodeKey => cmp key nodeKey = .eq
  | (none, _) => some false

/-! ### Insertion -/

/-- Where an `Insert` is. -/
inductive Phase where
  /-- Before `max_height_` is stored, if it has to be. -/
  | raise
  /-- Before the new node is made. -/
  | make
  /-- Before the new node `x` gets its link of level `i`. -/
  | own (x i : ℕ)
  /-- Before a link of level `i` to the new node `x` is stored. -/
  | link (x i : ℕ)
  deriving DecidableEq

/-- The local variables of an `Insert`. -/
structure Insertion (K : Type) where
  key : K
  height : ℕ
  prev : ℕ → ℕ
  phase : Phase

/-- The list, and the `Insert` that is in progress. -/
structure State (K : Type) where
  list : SkipList K
  inserting : Option (Insertion K)

/-- An `Insert` of a height up to its first store; `prev` is not initialised. -/
def beginInsert (s : SkipList K) (key : K) (height : ℕ) (prev : ℕ → ℕ) : Option (State K) :=
  (s.findGreaterOrEqual cmp key prev).map fun found =>
    ⟨s, some ⟨key, height, fun i => if s.maxHeight ≤ i ∧ i < height then head else found.2 i, .raise⟩⟩

/-- An `Insert` up to its next store; the links of a new node are whatever was in the memory. -/
def Insertion.step (ins : Insertion K) (s : SkipList K) (memory : List (Option ℕ)) : Option (State K) :=
  match ins.phase with
  | .raise => some ⟨if s.maxHeight < ins.height then { s with maxHeight := ins.height } else s, some { ins with phase := .make }⟩
  | .make => some ⟨{ s with nodes := s.nodes ++ [⟨ins.key, memory⟩] }, some { ins with phase := .own s.nodes.length 0 }⟩
  | .own x i =>
    if i < ins.height then do
      let next ← s.next (ins.prev i) i
      let s ← s.setNext x i next
      some ⟨s, some { ins with phase := .link x i }⟩
    else some ⟨s, none⟩
  | .link x i => do
    let s ← s.setNext (ins.prev i) i (some x)
    some ⟨s, some { ins with phase := .own x (i + 1) }⟩

/-- What an `Insert` does not compute: the height that is drawn, and the memory that it does not
initialise. -/
structure Choice where
  height : ℕ
  prev : ℕ → ℕ
  memory : List (Option ℕ)
  height_pos : 1 ≤ height
  height_le : height ≤ kMaxHeight
  length_memory : memory.length = height

/-- The rest of an `Insert`. -/
def finishInsert (memory : List (Option ℕ)) : ℕ → State K → Option (SkipList K)
  | _, ⟨s, none⟩ => some s
  | 0, ⟨_, some _⟩ => none
  | fuel + 1, ⟨s, some ins⟩ => (ins.step s memory).bind (finishInsert memory fuel)

/-- `Insert`: besides two stores for each level, it stores `max_height_` and the key. -/
def insert (s : SkipList K) (key : K) (choice : Choice) : Option (SkipList K) :=
  (s.beginInsert cmp key choice.height choice.prev).bind (finishInsert choice.memory (2 * choice.height + 3))

/-- The states between two stores of a run of `Insert`s, with the keys that have been inserted. -/
inductive Reaches (anyKey : K) : List K → State K → Prop where
  | create : Reaches anyKey [] ⟨create anyKey, none⟩
  | begin {keys s st} (key : K) (height : ℕ) (prev : ℕ → ℕ) :
      Reaches anyKey keys ⟨s, none⟩ → (∀ k ∈ keys, cmp k key ≠ .eq) → 1 ≤ height → height ≤ kMaxHeight →
      s.beginInsert cmp key height prev = some st → Reaches anyKey keys st
  | store {keys s s' ins ins'} (memory : List (Option ℕ)) :
      Reaches anyKey keys ⟨s, some ins⟩ → memory.length = ins.height → ins.step s memory = some ⟨s', some ins'⟩ →
      Reaches anyKey keys ⟨s', some ins'⟩
  | finish {keys s s' ins} (memory : List (Option ℕ)) :
      Reaches anyKey keys ⟨s, some ins⟩ → memory.length = ins.height → ins.step s memory = some ⟨s', none⟩ →
      Reaches anyKey (ins.key :: keys) ⟨s', none⟩

/-! ### The levels -/

/-- The node of an entry; before the first entry it is the head. -/
def addr (e : Option (ℕ × K)) : ℕ := e.elim head Prod.fst

theorem addr_some (e : ℕ × K) : addr (some e) = e.1 := rfl

theorem getLastD_map_fst (l : List (ℕ × K)) : (l.map Prod.fst).getLastD head = addr l.getLast? := by
  rw [List.getLastD_eq_getLast?, List.getLast?_map]
  cases l.getLast? <;> rfl

/-- The links of level `i` go along `L i`. -/
structure Holds (s : SkipList K) (L : ℕ → List (ℕ × K)) : Prop where
  maxHeight_pos : 1 ≤ s.maxHeight
  maxHeight_le : s.maxHeight ≤ kMaxHeight
  path : ∀ i < kMaxHeight, Path (fun x v => s.next x i = some v) head ((L i).map Prod.fst)
  key : ∀ i < kMaxHeight, ∀ e ∈ L i, s.key e.1 = some e.2
  ne_head : ∀ i < kMaxHeight, ∀ e ∈ L i, e.1 ≠ head
  nested : Nested (fun a b : ℕ × K => cmp a.2 b.2 = .lt) kMaxHeight L
  empty : ∀ i < kMaxHeight, s.maxHeight ≤ i → L i = []

section Searching

variable {cmp} [Std.TransCmp cmp] {s : SkipList K} {L : ℕ → List (ℕ × K)} {passes : K → Bool}

theorem lt_asymm (a b : ℕ × K) (h : cmp a.2 b.2 = .lt) : ¬ cmp b.2 a.2 = .lt := by
  exact Std.OrientedCmp.not_lt_of_lt h

omit [Std.TransCmp cmp] in
theorem Holds.next (h : Holds cmp s L) {i : ℕ} (hi : i < kMaxHeight) {x : Option (ℕ × K)} {rest : List (ℕ × K)}
    (hafter : After (L i) x rest) : s.next (addr x) i = some (rest.head?.map Prod.fst) := by
  obtain ⟨before, hl, rfl⟩ := hafter
  have hpath := h.path i hi
  rw [hl, List.map_append] at hpath
  have hnext := hpath.of_append.head?
  rwa [getLastD_map_fst, List.head?_map] at hnext

/-- Every search stops where its predicate says on the lowest level, and leaves the others there. -/
theorem Holds.searchLoop (h : Holds cmp s L) (hpasses : ∀ a b, cmp a b = .lt → passes b → passes a) {level : ℕ}
    (hlevel : level < kMaxHeight) {x : Option (ℕ × K)} {rest rest₀ : List (ℕ × K)} (hafter : After (L level) x rest)
    (hbase : After (L 0) x rest₀) (hx : ∀ e ∈ x, passes e.2) {fuel : ℕ} (hfuel : level + rest₀.length < fuel)
    (prev : ℕ → ℕ) :
    ∃ prev', s.searchLoop passes fuel (addr x) level prev =
        some (addr ((L 0).takeWhile fun e => passes e.2).getLast?,
          ((L 0).dropWhile fun e => passes e.2).head?.map Prod.fst, prev') ∧
      (∀ j ≤ level, prev' j = addr ((L j).takeWhile fun e => passes e.2).getLast?) ∧ ∀ j, level < j → prev' j = prev j := by
  induction fuel generalizing level x rest rest₀ prev with
  | zero => exact absurd hfuel (Nat.not_lt_zero _)
  | succ fuel ih =>
    have hsorted := h.nested.sorted level hlevel
    have hnext := h.next hlevel hafter
    -- the search leaves the level
    have hstop (hrest : ∀ e ∈ rest.head?, passes e.2 = false) :
        ∃ prev', (if level = 0 then some (addr x, rest.head?.map Prod.fst, Function.update prev level (addr x))
          else s.searchLoop passes fuel (addr x) (level - 1) (Function.update prev level (addr x))) =
          some (addr ((L 0).takeWhile fun e => passes e.2).getLast?,
            ((L 0).dropWhile fun e => passes e.2).head?.map Prod.fst, prev') ∧
        (∀ j ≤ level, prev' j = addr ((L j).takeWhile fun e => passes e.2).getLast?) ∧ ∀ j, level < j → prev' j = prev j := by
      obtain ⟨hdrop, htake⟩ := @After.eq_dropWhile _ _ _ _ _ (fun e => passes e.2) hafter hsorted
        (fun a b hlt => hpasses a.2 b.2 hlt) hx hrest
      cases level with
      | zero =>
        refine ⟨Function.update prev 0 (addr x), by rw [if_pos rfl, ← hdrop, ← htake], ?_, ?_⟩
        · intro j hj
          rw [Nat.le_zero.mp hj, Function.update_self, ← htake]
        · intro j hj
          exact Function.update_of_ne (Nat.ne_of_gt hj) _ _
      | succ level =>
        have hlevel' := Nat.lt_of_succ_lt hlevel
        obtain ⟨rest', hrest'⟩ := h.nested.down hlevel (Nat.le_succ level) hafter
        obtain ⟨prev', hresult, hprev, hsame⟩ := ih hlevel' hrest' hbase hx (by omega)
          (Function.update prev (level + 1) (addr x))
        refine ⟨prev', hresult, ?_, ?_⟩
        · intro j hj
          rcases Nat.le_succ_iff.mp hj with hj | rfl
          · exact hprev j hj
          · rw [hsame _ (Nat.lt_succ_self _), Function.update_self, ← htake]
        · intro j hj
          rw [hsame j (Nat.lt_of_succ_lt hj), Function.update_of_ne (Nat.ne_of_gt hj)]
    rw [SkipList.searchLoop, hnext]
    cases rest with
    | nil => exact hstop (by simp)
    | cons y ys =>
      have hkey := h.key level hlevel y hafter.next.mem
      cases hpass : passes y.2 with
      | false => simpa [hkey, hpass] using hstop (by simpa using hpass)
      | true =>
        obtain ⟨rest', hrest'⟩ := h.nested.down hlevel (Nat.zero_le level) hafter.next
        have hless := hbase.length_lt hrest' (h.nested.sorted 0 (by decide)) lt_asymm (hafter.forall_lt hsorted)
        have honward := ih hlevel hafter.next hrest' (by simpa using hpass) (by omega) prev
        simpa [hkey, hpass, addr_some] using honward

theorem Holds.nodup (h : Holds cmp s L) {i : ℕ} (hi : i < kMaxHeight) : (head :: (L i).map Prod.fst).Nodup := by
  refine List.nodup_cons.mpr ⟨?_, ?_⟩
  · rw [List.mem_map]
    rintro ⟨e, he, hhead⟩
    exact h.ne_head i hi e he hhead
  · refine List.pairwise_map.mpr ((h.nested.sorted i hi).imp_of_mem ?_)
    intro a b ha hb hlt heq
    have hkey := h.key i hi a ha
    rw [heq, h.key i hi b hb, Option.some.injEq] at hkey
    rw [hkey] at hlt
    exact Std.OrientedCmp.not_lt_of_lt hlt hlt

theorem Holds.length_lt (h : Holds cmp s L) : (L 0).length < s.nodes.length := by
  have hnodup := h.nodup (i := 0) (by decide)
  have hkey : ∀ e ∈ L 0, e.1 < s.nodes.length := by
    intro e he
    have hkey := h.key 0 (by decide) e he
    by_contra hle
    simp [SkipList.key, List.getElem?_eq_none (Nat.not_lt.mp hle)] at hkey
  have hsubset : head :: (L 0).map Prod.fst ⊆ List.range s.nodes.length := by
    intro x hx
    rw [List.mem_range]
    rcases List.mem_cons.mp hx with rfl | hx
    · have hnext := h.next (i := 0) (by decide) (after_none _)
      by_contra hle
      simp [SkipList.next, addr, List.getElem?_eq_none (Nat.not_lt.mp hle)] at hnext
    · obtain ⟨e, he, rfl⟩ := List.mem_map.mp hx
      exact hkey e he
  have hle := (List.subperm_of_subset hnodup hsubset).length_le
  rw [List.length_cons, List.length_map, List.length_range] at hle
  exact hle

theorem Holds.search (h : Holds cmp s L) (passes : K → Bool) (hpasses : ∀ a b, cmp a b = .lt → passes b → passes a) (prev : ℕ → ℕ) :
    ∃ prev', s.search passes prev =
        some (addr ((L 0).takeWhile fun e => passes e.2).getLast?,
          ((L 0).dropWhile fun e => passes e.2).head?.map Prod.fst, prev') ∧
      ∀ j < s.maxHeight, prev' j = addr ((L j).takeWhile fun e => passes e.2).getLast? := by
  have hpos := h.maxHeight_pos
  have hle := h.maxHeight_le
  have hlen := h.length_lt
  have hfuel : s.maxHeight - 1 + (L 0).length < s.nodes.length + s.maxHeight := by omega
  obtain ⟨prev', hresult, hprev, -⟩ := h.searchLoop hpasses (by omega) (after_none _) (after_none _) (by simp) hfuel prev
  exact ⟨prev', hresult, fun j hj => hprev j (by omega)⟩

/-- The searches find what they would in these entries. -/
structure Finds (cmp : K → K → Ordering) (s : SkipList K) (es : List (ℕ × K)) : Prop where
  findGreaterOrEqual : ∀ key prev, (s.findGreaterOrEqual cmp key prev).map Prod.fst =
    some ((es.find? fun e => cmp e.2 key ≠ .lt).map Prod.fst)
  findLessThan : ∀ key, s.findLessThan cmp key = some (addr (es.filter fun e => cmp e.2 key = .lt).getLast?)
  findLast : s.findLast = some (addr es.getLast?)
  contains : ∀ key, s.contains cmp key = some (es.any fun e => cmp key e.2 = .eq)

theorem keyIsAfterNode_of_lt (key : K) (a b : K) (hlt : cmp a b = .lt) (h : keyIsAfterNode cmp key b) :
    keyIsAfterNode cmp key a := by
  rw [keyIsAfterNode, decide_eq_true_eq] at *
  exact Std.TransCmp.lt_trans hlt h

/-- An entry that is equal to the key is the first one that is not before it. -/
theorem any_find? {es : List (ℕ × K)} (hsorted : es.Pairwise fun a b => cmp a.2 b.2 = .lt) (key : K) :
    (es.find? fun e => cmp e.2 key ≠ .lt).any (fun e => cmp key e.2 = .eq) = es.any fun e => cmp key e.2 = .eq := by
  induction es with
  | nil => rfl
  | cons x xs ih =>
    obtain ⟨hx, hxs⟩ := List.pairwise_cons.mp hsorted
    cases hcmp : cmp x.2 key with
    | lt => simpa [hcmp, Std.OrientedCmp.gt_of_lt hcmp] using ih hxs
    | eq => simp [hcmp, Std.OrientedCmp.eq_symm hcmp]
    | gt =>
      have hlt := Std.OrientedCmp.lt_of_gt hcmp
      have hrest : ∀ e ∈ xs, cmp key e.2 ≠ .eq := by
        intro e he
        rw [Std.TransCmp.lt_trans hlt (hx e he)]
        decide
      simpa [hcmp, hlt] using hrest

theorem Holds.finds (h : Holds cmp s L) : Finds cmp s (L 0) where
  findGreaterOrEqual key prev := by
    obtain ⟨prev', hsearch, -⟩ := h.search _ (keyIsAfterNode_of_lt key) prev
    rw [SkipList.findGreaterOrEqual, hsearch, List.find?_eq_head?_dropWhile_not]
    simp [keyIsAfterNode]
  findLessThan key := by
    have hpass : (fun nodeKey => decide ¬ (cmp nodeKey key).isGE) = keyIsAfterNode cmp key := by
      funext nodeKey
      rw [keyIsAfterNode, decide_eq_decide]
      cases cmp nodeKey key <;> decide
    obtain ⟨prev', hsearch, -⟩ := h.search _ (keyIsAfterNode_of_lt key) fun _ => head
    have hfilter := SortedSearch.takeWhile_eq_filter (h.nested.sorted 0 (by decide)) fun a b => keyIsAfterNode_of_lt key a.2 b.2
    rw [SkipList.findLessThan, hpass, hsearch, hfilter]
    rfl
  findLast := by
    obtain ⟨prev', hsearch, -⟩ := h.search (fun _ => true) (fun _ _ _ _ => rfl) fun _ => head
    rw [SkipList.findLast, hsearch, List.takeWhile_eq_self_iff.mpr fun _ _ => rfl]
    rfl
  contains key := by
    obtain ⟨prev', hsearch, -⟩ := h.search _ (keyIsAfterNode_of_lt key) fun _ => head
    rw [SkipList.contains, SkipList.findGreaterOrEqual, hsearch]
    have hfind : ((L 0).dropWhile fun e => keyIsAfterNode cmp key e.2).head? = (L 0).find? fun e => cmp e.2 key ≠ .lt := by
      rw [List.find?_eq_head?_dropWhile_not]
      simp [keyIsAfterNode]
    rw [← any_find? (h.nested.sorted 0 (by decide)), hfind]
    cases hy : (L 0).find? fun e => cmp e.2 key ≠ .lt with
    | none => rfl
    | some y => simp [h.key 0 (by decide) y (List.mem_of_find?_eq_some hy)]

end Searching

/-! ### The stores of an `Insert` -/

section Stores

variable {s s' : SkipList K} {x n : ℕ} {v : Option ℕ}

theorem exists_setNext (h : (s.next x n).isSome) (v : Option ℕ) : ∃ s', s.setNext x n v = some s' :=
  ⟨_, if_pos h⟩

theorem setNext_eq (h : s.setNext x n v = some s') :
    s' = { s with nodes := s.nodes.modify x fun node => { node with next := node.next.set n v } } := by
  unfold setNext at h
  split at h
  · exact (Option.some.inj h).symm
  · cases h

theorem maxHeight_setNext (h : s.setNext x n v = some s') : s'.maxHeight = s.maxHeight := by
  rw [setNext_eq h]

theorem key_setNext (h : s.setNext x n v = some s') (y : ℕ) : s'.key y = s.key y := by
  rw [setNext_eq h, key, key, List.getElem?_modify]
  split
  · cases s.nodes[y]? <;> rfl
  · cases s.nodes[y]? <;> rfl

theorem next_setNext (h : s.setNext x n v = some s') (y j : ℕ) :
    s'.next y j = if y = x ∧ j = n then some v else s.next y j := by
  have hsome : (s.next x n).isSome := by
    by_contra hnone
    rw [setNext, if_neg hnone] at h
    cases h
  rw [setNext_eq h]
  simp only [next, List.getElem?_modify]
  by_cases hy : y = x
  · subst hy
    cases hnode : s.nodes[y]? with
    | none => simp [next, hnode] at hsome
    | some node =>
      have hlen : n < node.next.length := by simpa [next, hnode] using hsome
      by_cases hj : j = n
      · subst hj
        simp [hlen]
      · simp [hj, List.getElem?_set_ne (Ne.symm hj)]
  · simp [hy, Ne.symm hy]

end Stores

/-! ### What an `Insert` keeps -/

section Inserting

variable {cmp} {s s' : SkipList K} {L : ℕ → List (ℕ × K)} {e : ℕ × K} {i j : ℕ}

variable (cmp) in
/-- The entries of a level before a key, and the others. -/
def before (l : List (ℕ × K)) (key : K) : List (ℕ × K) := l.takeWhile fun e => keyIsAfterNode cmp key e.2

variable (cmp) in
def behind (l : List (ℕ × K)) (key : K) : List (ℕ × K) := l.dropWhile fun e => keyIsAfterNode cmp key e.2

theorem before_append_behind (l : List (ℕ × K)) (key : K) : before cmp l key ++ behind cmp l key = l :=
  List.takeWhile_append_dropWhile

variable (cmp) in
/-- The levels when the new node is linked in those below `j`. -/
def linked (L : ℕ → List (ℕ × K)) (e : ℕ × K) (j i : ℕ) : List (ℕ × K) :=
  if i < j then before cmp (L i) e.2 ++ e :: behind cmp (L i) e.2 else L i

theorem mem_linked {a : ℕ × K} : a ∈ linked cmp L e j i ↔ a ∈ L i ∨ (i < j ∧ a = e) := by
  unfold linked
  split
  · rename_i hlt
    rw [before, behind, SortedSearch.mem_takeWhile_cons_dropWhile, or_comm, and_iff_right hlt]
  · rename_i hle
    simp [hle]

theorem pairwise_linked [Std.TransCmp cmp] (hsorted : (L i).Pairwise fun a b => cmp a.2 b.2 = .lt)
    (hnew : ∀ a ∈ L i, cmp a.2 e.2 ≠ .eq) : (linked cmp L e j i).Pairwise fun a b => cmp a.2 b.2 = .lt := by
  unfold linked
  split
  · refine SortedSearch.pairwise_takeWhile_cons_dropWhile (fun _ _ _ => Std.TransCmp.lt_trans) hsorted ?_ ?_
    · intro a _ ha
      simpa [keyIsAfterNode] using ha
    · intro a ha hle
      have hne := hnew a ha
      refine Std.OrientedCmp.lt_of_gt ?_
      cases hcmp : cmp a.2 e.2 <;> simp_all [keyIsAfterNode]
  · exact hsorted

theorem nested_linked [Std.TransCmp cmp] (h : Nested (fun a b : ℕ × K => cmp a.2 b.2 = .lt) kMaxHeight L)
    (hnew : ∀ i < kMaxHeight, ∀ a ∈ L i, cmp a.2 e.2 ≠ .eq) (j : ℕ) :
    Nested (fun a b : ℕ × K => cmp a.2 b.2 = .lt) kMaxHeight (linked cmp L e j) where
  sorted i hi := pairwise_linked (h.sorted i hi) (hnew i hi)
  subset i hi := by
    intro a ha
    rw [mem_linked] at ha ⊢
    rcases ha with ha | ⟨hlt, ha⟩
    · exact .inl (h.subset i hi ha)
    · exact .inr ⟨by omega, ha⟩

/-- A store that changes no link of the levels. -/
theorem Holds.mono (h : Holds cmp s L) (hmax : s.maxHeight ≤ s'.maxHeight) (hle : s'.maxHeight ≤ kMaxHeight)
    (hkey : ∀ x k, s.key x = some k → s'.key x = some k)
    (hnext : ∀ i < kMaxHeight, ∀ x ∈ head :: (L i).map Prod.fst, ∀ v, s.next x i = some v → s'.next x i = some v) :
    Holds cmp s' L where
  maxHeight_pos := h.maxHeight_pos.trans hmax
  maxHeight_le := hle
  path i hi := (h.path i hi).mono (hnext i hi)
  key i hi e he := hkey _ _ (h.key i hi e he)
  ne_head := h.ne_head
  nested := h.nested
  empty i hi hge := h.empty i hi (hmax.trans hge)

/-- What an `Insert` knows of the levels `L` that it found. -/
structure Ready (cmp : K → K → Ordering) (k : K) (height : ℕ) (prev : ℕ → ℕ) (L : ℕ → List (ℕ × K)) : Prop where
  height_pos : 1 ≤ height
  height_le : height ≤ kMaxHeight
  nested : Nested (fun a b : ℕ × K => cmp a.2 b.2 = .lt) kMaxHeight L
  fresh : ∀ i < kMaxHeight, ∀ a ∈ L i, cmp a.2 k ≠ .eq
  prev : ∀ i < height, prev i = addr (before cmp (L i) k).getLast?

/-- The new node, and that it is not in the levels that were found. -/
structure Made (s : SkipList K) (k : K) (height : ℕ) (L : ℕ → List (ℕ × K)) (x : ℕ) : Prop where
  ne_head : x ≠ head
  key : s.key x = some k
  next : ∀ i < height, (s.next x i).isSome
  not_mem : ∀ i < kMaxHeight, ∀ a ∈ L i, a.1 ≠ x

variable (cmp) in
/-- The levels that the links make, at each place of an `Insert`. -/
def InPhase (s : SkipList K) (k : K) (height : ℕ) (L : ℕ → List (ℕ × K)) : Phase → Prop
  | .raise => Holds cmp s L
  | .make => Holds cmp s L ∧ height ≤ s.maxHeight
  | .own x i => Holds cmp s (linked cmp L (x, k) i) ∧ height ≤ s.maxHeight ∧ i ≤ height ∧ Made s k height L x
  | .link x i => Holds cmp s (linked cmp L (x, k) i) ∧ height ≤ s.maxHeight ∧ i < height ∧ Made s k height L x ∧
      s.next x i = some ((behind cmp (L i) k).head?.map Prod.fst)

variable {k : K} {height : ℕ} {prev : ℕ → ℕ} {x : ℕ} {y : ℕ} {memory : List (Option ℕ)} {ins : Insertion K}
  {st : State K} {anyKey : K}

theorem key_append (s : SkipList K) (node : Node K) (h : s.key y = some k) :
    { s with nodes := s.nodes ++ [node] }.key y = some k := by
  have hlt : y < s.nodes.length := by
    by_contra hle
    simp [key, List.getElem?_eq_none (Nat.not_lt.mp hle)] at h
  rw [key, List.getElem?_append_left hlt]
  exact h

theorem next_append (s : SkipList K) (node : Node K) {i : ℕ} {v : Option ℕ} (h : s.next y i = some v) :
    { s with nodes := s.nodes ++ [node] }.next y i = some v := by
  have hlt : y < s.nodes.length := by
    by_contra hle
    simp [next, List.getElem?_eq_none (Nat.not_lt.mp hle)] at h
  rw [next, List.getElem?_append_left hlt]
  exact h

theorem InPhase.make [Std.TransCmp cmp] (h : InPhase cmp s k height L .make) (hmemory : memory.length = height) :
    InPhase cmp { s with nodes := s.nodes ++ [⟨k, memory⟩] } k height L (.own s.nodes.length 0) := by
  obtain ⟨hholds, hle⟩ := h
  refine ⟨hholds.mono le_rfl hholds.maxHeight_le ?_ ?_, hle, Nat.zero_le _, ?_, ?_, ?_, ?_⟩
  · intro x k hkey
    exact key_append s _ hkey
  · intro i _ x _ v hnext
    exact next_append s _ hnext
  · exact Nat.ne_of_gt (Nat.zero_lt_of_lt hholds.length_lt)
  · simp [key]
  · intro i hi
    simp [next, hmemory, hi]
  · intro i hi a ha heq
    have hkey := hholds.key i hi a ha
    simp [key, heq] at hkey

theorem linked_self (L : ℕ → List (ℕ × K)) (e : ℕ × K) (i : ℕ) : linked cmp L e i i = L i := if_neg (Nat.lt_irrefl i)

/-- What `Insert` found in a level in which it has not yet linked the new node. -/
theorem Holds.next_prev (h : Holds cmp s (linked cmp L e i)) (hready : Ready cmp k height prev L) (hi : i < height) :
    s.next (prev i) i = some ((behind cmp (L i) k).head?.map Prod.fst) := by
  rw [hready.prev i hi]
  refine h.next (hi.trans_le hready.height_le) ⟨before cmp (L i) k, ?_, rfl⟩
  rw [linked_self, before_append_behind]

theorem Made.not_mem_level (h : Made s k height L x) {i : ℕ} (hi : i < kMaxHeight) : x ∉ head :: (L i).map Prod.fst := by
  rw [List.mem_cons, List.mem_map, not_or]
  refine ⟨h.ne_head, ?_⟩
  rintro ⟨a, ha, hx⟩
  exact h.not_mem i hi a ha hx

theorem Made.setNext (h : Made s k height L x) {n : ℕ} {v : Option ℕ} (hstore : s.setNext y n v = some s') :
    Made s' k height L x where
  ne_head := h.ne_head
  key := by rw [key_setNext hstore, h.key]
  next i hi := by
    rw [next_setNext hstore]
    split
    · rfl
    · exact h.next i hi
  not_mem := h.not_mem

/-- The new node gets a link: it is not yet in the level. -/
theorem InPhase.own (h : InPhase cmp s k height L (.own x i)) (hready : Ready cmp k height prev L) (hi : i < height) :
    ∃ v s', s.next (prev i) i = some v ∧ s.setNext x i v = some s' ∧ InPhase cmp s' k height L (.link x i) := by
  obtain ⟨hholds, hle, -, hmade⟩ := h
  obtain ⟨s', hstore⟩ := exists_setNext (hmade.next i hi) ((behind cmp (L i) k).head?.map Prod.fst)
  refine ⟨_, s', hholds.next_prev hready hi, hstore, ?_, ?_, hi, hmade.setNext hstore, ?_⟩
  · refine hholds.mono (maxHeight_setNext hstore).ge ((maxHeight_setNext hstore).trans_le hholds.maxHeight_le) ?_ ?_
    · intro y k hkey
      rw [key_setNext hstore, hkey]
    · intro j hj y hy v hnext
      rw [next_setNext hstore, if_neg, hnext]
      rintro ⟨rfl, rfl⟩
      rw [linked_self] at hy
      exact hmade.not_mem_level hj hy
  · rw [maxHeight_setNext hstore]
    exact hle
  · rw [next_setNext hstore, if_pos ⟨rfl, rfl⟩]

theorem InPhase.link [Std.TransCmp cmp] (h : InPhase cmp s k height L (.link x i)) (hready : Ready cmp k height prev L) :
    ∃ s', s.setNext (prev i) i (some x) = some s' ∧ InPhase cmp s' k height L (.own x (i + 1)) := by
  obtain ⟨hholds, hle, hi, hmade, hown⟩ := h
  have hnext := hholds.next_prev hready hi
  obtain ⟨s', hstore⟩ := exists_setNext (Option.isSome_of_eq_some hnext) (some x)
  have hmax := maxHeight_setNext hstore
  have hilt := hi.trans_le hready.height_le
  refine ⟨s', hstore, ⟨?_, ?_, ?_, ?_, ?_, ?_, ?_⟩, by rw [hmax]; exact hle, hi, hmade.setNext hstore⟩
  · rw [hmax]
    exact hholds.maxHeight_pos
  · rw [hmax]
    exact hholds.maxHeight_le
  · intro j hj
    have hpath := hholds.path j hj
    by_cases hji : j = i
    · subst hji
      have hnodup := hholds.nodup hj
      rw [linked_self, ← @before_append_behind _ cmp (L j) k, List.map_append] at hpath hnodup
      rw [linked, if_pos (Nat.lt_succ_self j), List.map_append, List.map_cons]
      have hprev : ((before cmp (L j) k).map Prod.fst).getLastD head = prev j := by
        rw [getLastD_map_fst, hready.prev j hi]
      have hx : x ≠ prev j := by
        rintro rfl
        refine hmade.not_mem_level hj ?_
        have hsplit : (L j).map Prod.fst = (before cmp (L j) k).map Prod.fst ++ (behind cmp (L j) k).map Prod.fst := by
          rw [← List.map_append, before_append_behind]
        rw [← hprev, hsplit, ← List.cons_append]
        exact List.mem_append_left _ List.getLastD_mem_cons
      refine hpath.insert hnodup ?_ ?_ ?_
      · rw [next_setNext hstore, if_neg (fun heq => hx heq.1), hown, List.head?_map]
      · rw [hprev, next_setNext hstore, if_pos ⟨rfl, rfl⟩]
      · intro y _ hy v hv
        rw [hprev] at hy
        rw [next_setNext hstore, if_neg (fun heq => hy heq.1), hv]
    · have hsame : linked cmp L (x, k) (i + 1) j = linked cmp L (x, k) i j := by
        unfold linked
        congr 1
        exact propext (by omega)
      rw [hsame]
      refine hpath.mono ?_
      intro y _ v hv
      rw [next_setNext hstore, if_neg (fun heq => hji heq.2), hv]
  · intro j hj a ha
    rw [key_setNext hstore]
    rcases mem_linked.mp ha with ha | ⟨-, rfl⟩
    · exact hholds.key j hj a (mem_linked.mpr (.inl ha))
    · exact hmade.key
  · intro j hj a ha
    rcases mem_linked.mp ha with ha | ⟨-, rfl⟩
    · exact hholds.ne_head j hj a (mem_linked.mpr (.inl ha))
    · exact hmade.ne_head
  · exact nested_linked hready.nested hready.fresh (i + 1)
  · intro j hj hge
    rw [hmax] at hge
    have hempty := hholds.empty j hj hge
    unfold linked at hempty ⊢
    rw [if_neg (by omega)] at hempty ⊢
    exact hempty

variable (cmp) in
/-- An `Insert` is in progress in a list in which it found `L`. -/
structure Inserts (s : SkipList K) (ins : Insertion K) (L : ℕ → List (ℕ × K)) : Prop where
  ready : Ready cmp ins.key ins.height ins.prev L
  phase : InPhase cmp s ins.key ins.height L ins.phase

/-- How many steps are left. -/
def Insertion.remaining (ins : Insertion K) : ℕ :=
  match ins.phase with
  | .raise => 2 * ins.height + 3
  | .make => 2 * ins.height + 2
  | .own _ i => 2 * (ins.height - i) + 1
  | .link _ i => 2 * (ins.height - i)

theorem Inserts.remaining_pos (h : Inserts cmp s ins L) : 0 < ins.remaining := by
  have hphase := h.phase
  unfold Insertion.remaining
  cases hp : ins.phase with
  | link x i =>
    rw [hp] at hphase
    exact Nat.mul_pos (by decide) (Nat.sub_pos_of_lt hphase.2.2.1)
  | _ => exact Nat.succ_pos _

variable (cmp) in
/-- What is so after an `Insert` made one more store, or returned. -/
def Stepped (ins : Insertion K) (L : ℕ → List (ℕ × K)) : State K → Prop
  | ⟨s, some ins'⟩ => Inserts cmp s ins' L ∧ ins'.key = ins.key ∧ ins'.height = ins.height ∧ ins'.remaining < ins.remaining
  | ⟨s, none⟩ => ∃ x height, 1 ≤ height ∧ Holds cmp s (linked cmp L (x, ins.key) height)

/-- An `Insert` does not fault. -/
theorem step_spec [Std.TransCmp cmp] (h : Inserts cmp s ins L)
    (hmemory : memory.length = ins.height) : ∃ st, ins.step s memory = some st ∧ Stepped cmp ins L st := by
  obtain ⟨hready, hphase⟩ := h
  unfold Insertion.step
  cases hp : ins.phase with
  | raise =>
    rw [hp] at hphase
    refine ⟨_, rfl, ⟨hready, ?_⟩, rfl, rfl, by simp [Insertion.remaining, hp]⟩
    split
    · rename_i hlt
      exact ⟨Holds.mono hphase hlt.le hready.height_le (fun _ _ h => h) fun _ _ _ _ _ h => h, le_rfl⟩
    · rename_i hle
      exact ⟨hphase, Nat.not_lt.mp hle⟩
  | make =>
    rw [hp] at hphase
    exact ⟨_, rfl, ⟨hready, hphase.make hmemory⟩, rfl, rfl, by simp [Insertion.remaining, hp]⟩
  | own x i =>
    rw [hp] at hphase
    dsimp only
    split
    · rename_i hi
      obtain ⟨v, s', hnext, hstore, hlink⟩ := hphase.own hready hi
      rw [hnext]
      simp only [Option.bind_eq_bind, Option.bind_some, hstore]
      exact ⟨_, rfl, ⟨hready, hlink⟩, rfl, rfl, by simp [Insertion.remaining, hp]⟩
    · rename_i hi
      obtain ⟨hholds, -, hle, -⟩ := hphase
      rw [Nat.le_antisymm hle (Nat.not_lt.mp hi)] at hholds
      exact ⟨_, rfl, x, ins.height, hready.height_pos, hholds⟩
  | link x i =>
    rw [hp] at hphase
    obtain ⟨s', hstore, hown⟩ := hphase.link hready
    simp only [hstore, Option.bind_eq_bind, Option.bind_some]
    have hi : i < ins.height := hphase.2.2.1
    refine ⟨_, rfl, ⟨hready, hown⟩, rfl, rfl, ?_⟩
    simp only [Insertion.remaining, hp]
    omega

variable {key : K} {keys : List K}

theorem begin_spec [Std.TransCmp cmp] (h : Holds cmp s L) {height : ℕ} {prev : ℕ → ℕ}
    (hkey : ∀ a ∈ L 0, cmp a.2 key ≠ .eq) (hpos : 1 ≤ height) (hle : height ≤ kMaxHeight)
    (hbegin : s.beginInsert cmp key height prev = some st) : ∃ ins, st = ⟨s, some ins⟩ ∧ Inserts cmp s ins L := by
  obtain ⟨prev', hsearch, hprev⟩ := h.search _ (keyIsAfterNode_of_lt key) prev
  rw [beginInsert, findGreaterOrEqual, hsearch] at hbegin
  cases hbegin
  have hsubset : ∀ i < kMaxHeight, L i ⊆ L 0 := by
    intro i hi a ha
    obtain ⟨rest, hafter⟩ := exists_after ha
    obtain ⟨rest', hafter'⟩ := h.nested.down hi (Nat.zero_le i) hafter
    exact hafter'.mem
  refine ⟨_, rfl, ⟨hpos, hle, h.nested, fun i hi a ha => hkey a (hsubset i hi ha), ?_⟩, h⟩
  intro i hi
  dsimp only at hi ⊢
  split
  · rename_i hhigh
    rw [h.empty i (hi.trans_le hle) hhigh.1]
    rfl
  · rename_i hlow
    exact hprev i (by omega)

variable (cmp) in
/-- What holds in every state: when no `Insert` is in progress the lowest level has exactly the
inserted keys. -/
def Inv (keys : List K) (st : State K) : Prop :=
  ∃ L, (∀ k, k ∈ (L 0).map Prod.snd ↔ k ∈ keys) ∧
    match st with
    | ⟨s, none⟩ => Holds cmp s L
    | ⟨s, some ins⟩ => Inserts cmp s ins L

theorem holds_create (anyKey : K) : Holds cmp (create anyKey) fun _ => [] where
  maxHeight_pos := le_rfl
  maxHeight_le := show 1 ≤ 12 by decide
  path i hi := by simp [LinkedList.Path, next, create, head, hi]
  key _ _ _ he := absurd he List.not_mem_nil
  ne_head _ _ _ he := absurd he List.not_mem_nil
  nested := ⟨fun _ _ => .nil, fun _ _ => List.Subset.refl _⟩
  empty _ _ _ := rfl

/-- An `Insert` that returns has put its key into the lowest level. -/
theorem mem_keys_linked {x : ℕ} {height : ℕ} (hpos : 1 ≤ height)
    (hkeys : ∀ k, k ∈ (L 0).map Prod.snd ↔ k ∈ keys) (k : K) :
    k ∈ (linked cmp L (x, key) height 0).map Prod.snd ↔ k ∈ key :: keys := by
  rw [List.mem_cons, ← hkeys, List.mem_map, List.mem_map]
  constructor
  · rintro ⟨a, ha, rfl⟩
    rcases mem_linked.mp ha with ha | ⟨-, rfl⟩
    · exact .inr ⟨a, ha, rfl⟩
    · exact .inl rfl
  · rintro (rfl | ⟨a, ha, rfl⟩)
    · exact ⟨(x, k), mem_linked.mpr (.inr ⟨hpos, rfl⟩), rfl⟩
    · exact ⟨a, mem_linked.mpr (.inl ha), rfl⟩

theorem Reaches.inv [Std.TransCmp cmp] (h : Reaches cmp anyKey keys st) :
    Inv cmp keys st := by
  induction h with
  | create => exact ⟨fun _ => [], by simp, holds_create anyKey⟩
  | @begin keys s st key height prev _ hnew hpos hle hbegin ih =>
    obtain ⟨L, hkeys, hholds⟩ := ih
    have hfresh : ∀ a ∈ L 0, cmp a.2 key ≠ .eq := by
      intro a ha
      exact hnew a.2 ((hkeys _).mp (List.mem_map_of_mem ha))
    obtain ⟨ins, rfl, hins⟩ := begin_spec hholds hfresh hpos hle hbegin
    exact ⟨L, hkeys, hins⟩
  | @store keys s s' ins ins' memory _ hmemory hstep ih =>
    obtain ⟨L, hkeys, hins⟩ := ih
    obtain ⟨st, hst, hstepped⟩ := step_spec hins hmemory
    rw [hstep] at hst
    cases hst
    exact ⟨L, hkeys, hstepped.1⟩
  | @finish keys s s' ins memory _ hmemory hstep ih =>
    obtain ⟨L, hkeys, hins⟩ := ih
    obtain ⟨st, hst, hstepped⟩ := step_spec hins hmemory
    rw [hstep] at hst
    cases hst
    obtain ⟨x, height, hpos, hholds⟩ := hstepped
    exact ⟨linked cmp L (x, ins.key) height, mem_keys_linked hpos hkeys, hholds⟩

/-- The levels that the links make in a state. -/
theorem Inv.holds (h : Inv cmp keys st) :
    ∃ L, Holds cmp st.list L ∧ ∀ k ∈ keys, k ∈ (L 0).map Prod.snd := by
  obtain ⟨L, hkeys, hst⟩ := h
  have hlinked (x : ℕ) (key : K) (i : ℕ) : ∀ k ∈ keys, k ∈ (linked cmp L (x, key) i 0).map Prod.snd := by
    intro k hk
    obtain ⟨a, ha, rfl⟩ := List.mem_map.mp ((hkeys k).mpr hk)
    exact List.mem_map_of_mem (mem_linked.mpr (.inl ha))
  obtain ⟨s, ins⟩ := st
  cases ins with
  | none => exact ⟨L, hst, fun k => (hkeys k).mpr⟩
  | some ins =>
    obtain ⟨-, hphase⟩ := hst
    cases hp : ins.phase with
    | raise =>
      rw [hp] at hphase
      exact ⟨L, hphase, fun k => (hkeys k).mpr⟩
    | make =>
      rw [hp] at hphase
      exact ⟨L, hphase.1, fun k => (hkeys k).mpr⟩
    | own x i =>
      rw [hp] at hphase
      exact ⟨_, hphase.1, hlinked x ins.key i⟩
    | link x i =>
      rw [hp] at hphase
      exact ⟨_, hphase.1, hlinked x ins.key i⟩

/-! ### A whole `Insert` -/

theorem finishInsert_spec [Std.TransCmp cmp] {fuel : ℕ} (h : Reaches cmp anyKey keys ⟨s, some ins⟩)
    (hmemory : memory.length = ins.height) (hfuel : ins.remaining ≤ fuel) :
    ∃ s', finishInsert memory fuel ⟨s, some ins⟩ = some s' ∧ Reaches cmp anyKey (ins.key :: keys) ⟨s', none⟩ := by
  induction fuel generalizing s ins with
  | zero =>
    obtain ⟨L, -, hins⟩ := h.inv
    exact absurd hins.remaining_pos (Nat.not_lt.mpr hfuel)
  | succ fuel ih =>
    obtain ⟨L, -, hins⟩ := h.inv
    obtain ⟨⟨s₁, ins₁⟩, hstep, hstepped⟩ := step_spec hins hmemory
    rw [finishInsert, hstep, Option.bind_some]
    cases ins₁ with
    | none => exact ⟨s₁, by cases fuel <;> rfl, .finish memory h hmemory hstep⟩
    | some ins₁ =>
      obtain ⟨-, hkey, hheight, hless⟩ := hstepped
      rw [← hkey]
      exact ih (.store memory h hmemory hstep) (hmemory.trans hheight.symm) (by omega)

/-- An `Insert` of a key that is not in the list returns. -/
theorem insert_spec [Std.TransCmp cmp] (h : Reaches cmp anyKey keys ⟨s, none⟩)
    (hnew : ∀ k ∈ keys, cmp k key ≠ .eq) (choice : Choice) :
    ∃ s', s.insert cmp key choice = some s' ∧ Reaches cmp anyKey (key :: keys) ⟨s', none⟩ := by
  obtain ⟨L, -, hholds⟩ := h.inv
  obtain ⟨prev, hsearch, -⟩ := Holds.search hholds _ (keyIsAfterNode_of_lt key) choice.prev
  rw [SkipList.insert]
  cases hbegin : s.beginInsert cmp key choice.height choice.prev with
  | none => simp [beginInsert, findGreaterOrEqual, hsearch] at hbegin
  | some st =>
    have hreaches := Reaches.begin key choice.height choice.prev h hnew choice.height_pos choice.height_le hbegin
    rw [beginInsert, findGreaterOrEqual, hsearch] at hbegin
    cases hbegin
    exact finishInsert_spec hreaches choice.length_memory le_rfl

theorem Reaches.insert [Std.TransCmp cmp] (h : Reaches cmp anyKey keys ⟨s, none⟩) (hnew : ∀ k ∈ keys, cmp k key ≠ .eq)
    (choice : Choice) (hinsert : s.insert cmp key choice = some s') : Reaches cmp anyKey (key :: keys) ⟨s', none⟩ := by
  obtain ⟨s'', hs'', hreaches⟩ := insert_spec h hnew choice
  rw [hinsert] at hs''
  cases hs''
  exact hreaches

/-- Between any two stores of any run of `Insert`s, the levels are sorted and each has only
entries of the one below, all keys inserted so far are in the lowest one, the searches find
what they would in its entries, and the next step of an `Insert` does not fault. -/
theorem reaches_sorted [Std.TransCmp cmp] {anyKey : K} {keys : List K} {st : State K} (h : Reaches cmp anyKey keys st) :
    ∃ L, Holds cmp st.list L ∧ (∀ k ∈ keys, k ∈ (L 0).map Prod.snd) ∧ Finds cmp st.list (L 0) ∧
      ∀ ins ∈ st.inserting, ∀ memory, memory.length = ins.height → (ins.step st.list memory).isSome := by
  obtain ⟨L, hholds, hkeys⟩ := h.inv.holds
  refine ⟨L, hholds, hkeys, hholds.finds, ?_⟩
  intro ins hins memory hmemory
  obtain ⟨L, -, hst⟩ := h.inv
  obtain ⟨s, inserting⟩ := st
  cases hins
  obtain ⟨st', hstep, -⟩ := step_spec hst hmemory
  exact Option.isSome_of_eq_some hstep

/-- The third key, of height three, when it is linked in the lowest level and not yet above it. -/
theorem reaches_sorted_linked : ∃ st : State ℕ, Reaches compare 0 [3, 5] st ∧ st.list.maxHeight = 3 ∧
    st.inserting.map Insertion.phase = some (.own 3 1) ∧
    ∃ L, Holds compare st.list L ∧ (∀ k ∈ [3, 5], k ∈ (L 0).map Prod.snd) ∧ Finds compare st.list (L 0) ∧
      ∀ ins ∈ st.inserting, ∀ memory, memory.length = ins.height → (ins.step st.list memory).isSome := by
  have hfive := @Reaches.insert ℕ compare _ _ 0 5 [] _ .create (by simp) ⟨2, fun _ => 0, [none, none], by decide, by decide, rfl⟩ rfl
  have hthree := @Reaches.insert ℕ compare _ _ 0 3 [5] _ hfive (by simp) ⟨1, fun _ => 0, [none], by decide, by decide, rfl⟩ rfl
  have hbegun := Reaches.begin 4 3 (fun _ => 0) hthree (by simp) (by decide) (by decide) rfl
  have hraised := Reaches.store [none, none, none] hbegun rfl rfl
  have hmade := Reaches.store [none, none, none] hraised rfl rfl
  have hlinked := Reaches.store [none, none, none] (Reaches.store [none, none, none] hmade rfl rfl) rfl rfl
  exact ⟨_, hlinked, rfl, rfl, reaches_sorted hlinked⟩

end Inserting

end SkipList

end TLevelDB.Db
