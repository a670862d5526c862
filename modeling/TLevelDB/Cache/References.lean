import TLevelDB.Cache.Shard
import Mathlib.Algebra.BigOperators.Group.Finset.Basic
import Mathlib.Algebra.BigOperators.Group.Finset.Piecewise

/-!
# Who refers to an entry of the cache

`Inv` is what holds of the entries of a shard, its lists and its usage when clients hold
`handles e` handles to the entry `e`: the references to an entry are these handles and the
one of the cache, and where it is listed depends on how many there are.

Every operation changes one entry at a time (`Change`): it is created, gets or loses a
reference, or leaves the cache. `Inv.change` says what has to be shown of the one entry for
the whole state to stay in order.
-/

namespace TLevelDB.Cache

open ChainedTable

variable {K V : Type}

/-! ### The state of one entry -/

/-- An entry that is in the cache. -/
def Cached (x : Option (LRUHandle K V)) : Prop := ∃ h ∈ x, h.inCache = true

/-- An entry for the list `lru_`. -/
def OnLru (x : Option (LRUHandle K V)) : Prop := ∃ h ∈ x, h.inCache = true ∧ h.refs = 1

/-- An entry for the list `in_use_`. -/
def OnInUse (x : Option (LRUHandle K V)) : Prop := ∃ h ∈ x, h.inCache = true ∧ 2 ≤ h.refs

/-- What an entry adds to `usage_`. -/
def cachedCharge : Option (LRUHandle K V) → UInt64
  | none => 0
  | some h => if h.inCache then h.charge else 0

/-- An entry to which clients hold `n` handles. -/
structure EntryOk (hash : K → UInt32) (n : ℕ) (h : LRUHandle K V) : Prop where
  refs : h.refs.toNat = n + if h.inCache then 1 else 0
  pos : 0 < h.refs
  hash : h.hash = hash h.key

@[simp] theorem cached_none : ¬ Cached (none : Option (LRUHandle K V)) := by simp [Cached]

@[simp] theorem cached_some {h : LRUHandle K V} : Cached (some h) ↔ h.inCache = true := by simp [Cached]

@[simp] theorem onLru_none : ¬ OnLru (none : Option (LRUHandle K V)) := by simp [OnLru]

@[simp] theorem onLru_some {h : LRUHandle K V} : OnLru (some h) ↔ h.inCache = true ∧ h.refs = 1 := by simp [OnLru]

@[simp] theorem onInUse_none : ¬ OnInUse (none : Option (LRUHandle K V)) := by simp [OnInUse]

@[simp] theorem onInUse_some {h : LRUHandle K V} : OnInUse (some h) ↔ h.inCache = true ∧ 2 ≤ h.refs := by
  simp [OnInUse]

/-! ### The state of the shard -/

/-- A list of the entries with a property, each once. -/
structure Listed (l : List ℕ) (P : ℕ → Prop) : Prop where
  nodup : l.Nodup
  mem : ∀ e, e ∈ l ↔ P e

/-- What holds of a shard to which clients hold these handles, but for the table. -/
structure Inv (hash : K → UInt32) (s : LRUCache K V) (handles : ℕ → ℕ) : Prop where
  fresh : ∀ e, s.next ≤ e → s.heap e = none
  entry : ∀ e h, s.heap e = some h → EntryOk hash (handles e) h
  freed : ∀ e, s.heap e = none → handles e = 0
  lru : Listed s.lru fun e => OnLru (s.heap e)
  inUse : Listed s.inUse fun e => OnInUse (s.heap e)
  usage : s.usage = ∑ e ∈ Finset.range s.next, cachedCharge (s.heap e)
  deleted : Listed s.deleted fun e => e < s.next ∧ s.heap e = none

/-- A list after a change of the entry `e`, which it should now have or not. -/
structure Relisted (l l' : List ℕ) (e : ℕ) (p : Prop) : Prop where
  nodup : l'.Nodup
  mem : ∀ e', e' ∈ l' ↔ e' = e ∧ p ∨ e' ≠ e ∧ e' ∈ l

variable {l : List ℕ} {p : Prop}

theorem Listed.change {l' : List ℕ} {e : ℕ} {P Q : ℕ → Prop} (h : Listed l P) (hl : Relisted l l' e p)
    (he : Q e ↔ p) (hrest : ∀ e', e' ≠ e → (Q e' ↔ P e')) : Listed l' Q := by
  refine ⟨hl.nodup, fun e' => ?_⟩
  rw [hl.mem]
  by_cases heq : e' = e
  · simp [heq, he]
  · simp [heq, hrest e' heq, h.mem]

/-- `s'` is `s` with another state of the entry `e`, which may be a new one. -/
structure Change (s s' : LRUCache K V) (e : ℕ) (x : Option (LRUHandle K V)) : Prop where
  old : s.heap e ≠ none ∨ e = s.next ∧ x ≠ none
  heap : s'.heap = Function.update s.heap e x
  next : s'.next = max s.next (e + 1)
  lru : Relisted s.lru s'.lru e (OnLru x)
  inUse : Relisted s.inUse s'.inUse e (OnInUse x)
  usage : s'.usage = s.usage - cachedCharge (s.heap e) + cachedCharge x
  deleted : Relisted s.deleted s'.deleted e (x = none)
  table : s'.table = s.table
  capacity : s'.capacity = s.capacity

section Change

variable {hash : K → UInt32} {s s' : LRUCache K V} {handles : ℕ → ℕ} {e n : ℕ}
  {x : Option (LRUHandle K V)}

theorem Inv.lt_next (h : Inv hash s handles) (he : s.heap e ≠ none) : e < s.next := by
  by_contra hlt
  exact he (h.fresh e (by omega))

/-- The table does not matter. -/
theorem Inv.withTable (h : Inv hash s handles) (t : Table ℕ) : Inv hash { s with table := t } handles :=
  ⟨h.fresh, h.entry, h.freed, h.lru, h.inUse, h.usage, h.deleted⟩

theorem Change.heap_self (hc : Change s s' e x) : s'.heap e = x := by rw [hc.heap, Function.update_self]

theorem Change.heap_of_ne (hc : Change s s' e x) {e' : ℕ} (hne : e' ≠ e) : s'.heap e' = s.heap e' := by
  rw [hc.heap, Function.update_of_ne hne]

/-- The charges change by the one of the entry. -/
theorem Inv.sum_change (h : Inv hash s handles) (hc : Change s s' e x) :
    ∑ i ∈ Finset.range s'.next, cachedCharge (s'.heap i) =
      (∑ i ∈ Finset.range s.next, cachedCharge (s.heap i)) - cachedCharge (s.heap e) + cachedCharge x := by
  have hmem : e ∈ Finset.range s'.next := by
    rw [Finset.mem_range, hc.next]
    omega
  have hold : ∑ i ∈ Finset.range s.next, cachedCharge (s.heap i) = ∑ i ∈ Finset.range s'.next, cachedCharge (s.heap i) := by
    refine Finset.sum_subset (fun i hi => ?_) fun i _ hi => ?_
    · rw [Finset.mem_range] at hi ⊢
      rw [hc.next]
      omega
    · rw [Finset.mem_range, not_lt] at hi
      rw [h.fresh i hi]
      rfl
  have hrest : ∑ i ∈ (Finset.range s'.next).erase e, cachedCharge (s'.heap i) =
      ∑ i ∈ (Finset.range s'.next).erase e, cachedCharge (s.heap i) :=
    Finset.sum_congr rfl fun i hi => by rw [hc.heap_of_ne (Finset.ne_of_mem_erase hi)]
  rw [hold, ← Finset.add_sum_erase _ _ hmem, ← Finset.add_sum_erase (Finset.range s'.next) _ hmem, hc.heap_self, hrest,
    add_sub_cancel_left, add_comm]

/-- **One entry changes**: the state stays in order if that entry is. -/
theorem Inv.change (h : Inv hash s handles) (hc : Change s s' e x) (hentry : ∀ h', x = some h' → EntryOk hash n h')
    (hnone : x = none → n = 0) : Inv hash s' (Function.update handles e n) where
  fresh e' he' := by
    rw [hc.next] at he'
    rw [hc.heap_of_ne (by omega), h.fresh e' (by omega)]
  entry e' h' he' := by
    by_cases heq : e' = e
    · subst heq
      rw [Function.update_self]
      exact hentry h' (hc.heap_self ▸ he')
    · rw [Function.update_of_ne heq]
      exact h.entry e' h' (hc.heap_of_ne heq ▸ he')
  freed e' he' := by
    by_cases heq : e' = e
    · subst heq
      rw [Function.update_self]
      exact hnone (hc.heap_self ▸ he')
    · rw [Function.update_of_ne heq]
      exact h.freed e' (hc.heap_of_ne heq ▸ he')
  lru := h.lru.change hc.lru (by rw [hc.heap_self]) fun e' hne => by rw [hc.heap_of_ne hne]
  inUse := h.inUse.change hc.inUse (by rw [hc.heap_self]) fun e' hne => by rw [hc.heap_of_ne hne]
  usage := by rw [hc.usage, h.sum_change hc, h.usage]
  deleted := by
    refine h.deleted.change hc.deleted (by simp [hc.heap_self, hc.next]) fun e' hne => ?_
    rw [hc.heap_of_ne hne, hc.next]
    refine and_congr_left fun hnone => ⟨fun hlt => ?_, fun hlt => by omega⟩
    rcases hc.old with hold | ⟨rfl, -⟩
    · have := h.lt_next hold
      omega
    · omega

end Change

/-! ### The operations on an entry -/

section Entries

variable {hash : K → UInt32} {s s' : LRUCache K V} {handles : ℕ → ℕ} {e : ℕ} {h : LRUHandle K V}

/-- An entry that loses a reference, the last of which frees it. -/
def dropRef (h : LRUHandle K V) : Option (LRUHandle K V) := if h.refs = 1 then none else some { h with refs := h.refs - 1 }

theorem Relisted.same (hl : l.Nodup) (hp : p ↔ e ∈ l) : Relisted l l e p :=
  ⟨hl, fun e' => by by_cases heq : e' = e <;> simp [heq, hp]⟩

theorem Relisted.removed (hl : l.Nodup) (hp : ¬ p) : Relisted l (l.erase e) e p :=
  ⟨hl.erase e, fun e' => by simp [hl.mem_erase_iff, hp]⟩

theorem Relisted.added (hl : l.Nodup) (he : e ∉ l) (hp : p) : Relisted l (l ++ [e]) e p where
  nodup := List.nodup_append.mpr ⟨hl, List.nodup_singleton e, fun a ha b hb => by
    rw [List.mem_singleton.mp hb]
    rintro rfl
    exact he ha⟩
  mem e' := by by_cases heq : e' = e <;> simp [heq, hp]

theorem Inv.mem_lru_iff (hi : Inv hash s handles) (he : s.heap e = some h) :
    e ∈ s.lru ↔ h.inCache = true ∧ h.refs = 1 := by
  rw [hi.lru.mem, he, onLru_some]

theorem Inv.mem_inUse_iff (hi : Inv hash s handles) (he : s.heap e = some h) :
    e ∈ s.inUse ↔ h.inCache = true ∧ 2 ≤ h.refs := by
  rw [hi.inUse.mem, he, onInUse_some]

/-- A change of an entry that exists. -/
theorem Inv.changed (hi : Inv hash s handles) (he : s.heap e = some h) {x : Option (LRUHandle K V)} {lru inUse : List ℕ}
    {usage : UInt64} (hlru : Relisted s.lru lru e (OnLru x)) (hinUse : Relisted s.inUse inUse e (OnInUse x))
    (husage : usage = s.usage - cachedCharge (some h) + cachedCharge x) :
    Change s { s with
      heap := Function.update s.heap e x
      lru := lru
      inUse := inUse
      usage := usage
      deleted := if x.isNone then s.deleted ++ [e] else s.deleted } e x where
  old := Or.inl (by simp [he])
  heap := rfl
  next := by
    have := hi.lt_next (show s.heap e ≠ none by simp [he])
    simp only
    omega
  lru := hlru
  inUse := hinUse
  usage := by rw [he, husage]
  deleted := by
    have hlive : e ∉ s.deleted := by simp [hi.deleted.mem, he]
    cases x with
    | none => exact Relisted.added hi.deleted.nodup hlive rfl
    | some h' => exact Relisted.same hi.deleted.nodup (iff_of_false (by simp) hlive)
  table := rfl
  capacity := rfl

/-- `Ref`, of an entry whose count does not wrap. -/
theorem Inv.ref_spec (hi : Inv hash s handles) (he : s.heap e = some h) (hlim : h.refs ≠ 4294967295) :
    ∃ s', s.ref e = some s' ∧ Change s s' e (some { h with refs := h.refs + 1 }) := by
  have hpos := (hi.entry e h he).pos
  have hlru := hi.mem_lru_iff he
  have hinUse := hi.mem_inUse_iff he
  by_cases hon : h.refs = 1 ∧ h.inCache
  · have hmem : e ∈ s.lru := hlru.mpr ⟨hon.2, hon.1⟩
    have hnot : e ∉ s.inUse := fun hmem => by
      have := (hinUse.mp hmem).2
      grind
    refine ⟨_, ?_, hi.changed he (Relisted.removed hi.lru.nodup ?_) (Relisted.added hi.inUse.nodup hnot ?_)
      (sub_add_cancel _ _).symm⟩
    · simp only [LRUCache.ref, he, Option.bind_eq_bind, Option.bind_some, if_pos hon, LRUCache.lruRemove, if_pos hmem]
      rfl
    · simp [hon.1]
    · simp [hon.2, hon.1]
  · refine ⟨_, ?_, hi.changed he (Relisted.same hi.lru.nodup ?_) (Relisted.same hi.inUse.nodup ?_)
      (sub_add_cancel _ _).symm⟩
    · simp only [LRUCache.ref, he, Option.bind_eq_bind, Option.bind_some, if_neg hon]
      rfl
    · rw [hlru, onLru_some]
      grind
    · rw [hinUse, onInUse_some]
      grind

theorem unref_of_not_inCache (he : s.heap e = some h) (hin : h.inCache = false) (hpos : 0 < h.refs) :
    s.unref e = some { s with
      heap := Function.update s.heap e (dropRef h)
      deleted := if (dropRef h).isNone then s.deleted ++ [e] else s.deleted } := by
  by_cases hone : h.refs = 1
  · simp [LRUCache.unref, he, dropRef, hone, hin]
  · have hsub : ¬ h.refs - 1 = 0 := by grind
    simp [LRUCache.unref, he, dropRef, hone, hin, hpos, hsub, LRUCache.setHandle]

theorem not_on_list {x : Option (LRUHandle K V)} (hx : ¬ Cached x) : ¬ OnLru x ∧ ¬ OnInUse x ∧ cachedCharge x = 0 := by
  cases x with
  | none => simp [cachedCharge]
  | some h => simp_all [cachedCharge]

theorem not_cached_dropRef (hin : h.inCache = false) : ¬ Cached (dropRef h) := by
  unfold dropRef
  split <;> simp [hin]

/-- `Unref`, when a client has a handle. -/
theorem Inv.unref_spec (hi : Inv hash s handles) (he : s.heap e = some h) (hheld : 0 < handles e) :
    ∃ s', s.unref e = some s' ∧ Change s s' e (dropRef h) := by
  have hok := hi.entry e h he
  have hrefs := hok.refs
  have hlru := hi.mem_lru_iff he
  have hinUse := hi.mem_inUse_iff he
  cases hin : h.inCache with
  | false =>
    obtain ⟨hoffLru, hoffInUse, hcharge⟩ := not_on_list (not_cached_dropRef hin)
    refine ⟨_, unref_of_not_inCache he hin hok.pos, hi.changed he (Relisted.same hi.lru.nodup ?_)
      (Relisted.same hi.inUse.nodup ?_) ?_⟩
    · simp [hoffLru, hlru, hin]
    · simp [hoffInUse, hinUse, hin]
    · rw [hcharge, add_zero]
      simp [cachedCharge, hin]
  | true =>
    have hpos := hok.pos
    have hne : h.refs ≠ 1 := fun hone => by simp [hone, hin, hheld.ne'] at hrefs
    have hdrop : dropRef h = some { h with refs := h.refs - 1 } := if_neg hne
    have husage : s.usage = s.usage - cachedCharge (some h) + cachedCharge (dropRef h) := by
      rw [hdrop]
      exact (sub_add_cancel _ _).symm
    by_cases htwo : h.refs = 2
    · have hmem : e ∈ s.inUse := hinUse.mpr ⟨hin, by simp [htwo]⟩
      have hnot : e ∉ s.lru := fun hmem => by
        have := (hlru.mp hmem).2
        grind
      refine ⟨_, ?_, hi.changed he (Relisted.added hi.lru.nodup hnot ?_) (Relisted.removed hi.inUse.nodup ?_) husage⟩
      · simp [LRUCache.unref, he, htwo, hin, LRUCache.lruRemove, LRUCache.setHandle, LRUCache.appendLru, hmem, hnot, hdrop]
      · simp [hdrop, hin, htwo]
      · simp [hdrop, htwo]
    · refine ⟨_, ?_, hi.changed he (Relisted.same hi.lru.nodup ?_) (Relisted.same hi.inUse.nodup ?_) husage⟩
      · have hzero : ¬ h.refs - 1 = 0 := by grind
        have hone : ¬ h.refs - 1 = 1 := by grind
        simp [LRUCache.unref, he, hzero, hone, hin, LRUCache.setHandle, hdrop, hok.pos]
      · rw [hlru, hdrop, onLru_some]
        simp only [hin, true_and]
        grind
      · rw [hinUse, hdrop, onInUse_some]
        simp only [hin, true_and]
        grind

theorem Inv.finishErase_spec (hi : Inv hash s handles) (he : s.heap e = some h) (hin : h.inCache = true) :
    ∃ s', s.finishErase (some e) = some s' ∧ Change s s' e (dropRef { h with inCache := false }) := by
  have hok := hi.entry e h he
  have hlru := hi.mem_lru_iff he
  have hinUse := hi.mem_inUse_iff he
  obtain ⟨hoffLru, hoffInUse, hcharge⟩ := not_on_list (not_cached_dropRef (h := { h with inCache := false }) rfl)
  have husage : s.usage - h.charge =
      s.usage - cachedCharge (some h) + cachedCharge (dropRef { h with inCache := false }) := by
    rw [hcharge, add_zero]
    simp [cachedCharge, hin]
  by_cases hone : h.refs = 1
  · have hmem : e ∈ s.lru := hlru.mpr ⟨hin, hone⟩
    have hnot : e ∉ s.inUse := fun hmem => by
      have := (hinUse.mp hmem).2
      grind
    refine ⟨_, ?_, hi.changed he (Relisted.removed hi.lru.nodup hoffLru)
      (Relisted.same hi.inUse.nodup (iff_of_false hoffInUse hnot)) husage⟩
    simp only [LRUCache.finishErase, he, Option.bind_eq_bind, Option.bind_some, hin, guard_true, LRUCache.lruRemove,
      if_pos hmem]
    rw [unref_of_not_inCache (h := { h with inCache := false })]
    all_goals simp [LRUCache.setHandle, hok.pos]
  · have hmem : e ∈ s.inUse := hinUse.mpr ⟨hin, by have := hok.pos; grind⟩
    have hnot : e ∉ s.lru := fun hmem => hone (hlru.mp hmem).2
    refine ⟨_, ?_, hi.changed he (Relisted.same hi.lru.nodup (iff_of_false hoffLru hnot))
      (Relisted.removed hi.inUse.nodup hoffInUse) husage⟩
    simp only [LRUCache.finishErase, he, Option.bind_eq_bind, Option.bind_some, hin, guard_true, LRUCache.lruRemove,
      if_neg hnot, if_pos hmem]
    rw [unref_of_not_inCache (h := { h with inCache := false })]
    all_goals simp [LRUCache.setHandle, hok.pos]

end Entries

end TLevelDB.Cache
