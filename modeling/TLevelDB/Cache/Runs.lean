import TLevelDB.Cache.References

/-!
# Runs of the cache

`Run` are the states of a shard together with what its clients know: how many handles they
hold to each entry, and which entry was last inserted for each key. A client releases a
handle once. `hash` is the function by which the callers compute the hashes of keys. In a
run with limits (`lim`) there are less than 2³² references to an entry and at most 2³¹
entries in the table; without them a count wraps (`not_disciplined_wrapped`).

`Sound` is `Inv`, and that the table has the entries that are in the cache and these are the
ones that were last inserted for their keys. Every operation keeps it, and does not fail
(`Sound.lookup`, `Sound.release`, `Sound.removeKey`, `Sound.evictLoop`, `Sound.insert`).
-/

namespace TLevelDB.Cache

open ChainedTable

variable {K V : Type}

/-- The table has the entries that are in the cache, and these are the last ones inserted
for their keys; but for an entry that is to leave the cache. -/
structure IndexedBut (old : Option ℕ) (s : LRUCache K V) (latest : K → Option (ℕ × V)) : Prop where
  ok : s.table.Ok (keyOf s.heap) hashOf
  mem : ∀ e, e ∈ s.table.toList ↔ Cached (s.heap e) ∧ old ≠ some e
  cached : ∀ e h, s.heap e = some h → h.inCache = true → old ≠ some e → latest h.key = some (e, h.value)
  latest : ∀ key e value, latest key = some (e, value) →
    e < s.next ∧ ∀ h, s.heap e = some h → h.key = key ∧ h.value = value
  off : s.capacity = 0 → ∀ e, ¬ Cached (s.heap e)

/-- What holds of a shard between the calls. -/
structure Sound (hash : K → UInt32) (s : LRUCache K V) (handles : ℕ → ℕ) (latest : K → Option (ℕ × V)) : Prop
    extends Inv hash s handles, IndexedBut none s latest

section Indexed

variable {hash : K → UInt32} {s s' : LRUCache K V} {handles : ℕ → ℕ} {latest : K → Option (ℕ × V)} {e n : ℕ}
  {h : LRUHandle K V} {x : Option (LRUHandle K V)} {old : Option ℕ}

theorem Sound.mem_iff (hs : Sound hash s handles latest) (e : ℕ) : e ∈ s.table.toList ↔ Cached (s.heap e) := by
  simp [hs.mem]

theorem Sound.latest_eq (hs : Sound hash s handles latest) (he : s.heap e = some h) (hin : h.inCache = true) :
    latest h.key = some (e, h.value) := hs.cached e h he hin (by simp)

theorem keyOf_eq_some {key : K} {hash : UInt32} {heap : ℕ → Option (LRUHandle K V)} :
    keyOf heap e = some (key, hash) ↔ ∃ h, heap e = some h ∧ h.key = key ∧ h.hash = hash := by
  simp [keyOf]

/-- The state `x` is one of the entry `h`, which may have left the cache. -/
def SameEntry (h : LRUHandle K V) (x : Option (LRUHandle K V)) : Prop :=
  ∀ h', x = some h' → h'.key = h.key ∧ h'.hash = h.hash ∧ h'.value = h.value ∧ (h'.inCache = true → h.inCache = true)

theorem sameEntry_dropRef : SameEntry h (dropRef h) := by
  intro h' hh'
  unfold dropRef at hh'
  split at hh'
  · cases hh'
  · cases hh'
    exact ⟨rfl, rfl, rfl, id⟩

/-- An entry changes, and leaves the cache if it was to leave. -/
theorem IndexedBut.change (hx : IndexedBut old s latest) (hi : Inv hash s handles) (he : s.heap e = some h)
    (hc : Change s s' e x) (hsame : SameEntry h x) (hmem : e ∈ s.table.toList ↔ Cached x)
    (hold : ∀ e' ≠ e, old ≠ some e') (hentry : (∀ h', x = some h' → EntryOk hash n h') ∧ (x = none → n = 0)) :
    Sound hash s' (Function.update handles e n) latest := by
  have hnext : s'.next = s.next := by
    have := hi.lt_next (show s.heap e ≠ none by simp [he])
    rw [hc.next]
    omega
  have hof : ∀ e' h', s'.heap e' = some h' → ∃ h, s.heap e' = some h ∧ h'.key = h.key ∧ h'.hash = h.hash ∧
      h'.value = h.value ∧ (h'.inCache = true → h.inCache = true ∧ old ≠ some e') := by
    intro e' h' he'
    by_cases heq : e' = e
    · subst heq
      rw [hc.heap_self] at he'
      obtain ⟨hkey, hhash, hvalue, hin⟩ := hsame h' he'
      exact ⟨h, he, hkey, hhash, hvalue, fun hin' => ⟨hin hin', ((hx.mem e').mp (hmem.mpr ⟨h', he', hin'⟩)).2⟩⟩
    · rw [hc.heap_of_ne heq] at he'
      exact ⟨h', he', rfl, rfl, rfl, fun hin => ⟨hin, hold e' heq⟩⟩
  refine ⟨hi.change hc hentry.1 hentry.2, ?_, fun e' => ?_, fun e' h' he' hin _ => ?_, fun key e' value hlatest => ?_,
    fun hcap e' hcached => ?_⟩
  · rw [hc.table]
    refine hx.ok.congr fun e' he' => ?_
    by_cases heq : e' = e
    · subst heq
      obtain ⟨h', hh', -⟩ := hmem.mp he'
      obtain ⟨hkey, hhash, -⟩ := hsame h' hh'
      simp [keyOf, hc.heap_self, Option.mem_def.mp hh', he, hkey, hhash]
    · rw [keyOf, hc.heap_of_ne heq, keyOf]
  · rw [hc.table]
    by_cases heq : e' = e
    · subst heq
      simp [hc.heap_self, hmem]
    · simp [hc.heap_of_ne heq, hx.mem, hold e' heq]
  · obtain ⟨h₀, he₀, hkey, -, hvalue, hin₀⟩ := hof e' h' he'
    rw [hkey, hvalue]
    exact hx.cached e' h₀ he₀ (hin₀ hin).1 (hin₀ hin).2
  · obtain ⟨hlt', hentry⟩ := hx.latest key e' value hlatest
    refine ⟨hnext ▸ hlt', fun h' he' => ?_⟩
    obtain ⟨h₀, he₀, hkey, -, hvalue, -⟩ := hof e' h' he'
    rw [hkey, hvalue]
    exact hentry h₀ he₀
  · obtain ⟨h', he', hin⟩ := hcached
    obtain ⟨h₀, he₀, -, -, -, hin₀⟩ := hof e' h' he'
    exact hx.off (hc.capacity ▸ hcap) e' ⟨h₀, he₀, (hin₀ hin).1⟩

end Indexed

section Operations

variable [DecidableEq K] {hash : K → UInt32} {s s' : LRUCache K V} {handles : ℕ → ℕ} {latest : K → Option (ℕ × V)} {e : ℕ}

/-- The entry that a lookup finds: the one in the cache with the key. -/
theorem Sound.lookup_eq_some_iff (hs : Sound hash s handles latest) {key : K} :
    s.table.lookup (keyOf s.heap) hashOf (some (key, hash key)) = some e ↔
      ∃ h, s.heap e = some h ∧ h.inCache = true ∧ h.key = key := by
  rw [hs.ok.lookup_eq_some_iff, hs.mem_iff, keyOf_eq_some]
  constructor
  · rintro ⟨⟨h, he, hin⟩, h', he', hkey, -⟩
    cases (Option.mem_def.mp he).symm.trans he'
    exact ⟨h, he', hin, hkey⟩
  · rintro ⟨h, he, hin, rfl⟩
    exact ⟨⟨h, he, hin⟩, h, he, rfl, (hs.entry e h he).hash⟩

/-- `Lookup` finds the entry in the cache with the key, or there is none. -/
theorem Sound.lookup (hs : Sound hash s handles latest) (key : K) :
    (∃ e h, s.heap e = some h ∧ h.inCache = true ∧ h.key = key ∧
      s.lookup key (hash key) = (s.ref e).map (fun s => (some e, s)) ∧
      (handles e + 2 < 2 ^ 32 → ∃ s', s.ref e = some s' ∧ s'.heap e = some { h with refs := h.refs + 1 } ∧
        Sound hash s' (Function.update handles e (handles e + 1)) latest)) ∨
    (∀ e h, s.heap e = some h → h.inCache = true → h.key ≠ key) ∧ s.lookup key (hash key) = some (none, s) := by
  cases hlookup : s.table.lookup (keyOf s.heap) hashOf (some (key, hash key)) with
  | none =>
    refine Or.inr ⟨fun e h he hin hkey => ?_, by rw [LRUCache.lookup, hlookup]⟩
    rw [hs.lookup_eq_some_iff.mpr ⟨h, he, hin, hkey⟩] at hlookup
    cases hlookup
  | some e =>
    obtain ⟨h, he, hin, hkey⟩ := hs.lookup_eq_some_iff.mp hlookup
    refine Or.inl ⟨e, h, he, hin, hkey, by simp [LRUCache.lookup, hlookup], fun hlim => ?_⟩
    have hentry := hs.entry e h he
    have hrefs : h.refs.toNat = handles e + 1 := by simpa [hin] using hentry.refs
    have hsum : (h.refs + 1).toNat = handles e + 1 + 1 := by
      rw [UInt32.toNat_add, hrefs]
      exact Nat.mod_eq_of_lt hlim
    obtain ⟨s', hs', hc⟩ := hs.ref_spec he fun hmax => by simp [hmax] at hsum
    refine ⟨s', hs', hc.heap_self, hs.toIndexedBut.change hs.toInv he hc ?_ (by simp [hs.mem, he]) (by simp) ⟨?_, by simp⟩⟩
    · rintro _ ⟨⟩
      exact ⟨rfl, rfl, rfl, id⟩
    · rintro _ ⟨⟩
      exact ⟨by simp [hsum, hin], UInt32.lt_iff_toNat_lt.mpr (by simp [hsum]), hentry.hash⟩

omit [DecidableEq K] in
/-- An entry that loses a reference stays in order, if there are now `n` handles to it. -/
theorem entryOk_dropRef {h : LRUHandle K V} {n : ℕ} (hhash : h.hash = hash h.key)
    (hrefs : h.refs.toNat = n + (if h.inCache then 1 else 0) + 1) :
    (∀ h', dropRef h = some h' → EntryOk hash n h') ∧ (dropRef h = none → n = 0) := by
  unfold dropRef
  split
  next hone =>
    simp only [hone, UInt32.toNat_one] at hrefs
    exact ⟨by simp, fun _ => by omega⟩
  next hone =>
    have hsub : (h.refs - 1).toNat = h.refs.toNat - 1 :=
      UInt32.toNat_sub_of_le _ _ (UInt32.le_iff_toNat_le.mpr (by simp [hrefs]))
    refine ⟨?_, by simp⟩
    rintro _ ⟨⟩
    exact ⟨by simp only; omega, by simp only; grind, hhash⟩

omit [DecidableEq K] in
theorem Sound.release (hs : Sound hash s handles latest) (hheld : 0 < handles e) :
    ∃ s', s.release e = some s' ∧ Sound hash s' (Function.update handles e (handles e - 1)) latest := by
  cases he : s.heap e with
  | none => exact absurd (hs.freed e he) hheld.ne'
  | some h =>
    obtain ⟨s', hs', hc⟩ := hs.unref_spec he hheld
    have hrefs := (hs.entry e h he).refs
    refine ⟨s', hs', hs.toIndexedBut.change hs.toInv he hc sameEntry_dropRef ⟨fun hmem => ?_, ?_⟩ (by simp)
      (entryOk_dropRef (hs.entry e h he).hash (by omega))⟩
    · have hin : h.inCache = true := by simpa [hs.mem, he] using hmem
      rw [hin, if_pos rfl] at hrefs
      exact ⟨{ h with refs := h.refs - 1 }, if_neg fun hone => by simp [hone, hheld.ne'] at hrefs, hin⟩
    · rintro ⟨h', hh', hin⟩
      simpa [hs.mem, he] using (sameEntry_dropRef h' hh').2.2.2 hin

omit [DecidableEq K] in
/-- The entry that is to leave the cache leaves it. -/
theorem IndexedBut.finishErase {old : Option ℕ} (hx : IndexedBut old s latest) (hi : Inv hash s handles)
    (hold : ∀ e, old = some e → Cached (s.heap e)) :
    ∃ s', s.finishErase old = some s' ∧ Sound hash s' handles latest ∧
      ∀ e, old = some e → Relisted s.lru s'.lru e False := by
  cases old with
  | none => exact ⟨s, rfl, ⟨hi, hx⟩, by simp⟩
  | some e =>
    obtain ⟨h, he, hin⟩ := hold e rfl
    obtain ⟨s', hs', hc⟩ := hi.finishErase_spec he hin
    have hrefs : h.refs.toNat = handles e + 1 := by simpa [hin] using (hi.entry e h he).refs
    have hoff : ¬ Cached (dropRef { h with inCache := false }) := not_cached_dropRef rfl
    have hsound := hx.change hi he hc (fun h' hh' => ?_) (iff_of_false (by simp [hx.mem]) hoff) (by simp [eq_comm])
      (entryOk_dropRef (hi.entry e h he).hash hrefs)
    · rw [Function.update_eq_self] at hsound
      refine ⟨s', hs', hsound, ?_⟩
      rintro _ ⟨⟩
      refine ⟨hc.lru.nodup, fun e' => ?_⟩
      rw [hc.lru.mem]
      simp [(not_on_list hoff).1]
    · obtain ⟨hkey, hhash, hvalue, -⟩ := sameEntry_dropRef h' hh'
      exact ⟨hkey, hhash, hvalue, fun _ => hin⟩

/-- `FinishErase(table_.Remove(key, hash))` takes the entry with the key out of the cache. -/
theorem Sound.removeKey (hs : Sound hash s handles latest) (key : K) :
    ∃ s', s.removeKey (some (key, hash key)) =
        some ((s.table.lookup (keyOf s.heap) hashOf (some (key, hash key))).isSome, s') ∧ Sound hash s' handles latest ∧
      ∀ e, s.table.lookup (keyOf s.heap) hashOf (some (key, hash key)) = some e → Relisted s.lru s'.lru e False := by
  obtain ⟨hres, hok, hmem⟩ := hs.ok.remove_spec (some (key, hash key))
  rw [LRUCache.removeKey]
  generalize s.table.remove (keyOf s.heap) hashOf (some (key, hash key)) = removed at hres hok hmem ⊢
  have hbut : IndexedBut removed.1 { s with table := removed.2 } latest := by
    refine ⟨hok, fun e => ?_, fun e h he hin _ => hs.latest_eq he hin, hs.latest, hs.off⟩
    rw [hmem, ← hs.mem_iff, hres]
    refine and_congr_right fun he => not_congr ?_
    rw [hs.ok.lookup_eq_some_iff]
    simp [he]
  obtain ⟨s', hs', hsound, hlru⟩ := hbut.finishErase (hs.withTable removed.2) fun e he => by
    obtain ⟨h, he, hin, -⟩ := hs.lookup_eq_some_iff.mp (hres ▸ he)
    exact ⟨h, he, hin⟩
  rw [← hres]
  exact ⟨s', by simp [hs'], hsound, hlru⟩

/-- Evicting an entry of `lru_` succeeds, and takes it from the list. -/
theorem Sound.evict (hs : Sound hash s handles latest) (hold : e ∈ s.lru) :
    ∃ s', s.evict e = some s' ∧ Sound hash s' handles latest ∧ s'.lru.length < s.lru.length := by
  obtain ⟨h, he, hin, hone⟩ := (hs.lru.mem e).mp hold
  have hlookup := hs.lookup_eq_some_iff.mpr ⟨h, he, hin, rfl⟩
  obtain ⟨s', hs', hsound, hlru⟩ := hs.removeKey h.key
  refine ⟨s', ?_, hsound, ?_⟩
  · rw [← (hs.entry e h he).hash] at hs' hlookup
    simp [LRUCache.evict, Option.mem_def.mp he, hone, hs', hlookup]
  · have hlru := hlru e hlookup
    have hsub : s'.lru ⊆ s.lru.erase e := fun a ha => by
      rw [hs.lru.nodup.mem_erase_iff]
      simpa using (hlru.mem a).mp ha
    have hle := (hlru.nodup.subperm hsub).length_le
    rw [List.length_erase_of_mem hold] at hle
    have := List.length_pos_of_mem hold
    omega

/-- The loops end where they are not to go on, or with nothing to evict. -/
theorem Sound.evictLoop (full : LRUCache K V → Bool) (fuel : ℕ) {s : LRUCache K V} (hs : Sound hash s handles latest)
    (hfuel : s.lru.length ≤ fuel) :
    ∃ s', s.evictLoop full fuel = some s' ∧ Sound hash s' handles latest ∧ (full s' = false ∨ s'.lru = []) := by
  induction fuel generalizing s with
  | zero => exact ⟨s, rfl, hs, Or.inr (List.length_eq_zero_iff.mp (by omega))⟩
  | succ fuel ih =>
    rw [LRUCache.evictLoop]
    split
    next hlru => exact ⟨s, rfl, hs, Or.inr hlru⟩
    next old rest hlru =>
      split
      next hover =>
        obtain ⟨s₁, hs₁, hsound, hlen⟩ := hs.evict (e := old) (by simp [hlru])
        rw [hs₁]
        exact ih hsound (by omega)
      next hover => exact ⟨s, rfl, hs, Or.inl (by simpa using hover)⟩

omit [DecidableEq K] in
theorem Inv.ne_next {h : LRUHandle K V} (hi : Inv hash s handles) (he : s.heap e = some h) : e ≠ s.next := by
  have := hi.lt_next (show s.heap e ≠ none by simp [he])
  omega

omit [DecidableEq K] in
/-- The new entry is the last one inserted for its key. -/
theorem IndexedBut.latest_update [DecidableEq K] {old : Option ℕ} (hx : IndexedBut old s latest) (h : LRUHandle K V) {key : K}
    {value : V}
    (hlatest : Function.update latest h.key (some (s.next, h.value)) key = some (e, value)) :
    e < s.next + 1 ∧ ∀ h', Function.update s.heap s.next (some h) e = some h' → h'.key = key ∧ h'.value = value := by
  by_cases hk : key = h.key
  · subst hk
    rw [Function.update_self] at hlatest
    cases hlatest
    refine ⟨Nat.lt_succ_self _, fun h' he => ?_⟩
    rw [Function.update_self] at he
    cases he
    exact ⟨rfl, rfl⟩
  · rw [Function.update_of_ne hk] at hlatest
    obtain ⟨hlt, hentry⟩ := hx.latest key e value hlatest
    refine ⟨Nat.lt_succ_of_lt hlt, fun h' he => hentry h' ?_⟩
    rwa [Function.update_of_ne hlt.ne] at he

/-- The state in which `Insert` has allocated the entry, `refs` and `in_cache` set, and has not
yet changed the table. -/
def allocated (s : LRUCache K V) (h : LRUHandle K V) (inUse : List ℕ) (usage : UInt64) : LRUCache K V :=
  { s with heap := Function.update s.heap s.next (some h), inUse := inUse, usage := usage, next := s.next + 1 }

omit [DecidableEq K] in
theorem Inv.allocated {h : LRUHandle K V} {inUse : List ℕ} {usage : UInt64} (hi : Inv hash s handles)
    (hlru : ¬ OnLru (some h)) (hinUse : Relisted s.inUse inUse s.next (OnInUse (some h)))
    (husage : usage = s.usage + cachedCharge (some h)) (hentry : EntryOk hash 1 h) :
    Inv hash (allocated s h inUse usage) (Function.update handles s.next 1) := by
  have hfresh : s.heap s.next = none := hi.fresh _ le_rfl
  refine hi.change (x := some h)
    { old := Or.inr ⟨rfl, by simp⟩, heap := rfl, next := by simp [Cache.allocated],
      lru := Relisted.same hi.lru.nodup (iff_of_false hlru (by simp [hi.lru.mem, hfresh])), inUse := hinUse, usage := ?_,
      deleted := Relisted.same hi.deleted.nodup (by simp [hi.deleted.mem]), table := rfl, capacity := rfl }
    (fun _ heq => Option.some.inj heq ▸ hentry) (by simp)
  rw [hfresh]
  simpa [cachedCharge, Cache.allocated] using husage

omit [DecidableEq K] in
/-- A cache without capacity has no entries, and none is added. -/
theorem IndexedBut.allocated [DecidableEq K] {h : LRUHandle K V} (hx : IndexedBut none s latest) (hcap : s.capacity = 0)
    (hin : h.inCache = false) :
    IndexedBut none (allocated s h s.inUse s.usage) (Function.update latest h.key (some (s.next, h.value))) := by
  have hoff := hx.off hcap
  have hoff' : ∀ e, ¬ Cached (Function.update s.heap s.next (some h) e) := by
    intro e
    by_cases he : e = s.next
    · subst he
      simp [hin]
    · rw [Function.update_of_ne he]
      exact hoff e
  have hempty : ∀ e, e ∉ s.table.toList := fun e he => hoff e ((hx.mem e).mp he).1
  refine ⟨hx.ok.congr fun e he => absurd he (hempty e), fun e => ?_, fun e h' he hin' _ => ?_,
    fun key e value => hx.latest_update h, fun _ => hoff'⟩
  · exact iff_of_false (hempty e) fun hcached => hoff' e hcached.1
  · exact absurd ⟨h', he, hin'⟩ (hoff' e)

/-- The entry is in the table, and the one with its key is to leave the cache. -/
theorem Sound.insertTable {h : LRUHandle K V} (hs : Sound hash s handles latest) (hcap : s.capacity ≠ 0)
    (hlt : s.table.elems.toNat < 2 ^ 31) (hin : h.inCache = true) (hhash : h.hash = hash h.key) (inUse : List ℕ)
    (usage : UInt64) :
    ∃ old table, s.table.insert (keyOf (Function.update s.heap s.next (some h))) hashOf s.next = some (old, table) ∧
      IndexedBut old { Cache.allocated s h inUse usage with table := table }
        (Function.update latest h.key (some (s.next, h.value))) ∧
      ∀ e, old = some e → e ≠ s.next ∧ Cached (s.heap e) := by
  have hbefore : ∀ e ∈ s.table.toList, keyOf (Function.update s.heap s.next (some h)) e = keyOf s.heap e := by
    intro e he
    obtain ⟨h', he', -⟩ := (hs.mem_iff e).mp he
    rw [keyOf, Function.update_of_ne (hs.ne_next he'), keyOf]
  have hok := hs.ok.congr hbefore
  obtain ⟨table, hinserted, hok', hmem⟩ := hok.insert_spec s.next hlt
  rw [show keyOf (Function.update s.heap s.next (some h)) s.next = some (h.key, hash h.key) by simp [keyOf, hhash]]
    at hinserted hmem
  generalize hres : s.table.lookup (keyOf _) hashOf (some (h.key, hash h.key)) = old at hinserted
  have hold : ∀ e, old = some e ↔ ∃ h', s.heap e = some h' ∧ h'.inCache = true ∧ h'.key = h.key := by
    intro e
    rw [← hres, hok.lookup_eq_some_iff, and_congr_right fun he => by rw [hbefore e he], ← hs.ok.lookup_eq_some_iff,
      hs.lookup_eq_some_iff]
  have hnew : ∀ e, old = some e → e ≠ s.next ∧ Cached (s.heap e) := by
    intro e he
    obtain ⟨h', he', hin', -⟩ := (hold e).mp he
    exact ⟨hs.ne_next he', h', he', hin'⟩
  refine ⟨old, table, hinserted, ⟨hok', fun e => ?_, fun e h' he hin' hne => ?_,
    fun key e value => hs.latest_update h, fun hzero => absurd hzero hcap⟩, hnew⟩
  · rw [hmem]
    by_cases heq : e = s.next
    · subst heq
      simpa [Cache.allocated, hin] using fun he => (hnew _ he).1 rfl
    · simp only [heq, false_or, Cache.allocated, Function.update_of_ne heq]
      rw [← hs.mem_iff, ← hres]
      refine and_congr_right fun he => not_congr ?_
      rw [hok.lookup_eq_some_iff]
      simp [he]
  · by_cases heq : e = s.next
    · subst heq
      simp only [Cache.allocated, Function.update_self, Option.some.injEq] at he
      subst he
      exact Function.update_self ..
    · simp only [Cache.allocated, Function.update_of_ne heq] at he
      rw [Function.update_of_ne fun hk => hne ((hold e).mpr ⟨h', he, hin', hk⟩)]
      exact hs.latest_eq he hin'

/-- The part of `Insert` for a cache with a capacity. -/
theorem Sound.cacheEntry (hs : Sound hash s handles latest) (hcap : s.capacity ≠ 0)
    (hlt : s.table.elems.toNat < 2 ^ 31) (key : K) (value : V) (charge : UInt64) :
    ∃ s', (allocated s ⟨key, hash key, value, charge, false, 1⟩ s.inUse s.usage).cacheEntry s.next
        ⟨key, hash key, value, charge, false, 1⟩ = some s' ∧
      Sound hash s' (Function.update handles s.next 1) (Function.update latest key (some (s.next, value))) := by
  have hfresh : s.heap s.next = none := hs.fresh _ le_rfl
  set h : LRUHandle K V := ⟨key, hash key, value, charge, true, 2⟩ with hh
  have hi₁ : Inv hash (allocated s h (s.inUse ++ [s.next]) (s.usage + charge)) (Function.update handles s.next 1) :=
    hs.toInv.allocated (by simp [hh]) (Relisted.added hs.inUse.nodup (by simp [hs.inUse.mem, hfresh]) (by simp [hh]))
      (by simp [cachedCharge, hh]) ⟨by simp [hh], by simp [hh], rfl⟩
  obtain ⟨old, table, hinserted, hbut, hold⟩ := hs.insertTable (h := h) hcap hlt rfl rfl (s.inUse ++ [s.next]) (s.usage + charge)
  have heq : (allocated s ⟨key, hash key, value, charge, false, 1⟩ s.inUse s.usage).cacheEntry s.next
      ⟨key, hash key, value, charge, false, 1⟩ =
      { allocated s h (s.inUse ++ [s.next]) (s.usage + charge) with table := table }.finishErase old := by
    rw [hh] at hinserted
    simp [LRUCache.cacheEntry, allocated, LRUCache.setHandle, LRUCache.appendInUse, hinserted, hh]
  obtain ⟨s', hs', hsound, -⟩ := hbut.finishErase (hi₁.withTable table) fun e he => by
    obtain ⟨hne, hcached⟩ := hold e he
    simpa [allocated, Function.update_of_ne hne] using hcached
  exact ⟨s', heq.trans hs', hsound⟩

theorem Sound.insert (hs : Sound hash s handles latest) (hlt : s.table.elems.toNat < 2 ^ 31) (key : K)
    (value : V) (charge : UInt64) :
    ∃ s', s.insert key (hash key) value charge = some (s.next, s') ∧
      Sound hash s' (Function.update handles s.next 1) (Function.update latest key (some (s.next, value))) ∧
      (s'.usage ≤ s'.capacity ∨ s'.lru = []) := by
  have hstored : ∃ s₁, (if 0 < s.capacity then
        (allocated s ⟨key, hash key, value, charge, false, 1⟩ s.inUse s.usage).cacheEntry s.next
          ⟨key, hash key, value, charge, false, 1⟩
      else some (allocated s ⟨key, hash key, value, charge, false, 1⟩ s.inUse s.usage)) = some s₁ ∧
      Sound hash s₁ (Function.update handles s.next 1) (Function.update latest key (some (s.next, value))) := by
    split
    next hcap => exact hs.cacheEntry (UInt64.ne_of_lt hcap).symm hlt key value charge
    next hcap =>
      have hzero : s.capacity = 0 := by simpa using hcap
      have hoff : s.next ∉ s.inUse := by simp [hs.inUse.mem, hs.fresh _ le_rfl]
      exact ⟨_, rfl, hs.toInv.allocated (by simp) (Relisted.same hs.inUse.nodup (iff_of_false (by simp) hoff))
        (by simp [cachedCharge]) ⟨rfl, by simp, rfl⟩, hs.toIndexedBut.allocated hzero rfl⟩
  obtain ⟨s₁, hs₁, hsound⟩ := hstored
  obtain ⟨s', hs', hsound', hend⟩ := hsound.evictLoop (fun s => s.capacity < s.usage) s₁.lru.length le_rfl
  refine ⟨s', ?_, hsound', hend.imp_left fun hover => UInt64.not_lt.mp (of_decide_eq_false hover)⟩
  have hinsert : s.insert key (hash key) value charge =
      Option.bind (some s₁) fun s₁ => (s₁.evictLoop (fun s => s.capacity < s.usage) s₁.lru.length).bind
        fun s' => some (s.next, s') := by
    rw [← hs₁]
    by_cases hcap : 0 < s.capacity
    · rw [if_pos hcap]
      exact if_pos hcap
    · rw [if_neg hcap]
      exact if_neg hcap
  rw [hinsert, Option.bind_some, hs', Option.bind_some]

end Operations

/-! ### Runs -/

section Runs

variable [DecidableEq K] {hash : K → UInt32} {s s' : LRUCache K V} {handles : ℕ → ℕ} {latest : K → Option (ℕ × V)}

/-- The states that a shard can reach, where `lim` says whether the calls keep to the limits. -/
inductive Run (hash : K → UInt32) (lim : Prop) : LRUCache K V → (ℕ → ℕ) → (K → Option (ℕ × V)) → Prop
  | create (capacity : UInt64) : Run hash lim (LRUCache.create capacity) (fun _ => 0) (fun _ => none)
  /-- The client gets a handle to the new entry. -/
  | insert {s s' handles latest key value charge e} :
      Run hash lim s handles latest → (lim → s.table.elems.toNat < 2 ^ 31) →
      s.insert key (hash key) value charge = some (e, s') →
      Run hash lim s' (Function.update handles e (handles e + 1)) (Function.update latest key (some (e, value)))
  /-- The client gets a handle to the entry that is found. -/
  | hit {s s' handles latest key e} :
      Run hash lim s handles latest → (lim → handles e + 2 < 2 ^ 32) → s.lookup key (hash key) = some (some e, s') →
      Run hash lim s' (Function.update handles e (handles e + 1)) latest
  | miss {s s' handles latest key} :
      Run hash lim s handles latest → s.lookup key (hash key) = some (none, s') → Run hash lim s' handles latest
  /-- A client gives back a handle that it has. -/
  | release {s s' handles latest e} :
      Run hash lim s handles latest → 0 < handles e → s.release e = some s' →
      Run hash lim s' (Function.update handles e (handles e - 1)) latest
  | erase {s s' handles latest key} :
      Run hash lim s handles latest → s.erase key (hash key) = some s' → Run hash lim s' handles latest
  | prune {s s' : LRUCache K V} {handles latest} :
      Run hash lim s handles latest → s.prune = some s' → Run hash lim s' handles latest

theorem Sound.erase (hs : Sound hash s handles latest) (key : K) :
    ∃ s', s.erase key (hash key) = some s' ∧ Sound hash s' handles latest := by
  obtain ⟨s', hs', hsound, -⟩ := hs.removeKey key
  exact ⟨s', by simp [LRUCache.erase, hs'], hsound⟩

theorem Sound.prune (hs : Sound hash s handles latest) : ∃ s', s.prune = some s' ∧ Sound hash s' handles latest := by
  obtain ⟨s', hs', hsound, -⟩ := hs.evictLoop (fun _ => true) _ le_rfl
  exact ⟨s', hs', hsound⟩

omit [DecidableEq K] in
theorem sound_create (hash : K → UInt32) (capacity : UInt64) :
    Sound hash (LRUCache.create capacity : LRUCache K V) (fun _ => 0) fun _ => none := by
  have hok := Table.ok_empty (keyOf (fun _ => none : ℕ → Option (LRUHandle K V))) hashOf
  refine ⟨⟨fun _ _ => rfl, ?_, fun _ _ => rfl, ⟨List.nodup_nil, ?_⟩, ⟨List.nodup_nil, ?_⟩, rfl, ⟨List.nodup_nil, ?_⟩⟩,
    ⟨hok, fun e => ?_, ?_, ?_, ?_⟩⟩
  all_goals simp [LRUCache.create, Table.empty, Table.toList]

/-- **Every state of a run is in order.** -/
theorem Run.sound (h : Run hash True s handles latest) : Sound hash s handles latest := by
  induction h with
  | create capacity => exact sound_create hash capacity
  | @insert s s' handles latest key value charge e _ hlt hs ih =>
    obtain ⟨s₁, hs₁, hsound, -⟩ := ih.insert (hlt trivial) key value charge
    cases hs₁.symm.trans hs
    rwa [ih.freed _ (ih.fresh _ le_rfl)]
  | @hit s s' handles latest key e _ hlim hs ih =>
    rcases ih.lookup key with ⟨e', h, -, -, -, hs₁, href⟩ | ⟨-, hs₁⟩
    · obtain ⟨s₂, hs₂, heq⟩ := Option.map_eq_some_iff.mp (hs₁.symm.trans hs)
      cases heq
      obtain ⟨s₃, hs₃, -, hsound⟩ := href (hlim trivial)
      cases hs₃.symm.trans hs₂
      exact hsound
    · cases hs₁.symm.trans hs
  | @miss s s' handles latest key _ hs ih =>
    rcases ih.lookup key with ⟨e', h, -, -, -, hs₁, -⟩ | ⟨-, hs₁⟩
    · obtain ⟨s₂, -, heq⟩ := Option.map_eq_some_iff.mp (hs₁.symm.trans hs)
      cases heq
    · cases hs₁.symm.trans hs
      exact ih
  | release _ hheld hs ih =>
    obtain ⟨s₁, hs₁, hsound⟩ := ih.release hheld
    cases hs₁.symm.trans hs
    exact hsound
  | @erase s s' handles latest key _ hs ih =>
    obtain ⟨s₁, hs₁, hsound⟩ := ih.erase key
    cases hs₁.symm.trans hs
    exact hsound
  | prune _ hs ih =>
    obtain ⟨s₁, hs₁, hsound⟩ := ih.prune
    cases hs₁.symm.trans hs
    exact hsound

/-- A sum of sizes wraps around. -/
theorem toNat_sum (t : Finset ℕ) (f : ℕ → UInt64) : (∑ i ∈ t, f i).toNat = (∑ i ∈ t, (f i).toNat) % 2 ^ 64 := by
  induction t using Finset.induction_on with
  | empty => rfl
  | insert i t hi ih => rw [Finset.sum_insert hi, Finset.sum_insert hi, UInt64.toNat_add, ih, Nat.add_mod_mod]

/-- The discipline of references: where the entries are, when they are deleted, and what the
operations do. -/
structure Disciplined (hash : K → UInt32) (s : LRUCache K V) (handles : ℕ → ℕ) (latest : K → Option (ℕ × V)) : Prop where
  /-- An entry is on one of the lists, or on none when it is not in the cache. -/
  lists : ∀ e h, s.heap e = some h →
    e ∈ s.lru ∧ e ∉ s.inUse ∧ h.inCache = true ∧ h.refs = 1 ∨
    e ∉ s.lru ∧ e ∈ s.inUse ∧ h.inCache = true ∧ 2 ≤ h.refs ∨
    e ∉ s.lru ∧ e ∉ s.inUse ∧ h.inCache = false
  listed : (s.lru ++ s.inUse).Nodup ∧ ∀ e ∈ s.lru ++ s.inUse, s.heap e ≠ none
  /-- A reference is a handle, or the one of the cache. -/
  refs : ∀ e h, s.heap e = some h → h.refs.toNat = handles e + if h.inCache then 1 else 0
  table : s.table.toList.Nodup ∧ ∀ e, e ∈ s.table.toList ↔ Cached (s.heap e)
  keys : ∀ e e' h h', s.heap e = some h → s.heap e' = some h' → h.inCache = true → h'.inCache = true → h.key = h'.key → e = e'
  /-- As `size_t`, the usage is the sum of the charges. -/
  usage : s.usage.toNat = (∑ e ∈ Finset.range s.next, (cachedCharge (s.heap e)).toNat) % 2 ^ 64
  /-- A deleter has run, once, for the entries that nothing refers to. -/
  deleted : s.deleted.Nodup ∧ ∀ e, e ∈ s.deleted ↔ e < s.next ∧ ¬ Cached (s.heap e) ∧ handles e = 0
  insert : s.table.elems.toNat < 2 ^ 31 → ∀ key value charge, ∃ s', s.insert key (hash key) value charge = some (s.next, s') ∧
    (s'.usage ≤ s'.capacity ∨ s'.lru = [])
  hit : ∀ key e value, latest key = some (e, value) → Cached (s.heap e) → handles e + 2 < 2 ^ 32 →
    ∃ s' h, s.lookup key (hash key) = some (some e, s') ∧ s'.heap e = some h ∧ h.value = value
  miss : ∀ key, (∀ e value, latest key = some (e, value) → ¬ Cached (s.heap e)) → s.lookup key (hash key) = some (none, s)
  release : ∀ e, 0 < handles e → (s.release e).isSome
  erase : ∀ key, (s.erase key (hash key)).isSome
  prune : s.prune.isSome

omit [DecidableEq K] in
/-- The entries that nothing refers to are deleted. -/
theorem Inv.mem_deleted_iff (hi : Inv hash s handles) (e : ℕ) :
    e ∈ s.deleted ↔ e < s.next ∧ ¬ Cached (s.heap e) ∧ handles e = 0 := by
  rw [hi.deleted.mem]
  refine and_congr_right fun _ => ⟨fun hnone => ⟨by simp [hnone], hi.freed e hnone⟩, fun ⟨hoff, hzero⟩ => ?_⟩
  cases he : s.heap e with
  | none => rfl
  | some h =>
    have hentry := hi.entry e h he
    have hin : h.inCache = false := by simpa [he] using hoff
    have hrefs := hentry.refs
    rw [hin, hzero] at hrefs
    exact absurd hrefs (UInt32.lt_iff_toNat_lt.mp hentry.pos).ne'

/-- One entry, whose count is `refs`. -/
def oneEntry (refs : UInt32) : LRUCache ℕ ℕ :=
  ⟨2, 1, [], [0], ⟨1, [[], [], [], [0]]⟩, Function.update (fun _ => none) 0 (some ⟨7, 7, 70, 1, true, refs⟩), 1, []⟩

/-- A lookup of the entry while the count is not 1 only adds to it. -/
theorem lookup_oneEntry {refs : UInt32} (hne : refs ≠ 1) :
    (oneEntry refs).lookup 7 (Nat.toUInt32 7) = some (some 0, oneEntry (refs + 1)) := by
  have hfound : (oneEntry refs).table.lookup (keyOf (oneEntry refs).heap) hashOf (some (7, Nat.toUInt32 7)) = some 0 := by
    simp [Table.lookup, slot, oneEntry, keyOf, hashOf]
  rw [LRUCache.lookup, hfound]
  simp [LRUCache.ref, oneEntry, LRUCache.setHandle, hne]

theorem insert_oneEntry : (LRUCache.create 2).insert 7 (Nat.toUInt32 7) 70 1 = some (0, oneEntry 2) := by
  -- the entry is assigned a second time when it is cached
  have htwice := Function.update_idem (β := fun _ => Option (LRUHandle ℕ ℕ)) (a := 0) (some ⟨7, 7, 70, 1, false, 1⟩)
    (some ⟨7, 7, 70, 1, true, 2⟩) fun _ => none
  rw [oneEntry, ← htwice]
  rfl

/-- The states after the entry has been inserted and looked up `n` times. -/
theorem run_lookups {n : ℕ} (hn : n < 2 ^ 32) :
    Run Nat.toUInt32 False (oneEntry (2 + UInt32.ofNat n)) (Function.update (fun _ => 0) 0 (n + 1))
      (Function.update (fun _ => none) 7 (some (0, 70))) := by
  induction n with
  | zero => exact Run.insert (Run.create 2) (by simp) insert_oneEntry
  | succ n ih =>
    have hne : 2 + UInt32.ofNat n ≠ 1 := by
      rw [Ne, ← UInt32.toNat_inj, UInt32.toNat_add, UInt32.toNat_ofNat']
      simp
      omega
    have hnext := Run.hit (ih (by omega)) (by simp) (lookup_oneEntry hne)
    simpa [add_assoc] using hnext

end Runs

end TLevelDB.Cache
