import Mathlib.Data.List.Basic
import Mathlib.Data.List.Perm.Lattice
import Mathlib.Data.UInt

/-!
# Hash tables with chains

A table has a list of chains. An element with a key is in the chain whose number is given
by the hash of the key, and a table has at most one element with a key (`Table.Ok`). It
grows when it has more elements than chains; the number of elements and that of chains are
words of 32 bits, so it cannot grow any more when it has more than 2³¹ elements.

Inserting an element puts it in the place of the one that has its key, or at the end of its
chain; the rules `insert_spec` and `remove_spec` say which elements are in the table after
an operation, and `lookup_eq_some_iff` that a lookup finds the element with the key.
-/

namespace TLevelDB.ChainedTable

variable {α κ : Type} [DecidableEq κ]

/-- The chains, and the number of elements in them. -/
structure Table (α : Type) where
  elems : UInt32
  chains : List (List α)

/-- The number of the chain for a hash. -/
def slot (length : ℕ) (hash : UInt32) : ℕ := hash.toNat &&& (length - 1)

theorem slot_lt {length : ℕ} (h : 0 < length) (hash : UInt32) : slot length hash < length := by
  have hle : slot length hash ≤ length - 1 := Nat.and_le_right
  omega

/-! ### Operations -/

section Operations

variable (keyOf : α → κ) (hash : κ → UInt32)

/-- The element with the key. -/
def Table.lookup (t : Table α) (k : κ) : Option α :=
  (t.chains.getD (slot t.chains.length (hash k)) []).find? fun a => keyOf a = k

/-- The number of chains, doubled until it is as large as the number of elements, if that ends. -/
def newLength (elems : UInt32) : ℕ → UInt32 → Option UInt32
  | 0, _ => none
  | fuel + 1, n => if n < elems then newLength elems fuel (n * 2) else some n

/-- The elements, each put in front of its chain. -/
def rehash (length : ℕ) (elements : List α) (chains : List (List α)) : List (List α) :=
  elements.foldl (fun chains a => chains.modify (slot length (hash (keyOf a))) (a :: ·)) chains

/-- The elements in at least as many chains. A number that has been doubled 32 times is zero. -/
def Table.resize (t : Table α) : Option (Table α) :=
  (newLength t.elems 33 4).map fun length =>
    ⟨t.elems, rehash keyOf hash length.toNat t.chains.flatten (List.replicate length.toNat [])⟩

/-- The element in the place of the one with the key, or at the end. -/
def replace (k : κ) (a : α) (chain : List α) : List α :=
  chain.takeWhile (fun b => !decide (keyOf b = k)) ++ a :: (chain.dropWhile fun b => !decide (keyOf b = k)).tail

/-- The table with the element, and the one that it has replaced. -/
def Table.insert (t : Table α) (a : α) : Option (Option α × Table α) :=
  let chains := t.chains.modify (slot t.chains.length (hash (keyOf a))) (replace keyOf (keyOf a) a)
  match t.lookup keyOf hash (keyOf a) with
  | some old => some (some old, ⟨t.elems, chains⟩)
  | none =>
    let t' : Table α := ⟨t.elems + 1, chains⟩
    if t.chains.length < t'.elems.toNat then (t'.resize keyOf hash).map fun t => (none, t) else some (none, t')

/-- The table without the element with the key, and that element. -/
def Table.remove (t : Table α) (k : κ) : Option α × Table α :=
  match t.lookup keyOf hash k with
  | some old => (some old, ⟨t.elems - 1, t.chains.modify (slot t.chains.length (hash k)) (·.eraseP fun a => keyOf a = k)⟩)
  | none => (none, t)

end Operations

/-! ### Chains -/

/-- Every element is in its chain. -/
def Slots (keyOf : α → κ) (hash : κ → UInt32) (length : ℕ) (chains : List (List α)) : Prop :=
  ∀ i chain, chains[i]? = some chain → ∀ a ∈ chain, slot length (hash (keyOf a)) = i

section Chains

variable {keyOf : α → κ} {hash : κ → UInt32} {chains : List (List α)} {i length : ℕ}

omit [DecidableEq κ] in
theorem Slots.modify {f : List α → List α} (h : Slots keyOf hash length chains)
    (hf : ∀ chain, ∀ a ∈ f chain, a ∈ chain ∨ slot length (hash (keyOf a)) = i) :
    Slots keyOf hash length (chains.modify i f) := by
  intro j chain hj a ha
  rw [List.getElem?_modify] at hj
  obtain ⟨old, hold, rfl⟩ := Option.map_eq_some_iff.mp hj
  by_cases heq : i = j
  · rw [if_pos heq] at ha
    exact (hf old a ha).elim (h j old hold a) fun hslot => hslot.trans heq
  · rw [if_neg heq] at ha
    exact h j old hold a ha

/-- The elements of the other chains. -/
theorem exists_others (h : i < chains.length) : ∃ others : List α,
    (∀ f, (chains.modify i f).flatten.Perm (f chains[i] ++ others)) ∧
      ∀ a ∈ others, ∃ j ≠ i, ∃ chain, chains[j]? = some chain ∧ a ∈ chain := by
  refine ⟨(chains.take i ++ chains.drop (i + 1)).flatten, fun f => ?_, fun a ha => ?_⟩
  · rw [List.modify_eq_take_cons_drop h, List.flatten_append, List.flatten_cons, List.flatten_append]
    exact List.perm_append_comm_assoc _ _ _
  · obtain ⟨chain, hchain, ha⟩ := List.mem_flatten.mp ha
    rcases List.mem_append.mp hchain with hchain | hchain
    · obtain ⟨j, hj, rfl⟩ := List.mem_take_iff_getElem.mp hchain
      exact ⟨j, by omega, _, List.getElem?_eq_getElem _, ha⟩
    · obtain ⟨j, hj, rfl⟩ := List.mem_drop_iff_getElem.mp hchain
      exact ⟨i + 1 + j, by omega, _, List.getElem?_eq_getElem _, ha⟩

theorem mem_replace {k : κ} {a b : α} {chain : List α} (h : b ∈ replace keyOf k a chain) : b = a ∨ b ∈ chain := by
  rcases List.mem_append.mp h with h | h
  · exact .inr ((List.takeWhile_sublist _).subset h)
  · exact (List.mem_cons.mp h).imp_right fun h => (List.dropWhile_sublist _).subset (List.mem_of_mem_tail h)

/-- The element of a chain with the key is found, replaced and removed, and the others stay. -/
theorem chain_spec {chain : List α} (h : chain.Pairwise fun a b => keyOf a ≠ keyOf b) (k : κ) :
    ∃ rest, chain.Perm ((chain.find? fun a => keyOf a = k).toList ++ rest) ∧ (∀ b ∈ rest, keyOf b ≠ k) ∧
      (∀ a, (replace keyOf k a chain).Perm (a :: rest)) ∧ (chain.eraseP fun a => keyOf a = k).Perm rest := by
  induction chain with
  | nil => exact ⟨[], .refl _, by simp, fun a => .refl _, .refl _⟩
  | cons c chain ih =>
    obtain ⟨hc, hchain⟩ := List.pairwise_cons.mp h
    by_cases hk : keyOf c = k
    · exact ⟨chain, by simp [hk], fun b hb => hk ▸ (hc b hb).symm, fun a => by simp [replace, hk], by simp [hk]⟩
    · obtain ⟨rest, hfind, hrest, hreplace, herase⟩ := ih hchain
      refine ⟨c :: rest, ?_, by simpa [hk] using hrest, fun a => ?_, by simpa [hk] using herase⟩
      · simpa [hk] using (hfind.cons c).trans List.perm_middle.symm
      · simpa [replace, hk] using ((hreplace a).cons c).trans (.swap a c rest)

end Chains

/-! ### Tables -/

/-- Every element is in its chain, no two have the same key, and the number of elements is
right. -/
structure Table.Ok (keyOf : α → κ) (hash : κ → UInt32) (t : Table α) : Prop where
  pos : 0 < t.chains.length
  slots : ∀ i chain, t.chains[i]? = some chain → ∀ a ∈ chain, slot t.chains.length (hash (keyOf a)) = i
  keys : t.chains.flatten.Pairwise fun a b => keyOf a ≠ keyOf b
  elems : t.elems.toNat = t.chains.flatten.length

/-- The elements. -/
def Table.toList (t : Table α) : List α := t.chains.flatten

section Tables

variable {keyOf : α → κ} {hash : κ → UInt32} {t : Table α} {a b : α} {k : κ}

section

omit [DecidableEq κ]

theorem Table.Ok.nodup (h : t.Ok keyOf hash) : t.toList.Nodup :=
  h.keys.imp fun {a b} (hne : keyOf a ≠ keyOf b) (heq : a = b) => hne (heq ▸ rfl)

/-- Only the keys of its elements matter to a table. -/
theorem Table.Ok.congr {keyOf' : α → κ} (h : t.Ok keyOf hash) (heq : ∀ a ∈ t.toList, keyOf' a = keyOf a) :
    t.Ok keyOf' hash where
  pos := h.pos
  slots i chain hi a ha := by
    rw [heq a (List.mem_flatten.mpr ⟨chain, List.mem_of_getElem? hi, ha⟩)]
    exact h.slots i chain hi a ha
  keys := h.keys.imp_of_mem fun {a b} ha hb hne => by rwa [heq a ha, heq b hb]
  elems := h.elems

end

/-- The elements without the one with the key, and the chains where that is replaced or removed. -/
structure Table.Without (keyOf : α → κ) (hash : κ → UInt32) (t : Table α) (k : κ) (rest : List α) : Prop where
  perm : t.toList.Perm ((t.lookup keyOf hash k).toList ++ rest)
  mem : ∀ x, x ∈ rest ↔ x ∈ t.toList ∧ keyOf x ≠ k
  keys : rest.Pairwise fun a b => keyOf a ≠ keyOf b
  replace : ∀ a, (t.chains.modify (slot t.chains.length (hash k)) (replace keyOf k a)).flatten.Perm (a :: rest)
  erase : (t.chains.modify (slot t.chains.length (hash k)) (·.eraseP fun a => keyOf a = k)).flatten.Perm rest

theorem Table.keyOf_lookup (h : t.lookup keyOf hash k = some a) : keyOf a = k := by simpa using List.find?_some h

theorem Table.Ok.exists_without (h : t.Ok keyOf hash) (k : κ) : ∃ rest, t.Without keyOf hash k rest := by
  have hlt := slot_lt h.pos (hash k)
  obtain ⟨others, hothers, hplaces⟩ := exists_others hlt
  have hall := hothers id
  rw [List.modify_id, id] at hall
  have hchain := h.keys.sublist (List.sublist_flatten_of_mem (List.getElem_mem hlt))
  obtain ⟨rest, hfind, hrest, hreplace, herase⟩ := chain_spec hchain k
  have hlookup : t.lookup keyOf hash k = t.chains[slot t.chains.length (hash k)].find? fun a => keyOf a = k := by
    rw [Table.lookup, List.getD_eq_getElem?_getD, List.getElem?_eq_getElem hlt]
    rfl
  have hperm : t.toList.Perm ((t.lookup keyOf hash k).toList ++ (rest ++ others)) := by
    rw [hlookup, ← List.append_assoc]
    exact hall.trans (hfind.append_right others)
  -- the number of another chain is another one
  have hne : ∀ b ∈ rest ++ others, keyOf b ≠ k := by
    refine List.forall_mem_append.mpr ⟨hrest, fun b hb hk => ?_⟩
    obtain ⟨j, hne, chain, hj, hmem⟩ := hplaces b hb
    exact hne ((h.slots j chain hj b hmem).symm.trans (by rw [hk]))
  refine ⟨rest ++ others, hperm, fun x => ?_, ?_, fun a => (hothers _).trans ((hreplace a).append_right others),
    (hothers _).trans (herase.append_right others)⟩
  · rw [hperm.mem_iff, List.mem_append (s := Option.toList _), Option.mem_toList]
    exact ⟨fun hx => ⟨.inr hx, hne x hx⟩, fun hx => hx.1.resolve_left fun hx' => hx.2 (keyOf_lookup hx')⟩
  · exact (List.pairwise_append.mp ((hperm.pairwise_iff fun hne heq => hne heq.symm).mp h.keys)).2.1

/-- A lookup finds the element with the key. -/
theorem Table.Ok.lookup_eq_some_iff (h : t.Ok keyOf hash) :
    t.lookup keyOf hash k = some a ↔ a ∈ t.toList ∧ keyOf a = k := by
  obtain ⟨rest, hwithout⟩ := h.exists_without k
  rw [hwithout.perm.mem_iff, List.mem_append, Option.mem_toList]
  refine ⟨fun hlookup => ⟨.inl hlookup, keyOf_lookup hlookup⟩, fun ha => ha.1.resolve_right fun hrest => ?_⟩
  exact ((hwithout.mem a).mp hrest).2 ha.2

omit [DecidableEq κ] in
theorem Table.ok_of_perm {chains : List (List α)} {length : ℕ} {elements : List α} {elems : UInt32}
    (hlen : chains.length = length) (hpos : 0 < length) (hslots : Slots keyOf hash length chains)
    (hperm : chains.flatten.Perm elements) (hkeys : elements.Pairwise fun a b => keyOf a ≠ keyOf b)
    (helems : elems.toNat = elements.length) : (⟨elems, chains⟩ : Table α).Ok keyOf hash := by
  subst hlen
  exact ⟨hpos, hslots, (hperm.pairwise_iff fun hne heq => hne heq.symm).mpr hkeys, helems.trans hperm.length_eq.symm⟩

/-! ### Resizing -/

/-- Doubling ends where there are at most 2³¹ elements. -/
theorem exists_newLength {elems : UInt32} (helems : elems.toNat ≤ 2 ^ 31) {fuel k : ℕ} (hk : k ≤ 29) (hfuel : 29 < fuel + k)
    {n : UInt32} (hn : n.toNat = 4 * 2 ^ k) : ∃ length, newLength elems fuel n = some length ∧ 0 < length.toNat := by
  induction fuel generalizing k n with
  | zero => omega
  | succ fuel ih =>
    have hpos : 0 < 2 ^ k := Nat.two_pow_pos k
    rw [newLength]
    split
    next hlt =>
      rw [UInt32.lt_iff_toNat_lt, hn] at hlt
      -- the number is still below 2³¹
      have hk' : k < 29 := by
        by_contra hge
        obtain rfl : k = 29 := by omega
        omega
      have hle : 2 ^ k ≤ 2 ^ 28 := Nat.pow_le_pow_right (by decide) (by omega)
      refine ih (k := k + 1) (by omega) (by omega) ?_
      rw [UInt32.toNat_mul, hn, pow_succ, show (2 : UInt32).toNat = 2 from rfl]
      exact (Nat.mod_eq_of_lt (by omega)).trans (by omega)
    next => exact ⟨n, rfl, by omega⟩

section

omit [DecidableEq κ]

theorem length_rehash (length : ℕ) (elements : List α) (chains : List (List α)) :
    (rehash keyOf hash length elements chains).length = chains.length := by
  induction elements generalizing chains with
  | nil => rfl
  | cons a elements ih => rw [rehash, List.foldl_cons, ← rehash, ih, List.length_modify]

/-- Rehashing puts every element into its chain, and keeps what is there. -/
theorem rehash_spec {length : ℕ} (hlen : 0 < length) (elements : List α) {chains : List (List α)}
    (hchains : chains.length = length) (hslots : Slots keyOf hash length chains) :
    (rehash keyOf hash length elements chains).flatten.Perm (elements ++ chains.flatten) ∧
      Slots keyOf hash length (rehash keyOf hash length elements chains) := by
  induction elements generalizing chains with
  | nil => exact ⟨.refl _, hslots⟩
  | cons a elements ih =>
    obtain ⟨others, hothers, -⟩ := exists_others (show slot length (hash (keyOf a)) < chains.length from
      hchains ▸ slot_lt hlen _)
    have hall := hothers id
    rw [List.modify_id] at hall
    have hnext : Slots keyOf hash length (chains.modify (slot length (hash (keyOf a))) (a :: ·)) :=
      hslots.modify fun chain b hb => (List.mem_cons.mp hb).symm.imp_right fun heq => by rw [heq]
    obtain ⟨hperm, hslots'⟩ := ih (by rw [List.length_modify, hchains]) hnext
    have hcons := (hothers (a :: ·)).trans (hall.symm.cons a)
    rw [rehash, List.foldl_cons, ← rehash]
    exact ⟨hperm.trans ((hcons.append_left elements).trans List.perm_middle), hslots'⟩

theorem slots_replicate (length : ℕ) : Slots keyOf hash length (List.replicate length ([] : List α)) := by
  intro i chain hi a ha
  rw [List.eq_of_mem_replicate (List.mem_of_getElem? hi)] at ha
  exact absurd ha List.not_mem_nil

theorem Table.resize_spec (hkeys : t.toList.Pairwise fun a b => keyOf a ≠ keyOf b)
    (helems : t.elems.toNat = t.toList.length) (hle : t.elems.toNat ≤ 2 ^ 31) :
    ∃ t', t.resize keyOf hash = some t' ∧ t'.Ok keyOf hash ∧ t'.toList.Perm t.toList := by
  obtain ⟨length, hlength, hpos⟩ := @exists_newLength t.elems hle 33 0 (by decide) (by decide) 4 rfl
  have hempty : Slots keyOf hash length.toNat (List.replicate length.toNat []) := slots_replicate _
  obtain ⟨hperm, hslots⟩ := rehash_spec hpos t.toList (by simp) hempty
  rw [List.flatten_replicate_nil, List.append_nil] at hperm
  have hlen : (rehash keyOf hash length.toNat t.toList (List.replicate length.toNat [])).length = length.toNat := by
    rw [length_rehash, List.length_replicate]
  exact ⟨_, by rw [Table.resize, hlength]; rfl, ok_of_perm hlen hpos hslots hperm hkeys helems, hperm⟩

end

/-- The empty table, with the chains that `resize` gives it. -/
def Table.empty : Table α := ⟨0, List.replicate 4 []⟩

omit [DecidableEq κ] in
theorem Table.ok_empty (keyOf : α → κ) (hash : κ → UInt32) : (Table.empty : Table α).Ok keyOf hash where
  pos := by simp [Table.empty]
  slots := slots_replicate 4
  keys := by simp [Table.empty]
  elems := rfl

/-! ### What the operations do -/

/-- Removing returns the element with the key, and leaves the others. -/
theorem Table.Ok.remove_spec (h : t.Ok keyOf hash) (k : κ) :
    (t.remove keyOf hash k).1 = t.lookup keyOf hash k ∧ (t.remove keyOf hash k).2.Ok keyOf hash ∧
      ∀ x, x ∈ (t.remove keyOf hash k).2.toList ↔ x ∈ t.toList ∧ keyOf x ≠ k := by
  obtain ⟨rest, hwithout⟩ := h.exists_without k
  have hperm := hwithout.perm
  have helems := h.elems.trans hperm.length_eq
  rw [Table.remove]
  cases hlookup : t.lookup keyOf hash k with
  | none =>
    rw [hlookup] at hperm
    exact ⟨rfl, h, fun x => hperm.mem_iff.trans (hwithout.mem x)⟩
  | some b =>
    rw [hlookup] at helems
    refine ⟨rfl, ?_, fun x => hwithout.erase.mem_iff.trans (hwithout.mem x)⟩
    have hone : (1 : UInt32) ≤ t.elems := UInt32.le_iff_toNat_le.mpr (by simp [helems])
    exact ok_of_perm (List.length_modify ..) h.pos
      (Slots.modify h.slots fun chain a ha => .inl (List.mem_of_mem_eraseP ha)) hwithout.erase hwithout.keys
      (by rw [UInt32.toNat_sub_of_le _ _ hone, helems]; simp)

/-- Inserting returns the element with the key, and puts the new one in its place. -/
theorem Table.Ok.insert_spec (h : t.Ok keyOf hash) (a : α) (hlt : t.elems.toNat < 2 ^ 31) :
    ∃ t', t.insert keyOf hash a = some (t.lookup keyOf hash (keyOf a), t') ∧ t'.Ok keyOf hash ∧
      ∀ x, x ∈ t'.toList ↔ x = a ∨ x ∈ t.toList ∧ keyOf x ≠ keyOf a := by
  obtain ⟨rest, hwithout⟩ := h.exists_without (keyOf a)
  have hreplace := hwithout.replace a
  have hmem : ∀ x, x ∈ a :: rest ↔ x = a ∨ x ∈ t.toList ∧ keyOf x ≠ keyOf a := fun x => by
    rw [List.mem_cons, hwithout.mem]
  have helems := h.elems.trans hwithout.perm.length_eq
  have hslots := Slots.modify h.slots fun chain b (hb : b ∈ replace keyOf (keyOf a) a chain) =>
    (mem_replace hb).symm.imp_right fun heq => by rw [heq]
  have hok := fun elems => @ok_of_perm _ _ _ _ _ _ _ elems (List.length_modify ..) h.pos hslots hreplace
    (List.pairwise_cons.mpr ⟨fun x hx heq => ((hwithout.mem x).mp hx).2 heq.symm, hwithout.keys⟩)
  rw [Table.insert]
  cases hlookup : t.lookup keyOf hash (keyOf a) with
  | some b =>
    rw [hlookup] at helems
    exact ⟨_, rfl, hok _ (by simpa using helems), fun x => hreplace.mem_iff.trans (hmem x)⟩
  | none =>
    rw [hlookup] at helems
    have hsum : (t.elems + 1).toNat = t.elems.toNat + 1 := by
      rw [UInt32.toNat_add]
      exact Nat.mod_eq_of_lt (by simp; omega)
    have hok := hok (t.elems + 1) (by simpa [hsum] using helems)
    dsimp only
    split
    · obtain ⟨t', ht', hok', hperm⟩ := @Table.resize_spec _ _ keyOf hash _ hok.keys hok.elems (by rw [hsum]; omega)
      rw [ht']
      exact ⟨t', rfl, hok', fun x => (hperm.trans hreplace).mem_iff.trans (hmem x)⟩
    · exact ⟨_, rfl, hok, fun x => hreplace.mem_iff.trans (hmem x)⟩

end Tables

end TLevelDB.ChainedTable
