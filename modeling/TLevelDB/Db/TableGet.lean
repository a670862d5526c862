import Mathlib.Data.List.MinMax
import TLevelDB.Db.KeyBytes
import TLevelDB.Table.Get

/-!
# Looking internal keys up in tables

The tables of a database hold internal keys. Filters are made of the user keys only
(`InternalFilterPolicy`), so that the key of a lookup matches if an entry of its user key is in
the block. What `InternalGet` finds goes to `SaveValue`, which looks whether it is an entry of the
right user key.

The separators of blocks are shortened in their user keys, and so the block of the index may end
before the key of the lookup. Then the entry that comes next has another user key
(`exists_isGE_of_after`), and nothing is missed. In all, a lookup saves the newest entry of its
user key that is not newer than its sequence number, with filters and without
(`internalGet_saveValue`).
-/

namespace TLevelDB.Db.TableGet

open Coding
open Table (BlockCache FilterPolicy RandomAccessFile ReadOptions Rep TableBuilder TableFile WritableFile)

/-! ### The model -/

/-- `InternalFilterPolicy`. The keys are changed where they are, but are not used again. -/
def internalFilterPolicy (userPolicy : FilterPolicy) : FilterPolicy where
  name := userPolicy.name
  createFilter keys := userPolicy.createFilter (keys.map extractUserKey)
  keyMayMatch key f := userPolicy.keyMayMatch (extractUserKey key) f
  noFalseNegatives _ _ hkey := userPolicy.noFalseNegatives _ _ (List.mem_map_of_mem hkey)

inductive SaverState where
  | notFound
  | found
  | deleted
  | corrupt
deriving DecidableEq

/-- `Saver`; the user comparator is the bytewise one. -/
structure Saver where
  state : SaverState
  userKey : Slice
  value : Slice
deriving DecidableEq

/-- `SaveValue`, once the key is known to be the right one. -/
def Saver.save (s : Saver) (type : ValueType) (v : Slice) : Saver :=
  match type with
  | .value => { s with state := .found, value := v }
  | .deletion => { s with state := .deleted }

def saveValue (s : Saver) (ikey v : Slice) : Saver :=
  match parseInternalKey ikey with
  | none => { s with state := .corrupt }
  | some parsedKey => if sliceCompare parsedKey.userKey s.userKey = .eq then s.save parsedKey.type v else s

/-- The cache after some lookups. -/
def cacheAfter (o : Table.Options) {σ : Type} (cache : BlockCache σ) (options : ReadOptions) (t : Rep) (st : σ)
    (ks : List LookupKey) : σ :=
  ks.foldl (fun st k => (t.internalGet o cache options st k.internalKey () fun _ _ _ => ()).1) st

/-! ### What a lookup should find -/

/-- The entries of a table, by what is in their keys. -/
def parsedEntries (es : List (Slice × Slice)) : List (InternalKey Slice × Slice) :=
  es.filterMap fun e => (parseInternalKey e.1).map fun ikey => (ikey, e.2)

/-- The entry is one of the user key of the lookup, and not too new for it. -/
def Sees (k : LookupKey) (ikey : InternalKey Slice) : Prop := ikey.userKey = k.userKey ∧ ikey.sequence ≤ k.sequence.toNat

instance (k : LookupKey) (ikey : InternalKey Slice) : Decidable (Sees k ikey) := inferInstanceAs (Decidable (_ ∧ _))

/-- The newest entry of a user key with a sequence number up to that of the lookup. -/
def newestEntry (es : List (Slice × Slice)) (k : LookupKey) : Option (InternalKey Slice × Slice) :=
  ((parsedEntries es).filter fun e => Sees k e.1).argmax fun e => packSequenceAndType e.1.sequence e.1.type

/-- What should be saved. -/
def Saver.after (s : Saver) (es : List (Slice × Slice)) (k : LookupKey) : Saver :=
  match newestEntry es k with
  | none => s
  | some e => s.save e.1.type e.2

/-! ### Keys -/

variable {a b c : Slice} {ikey : InternalKey Slice} {k : LookupKey}

theorem isLE_userKey (h : (internalCompare sliceCompare a b).isLE) :
    (sliceCompare (extractUserKey a) (extractUserKey b)).isLE := by
  rw [internalCompare_eq] at h
  cases huser : sliceCompare (extractUserKey a) (extractUserKey b) with
  | gt =>
    rw [huser] at h
    cases h
  | _ => rfl

/-- What a lookup sees, in the bytes of the key. -/
theorem sees_iff (hk : k.sequence.toNat ≤ kMaxSequenceNumber) (ha : parseInternalKey a = some ikey) : Sees k ikey ↔
    sliceCompare (extractUserKey a) k.userKey = .eq ∧ (extractTag a).toNat ≤ (extractTag k.internalKey).toNat := by
  obtain ⟨hkey, htag⟩ := parseInternalKey_eq_some ha
  rw [Sees, hkey, ← htag, LookupKey.le_tag_internalKey_iff hk]
  refine and_congr_left' ⟨fun huser => ?_, eq_of_sliceCompare⟩
  rw [huser]
  exact Std.ReflCmp.compare_self

/-- **The separator of a block may be past its last key**, but not so that an entry of the user
key of the lookup comes next. -/
theorem exists_isGE_of_after {o : Table.Options} (hcomparator : o.comparator = internalKeyComparator)
    {s : TableBuilder.Section} (hafter : TableBuilder.After o s b) (hseparator : (o.comparator.compare s.separator c).isGE)
    (huser : extractUserKey c = extractUserKey b) : ∃ e ∈ s.entries, (o.comparator.compare e.1 c).isGE := by
  obtain ⟨last, hlast, limit, hlimit, heq, hle⟩ := hafter
  refine ⟨last, hlast, ?_⟩
  rw [hcomparator, internalKeyComparator_compare] at hlimit hle hseparator ⊢
  rw [hcomparator, internalKeyComparator_findShortestSeparator] at heq
  rw [heq] at hseparator
  rcases internalSeparator_cases hlimit with hsame | hlt
  · -- the separator is the last key
    rwa [hsame] at hseparator
  · -- the lookup and what comes next would be on two sides of the limit
    have hbelow := isLE_userKey (Std.OrientedCmp.isGE_iff_isLE.mp hseparator)
    have hlimit' : (sliceCompare (extractUserKey limit) (extractUserKey c)).isLE := huser ▸ isLE_userKey hle
    have hself := Std.TransCmp.lt_of_isLE_of_lt hbelow (Std.TransCmp.lt_of_lt_of_isLE hlt hlimit')
    have hrefl : sliceCompare (extractUserKey c) (extractUserKey c) = .eq := Std.ReflCmp.compare_self
    rw [hrefl] at hself
    cases hself

/-! ### The newest entry -/

variable {es : List (Slice × Slice)} {e : Slice × Slice}

theorem mem_parsedEntries {p : InternalKey Slice × Slice} :
    p ∈ parsedEntries es ↔ ∃ e ∈ es, parseInternalKey e.1 = some p.1 ∧ e.2 = p.2 := by
  simp only [parsedEntries, List.mem_filterMap, Option.map_eq_some_iff]
  constructor
  · rintro ⟨e, he, ikey, hparse, rfl⟩
    exact ⟨e, he, hparse, rfl⟩
  · rintro ⟨e, he, hparse, hvalue⟩
    exact ⟨e, he, p.1, hparse, by rw [hvalue]⟩

theorem newestEntry_eq_none (h : ∀ e ∈ es, ∀ ikey, parseInternalKey e.1 = some ikey → ¬ Sees k ikey) :
    newestEntry es k = none := by
  rw [newestEntry, List.argmax_eq_none, List.filter_eq_nil_iff]
  intro p hp hsees
  obtain ⟨e, he, hparse, -⟩ := mem_parsedEntries.mp hp
  exact h e he p.1 hparse (of_decide_eq_true hsees)

theorem newestEntry_eq_some (he : e ∈ es) (hparse : parseInternalKey e.1 = some ikey) (hsees : Sees k ikey)
    (hnewest : ∀ e' ∈ es, ∀ ikey', parseInternalKey e'.1 = some ikey' → Sees k ikey' →
      e' = e ∨ packSequenceAndType ikey'.sequence ikey'.type < packSequenceAndType ikey.sequence ikey.type) :
    newestEntry es k = some (ikey, e.2) := by
  have hothers : ∀ p ∈ (parsedEntries es).filter fun p => Sees k p.1, p = (ikey, e.2) ∨
      packSequenceAndType p.1.sequence p.1.type < packSequenceAndType ikey.sequence ikey.type := by
    intro p hp
    obtain ⟨hmem, hvisible⟩ := List.mem_filter.mp hp
    obtain ⟨e', he', hparse', hvalue⟩ := mem_parsedEntries.mp hmem
    rcases hnewest e' he' p.1 hparse' (of_decide_eq_true hvisible) with rfl | hlt
    · rw [hparse] at hparse'
      exact .inl (Prod.ext (Option.some.inj hparse').symm hvalue.symm)
    · exact .inr hlt
  have hmem : (ikey, e.2) ∈ parsedEntries es := mem_parsedEntries.mpr ⟨e, he, hparse, rfl⟩
  have hmem' : (ikey, e.2) ∈ (parsedEntries es).filter fun p => Sees k p.1 :=
    List.mem_filter.mpr ⟨hmem, decide_eq_true hsees⟩
  rw [newestEntry, List.argmax_eq_some_iff]
  refine ⟨hmem', fun p hp => ?_, fun p hp hle => ?_⟩
  · rcases hothers p hp with rfl | hlt
    · exact le_rfl
    · exact hlt.le
  · rcases hothers p hp with rfl | hlt
    · exact le_rfl
    · exact absurd hle (Nat.not_le.mpr hlt)

/-- **The newest entry is the first one that is not below the key of the lookup**, if that is an
entry of its user key. -/
theorem newestEntry_eq (hes : es.Pairwise fun e e' => internalCompare sliceCompare e.1 e'.1 = .lt)
    (hk : k.sequence.toNat ≤ kMaxSequenceNumber) :
    let first := es.find? fun e => (internalCompare sliceCompare e.1 k.internalKey).isGE
    (first = none → newestEntry es k = none) ∧
    ∀ e, first = some e → ∀ ikey, parseInternalKey e.1 = some ikey →
      newestEntry es k = if ikey.userKey = k.userKey then some (ikey, e.2) else none := by
  intro first
  have hp : ∀ e : Slice × Slice, (internalCompare sliceCompare e.1 k.internalKey).isGE ↔
      internalCompare sliceCompare e.1 k.internalKey ≠ .lt := fun e => Ordering.isGE_iff_ne_lt
  constructor
  · intro hnone
    refine newestEntry_eq_none fun e he ikey hparse hsees => List.find?_eq_none.mp hnone e he ?_
    exact (hp e).mpr (LookupKey.not_below_iff.mpr (.inr ((sees_iff hk hparse).mp hsees)))
  · intro e hsome ikey hparse
    have hnewest : ∀ e' ∈ es, ∀ ikey', parseInternalKey e'.1 = some ikey' → Sees k ikey' →
        sliceCompare (extractUserKey e.1) k.userKey = .eq ∧
          (e' = e ∨ packSequenceAndType ikey'.sequence ikey'.type < packSequenceAndType ikey.sequence ikey.type) := by
      intro e' he' ikey' hparse' hsees'
      obtain ⟨huser', htag'⟩ := (sees_iff hk hparse').mp hsees'
      rw [(parseInternalKey_eq_some hparse).2, (parseInternalKey_eq_some hparse').2]
      exact LookupKey.newest_of_find hp hes hsome he' huser' htag'
    have hkey := (parseInternalKey_eq_some hparse).1
    split_ifs with huser
    · refine newestEntry_eq_some (List.mem_of_find?_eq_some hsome) hparse ?_ fun e' he' ikey' hparse' hsees' =>
        (hnewest e' he' ikey' hparse' hsees').2
      refine (sees_iff hk hparse).mpr ((LookupKey.not_below_iff.mp ((hp e).mp (List.find?_eq_some_iff_append.mp hsome).1)).resolve_left ?_)
      have hself : sliceCompare k.userKey k.userKey = .eq := Std.ReflCmp.compare_self
      rw [← hkey, huser, hself]
      decide
    · refine newestEntry_eq_none fun e' he' ikey' hparse' hsees' => huser ?_
      rw [hkey]
      exact eq_of_sliceCompare (hnewest e' he' ikey' hparse' hsees').1

/-! ### Lookups -/

section Lookups

variable {o : Table.Options} {file : RandomAccessFile} {blocks : List Slice} {t : TableFile o file.contents blocks}
  {s : Saver}

theorem saveValue_eq (h : parseInternalKey a = some ikey) (v : Slice) :
    saveValue s a v = if ikey.userKey = s.userKey then s.save ikey.type v else s := by
  have hrefl : sliceCompare s.userKey s.userKey = .eq := Std.ReflCmp.compare_self
  rw [saveValue, h]
  dsimp only
  by_cases huser : ikey.userKey = s.userKey
  · rw [if_pos huser, huser, hrefl, if_pos rfl]
  · rw [if_neg huser, if_neg fun heq => huser (eq_of_sliceCompare heq)]

/-- **A lookup saves the newest entry**, if no block is rejected that has entries of its user key. -/
theorem handled_saveValue (hcomparator : o.comparator = internalKeyComparator) (hes : o.comparator.Increasing t.entries)
    (hkeys : ∀ e ∈ t.entries, WellFormed e.1) (hk : k.sequence.toNat ≤ kMaxSequenceNumber) (hs : s.userKey = k.userKey)
    {rejects : TableBuilder.Section → Bool}
    (hrejects : ∀ sec ∈ t.sections, ∀ e ∈ sec.entries, extractUserKey e.1 = k.userKey → rejects sec = false) :
    t.handled rejects k.internalKey s saveValue = s.after t.entries k := by
  have hfind := t.find_sectionFor k.internalKey
  rw [hcomparator] at hes
  obtain ⟨hnewest, hnewest'⟩ := newestEntry_eq hes hk
  rw [← internalKeyComparator_compare, ← hcomparator] at hnewest hnewest'
  obtain ⟨hnone, hsome⟩ := hfind
  rw [TableFile.handled, Saver.after]
  cases hsection : t.sectionFor k.internalKey with
  | none => rw [hnewest (hnone hsection)]
  | some sec =>
    obtain ⟨hsec, hge, hcase⟩ := hsome sec hsection
    dsimp only
    rw [Table.handled]
    cases hfirst : t.entries.find? fun e => (o.comparator.compare e.1 k.internalKey).isGE with
    | none =>
      have hblock : sec.entries.find? (fun e => (o.comparator.compare e.1 k.internalKey).isGE) = none :=
        hcase.elim (fun h => h.trans hfirst) And.left
      rw [hnewest hfirst, hblock]
      exact ite_self _
    | some e =>
      obtain ⟨ikey, hparse⟩ := Option.isSome_iff_exists.mp (hkeys e (List.mem_of_find?_eq_some hfirst))
      have hkey := (parseInternalKey_eq_some hparse).1
      rw [hnewest' e hfirst ikey hparse]
      by_cases huser : ikey.userKey = k.userKey
      · -- the entry is in the block
        have hblock : sec.entries.find? (fun e => (o.comparator.compare e.1 k.internalKey).isGE) = some e := by
          rcases hcase with heq | ⟨hblock, hafter⟩
          · exact heq.trans hfirst
          · obtain ⟨e', he', hge'⟩ := exists_isGE_of_after hcomparator (hafter e hfirst) hge
              (by rw [LookupKey.extractUserKey_internalKey, ← huser, hkey])
            exact absurd hge' (List.find?_eq_none.mp hblock e' he')
        have hmem : e ∈ sec.entries := List.mem_of_find?_eq_some hblock
        rw [hblock, if_pos huser, hrejects sec hsec e hmem (by rw [← hkey, huser])]
        dsimp only
        rw [saveValue_eq hparse, if_pos (huser.trans hs.symm)]
        rfl
      · -- whatever is found is an entry of another user key
        have hother : saveValue s e.1 e.2 = s := by rw [saveValue_eq hparse, hs, if_neg huser]
        rw [if_neg huser]
        rcases hcase with heq | ⟨hblock, -⟩
        · rw [heq.trans hfirst]
          dsimp only
          rw [hother]
          exact ite_self _
        · rw [hblock]
          exact ite_self _

variable {σ : Type} {cache : BlockCache σ} {options : ReadOptions} {cacheId : UInt64} {st : σ} {o' : Table.Options}
  {rep : Rep} (hblocks : ∀ raw ∈ blocks, raw.length < 2 ^ 32) (hes : o.comparator.Increasing t.entries)
  (hfile : file.contents.length < 2 ^ 63) (hinv : Table.CacheInv t cacheId cache st)
  (hopened : t.Opened cache options cacheId o' rep)

include hblocks hes hfile hinv hopened

/-- Lookups keep what is in the cache right. -/
theorem cacheInv_cacheAfter (ks : List LookupKey) :
    Table.CacheInv t cacheId cache (cacheAfter o' cache options rep st ks) := by
  induction ks generalizing st with
  | nil => exact hinv
  | cons k ks ih =>
    exact ih (TableFile.internalGet_eq hblocks hes hfile hinv hopened k.internalKey () fun _ _ _ => ()).1

/-- A lookup after some others. -/
theorem internalGet_cacheAfter (hcomparator : o.comparator = internalKeyComparator)
    (hkeys : ∀ e ∈ t.entries, WellFormed e.1) (hk : k.sequence.toNat ≤ kMaxSequenceNumber) (hs : s.userKey = k.userKey)
    (hrejects : ∀ sec ∈ t.sections, ∀ e ∈ sec.entries, extractUserKey e.1 = k.userKey →
      rep.rejects o' sec.handle.encode k.internalKey = false) (before : List LookupKey) :
    let r := rep.internalGet o' cache options (cacheAfter o' cache options rep st before) k.internalKey s saveValue
    r.2.1 = s.after t.entries k ∧ r.2.2 = none := by
  have hinv' := cacheInv_cacheAfter hblocks hes hfile hinv hopened before
  obtain ⟨-, hstatus, hsaver⟩ := TableFile.internalGet_eq hblocks hes hfile hinv' hopened k.internalKey s saveValue
  exact ⟨hsaver.trans (handled_saveValue hcomparator hes hkeys hk hs hrejects), hstatus⟩

end Lookups

/-- **Filters never change a lookup.** A table of internal keys is built with any filter policy, or
with none, and is opened with it and without. Then a lookup, in whatever state other lookups have
left the block cache, saves the newest entry of its user key that is not too new for it, and nothing
if there is none. -/
theorem internalGet_saveValue {o : Table.Options} (hcomparator : o.comparator = internalKeyComparator)
    {userPolicy : Option FilterPolicy} (hpolicy : o.filterPolicy = userPolicy.map internalFilterPolicy)
    {out : WritableFile} {es : List (Slice × Slice)} (hout : out.contents = []) (hes : o.comparator.Increasing es)
    (hkeys : ∀ e ∈ es, WellFormed e.1) (hok : (TableBuilder.build o out es).status = none)
    (hblocks : ∀ raw ∈ (TableBuilder.build o out es).blocks, raw.length < 2 ^ 32) {file : RandomAccessFile}
    (hfile : file.contents = (TableBuilder.build o out es).file.contents) (hlen : file.contents.length < 2 ^ 63)
    (cacheId : UInt64) :
    let o' := { o with filterPolicy := none }
    ∃ t t', Rep.openTable o file file.contents.length cacheId = .ok t ∧
      Rep.openTable o' file file.contents.length cacheId = .ok t' ∧
      ∀ {σ : Type} (cache : BlockCache σ) (options : ReadOptions) (st : σ),
        (∀ offset block, ¬ cache.Holds st (Rep.cacheKey cacheId offset) block) →
        ∀ (before : List LookupKey) (k : LookupKey), k.sequence.toNat ≤ kMaxSequenceNumber → ∀ value : Slice,
          let saver := Saver.mk .notFound k.userKey value
          let r := t.internalGet o cache options (cacheAfter o cache options t st before) k.internalKey saver saveValue
          let r' := t'.internalGet o' cache options (cacheAfter o' cache options t' st before) k.internalKey saver saveValue
          r.2.1 = r'.2.1 ∧ r.2.1 = saver.after es k ∧ r.2.2 = none ∧ r'.2.2 = none := by
  have htable := TableBuilder.exists_tableFile hout hes hok (by rw [← hfile]; omega)
  rw [← hfile] at htable
  obtain ⟨t, ht⟩ := htable
  rw [← ht] at hes hkeys
  have hopen := t.openTable_eq hlen cacheId
  refine ⟨t.rep cacheId, _, hopen, Rep.openTable_withoutFilter hopen, ?_⟩
  intro σ cache options st hfresh before k hk value saver r r'
  have hinv : Table.CacheInv t cacheId cache st := fun s _ block hblock => absurd hblock (hfresh s.handle.offset block)
  have hrejects : ∀ sec ∈ t.sections, ∀ e ∈ sec.entries, extractUserKey e.1 = k.userKey →
      (t.rep cacheId).rejects o sec.handle.encode k.internalKey = false := by
    intro sec hsec e he huser
    refine TableFile.rejects_rep hblocks hlen cacheId hsec he fun policy hsome filter => ?_
    obtain ⟨user, -, rfl⟩ := Option.map_eq_some_iff.mp (hpolicy.symm.trans hsome)
    simp only [internalFilterPolicy, LookupKey.extractUserKey_internalKey, huser]
  obtain ⟨hsaver, hstatus⟩ := internalGet_cacheAfter hblocks hes hlen hinv
    (show t.Opened cache options cacheId o (t.rep cacheId) from ⟨rfl, rfl, rfl⟩) hcomparator hkeys hk
    (show saver.userKey = k.userKey from rfl) hrejects before
  obtain ⟨hsaver', hstatus'⟩ := internalGet_cacheAfter hblocks hes hlen hinv
    (show t.Opened cache options cacheId { o with filterPolicy := none } { t.rep cacheId with filter := none } from
      ⟨rfl, rfl, rfl⟩) hcomparator hkeys hk (show saver.userKey = k.userKey from rfl) (fun _ _ _ _ _ => rfl) before
  rw [ht] at hsaver hsaver'
  exact ⟨hsaver.trans hsaver'.symm, hsaver, hstatus, hstatus'⟩

/-- A filter that knows the first bytes of its keys. -/
def firstBytes : FilterPolicy where
  name := [0x62]
  createFilter keys := keys.filterMap List.head?
  keyMayMatch key f := key.head?.all f.contains
  noFalseNegatives keys key hkey := by
    cases key with
    | nil => rfl
    | cons b bs =>
      have hmem : b ∈ keys.filterMap List.head? := List.mem_filterMap.mpr ⟨b :: bs, hkey, rfl⟩
      simpa using hmem

/-- Internal keys in small blocks, with filters. -/
def filteredBlocks : Table.Options :=
  { Table.smallBlocks with comparator := internalKeyComparator, filterPolicy := some (internalFilterPolicy firstBytes) }

/-- A user key with a value that was deleted, and then another value; and another user key. -/
def twoVersions : List (Slice × Slice) :=
  [(internalKeyBytes [1] 7 .value, [10]), (internalKeyBytes [1] 5 .deletion, []), (internalKeyBytes [3] 6 .value, [12])]

def twoVersionsFile : RandomAccessFile :=
  ⟨(TableBuilder.build filteredBlocks { outcome := fun _ => none } twoVersions).file.contents, true, fun _ => 0⟩

theorem internalGet_saveValue_deleted :
    ∃ t, Rep.openTable filteredBlocks twoVersionsFile twoVersionsFile.contents.length 1 = .ok t ∧
      (t.internalGet filteredBlocks Table.noCache {} () (LookupKey.mk [1] 6).internalKey ⟨.notFound, [1], []⟩ saveValue).2.1 =
        ⟨.deleted, [1], []⟩ := by
  obtain ⟨t, t', hopen, -, hget⟩ := @internalGet_saveValue filteredBlocks rfl (some firstBytes) rfl { outcome := fun _ => none }
    twoVersions rfl (by decide +kernel) (by decide +kernel) (by decide +kernel) (by decide +kernel) twoVersionsFile rfl
    (by decide +kernel) 1
  refine ⟨t, hopen, ?_⟩
  exact (hget Table.noCache {} () (fun _ _ h => h) [] ⟨[1], 6⟩ (by decide) []).2.1.trans (by decide +kernel)

end TLevelDB.Db.TableGet
