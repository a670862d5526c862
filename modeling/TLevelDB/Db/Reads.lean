import TLevelDB.Db.Iter
import TLevelDB.Db.Reachable
import Mathlib.Data.List.Induction

/-!
# Reads

`DBImpl::Get` reads the memtable, the immutable memtable, and then of each level the
files that may hold the user key, and stops at the first that has an entry. This finds
the newest entry, since each of these is newer than those after it (`get_answers`).

The database as its users see it is a sequence of operations; a read at a sequence
number sees that many of them (`valueAt`). What the memtables and the files hold gives
the same answers (`DataInv`): from some sequence number on, which no reader is below,
the newest entry of a user key is the last operation on it, or both are deletions or
missing. So `Get` refines this map (`get_eq_valueAt`).
-/

namespace TLevelDB.Db

variable {K V : Type} [LinearOrder K]

/-! ### What entries say about a user key -/

section Answers

variable {E U : Set (Entry K V)} {k : K} {s : ℕ} {r : Lookup V}

section

omit [LinearOrder K]

/-- The value, if one is found. -/
def Lookup.toOption : Lookup V → Option V
  | .found v => some v
  | _ => none

/-- What the newest entry of the user key at `s` says. -/
inductive Answers (s : ℕ) (E : Set (Entry K V)) (k : K) : Lookup V → Prop where
  /-- There is none. -/
  | notFound : (∀ x ∈ E, x.userKey = k → ¬ x.sequence ≤ s) → Answers s E k .notFound
  /-- It puts a value. -/
  | found {e : Entry K V} : Newest s E e → e.userKey = k → e.key.type = .value → Answers s E k (.found e.value)
  /-- It is a deletion. -/
  | deleted {e : Entry K V} : Newest s E e → e.userKey = k → e.key.type = .deletion → Answers s E k .deleted

theorem Answers.toOption_eq_some_iff (h : Answers s E k r) (hd : DistinctVersions E) {v : V} :
    r.toOption = some v ↔ ∃ e, Live s E e ∧ e.userKey = k ∧ e.value = v := by
  have hput : ∀ {e e' : Entry K V}, Newest s E e → Live s E e' → e.userKey = k → e'.userKey = k → e = e' :=
    fun he he' hk hk' => he.unique hd he'.toNewest (hk.trans hk'.symm)
  cases h with
  | notFound hno =>
    simp only [Lookup.toOption, reduceCtorEq, false_iff]
    rintro ⟨e, he, hk, -⟩
    exact hno e he.mem hk he.visible
  | @found e he hk ht =>
    simp only [Lookup.toOption, Option.some.injEq]
    constructor
    · rintro rfl
      exact ⟨e, ⟨he, ht⟩, hk, rfl⟩
    · rintro ⟨e', he', hk', rfl⟩
      rw [hput he he' hk hk']
  | deleted he hk ht =>
    simp only [Lookup.toOption, reduceCtorEq, false_iff]
    rintro ⟨e', he', hk', -⟩
    have := he'.put
    rw [← hput he he' hk hk', ht] at this
    cases this

/-- Entries that are dominated by others change no answer. -/
theorem Answers.of_dominated (h : Answers s U k r) (hsub : U ⊆ E)
    (hdom : ∀ x ∈ E, x.userKey = k → x.sequence ≤ s → ∃ y ∈ U, y.userKey = k ∧ y.sequence ≤ s ∧ x.sequence ≤ y.sequence) :
    Answers s E k r := by
  have hnewest : ∀ {e : Entry K V}, Newest s U e → e.userKey = k → Newest s E e := fun {e} he hk =>
    ⟨hsub he.mem, he.visible, fun x hx hkx hxs => by
      obtain ⟨y, hy, hky, hys, hle⟩ := hdom x hx (hkx.trans hk) hxs
      exact hle.trans (he.newest y hy (hky.trans hk.symm) hys)⟩
  cases h with
  | notFound hno =>
    refine .notFound fun x hx hk hxs => ?_
    obtain ⟨y, hy, hky, hys, -⟩ := hdom x hx hk hxs
    exact hno y hy hky hys
  | found he hk ht => exact .found (hnewest he hk) hk ht
  | deleted he hk ht => exact .deleted (hnewest he hk) hk ht

end

end Answers

/-! ### Lookups -/

section Lookups

variable {E : List (Entry K V)} {layers : List (List (Entry K V))} {k : K} {s : ℕ}

/-- The first entry from the lookup's key on is the newest entry of the user key, if it is
one of this user key. -/
theorem lookupIn_answers (h : SortedEntries E) (k : K) (s : ℕ) : Answers s (entrySet E) k (lookupIn E k s) := by
  unfold lookupIn
  cases hf : E.find? (fun e => lookupKey k s ≤ e.key) with
  | none =>
    refine .notFound fun x hx hk hxs => ?_
    have hlt : x.key < lookupKey k s := by simpa using List.find?_eq_none.mp hf x hx
    rcases InternalKey.lt_lookupKey_iff.mp hlt with hlt | ⟨-, hlt⟩
    · exact absurd hk hlt.ne
    · exact absurd hxs (not_le.mpr hlt)
  | some e =>
    obtain ⟨hp, b, a, hE, hb⟩ := List.find?_eq_some_iff_append.mp hf
    have hp : ¬ e.key < lookupKey k s := by simpa using hp
    -- an entry before it is of a smaller user key, or not seen
    have hb' : ∀ x ∈ b, x.userKey = k → ¬ x.sequence ≤ s := by
      intro x hx hk hxs
      have hlt : x.key < lookupKey k s := by simpa using hb x hx
      rcases InternalKey.lt_lookupKey_iff.mp hlt with hlt | ⟨-, hlt⟩
      · exact absurd hk hlt.ne
      · exact absurd hxs (not_le.mpr hlt)
    have hmem : ∀ x ∈ E, x ∈ b ∨ x = e ∨ x ∈ a := by
      intro x hx
      simpa [hE] using hx
    rw [InternalKey.lt_lookupKey_iff, not_or] at hp
    by_cases hk : e.userKey = k
    · have hes : e.sequence ≤ s := not_lt.mp fun hlt => hp.2 ⟨hk, hlt⟩
      have hnewest : Newest s (entrySet E) e := by
        refine ⟨by simp [hE], hes, fun x hx hkx hxs => ?_⟩
        rcases hmem x hx with hx | rfl | hx
        · exact absurd hxs (hb' x hx (hkx.trans hk))
        · exact le_rfl
        · exact h.after hE.symm hx hkx
      dsimp only
      rw [saveValue, if_pos hk]
      cases ht : e.key.type with
      | value => exact .found hnewest hk ht
      | deletion => exact .deleted hnewest hk ht
    · dsimp only
      rw [saveValue, if_neg hk]
      refine .notFound fun x hx hkx hxs => ?_
      have hlt : k < e.userKey := lt_of_le_of_ne (not_lt.mp hp.1) fun heq => hk heq.symm
      rcases hmem x hx with hx | rfl | hx
      · exact hb' x hx hkx hxs
      · exact hk hkx
      · exact absurd (hkx ▸ h.userKey_le hE.symm hx) (not_le.mpr hlt)

/-- A lookup in several sorted lists of entries: the first that has an answer gives it. -/
def lookupLayers (k : K) (s : ℕ) : List (List (Entry K V)) → Lookup V
  | [] => .notFound
  | E :: layers =>
    match lookupIn E k s with
    | .notFound => lookupLayers k s layers
    | r => r

/-- If each list is newer than those after it, this is the answer of all of them. -/
theorem lookupLayers_answers (hs : ∀ E ∈ layers, SortedEntries E)
    (hp : layers.Pairwise fun E E' => Versions.Newer Entry.userKey Entry.sequence (entrySet E) (entrySet E'))
    (k : K) (s : ℕ) : Answers s {x | ∃ E ∈ layers, x ∈ E} k (lookupLayers k s layers) := by
  induction layers with
  | nil => exact .notFound (by simp)
  | cons E layers ih =>
    obtain ⟨hE, hlayers⟩ := List.pairwise_cons.mp hp
    have hrest := ih (fun E' hE' => hs E' (List.mem_cons_of_mem _ hE')) hlayers
    have hhead := lookupIn_answers (hs E (by simp)) k s
    have hset : {x | ∃ E' ∈ E :: layers, x ∈ E'} = entrySet E ∪ {x | ∃ E' ∈ layers, x ∈ E'} := by
      ext x
      simp
    have hnewer : Versions.Newer Entry.userKey Entry.sequence (entrySet E) {x | ∃ E' ∈ layers, x ∈ E'} :=
      fun x hx y ⟨E', hE', hy⟩ => hE E' hE' x hx y hy
    rw [lookupLayers, hset]
    revert hhead
    generalize lookupIn E k s = r
    intro hhead
    cases hhead with
    | notFound hno =>
      refine hrest.of_dominated (fun x hx => Or.inr hx) ?_
      rintro x (hx | hx) hk hxs
      · exact absurd hxs (hno x hx hk)
      · exact ⟨x, hx, hk, hxs, le_rfl⟩
    | found he hk ht => exact .found (he.union_right hnewer) hk ht
    | deleted he hk ht => exact .deleted (he.union_right hnewer) hk ht

end Lookups

/-! ### The files that are read -/

section Files

variable {v : Version K V} {f g : FileMetaData K V} {k : K} {s : ℕ} {x : Entry K V}

theorem searchFiles_fst (files : List (ℕ × FileMetaData K V)) (last seek : Option (ℕ × FileMetaData K V)) :
    (searchFiles k s files last seek).1 = (lookupLayers k s (files.map fun f => f.2.table)).toOption := by
  induction files generalizing last seek with
  | nil => rfl
  | cons f files ih =>
    obtain ⟨level, f⟩ := f
    simp only [searchFiles, List.map_cons, lookupLayers]
    cases lookupIn f.table k s with
    | notFound => exact ih _ _
    | found v => rfl
    | deleted => rfl

theorem mem_overlappingLevel0 : f ∈ v.overlappingLevel0 k ↔ f ∈ v.files 0 ∧ f.Covers k := by
  simp [Version.overlappingLevel0, FileMetaData.Covers]

variable {key : InternalKey K} {level : ℕ}

theorem overlappingFile_eq (hv : v.Ok) (hl : 0 < level) :
    v.overlappingFile k key level =
      ((v.files level).find? fun f => key ≤ f.largest).bind fun f => if k < f.smallest.userKey then none else some f := by
  rw [Version.overlappingFile, getElem?_findFile (pairwise_largest (hv.sorted level hl) fun f hf => (hv.file level f hf).bounded)]
  cases (v.files level).find? fun f => key ≤ f.largest <;> rfl

theorem mem_of_overlappingFile (h : v.overlappingFile k key level = some f) :
    f ∈ v.files level := by
  unfold Version.overlappingFile at h
  cases hfile : (v.files level)[findFile (v.files level) key]? with
  | none => simp [hfile] at h
  | some g =>
    simp only [hfile, Option.ite_none_left_eq_some, Option.some.injEq] at h
    exact h.2 ▸ List.mem_of_getElem? hfile

theorem mem_forEachOverlapping : (level, f) ∈ v.forEachOverlapping k key ↔ (level = 0 ∧ f ∈ v.overlappingLevel0 k) ∨
      (0 < level ∧ level < kNumLevels ∧ v.overlappingFile k key level = some f) := by
  have hrange : ∀ l, l ∈ (List.range kNumLevels).drop 1 ↔ 0 < l ∧ l < kNumLevels := by
    intro l
    simp only [List.range_eq_range', List.drop_range', List.mem_range'_1]
    omega
  simp only [Version.forEachOverlapping, List.mem_append, List.mem_map, Prod.mk.injEq, List.mem_filterMap, hrange,
    Option.map_eq_some_iff]
  refine or_congr ⟨?_, ?_⟩ ⟨?_, ?_⟩
  · rintro ⟨f, hf, rfl, rfl⟩
    exact ⟨rfl, hf⟩
  · rintro ⟨rfl, hf⟩
    exact ⟨f, hf, rfl, rfl⟩
  · rintro ⟨l, hl, g, hg, rfl, rfl⟩
    exact ⟨hl.1, hl.2, hg⟩
  · rintro ⟨h1, h2, hf⟩
    exact ⟨level, ⟨h1, h2⟩, f, hf, rfl, rfl⟩

theorem mem_files_of_forEachOverlapping (h : (level, f) ∈ v.forEachOverlapping k key) :
    f ∈ v.files level := by
  rcases mem_forEachOverlapping.mp h with ⟨rfl, hf⟩ | ⟨-, -, hf⟩
  · exact (mem_overlappingLevel0.mp hf).1
  · exact mem_of_overlappingFile hf

/-- The visits are in any order that level 0 has by itself and the files of a level have to those
of the levels below. -/
theorem pairwise_forEachOverlapping {R : ℕ × FileMetaData K V → ℕ × FileMetaData K V → Prop}
    (h0 : (v.overlappingLevel0 k).Pairwise fun f g => R (0, f) (0, g))
    (h : ∀ l l', l < l' → ∀ f ∈ v.files l, ∀ g ∈ v.files l', R (l, f) (l', g)) :
    (v.forEachOverlapping k key).Pairwise R := by
  refine List.pairwise_append.mpr ⟨List.pairwise_map.mpr h0, List.pairwise_filterMap.mpr ?_, ?_⟩
  · have hlt : ((List.range kNumLevels).drop 1).Pairwise (· < ·) := List.pairwise_lt_range.sublist (List.drop_sublist _ _)
    refine hlt.imp fun {l l'} hlt f hf g hg => ?_
    obtain ⟨f', hf', rfl⟩ := Option.map_eq_some_iff.mp hf
    obtain ⟨g', hg', rfl⟩ := Option.map_eq_some_iff.mp hg
    exact h l l' hlt f' (mem_of_overlappingFile hf') g' (mem_of_overlappingFile hg')
  · intro f hf g hg
    obtain ⟨f', hf', rfl⟩ := List.mem_map.mp hf
    obtain ⟨l, hl, hg⟩ := List.mem_filterMap.mp hg
    obtain ⟨g', hg', rfl⟩ := Option.map_eq_some_iff.mp hg
    have hpos : ∀ l, l ∈ (List.range kNumLevels).drop 1 → 0 < l := by decide
    exact h 0 l (hpos l hl) f' (mem_overlappingLevel0.mp hf').1 g' (mem_of_overlappingFile hg')

/-- The files come in the order of their age. -/
theorem forEachOverlapping_newer (hv : v.Ok) (k : K) (key : InternalKey K) :
    (v.forEachOverlapping k key).Pairwise fun f g => NewerFile f.2 g.2 := by
  refine pairwise_forEachOverlapping ?_ hv.newer
  have htotal : Std.Total fun f g : FileMetaData K V => g.number ≤ f.number := ⟨fun f g => le_total _ _⟩
  have htrans : IsTrans (FileMetaData K V) fun f g => g.number ≤ f.number := ⟨fun _ _ _ h1 h2 => h2.trans h1⟩
  have hsorted : (v.overlappingLevel0 k).Pairwise fun f g => g.number ≤ f.number := List.pairwise_insertionSort _ _
  have hnum : (v.overlappingLevel0 k).Pairwise fun f g => f.number ≠ g.number :=
    ((List.perm_insertionSort _ _).pairwise_iff fun h => Ne.symm h).mpr ((hv.number_ne 0).sublist List.filter_sublist)
  refine (hsorted.and hnum).imp_of_mem fun {f g} hf hg ⟨hle, hne⟩ => ?_
  exact hv.newer_level0 f (mem_overlappingLevel0.mp hf).1 g (mem_overlappingLevel0.mp hg).1 (hle.lt_of_ne' hne)

/-- If a file that is not read has an entry of the user key, one that is read has a newer
one. -/
theorem exists_read_of_mem (hv : v.Ok) (hg : g ∈ v.files level) (hx : x ∈ g.table) (hk : x.userKey = k)
    (hxs : x.sequence ≤ s) : ∃ level' f, (level', f) ∈ v.forEachOverlapping k (lookupKey k s) ∧
      ∃ y ∈ f.table, y.userKey = k ∧ y.sequence ≤ s ∧ x.sequence ≤ y.sequence := by
  have hgok := hv.file level g hg
  have hcov : g.Covers k := hk ▸ hgok.covers hx
  rcases Nat.eq_zero_or_pos level with rfl | hl
  · exact ⟨0, g, mem_forEachOverlapping.mpr (Or.inl ⟨rfl, mem_overlappingLevel0.mpr ⟨hg, hcov⟩⟩), x, hx, hk, hxs, le_rfl⟩
  · have hlevel : level < kNumLevels := by
      by_contra hge
      rw [hv.levels level (not_lt.mp hge)] at hg
      simp at hg
    have hxkey : lookupKey k s ≤ x.key := not_lt.mp fun hlt => by
      rcases InternalKey.lt_lookupKey_iff.mp hlt with hlt | ⟨-, hlt⟩
      · exact absurd hk hlt.ne
      · exact absurd hxs (not_le.mpr hlt)
    -- the file found ends at or after the lookup's key; it is `g` or comes before it
    obtain ⟨f, hf⟩ : ∃ f, (v.files level).find? (fun f => lookupKey k s ≤ f.largest) = some f := by
      refine Option.isSome_iff_exists.mp (List.find?_isSome.mpr ⟨g, hg, ?_⟩)
      simpa using hxkey.trans (hgok.le_largest hx)
    obtain ⟨hp, b, a, hsplit, hb⟩ := List.find?_eq_some_iff_append.mp hf
    have hflargest : lookupKey k s ≤ f.largest := by simpa using hp
    have hfmem : f ∈ v.files level := by simp [hsplit]
    have hfok := hv.file level f hfmem
    have hread : f.smallest.userKey ≤ k → (level, f) ∈ v.forEachOverlapping k (lookupKey k s) := by
      intro hle
      refine mem_forEachOverlapping.mpr (Or.inr ⟨hl, hlevel, ?_⟩)
      rw [overlappingFile_eq hv hl, hf, Option.bind_some, if_neg (not_lt.mpr hle)]
    have hgf : g = f ∨ f.Before g := by
      have hs := hv.sorted level hl
      rw [hsplit] at hg hs
      rcases List.mem_append.mp hg with hgb | hga
      · have hlt : g.largest < lookupKey k s := by simpa using hb g hgb
        exact absurd (hxkey.trans (hgok.le_largest hx)) (not_le.mpr hlt)
      · exact (List.mem_cons.mp hga).imp_right fun hga => (List.pairwise_cons.mp (List.pairwise_append.mp hs).2.1).1 g hga
    rcases hgf with rfl | hfg
    · exact ⟨level, g, hread hcov.1, x, hx, hk, hxs, le_rfl⟩
    · -- it ends with an entry of the user key
      obtain ⟨y, hy, hyl⟩ := hfok.exists_largest
      have hlt : y.key < x.key := hfg.key_lt hfok hgok hy hx
      have hyk : y.userKey = k := by
        refine le_antisymm (hk ▸ InternalKey.userKey_le_of_lt hlt) ?_
        have := InternalKey.userKey_mono hflargest
        rw [← hyl] at this
        exact this
      have hys : y.sequence ≤ s := by
        have hnot : ¬ y.key < lookupKey k s := not_lt.mpr (hyl ▸ hflargest)
        rw [InternalKey.lt_lookupKey_iff, not_or] at hnot
        exact not_lt.mp fun hlt => hnot.2 ⟨hyk, hlt⟩
      exact ⟨level, f, hread (hyk ▸ (hfok.covers hy).1), y, hy, hyk, hys,
        InternalKey.sequence_le_of_lt hlt (hyk.trans hk.symm)⟩

end Files

/-! ### `Get` -/

section Get

variable {st : DBState K V}

/-- All entries that the database holds. -/
def DBState.stored (st : DBState K V) : Set (Entry K V) :=
  entrySet st.mem ∪ (entrySet (st.imm.getD []) ∪ st.version.entries)

theorem DBInv.distinct_stored (h : DBInv st) : DistinctVersions st.stored := by
  rintro x (hx | hx | hx) y (hy | hy | hy) hk hs
  · exact h.mem.distinct x hx y hy hk hs
  · exact absurd hs (h.mem_newer x hx y (Or.inl hy)).ne'
  · exact absurd hs (h.mem_newer x hx y (Or.inr hy)).ne'
  · exact absurd hs (h.mem_newer y hy x (Or.inl hx)).ne
  · exact h.imm.distinct x hx y hy hk hs
  · exact absurd hs (h.imm_newer x hx y hy).ne'
  · exact absurd hs (h.mem_newer y hy x (Or.inr hx)).ne
  · exact absurd hs (h.imm_newer y hy x hx).ne
  · exact h.version.distinct x hx y hy hk hs

/-- What `Get` looks into, in this order. -/
def DBState.layers (st : DBState K V) (k : K) (s : ℕ) : List (List (Entry K V)) :=
  st.mem :: st.imm.getD [] :: (st.version.forEachOverlapping k (lookupKey k s)).map fun f => f.2.table

theorem get_eq_lookupLayers (st : DBState K V) (k : K) (s : ℕ) :
    st.get k s = (lookupLayers k s (st.layers k s)).toOption := by
  simp only [DBState.get, DBState.layers, lookupLayers]
  cases lookupIn st.mem k s with
  | found v => rfl
  | deleted => rfl
  | notFound =>
    cases lookupIn (st.imm.getD []) k s with
    | found v => rfl
    | deleted => rfl
    | notFound => exact searchFiles_fst _ _ _

/-- **`Get` finds the newest entry of all that the database holds.** -/
theorem get_answers (h : DBInv st) (k : K) (s : ℕ) :
    ∃ r, Answers s st.stored k r ∧ st.get k s = r.toOption := by
  refine ⟨_, ?_, get_eq_lookupLayers st k s⟩
  have hv := h.version
  have hmem : ∀ E ∈ (st.version.forEachOverlapping k (lookupKey k s)).map fun f => f.2.table,
      ∃ level, ∃ f ∈ st.version.files level, f.table = E := by
    intro E hE
    obtain ⟨⟨level, f⟩, hf, rfl⟩ := List.mem_map.mp hE
    exact ⟨level, f, mem_files_of_forEachOverlapping hf, rfl⟩
  have hsorted : ∀ E ∈ st.layers k s, SortedEntries E := by
    simp only [DBState.layers, List.forall_mem_cons]
    refine ⟨h.mem, h.imm, fun E hE => ?_⟩
    obtain ⟨level, f, hf, rfl⟩ := hmem E hE
    exact (hv.file level f hf).sorted
  have hnewer : (st.layers k s).Pairwise fun E E' =>
      Versions.Newer Entry.userKey Entry.sequence (entrySet E) (entrySet E') := by
    simp only [DBState.layers, List.pairwise_cons, List.forall_mem_cons]
    refine ⟨⟨fun x hx y hy _ => h.mem_newer x hx y (Or.inl hy), fun E hE x hx y hy _ => ?_⟩, fun E hE x hx y hy _ => ?_, ?_⟩
    · obtain ⟨level, f, hf, rfl⟩ := hmem E hE
      exact h.mem_newer x hx y (Or.inr ⟨level, f, hf, hy⟩)
    · obtain ⟨level, f, hf, rfl⟩ := hmem E hE
      exact h.imm_newer x hx y ⟨level, f, hf, hy⟩
    · exact List.pairwise_map.mpr (forEachOverlapping_newer hv k _)
  refine (lookupLayers_answers hsorted hnewer k s).of_dominated ?_ ?_
  · rintro x ⟨E, hE, hx⟩
    rcases List.mem_cons.mp hE with rfl | hE
    · exact Or.inl hx
    · rcases List.mem_cons.mp hE with rfl | hE
      · exact Or.inr (Or.inl hx)
      · obtain ⟨level, f, hf, rfl⟩ := hmem E hE
        exact Or.inr (Or.inr ⟨level, f, hf, hx⟩)
  · rintro x (hx | hx | ⟨level, g, hg, hx⟩) hk hxs
    · exact ⟨x, ⟨st.mem, by simp [DBState.layers], hx⟩, hk, hxs, le_rfl⟩
    · exact ⟨x, ⟨st.imm.getD [], by simp [DBState.layers], hx⟩, hk, hxs, le_rfl⟩
    · obtain ⟨level', f, hf, y, hy, hrest⟩ := exists_read_of_mem hv hg hx hk hxs
      refine ⟨y, ⟨f.table, ?_, hy⟩, hrest⟩
      exact List.mem_cons_of_mem _ (List.mem_cons_of_mem _ (List.mem_map.mpr ⟨(level', f), hf, rfl⟩))

end Get

/-! ### The map that the users see -/

section Map

variable {hist ops : List (Op K V)} {op : Op K V} {k : K} {s : ℕ}

omit [LinearOrder K] in
/-- The value that an operation gives its key. -/
def Op.value : Op K V → Option V
  | .put _ v => some v
  | .delete _ => none

/-- What the first `s` operations make of a key: the last one on it counts. -/
def valueAt (hist : List (Op K V)) (s : ℕ) (k : K) : Option V :=
  ((hist.take s).reverse.find? fun op => op.key = k).bind Op.value

theorem valueAt_append_of_le (h : s ≤ hist.length) (ops : List (Op K V)) :
    valueAt (hist ++ ops) s k = valueAt hist s k := by rw [valueAt, valueAt, List.take_append_of_le_length h]

theorem valueAt_snoc (hist : List (Op K V)) (op : Op K V) (s : ℕ) (k : K) :
    valueAt (hist ++ [op]) s k = if hist.length < s ∧ op.key = k then op.value else valueAt hist s k := by
  by_cases hs : hist.length < s
  · have h1 : (hist ++ [op]).take s = hist ++ [op] := List.take_of_length_le (by simp; omega)
    have h2 : hist.take s = hist := List.take_of_length_le (by omega)
    rw [valueAt, valueAt, h1, h2, List.reverse_append]
    by_cases hk : op.key = k
    · simp [hs, hk]
    · simp [hk]
  · rw [if_neg fun h => hs h.1, valueAt_append_of_le (by omega)]

variable [Inhabited V]

section

omit [LinearOrder K]

/-- The operations as entries, numbered from 1 on. -/
def opEntries (ops : List (Op K V)) : List (Entry K V) := ops.mapIdx fun i op => op.entry (i + 1)

theorem opEntries_snoc (ops : List (Op K V)) (op : Op K V) :
    opEntries (ops ++ [op]) = opEntries ops ++ [op.entry (ops.length + 1)] := by simp [opEntries, List.mapIdx_append]

theorem entrySet_opEntries_snoc (ops : List (Op K V)) (op : Op K V) :
    entrySet (opEntries (ops ++ [op])) = insert (op.entry (ops.length + 1)) (entrySet (opEntries ops)) := by
  ext x
  simp [opEntries_snoc, or_comm]

theorem sequence_le_of_mem_opEntries {x : Entry K V} (h : x ∈ opEntries ops) : x.sequence ≤ ops.length := by
  obtain ⟨i, hi, rfl⟩ := List.mem_mapIdx.mp h
  rw [Op.sequence_entry]
  omega

theorem distinct_opEntries (ops : List (Op K V)) : DistinctVersions (entrySet (opEntries ops)) := by
  intro x hx y hy _ hs
  obtain ⟨i, hi, rfl⟩ := List.mem_mapIdx.mp hx
  obtain ⟨j, hj, rfl⟩ := List.mem_mapIdx.mp hy
  rw [Op.sequence_entry, Op.sequence_entry] at hs
  obtain rfl : i = j := by omega
  rfl

@[simp] theorem Op.userKey_entry (s : ℕ) (op : Op K V) : (op.entry s).userKey = op.key := by cases op <;> rfl

end

/-- The operations as entries say what the map says. -/
theorem valueAt_answers (ops : List (Op K V)) (s : ℕ) (k : K) :
    ∃ r, Answers s (entrySet (opEntries ops)) k r ∧ valueAt ops s k = r.toOption := by
  induction ops using List.reverseRecOn with
  | nil => exact ⟨.notFound, .notFound (by simp [opEntries]), by simp [valueAt, Lookup.toOption]⟩
  | append_singleton ops op ih =>
    have hnew : ∀ x ∈ entrySet (opEntries ops), x.sequence < (op.entry (ops.length + 1)).sequence := by
      intro x hx
      rw [Op.sequence_entry]
      exact Nat.lt_succ_of_le (sequence_le_of_mem_opEntries hx)
    rw [valueAt_snoc, entrySet_opEntries_snoc]
    by_cases h : ops.length < s ∧ op.key = k
    · rw [if_pos h]
      have hnewest : Newest s (insert (op.entry (ops.length + 1)) (entrySet (opEntries ops))) (op.entry (ops.length + 1)) :=
        (Versions.newest_insert_iff hnew).mpr (Or.inl ⟨rfl, by rw [Op.sequence_entry]; exact h.1⟩)
      have hk : (op.entry (ops.length + 1)).userKey = k := (Op.userKey_entry _ op).trans h.2
      cases op with
      | put k' v => exact ⟨_, .found hnewest hk rfl, rfl⟩
      | delete k' => exact ⟨_, .deleted hnewest hk rfl, rfl⟩
    · rw [if_neg h]
      obtain ⟨r, hr, heq⟩ := ih
      refine ⟨r, hr.of_dominated (Set.subset_insert _ _) ?_, heq⟩
      rintro x (rfl | hx) hk hxs
      · rw [Op.sequence_entry] at hxs
        exact absurd ⟨hxs, (Op.userKey_entry _ op).symm.trans hk⟩ h
      · exact ⟨x, hx, hk, hxs, le_rfl⟩

end Map

/-! ### What is stored gives the map -/

section Data

variable {E E' : Set (Entry K V)} {H : ℕ} {e₀ : Entry K V}

section

omit [LinearOrder K]

/-- From `H` on, the entries `E` and `E'` give every user key the same value. -/
def SameLive (H : ℕ) (E E' : Set (Entry K V)) : Prop :=
  ∀ s, H ≤ s → ∀ e : Entry K V, e.key.type = .value → (Newest s E e ↔ Newest s E' e)

variable {s : ℕ}

theorem SameLive.live_iff (h : SameLive H E E') (hs : H ≤ s) (e : Entry K V) : Live s E e ↔ Live s E' e :=
  ⟨fun he => ⟨(h s hs e he.put).mp he.toNewest, he.put⟩, fun he => ⟨(h s hs e he.put).mpr he.toNewest, he.put⟩⟩

theorem SameLive.insert (h : SameLive H E E') (hE : ∀ x ∈ E, x.sequence < e₀.sequence)
    (hE' : ∀ x ∈ E', x.sequence < e₀.sequence) : SameLive H (insert e₀ E) (insert e₀ E') := by
  intro s hs e ht
  calc Newest s (Insert.insert e₀ E) e
      ↔ (e = e₀ ∧ e₀.sequence ≤ s) ∨ (Newest s E e ∧ ¬ (e.userKey = e₀.userKey ∧ e₀.sequence ≤ s)) :=
        Versions.newest_insert_iff hE
    _ ↔ (e = e₀ ∧ e₀.sequence ≤ s) ∨ (Newest s E' e ∧ ¬ (e.userKey = e₀.userKey ∧ e₀.sequence ≤ s)) :=
        or_congr_right (and_congr_left' (h s hs e ht))
    _ ↔ Newest s (Insert.insert e₀ E') e := (Versions.newest_insert_iff hE').symm

end

variable {o : Options K V} {st st' : DBState K V} {hist : List (Op K V)} {a : Action K V}

omit [LinearOrder K] in
/-- The operations inserted but not visible yet. -/
def DBState.insertedOps (st : DBState K V) : List (Op K V) := st.writing.elim [] fun w => w.1.take w.2

/-- From a sequence number on that no reader is below, what is stored gives the map of the
operations written and being written. -/
structure DataInv [Inhabited V] (st : DBState K V) (hist : List (Op K V)) : Prop where
  length : hist.length = st.lastSequence
  data : ∃ H, H ≤ st.lastSequence ∧ (∀ s ∈ st.snapshots, H ≤ s) ∧
    SameLive H st.stored (entrySet (opEntries (hist ++ st.insertedOps)))

omit [LinearOrder K] in
theorem dataInv_init [Inhabited V] : DataInv (DBState.init : DBState K V) [] where
  length := rfl
  data := by
    refine ⟨0, le_rfl, by simp [DBState.init], fun s _ e _ => ?_⟩
    have hempty : (DBState.init : DBState K V).stored = entrySet (opEntries []) := by
      ext x
      simp [DBState.stored, DBState.init, Version.entries, Version.empty, opEntries]
    have hops : (DBState.init : DBState K V).insertedOps = [] := rfl
    rw [hempty, hops]
    rfl

omit [LinearOrder K] in
/-- Nothing changes for the readers if the entries stay the same. -/
theorem DataInv.congr [Inhabited V] (h : DataInv st hist) (hs : st'.stored = st.stored)
    (hl : st'.lastSequence = st.lastSequence) (hsnap : ∀ s ∈ st'.snapshots, s ∈ st.snapshots ∨ s = st.lastSequence)
    (hi : st'.insertedOps = st.insertedOps) : DataInv st' hist := by
  obtain ⟨hlen, H, hH, hHs, hsame⟩ := h
  refine ⟨hlen.trans hl.symm, H, hl ▸ hH, fun s hs' => ?_, hs ▸ hi ▸ hsame⟩
  rcases hsnap s hs' with hs' | rfl
  · exact hHs s hs'
  · exact hH

theorem DBInv.stored_le (h : DBInv st) : ∀ x ∈ st.stored, x.sequence ≤ st.lastSequence + st.inserted := by
  rintro x (hx | hx | hx)
  · exact h.mem_le x hx
  · exact (h.imm_le x hx).trans (Nat.le_add_right _ _)
  · exact (h.version_le x hx).trans (Nat.le_add_right _ _)

theorem DataInv.insert [Inhabited V] (h : DataInv st hist) (hinv : DBInv st) {batch : List (Op K V)} {i : ℕ}
    {op : Op K V} (hw : st.writing = some (batch, i)) (hop : batch[i]? = some op) :
    DataInv { st with mem := memTableAdd st.mem (op.entry (st.lastSequence + 1 + i)), writing := some (batch, i + 1) }
      hist := by
  obtain ⟨hlen, H, hH, hHs, hsame⟩ := h
  obtain ⟨hi, rfl⟩ := List.getElem?_eq_some_iff.mp hop
  refine ⟨hlen, H, hH, hHs, ?_⟩
  have hins : st.inserted = i := by simp [DBState.inserted, hw]
  have hops : st.insertedOps = batch.take i := by simp [DBState.insertedOps, hw]
  have hlength : (hist ++ batch.take i).length + 1 = st.lastSequence + 1 + i := by
    simp only [List.length_append, List.length_take]
    omega
  have hnext : hist ++ batch.take (i + 1) = (hist ++ batch.take i) ++ [batch[i]] := by
    rw [List.take_succ_eq_append_getElem hi, List.append_assoc]
  have hentries : entrySet (opEntries (hist ++ batch.take (i + 1))) =
      Insert.insert (batch[i].entry (st.lastSequence + 1 + i)) (entrySet (opEntries (hist ++ batch.take i))) := by
    rw [hnext, entrySet_opEntries_snoc, hlength]
  have hstored : DBState.stored { st with
      mem := memTableAdd st.mem (batch[i].entry (st.lastSequence + 1 + i)), writing := some (batch, i + 1) } =
      Insert.insert (batch[i].entry (st.lastSequence + 1 + i)) st.stored := by
    ext x
    simp only [DBState.stored, Set.mem_union, Set.mem_insert_iff]
    rw [show x ∈ entrySet (memTableAdd st.mem (batch[i].entry (st.lastSequence + 1 + i))) ↔ _ from mem_memTableAdd]
    exact or_assoc
  have hops' : DBState.insertedOps { st with
      mem := memTableAdd st.mem (batch[i].entry (st.lastSequence + 1 + i)), writing := some (batch, i + 1) } =
      batch.take (i + 1) := rfl
  rw [hstored, hops', hentries]
  rw [hops] at hsame
  refine hsame.insert (fun x hx => ?_) fun x hx => ?_
  · have := hinv.stored_le x hx
    rw [hins] at this
    rw [Op.sequence_entry]
    omega
  · have := sequence_le_of_mem_opEntries hx
    rw [Op.sequence_entry]
    omega

theorem stored_compactMemTable (h : DBInv st) (hseq : st.lastSequence < kMaxSequenceNumber) {imm : List (Entry K V)}
    (himm : st.imm = some imm) : (st.compactMemTable o imm).stored = st.stored := by
  have himm' : imm = st.imm.getD [] := by simp [himm]
  subst himm'
  unfold DBState.compactMemTable
  cases hb : buildTable o st.nextFileNumber (st.imm.getD []) with
  | none =>
    have hnil := buildTable_eq_none_iff.mp hb
    simp only [DBState.stored, hnil]
    rfl
  | some f =>
    obtain ⟨-, htable, -⟩ := buildTable_spec hb h.imm fun x hx => (h.imm_le x hx).trans hseq.le
    have hentries : (st.version.apply (addFileEdit (st.version.tableLevel o f) f)).entries =
        entrySet (st.imm.getD []) ∪ st.version.entries := by rw [entries_addFile, htable]
    simp only [DBState.stored, DBState.logAndApply, hentries]
    ext x
    simp

theorem entries_move {v : Version K V} {c : Compaction K V} {f : FileMetaData K V} (hr : c.Ready v) (hv : v.Ok)
    (h0 : c.inputs0 = [f]) (h1 : c.inputs1 = []) : (v.apply (c.installEdit [f])).entries = v.entries := by
  rw [entries_install_eq_union hr.toFits hv.toShape (hr.replaces_self hv h0), entries_eq_union hr.toFits, Compaction.inputs,
    h0, h1, List.append_nil]

/-- What a compaction drops is not missed. -/
theorem sameLive_install (h : DBInv st) {cs : CompactionState K V} (hcs : st.compaction = some cs) (hi : cs.input = []) :
    SameLive cs.smallestSnapshot (st.installCompaction o cs).stored st.stored := by
  have hrun := h.running cs hcs
  obtain ⟨hrep, hkeep, -⟩ := hrun.outputs_spec hi o
  have hdrops := (hrun.ready.dropsOnly h.version hkeep).union_right (M := entrySet st.mem ∪ entrySet (st.imm.getD [])) (by
    intro r hr x hx
    have hxv : x ∈ st.version.entries := by
      rw [entries_eq_union hrun.fits]
      exact Or.inl hx
    rcases hr with hr | hr
    · exact h.mem_newer r hr x (Or.inr hxv)
    · exact h.imm_newer r hr x hxv)
  have hset : ∀ A : Set (Entry K V), entrySet st.mem ∪ (entrySet (st.imm.getD []) ∪ (A ∪ stayEntries st.version cs.compaction)) =
      A ∪ (stayEntries st.version cs.compaction ∪ (entrySet st.mem ∪ entrySet (st.imm.getD []))) := by
    intro A
    ext x
    simp only [Set.mem_union]
    tauto
  intro s hs e ht
  have hbefore : st.stored = entriesOf cs.compaction.inputs ∪
      (stayEntries st.version cs.compaction ∪ (entrySet st.mem ∪ entrySet (st.imm.getD []))) := by
    rw [DBState.stored, entries_eq_union hrun.fits, hset]
  have hafter : (st.installCompaction o cs).stored = entriesOf (cs.finishOutput o).outputs ∪
      (stayEntries st.version cs.compaction ∪ (entrySet st.mem ∪ entrySet (st.imm.getD []))) := by
    rw [← hset, ← entries_install_eq_union hrun.fits h.version.toShape hrep]
    rfl
  rw [hbefore, hafter]
  exact Versions.newest_iff_of_dropped hdrops hs (by simp [ht])

/-- **Every step keeps what is stored and what is written together.** -/
theorem DataInv.step [Inhabited V] (h : DataInv st hist) (hinv : DBInv st) (hseq : st.lastSequence < kMaxSequenceNumber)
    (hlegal : a.Legal st.version) (hstep : st.step o a = some st') : DataInv st' (hist ++ st.acknowledged a) := by
  have hnone : ∀ {a : Action K V}, st.acknowledged a = [] → DataInv st' hist → DataInv st' (hist ++ st.acknowledged a) := by
    intro a ha hd
    rwa [ha, List.append_nil]
  cases transition_of_step hstep with
  | beginWrite hw => exact hnone rfl (h.congr rfl rfl (fun s hs => Or.inl hs) (by simp [DBState.insertedOps, hw]))
  | insert hw hop => exact hnone rfl (h.insert hinv hw hop)
  | @endWrite batch hw =>
    obtain ⟨hlen, H, hH, hHs, hsame⟩ := h
    have hack : st.acknowledged .endWrite = batch := by simp [DBState.acknowledged, hw]
    have hops : st.insertedOps = batch := by simp [DBState.insertedOps, hw]
    rw [hack]
    refine ⟨by simp [hlen], H, hH.trans (Nat.le_add_right _ _), hHs, ?_⟩
    rw [hops] at hsame
    have hops' : DBState.insertedOps { st with lastSequence := st.lastSequence + batch.length, writing := none } = [] := rfl
    rw [hops', List.append_nil]
    exact hsame
  | switchMem hw hi =>
    refine hnone rfl (h.congr ?_ rfl (fun s hs => Or.inl hs) rfl)
    ext x
    simp [DBState.stored, hi]
  | flush hi hc =>
    exact hnone rfl (h.congr (stored_compactMemTable hinv hseq hi) (by simp) (fun s hs => Or.inl (by simpa using hs))
      (by simp [DBState.insertedOps]))
  | move hc hpick h0 h1 =>
    have hready := (pickCompaction_spec hinv.version.toOrdered hlegal hpick).1.ready hinv.version
    refine hnone rfl (h.congr ?_ rfl (fun s hs => Or.inl hs) rfl)
    simp only [DBState.stored, DBState.logAndApply, entries_move hready hinv.version h0 h1]
  | start hi hc hpick => exact hnone rfl (h.congr rfl rfl (fun s hs => Or.inl hs) rfl)
  | manual hi hc hl hpick => exact hnone rfl (h.congr rfl rfl (fun s hs => Or.inl hs) rfl)
  | turn hcs hr => exact hnone rfl (h.congr rfl rfl (fun s hs => Or.inl hs) rfl)
  | install hcs hi =>
    obtain ⟨hlen, H, hH, hHs, hsame⟩ := h
    have hsnap := hinv.snapshot_le _ hcs
    have hinst := sameLive_install (o := o) hinv hcs hi
    refine hnone rfl ⟨hlen, _, max_le hH hsnap.1, fun s hs => max_le (hHs s hs) (hsnap.2 s hs), fun s hs e ht => ?_⟩
    exact (hinst s ((le_max_right _ _).trans hs) e ht).trans (hsame s ((le_max_left _ _).trans hs) e ht)
  | newSnapshot => exact hnone rfl (h.congr rfl rfl (fun s hs => by simpa using hs) rfl)
  | releaseSnapshot hs => exact hnone rfl (h.congr rfl rfl (fun s hs => Or.inl (List.mem_of_mem_erase hs)) rfl)

theorem Run.dataInv [Inhabited V] (h : Run o (KeepsClear o) st hist) (hseq : st.lastSequence < kMaxSequenceNumber) :
    DataInv st hist := by
  induction h with
  | init => exact dataInv_init
  | step hrun hlegal hclear hstep ih =>
    have hlt := (lastSequence_le_of_step hstep).trans_lt hseq
    exact (ih hlt).step (hrun.inv hlt) hlt hlegal hstep

/-- `Get` reads the map of the operations written, where what is stored gives the same. -/
theorem DBInv.get_eq [Inhabited V] (h : DBInv st) {H : ℕ}
    (hsame : SameLive H st.stored (entrySet (opEntries (hist ++ st.insertedOps)))) (hH : H ≤ s) (hs : s ≤ hist.length)
    (k : K) : st.get k s = valueAt hist s k := by
  obtain ⟨r, hr, hget⟩ := get_answers h k s
  obtain ⟨r', hr', hval⟩ := valueAt_answers (hist ++ st.insertedOps) s k
  rw [hget, ← valueAt_append_of_le hs st.insertedOps, hval]
  ext v
  rw [hr.toOption_eq_some_iff h.distinct_stored, hr'.toOption_eq_some_iff (distinct_opEntries _)]
  simp only [hsame.live_iff hH]

/-- In a good state this is so at the last sequence number and at every snapshot. -/
theorem DataInv.get_eq [Inhabited V] (h : DataInv st hist) (hinv : DBInv st) (k : K)
    (hs : s = st.lastSequence ∨ s ∈ st.snapshots) : st.get k s = valueAt hist s k := by
  obtain ⟨hlen, H, hH, hHs, hsame⟩ := h
  have hHle : H ≤ s := hs.elim (fun hs => hs ▸ hH) (hHs s)
  have hle : s ≤ hist.length := hs.elim (fun hs => by omega) fun hs => by
    have := hinv.snapshots_le s hs
    omega
  exact hinv.get_eq hsame hHle hle k

/-- **Reads refine the map of the operations written.** At the last sequence number and at
every snapshot, `Get` returns the value of the last operation on the key up to there. -/
theorem get_eq_valueAt [Inhabited V] (h : Run o (fun _ a => a.isManual = false) st hist)
    (hseq : st.lastSequence < kMaxSequenceNumber) (k : K) {s : ℕ} (hs : s = st.lastSequence ∨ s ∈ st.snapshots) :
    st.get k s = valueAt hist s k :=
  (h.keepsClear.1.dataInv hseq).get_eq (h.keepsClear.1.inv hseq) k hs

/-- A put, a snapshot, a flush, and a second put of the key. -/
theorem get_eq_valueAt_snapshot : ∃ (st : DBState ℕ ℕ) (hist : List (Op ℕ ℕ)),
    Run smallOptions (fun _ a => a.isManual = false) st hist ∧ st.snapshots = [1] ∧ st.lastSequence = 2 ∧
      st.get 5 1 = valueAt hist 1 5 ∧ st.get 5 2 = valueAt hist 2 5 := by
  have hacts : (runActions smallOptions (fun _ a => a.isManual = false)
      (putActions 5 7 ++ .newSnapshot :: .switchMem :: .flush :: putActions 5 8)).map
      (fun st => (st.snapshots, st.lastSequence)) = some ([1], 2) := by decide +kernel
  obtain ⟨st, hist, hrun, heq⟩ := exists_run_of_runActions hacts
  obtain ⟨hsnap, hlast⟩ := Prod.mk.inj heq
  exact ⟨st, hist, hrun, hsnap, hlast, get_eq_valueAt hrun (hlast ▸ by decide) 5 (Or.inr (by simp [hsnap])),
    get_eq_valueAt hrun (hlast ▸ by decide) 5 (Or.inl hlast.symm)⟩

/-- **Iterators show what `Get` reads.** At a sequence number that is read, a `DBIter` over all that
the database holds is a cursor over the user keys that `Get` finds, which are those that the
operations up to there leave, with their values. -/
theorem dbIter_agrees_get [Inhabited K] [Inhabited V] (encode : InternalKey K → K)
    (h : Run o (fun _ a => a.isManual = false) st hist) (hseq : st.lastSequence < kMaxSequenceNumber)
    (hs : s = st.lastSequence ∨ s ∈ st.snapshots) {E : List (Entry K V)} (hE : SortedEntries E)
    (hstored : entrySet E = st.stored) (iter : Cursors.Cursor (Entry K V)) :
    ∃ L : List (K × V), L.Pairwise (fun x y => x.1 < y.1) ∧
      (∀ k v, ((k, v) ∈ L ↔ st.get k s = some v) ∧ ((k, v) ∈ L ↔ valueAt hist s k = some v)) ∧
        ∀ calls : List (IterCall K), ∃ it, calls.foldlM (DBIter.call (cursorOps E) s encode) (DBIter.new iter) = some it ∧
          it.shows (cursorOps E) = (calls.foldl (cursorCall L) none).map fun z => some z.cur := by
  have hinv := h.keepsClear.1.inv hseq
  have hview := userView_isUserView (s := s) hE
  have hget : ∀ k v, (k, v) ∈ userView s E ↔ st.get k s = some v := by
    intro k v
    obtain ⟨r, hr, hget⟩ := get_answers hinv k s
    rw [hview.mem, hget, hr.toOption_eq_some_iff hinv.distinct_stored, hstored]
  refine ⟨userView s E, hview.sorted, fun k v => ⟨hget k v, ?_⟩, exists_shows hE encode iter⟩
  rw [hget, (h.keepsClear.1.dataInv hseq).get_eq hinv k hs]

/-- Three keys are put, and one of them is deleted. -/
theorem dbIter_agrees_get_batch : ∃ (hist : List (Op ℕ ℕ)) (L : List (ℕ × ℕ)),
    (∀ v, (3, v) ∈ L ↔ valueAt hist 4 3 = some v) ∧
      ∃ it, [.seekToFirst, .next].foldlM (DBIter.call (cursorOps someEntries) 4 InternalKey.userKey) (DBIter.new none) = some it ∧
        it.shows (cursorOps someEntries) = ([.seekToFirst, .next].foldl (cursorCall L) none).map fun z => some z.cur := by
  have hacts : (runActions smallOptions (fun _ a => a.isManual = false)
      [.beginWrite [.put 2 8, .put 3 9, .delete 2, .put 1 7], .insert, .insert, .insert, .insert, .endWrite]).map id =
      some { (DBState.init : DBState ℕ ℕ) with mem := someEntries, lastSequence := 4 } := rfl
  obtain ⟨st, hist, hrun, rfl⟩ := exists_run_of_runActions hacts
  obtain ⟨L, -, hL, hcalls⟩ := dbIter_agrees_get InternalKey.userKey hrun (by decide) (.inl rfl)
    sortedEntries_someEntries (by simp [DBState.stored, DBState.init, Version.entries, Version.empty, entrySet]) none
  exact ⟨hist, L, fun v => (hL 3 v).2, hcalls _⟩

end Data

end TLevelDB.Db
