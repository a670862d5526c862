import TLevelDB.Db.Work

/-!
# Installing a compaction, a move or a flush

What an edit makes of a well-formed version. The outputs of a compaction take the place
of its inputs (`install_ok`): this needs only what `Ready` says about the version at that
time, which may have got files from flushes since the inputs were picked. Entries that a
compaction drops are not missed from its smallest snapshot on (`live_install_iff`).

A compaction is ready in the version it is picked from (`Compaction.InputsOk.ready`), and
stays ready when a memtable is flushed (`Compaction.Ready.addFile`), unless the flushed
file is put between its inputs on the next level.
-/

namespace TLevelDB.Db

variable {K V : Type} [LinearOrder K]

/-! ### Edits that do not delete what they add -/

section Edits

variable {v : Version K V} {edit : VersionEdit K V} {level : ℕ} {f : FileMetaData K V}

/-- An edit that deletes none of the files it adds. -/
def VersionEdit.Clean (edit : VersionEdit K V) : Prop :=
  ∀ level, ∀ f ∈ edit.newAt level, (level, f.number) ∉ edit.deletedFiles

omit [LinearOrder K] in
theorem VersionEdit.Clean.deleted_iff (h : edit.Clean) (n : ℕ) :
    edit.deleted level n = false ↔ (level, n) ∉ edit.deletedFiles := by
  simp only [VersionEdit.deleted, decide_eq_false_iff_not, not_and, not_not, List.mem_map]
  constructor
  · intro hdel hmem
    obtain ⟨g, hg, rfl⟩ := hdel hmem
    exact h level g hg hmem
  · exact fun hdel hmem => absurd hmem hdel

/-- The files after an edit: the old ones that it does not delete, and the new ones. -/
theorem VersionEdit.Clean.mem_apply_iff (h : edit.Clean) : f ∈ (v.apply edit).files level ↔
    (f ∈ v.files level ∧ (level, f.number) ∉ edit.deletedFiles) ∨ f ∈ edit.newAt level := by
  rw [TLevelDB.Db.mem_apply_iff, h.deleted_iff]
  constructor
  · rintro ⟨hf | hf, hd⟩
    · exact Or.inl ⟨hf, hd⟩
    · exact Or.inr hf
  · rintro (⟨hf, hd⟩ | hf)
    · exact ⟨Or.inl hf, hd⟩
    · exact ⟨Or.inr hf, h level f hf⟩

/-- The numbers of a level stay distinct if the new ones are, and are not those of files
that are kept. -/
theorem VersionEdit.Clean.number_ne (h : edit.Clean) (hv : (v.files level).Pairwise fun f g => f.number ≠ g.number)
    (hnew : (edit.newAt level).Pairwise fun f g => f.number ≠ g.number)
    (hdisj : ∀ f ∈ v.files level, (level, f.number) ∉ edit.deletedFiles → ∀ g ∈ edit.newAt level, f.number ≠ g.number) :
    ((v.apply edit).files level).Pairwise fun f g => f.number ≠ g.number := by
  refine apply_number_ne ?_
  rw [List.filter_append]
  refine List.pairwise_append.mpr ⟨hv.sublist List.filter_sublist, hnew.sublist List.filter_sublist, fun f hf g hg => ?_⟩
  obtain ⟨hf, hd⟩ := List.mem_filter.mp hf
  exact hdisj f hf ((h.deleted_iff _).mp (by simpa using hd)) g (List.mem_filter.mp hg).1

end Edits

/-! ### Replacing the inputs of a compaction -/

section Install

variable {v : Version K V} {c : Compaction K V} {outs : List (FileMetaData K V)} {f g : FileMetaData K V} {level : ℕ}

/-- The inputs of a compaction are files of `v`, and what stays behind at the next level does
not lie between them. -/
structure Compaction.Fits (v : Version K V) (c : Compaction K V) : Prop where
  level_lt : c.level + 1 < kNumLevels
  subset0 : ∀ f ∈ c.inputs0, f ∈ v.files c.level
  subset1 : ∀ f ∈ c.inputs1, f ∈ v.files (c.level + 1)
  outside : ∀ g ∈ v.files (c.level + 1), g ∉ c.inputs1 →
    (∀ f ∈ c.inputs, g.Before f) ∨ ∀ f ∈ c.inputs, f.largest.userKey < g.smallest.userKey

/-- The inputs can be replaced in `v`: what stays behind at their level is newer, and below are
only files that the compaction knew and files that share no user key with the inputs. -/
structure Compaction.Ready (v : Version K V) (c : Compaction K V) : Prop extends c.Fits v where
  stay : ∀ g ∈ v.files c.level, g ∉ c.inputs0 → ∀ f ∈ c.inputs0, NewerFile g f
  below : ∀ l, c.level + 2 ≤ l → ∀ g ∈ v.files l,
    g ∈ c.inputVersion.files l ∨ ∀ f ∈ c.inputs, ∀ x ∈ g.table, ∀ y ∈ f.table, x.userKey ≠ y.userKey

/-- Files that can take the place of the inputs. -/
structure Replaces (v : Version K V) (c : Compaction K V) (outs : List (FileMetaData K V)) : Prop where
  ok : ∀ f ∈ outs, f.Ok
  ordered : outs.Pairwise FileMetaData.Before
  number_ne : outs.Pairwise fun f g => f.number ≠ g.number
  subset : ∀ f ∈ outs, ∀ x ∈ f.table, ∃ g ∈ c.inputs, x ∈ g.table
  fresh : ∀ f ∈ outs, ∀ l, ∀ g ∈ v.files l, f.number = g.number → g ∈ c.inputs0

theorem Compaction.InputsOk.fits (h : c.InputsOk v) (hv : v.Ordered) : c.Fits v where
  level_lt := h.level_lt
  subset0 := h.closed.subset
  subset1 := h.closure.closed.subset
  outside _ hg hgi := h.outside hv hg hgi

theorem Compaction.InputsOk.ready (h : c.InputsOk v) (hv : v.Ok) : c.Ready v where
  toFits := h.fits hv.toOrdered
  stay g hg hgi f hf := by
    rcases h.closed.outside g hg hgi with hbefore | hafter
    · exact hv.newer_of_before hg (h.closed.subset f hf) (hbefore f hf)
    · intro x hx y hy hk
      have hx' := ((hv.file _ g hg).covers hx).1
      have hy' := ((hv.file _ f (h.closed.subset f hf)).covers hy).2
      exact absurd (hk ▸ (hy'.trans_lt (hafter f hf)).trans_le hx') (lt_irrefl _)
  below l _ g hg := Or.inl (h.version ▸ hg)

/-- The file is in `v` and not an input. -/
structure Stays (v : Version K V) (c : Compaction K V) (level : ℕ) (f : FileMetaData K V) : Prop where
  mem : f ∈ v.files level
  not_inputs0 : ¬ (level = c.level ∧ f ∈ c.inputs0)
  not_inputs1 : ¬ (level = c.level + 1 ∧ f ∈ c.inputs1)

namespace Compaction.Fits

theorem file_ok (h : c.Fits v) (hv : v.Ordered) : ∀ f ∈ c.inputs, f.Ok := by
  simp only [Compaction.inputs, List.forall_mem_append]
  exact ⟨fun f hf => hv.file _ f (h.subset0 f hf), fun f hf => hv.file _ f (h.subset1 f hf)⟩

omit [LinearOrder K] in
theorem newAt_install (c : Compaction K V) (outs : List (FileMetaData K V)) (level : ℕ) :
    (c.installEdit outs).newAt level = if level = c.level + 1 then outs else [] := by
  simp only [VersionEdit.newAt, Compaction.installEdit, List.filter_map, List.map_map]
  split_ifs with hl
  · subst hl
    simp [Function.comp_def]
  · have hne : ¬ c.level + 1 = level := fun h => hl h.symm
    simp [Function.comp_def, hne]

theorem mem_deletedFiles (h : c.Fits v) (hv : v.Shape) (hf : f ∈ v.files level) :
    (level, f.number) ∈ (c.installEdit outs).deletedFiles ↔
      (level = c.level ∧ f ∈ c.inputs0) ∨ (level = c.level + 1 ∧ f ∈ c.inputs1) := by
  simp only [Compaction.installEdit, Compaction.inputDeletions, List.mem_append, List.mem_map, Prod.mk.injEq]
  constructor
  · rintro (⟨g, hg, rfl, hn⟩ | ⟨g, hg, rfl, hn⟩)
    · exact Or.inl ⟨rfl, hv.eq_of_number (h.subset0 g hg) hf hn ▸ hg⟩
    · exact Or.inr ⟨rfl, hv.eq_of_number (h.subset1 g hg) hf hn ▸ hg⟩
  · rintro (⟨rfl, hg⟩ | ⟨rfl, hg⟩)
    · exact Or.inl ⟨f, hg, rfl, rfl⟩
    · exact Or.inr ⟨f, hg, rfl, rfl⟩

theorem clean (h : c.Fits v) (hv : v.Shape) (hr : Replaces v c outs) : (c.installEdit outs).Clean := by
  intro level f hf
  rw [newAt_install] at hf
  split_ifs at hf with hl
  · subst hl
    simp only [Compaction.installEdit, Compaction.inputDeletions, List.mem_append, List.mem_map, Prod.mk.injEq]
    rintro (⟨g, -, hlevel, -⟩ | ⟨g, hg, -, hn⟩)
    · omega
    · -- an input of the next level would be one of the level too
      have hg0 := hr.fresh f hf _ g (h.subset1 g hg) hn.symm
      have := hv.level_eq _ _ g (h.subset0 g hg0) g (h.subset1 g hg) rfl
      omega
  · simp at hf

theorem mem_install_iff (h : c.Fits v) (hv : v.Shape) (hr : Replaces v c outs) :
    f ∈ (v.apply (c.installEdit outs)).files level ↔ Stays v c level f ∨ (level = c.level + 1 ∧ f ∈ outs) := by
  rw [(h.clean hv hr).mem_apply_iff, newAt_install]
  refine or_congr ⟨fun ⟨hf, hd⟩ => ?_, fun hf => ⟨hf.mem, ?_⟩⟩ ?_
  · rw [h.mem_deletedFiles hv hf, not_or] at hd
    exact ⟨hf, hd.1, hd.2⟩
  · rw [h.mem_deletedFiles hv hf.mem, not_or]
    exact ⟨hf.not_inputs0, hf.not_inputs1⟩
  · split_ifs with hl <;> simp [hl]

/-- An output and a file that stays on its level come one before the other. -/
theorem before_or_of_output (h : c.Fits v) (hv : v.Ordered) (hr : Replaces v c outs) (hg : Stays v c (c.level + 1) g)
    (hf : f ∈ outs) : g.Before f ∨ f.Before g := by
  obtain ⟨x, hx, hxs⟩ := (hr.ok f hf).exists_smallest
  obtain ⟨y, hy, hyl⟩ := (hr.ok f hf).exists_largest
  obtain ⟨a, ha, hxa⟩ := hr.subset f hf x hx
  obtain ⟨b, hb, hyb⟩ := hr.subset f hf y hy
  rcases h.outside g hg.mem (fun hgi => hg.not_inputs1 ⟨rfl, hgi⟩) with hbefore | hafter
  · left
    rw [FileMetaData.Before, ← hxs]
    exact (hbefore a ha).trans_le ((h.file_ok hv a ha).smallest_le hxa)
  · right
    rw [FileMetaData.Before, ← hyl]
    exact InternalKey.lt_of_userKey_lt (((h.file_ok hv b hb).covers hyb).2.trans_lt (hafter b hb))

theorem number_ne_of_stays (h : c.Fits v) (hv : v.Shape) (hr : Replaces v c outs) (hg : Stays v c level g)
    (hf : f ∈ outs) : f.number ≠ g.number := by
  intro hn
  have hg0 := hr.fresh f hf level g hg.mem hn
  exact hg.not_inputs0 ⟨hv.level_eq _ _ g hg.mem g (h.subset0 g hg0) rfl, hg0⟩

end Compaction.Fits

namespace Compaction.Ready

/-- What stays on the levels down to the next is newer than the inputs. -/
theorem newer_of_stays (h : c.Ready v) (hv : v.Ok) (hg : Stays v c level g) (hle : level ≤ c.level + 1)
    (hf : f ∈ c.inputs) : NewerFile g f := by
  rcases Nat.lt_or_eq_of_le hle with hlt | rfl
  · rcases List.mem_append.mp hf with hf | hf
    · rcases Nat.lt_or_eq_of_le (Nat.lt_succ_iff.mp hlt) with hlt | rfl
      · exact hv.newer level _ hlt g hg.mem f (h.subset0 f hf)
      · exact h.stay g hg.mem (fun hgi => hg.not_inputs0 ⟨rfl, hgi⟩) f hf
    · exact hv.newer level _ hlt g hg.mem f (h.subset1 f hf)
  · have hfmem : ∃ l, f ∈ v.files l := (List.mem_append.mp hf).elim (fun hf => ⟨_, h.subset0 f hf⟩)
      fun hf => ⟨_, h.subset1 f hf⟩
    obtain ⟨l, hfl⟩ := hfmem
    rcases h.outside g hg.mem (fun hgi => hg.not_inputs1 ⟨rfl, hgi⟩) with hbefore | hafter
    · exact hv.newer_of_before hg.mem hfl (hbefore f hf)
    · intro x hx y hy hk
      have hx' := ((hv.file _ g hg.mem).covers hx).1
      have hy' := ((hv.file _ f hfl).covers hy).2
      exact absurd (hk ▸ (hy'.trans_lt (hafter f hf)).trans_le hx') (lt_irrefl _)

/-- The inputs are newer than what is below the next level. -/
theorem newer_below (h : c.Ready v) (hv : v.Ok) (hf : f ∈ c.inputs) (hg : g ∈ v.files level)
    (hlt : c.level + 1 < level) : NewerFile f g := by
  rcases List.mem_append.mp hf with hf | hf
  · exact hv.newer _ _ (by omega) f (h.subset0 f hf) g hg
  · exact hv.newer _ _ hlt f (h.subset1 f hf) g hg

end Compaction.Ready

theorem Replaces.newer_of_inputs (hr : Replaces v c outs) (hf : f ∈ outs) (h : ∀ a ∈ c.inputs, NewerFile g a) :
    NewerFile g f := by
  intro x hx y hy hk
  obtain ⟨a, ha, hya⟩ := hr.subset f hf y hy
  exact h a ha x hx y hya hk

theorem Replaces.inputs_newer (hr : Replaces v c outs) (hf : f ∈ outs) (h : ∀ a ∈ c.inputs, NewerFile a g) :
    NewerFile f g := by
  intro x hx y hy hk
  obtain ⟨a, ha, hxa⟩ := hr.subset f hf x hx
  exact h a ha x hxa y hy hk

theorem entries_install_subset (h : c.Fits v) (hv : v.Shape) (hr : Replaces v c outs) :
    (v.apply (c.installEdit outs)).entries ⊆ v.entries := by
  rintro e ⟨level, f, hf, hef⟩
  rcases (h.mem_install_iff hv hr).mp hf with hf | ⟨-, hf⟩
  · exact ⟨level, f, hf.mem, hef⟩
  · obtain ⟨g, hg, heg⟩ := hr.subset f hf e hef
    rcases List.mem_append.mp hg with hg | hg
    · exact ⟨_, g, h.subset0 g hg, heg⟩
    · exact ⟨_, g, h.subset1 g hg, heg⟩

theorem Compaction.Fits.entries_ne_of_stays (h : c.Fits v) (hv : v.Shape) (hr : Replaces v c outs) (hg : Stays v c level g)
    (hf : f ∈ outs) {x y : Entry K V} (hx : x ∈ f.table) (hy : y ∈ g.table) (hk : x.userKey = y.userKey) :
    x.sequence ≠ y.sequence := by
  intro hs
  obtain ⟨a, ha, hxa⟩ := hr.subset f hf x hx
  rcases List.mem_append.mp ha with ha | ha
  · obtain rfl := hv.unique _ _ a (h.subset0 a ha) g hg.mem x hxa y hy hk hs
    exact hg.not_inputs0 ⟨hv.level_eq _ _ a hg.mem a (h.subset0 a ha) rfl, ha⟩
  · obtain rfl := hv.unique _ _ a (h.subset1 a ha) g hg.mem x hxa y hy hk hs
    exact hg.not_inputs1 ⟨hv.level_eq _ _ a hg.mem a (h.subset1 a ha) rfl, ha⟩

/-- **With the outputs in the place of the inputs, the version has the right shape.** -/
theorem install_shape (hv : v.Shape) (h : c.Fits v) (hr : Replaces v c outs) : (v.apply (c.installEdit outs)).Shape := by
  have hmem : ∀ level f, f ∈ (v.apply (c.installEdit outs)).files level ↔
      Stays v c level f ∨ (level = c.level + 1 ∧ f ∈ outs) := fun _ _ => h.mem_install_iff hv hr
  have hfile : ∀ level, ∀ f ∈ (v.apply (c.installEdit outs)).files level, f.Ok := by
    intro level f hf
    rcases (hmem level f).mp hf with hf | ⟨-, hf⟩
    · exact hv.file level f hf.mem
    · exact hr.ok f hf
  have hnum : ∀ level, ((v.apply (c.installEdit outs)).files level).Pairwise fun f g => f.number ≠ g.number := by
    intro level
    refine (h.clean hv hr).number_ne (hv.number_ne level) ?_ fun f hf hd g hg => ?_
    · rw [Compaction.Fits.newAt_install]
      split_ifs
      · exact hr.number_ne
      · exact List.Pairwise.nil
    · rw [Compaction.Fits.newAt_install] at hg
      split_ifs at hg with hl
      · rw [h.mem_deletedFiles hv hf, not_or] at hd
        exact (h.number_ne_of_stays hv hr ⟨hf, hd.1, hd.2⟩ hg).symm
      · simp at hg
  refine ⟨⟨hfile, fun level hl => ?_⟩, fun level hl => ?_, fun level level' f hf g hg x hx y hy hk hs => ?_, hnum, ?_⟩
  · refine apply_sorted (hv.sorted level hl) (hv.file level) (hfile level) (hnum level) fun f hf g hg hne => ?_
    rcases (hmem level f).mp hf with hf | ⟨rfl, hfo⟩
    · rcases (hmem level g).mp hg with hg | ⟨rfl, hgo⟩
      · exact hv.before_or hl hf.mem hg.mem fun heq => hne (heq ▸ rfl)
      · exact h.before_or_of_output hv.toOrdered hr hf hgo
    · rcases (hmem _ g).mp hg with hg | ⟨-, hgo⟩
      · exact (h.before_or_of_output hv.toOrdered hr hg hfo).symm
      · exact before_or_of_pairwise hr.ordered hfo hgo fun heq => hne (heq ▸ rfl)
  · refine List.eq_nil_iff_forall_not_mem.mpr fun f hf => ?_
    rcases (hmem level f).mp hf with hf | ⟨rfl, -⟩
    · have := hf.mem
      rw [hv.levels level hl] at this
      simp at this
    · exact absurd h.level_lt (not_lt.mpr hl)
  · rcases (hmem level f).mp hf with hf | ⟨-, hfo⟩
    · rcases (hmem level' g).mp hg with hg | ⟨-, hgo⟩
      · exact hv.unique level level' f hf.mem g hg.mem x hx y hy hk hs
      · exact absurd hs.symm (h.entries_ne_of_stays hv hr hf hgo hy hx hk.symm)
    · rcases (hmem level' g).mp hg with hg | ⟨-, hgo⟩
      · exact absurd hs (h.entries_ne_of_stays hv hr hg hfo hx hy hk)
      · by_contra hne
        have hxy := hv.distinct x (entries_install_subset h hv hr ⟨level, f, hf, hx⟩) y
          (entries_install_subset h hv hr ⟨level', g, hg, hy⟩) hk hs
        subst hxy
        rcases before_or_of_pairwise hr.ordered hfo hgo hne with hlt | hlt
        · exact lt_irrefl _ (hlt.key_lt (hr.ok f hfo) (hr.ok g hgo) hx hy)
        · exact lt_irrefl _ (hlt.key_lt (hr.ok g hgo) (hr.ok f hfo) hy hx)
  · intro level level' f hf g hg hn
    rcases (hmem level f).mp hf with hf | ⟨rfl, hfo⟩
    · rcases (hmem level' g).mp hg with hg | ⟨rfl, hgo⟩
      · exact hv.level_eq level level' f hf.mem g hg.mem hn
      · exact absurd hn.symm (h.number_ne_of_stays hv hr hf hgo)
    · rcases (hmem level' g).mp hg with hg | ⟨rfl, hgo⟩
      · exact absurd hn (h.number_ne_of_stays hv hr hg hfo)
      · rfl

/-- **With the outputs in the place of the inputs, the version is well formed.** -/
theorem install_ok (hv : v.Ok) (h : c.Ready v) (hr : Replaces v c outs) : (v.apply (c.installEdit outs)).Ok := by
  have hmem : ∀ level f, f ∈ (v.apply (c.installEdit outs)).files level ↔
      Stays v c level f ∨ (level = c.level + 1 ∧ f ∈ outs) := fun _ _ => h.mem_install_iff hv.toShape hr
  refine ⟨install_shape hv.toShape h.toFits hr, fun level level' hlt f hf g hg => ?_, fun f hf g hg hlt => ?_⟩
  · rcases (hmem level f).mp hf with hf | ⟨rfl, hfo⟩
    · rcases (hmem level' g).mp hg with hg | ⟨rfl, hgo⟩
      · exact hv.newer level level' hlt f hf.mem g hg.mem
      · exact hr.newer_of_inputs hgo fun a ha => h.newer_of_stays hv hf hlt.le ha
    · rcases (hmem level' g).mp hg with hg | ⟨rfl, hgo⟩
      · exact hr.inputs_newer hfo fun a ha => h.newer_below hv ha hg.mem hlt
      · exact absurd hlt (lt_irrefl _)
  · rcases (hmem 0 f).mp hf with hf | ⟨h0, -⟩
    · rcases (hmem 0 g).mp hg with hg | ⟨h0, -⟩
      · exact hv.newer_level0 f hf.mem g hg.mem hlt
      · omega
    · omega

/-! ### What is dropped -/

/-- The entries of the files that stay. -/
def stayEntries (v : Version K V) (c : Compaction K V) : Set (Entry K V) :=
  {x | ∃ level g, Stays v c level g ∧ x ∈ g.table}

omit [LinearOrder K] in
/-- The entries of some files. -/
def entriesOf (files : List (FileMetaData K V)) : Set (Entry K V) := {x | ∃ f ∈ files, x ∈ f.table}

theorem entries_eq_union (h : c.Fits v) : v.entries = entriesOf c.inputs ∪ stayEntries v c := by
  ext x
  constructor
  · rintro ⟨level, f, hf, hx⟩
    by_cases h0 : level = c.level ∧ f ∈ c.inputs0
    · exact Or.inl ⟨f, List.mem_append_left _ h0.2, hx⟩
    · by_cases h1 : level = c.level + 1 ∧ f ∈ c.inputs1
      · exact Or.inl ⟨f, List.mem_append_right _ h1.2, hx⟩
      · exact Or.inr ⟨level, f, ⟨hf, h0, h1⟩, hx⟩
  · rintro (⟨f, hf, hx⟩ | ⟨level, f, hf, hx⟩)
    · rcases List.mem_append.mp hf with hf | hf
      · exact ⟨_, f, h.subset0 f hf, hx⟩
      · exact ⟨_, f, h.subset1 f hf, hx⟩
    · exact ⟨level, f, hf.mem, hx⟩

theorem entries_install_eq_union (h : c.Fits v) (hv : v.Shape) (hr : Replaces v c outs) :
    (v.apply (c.installEdit outs)).entries = entriesOf outs ∪ stayEntries v c := by
  ext x
  constructor
  · rintro ⟨level, f, hf, hx⟩
    rcases (h.mem_install_iff hv hr).mp hf with hf | ⟨-, hf⟩
    · exact Or.inr ⟨level, f, hf, hx⟩
    · exact Or.inl ⟨f, hf, hx⟩
  · rintro (⟨f, hf, hx⟩ | ⟨level, f, hf, hx⟩)
    · exact ⟨_, f, (h.mem_install_iff hv hr).mpr (Or.inr ⟨rfl, hf⟩), hx⟩
    · exact ⟨level, f, (h.mem_install_iff hv hr).mpr (Or.inl hf), hx⟩

/-- The outputs hold the entries to keep, and only those. -/
def Keeps (c : Compaction K V) (s : ℕ) (outs : List (FileMetaData K V)) : Prop :=
  ∀ x, x ∈ entriesOf outs ↔ x ∈ c.makeInputIterator ∧ Kept c s c.makeInputIterator x

/-- What is dropped is hidden, or is a deletion with nothing older left anywhere. -/
theorem Compaction.Ready.dropsOnly {s : ℕ} (h : c.Ready v) (hv : v.Ok) (hk : Keeps c s outs) :
    Versions.DropsOnly Entry.userKey Entry.sequence (fun e => e.key.type = .deletion) s (entriesOf c.inputs)
      (entriesOf outs) (stayEntries v c) where
  subset x hx := mem_makeInputIterator.mp ((hk x).mp hx).1
  hidden x hx y hy hkey hlt hys :=
    ((hk x).mp hx).2.1 ⟨y, mem_makeInputIterator.mpr hy, hkey, hlt, hys⟩
  dropped x hx hxo := by
    have hxI := mem_makeInputIterator.mpr hx
    have hnot : ¬ Kept c s c.makeInputIterator x := fun hkept => hxo ((hk x).mpr ⟨hxI, hkept⟩)
    rw [Kept, not_and_or, not_not, not_not] at hnot
    obtain ⟨y, hy, hrest⟩ | ⟨hdel, hxs, hbase⟩ := hnot
    · exact .inl ⟨y, mem_makeInputIterator.mp hy, hrest⟩
    refine .inr ⟨hdel, hxs, ?_⟩
    rintro r ⟨level, g, hg, hrg⟩ hkey
    obtain ⟨f, hf, hxf⟩ := hx
    rcases Nat.lt_or_ge (c.level + 1) level with hlt | hle
    · -- below the next level nothing has this user key
      rcases h.below level hlt g hg.mem with hold | hno
      · exact absurd (hkey ▸ (hv.file level g hg.mem).covers hrg) (hbase level hlt g hold)
      · exact absurd hkey (hno f hf r hrg x hxf)
    · exact h.newer_of_stays hv hg hle hf r hrg x hxf hkey

/-- **A compaction changes nothing that is seen from its smallest snapshot on.** -/
theorem live_install_iff {s s' : ℕ} (h : c.Ready v) (hv : v.Ok) (hr : Replaces v c outs) (hk : Keeps c s outs)
    (hs : s ≤ s') (e : Entry K V) : Live s' (v.apply (c.installEdit outs)).entries e ↔ Live s' v.entries e := by
  rw [entries_install_eq_union h.toFits hv.toShape hr, entries_eq_union h.toFits]
  constructor
  · rintro ⟨hn, hput⟩
    exact ⟨(Versions.newest_iff_of_dropped (h.dropsOnly hv hk) hs (by simp [hput])).mp hn, hput⟩
  · rintro ⟨hn, hput⟩
    exact ⟨(Versions.newest_iff_of_dropped (h.dropsOnly hv hk) hs (by simp [hput])).mpr hn, hput⟩

/-! ### The outputs of the work -/

theorem WorkInv.replaces {s next : ℕ} {cs : CompactionState K V} (h : WorkInv c s c.makeInputIterator [] cs next)
    (hb : cs.builder = none) (hI : SortedEntries c.makeInputIterator)
    (hseq : ∀ x ∈ c.makeInputIterator, x.sequence ≤ kMaxSequenceNumber)
    (hfresh : ∀ n ∈ cs.outputNumbers, ∀ l, ∀ g ∈ v.files l, n ≠ g.number) : Replaces v c cs.outputs := by
  have hsub : ∀ x ∈ cs.written, x ∈ c.makeInputIterator := fun x hx => h.sublist.subset hx
  have hsorted : SortedEntries cs.written :=
    ⟨hI.sorted.sublist h.sublist, fun x hx y hy => hI.distinct x (hsub x hx) y (hsub y hy)⟩
  obtain ⟨hok, hordered⟩ := h.outputs.files_ok hb hsorted fun x hx => hseq x (hsub x hx)
  have hnum : cs.outputNumbers = cs.outputs.map FileMetaData.number := by simp [CompactionState.outputNumbers, hb]
  have hw : cs.written = cs.outputs.flatMap FileMetaData.table := by simp [CompactionState.written, hb]
  refine ⟨hok, hordered, ?_, fun f hf x hx => ?_, fun f hf l g hg hn => ?_⟩
  · have hinc := h.outputs.increasing
    rw [hnum, List.pairwise_map] at hinc
    exact hinc.imp ne_of_lt
  · exact mem_makeInputIterator.mp (hsub x (hw ▸ List.mem_flatMap.mpr ⟨f, hf, hx⟩))
  · exact absurd hn (hfresh _ (hnum ▸ List.mem_map_of_mem hf) l g hg)

theorem WorkInv.keeps {s next : ℕ} {cs : CompactionState K V} (h : WorkInv c s c.makeInputIterator [] cs next)
    (hb : cs.builder = none) : Keeps c s cs.outputs := by
  have hw : cs.written = cs.outputs.flatMap FileMetaData.table := by simp [CompactionState.written, hb]
  have hmem : ∀ x, x ∈ entriesOf cs.outputs ↔ x ∈ cs.written := fun x => by rw [hw, List.mem_flatMap]; rfl
  intro x
  rw [hmem]
  constructor
  · intro hx
    have hxI := h.sublist.subset hx
    exact ⟨hxI, (h.written x hxI).mp hx⟩
  · rintro ⟨hxI, hkept⟩
    exact (h.written x hxI).mpr hkept

end Install

/-! ### Adding a flushed file -/

section AddFile

variable {v : Version K V} {c : Compaction K V} {f g : FileMetaData K V} {level level' : ℕ}

omit [LinearOrder K] in
/-- The edit that adds a file. -/
def addFileEdit (level : ℕ) (f : FileMetaData K V) : VersionEdit K V where
  newFiles := [(level, f)]

/-- A file that has a place in `v` at a level: it has other entries and a higher number than
all others, and overlaps nothing down to that level. -/
structure Placeable (v : Version K V) (level : ℕ) (f : FileMetaData K V) : Prop where
  ok : f.Ok
  level_lt : level < kNumLevels
  number : ∀ l, ∀ g ∈ v.files l, g.number < f.number
  other : ∀ x ∈ f.table, ∀ y ∈ v.entries, x.userKey = y.userKey → x.sequence ≠ y.sequence
  apart : 0 < level → ∀ l ≤ level, ∀ g ∈ v.files l,
    g.largest.userKey < f.smallest.userKey ∨ f.largest.userKey < g.smallest.userKey

/-- A file that may be added: its entries are newer than all others. -/
structure Addable (v : Version K V) (level : ℕ) (f : FileMetaData K V) : Prop extends Placeable v level f where
  newest : ∀ x ∈ f.table, ∀ y ∈ v.entries, y.sequence < x.sequence

theorem mem_addFile_iff :
    g ∈ (v.apply (addFileEdit level f)).files level' ↔ g ∈ v.files level' ∨ (level' = level ∧ g = f) := by
  have hclean : (addFileEdit level f).Clean := fun _ _ _ => by simp [addFileEdit]
  rw [hclean.mem_apply_iff]
  have hnew : g ∈ (addFileEdit level f).newAt level' ↔ level' = level ∧ g = f := by
    simp only [VersionEdit.newAt, addFileEdit, List.mem_map, List.mem_filter, List.mem_singleton, decide_eq_true_eq]
    constructor
    · rintro ⟨_, ⟨rfl, rfl⟩, rfl⟩
      exact ⟨rfl, rfl⟩
    · rintro ⟨rfl, rfl⟩
      exact ⟨_, ⟨rfl, rfl⟩, rfl⟩
  rw [hnew]
  simp [addFileEdit]

theorem entries_addFile : (v.apply (addFileEdit level f)).entries = entrySet f.table ∪ v.entries := by
  ext x
  constructor
  · rintro ⟨l, g, hg, hx⟩
    rcases mem_addFile_iff.mp hg with hg | ⟨-, rfl⟩
    · exact Or.inr ⟨l, g, hg, hx⟩
    · exact Or.inl hx
  · rintro (hx | ⟨l, g, hg, hx⟩)
    · exact ⟨level, f, mem_addFile_iff.mpr (Or.inr ⟨rfl, rfl⟩), hx⟩
    · exact ⟨l, g, mem_addFile_iff.mpr (Or.inl hg), hx⟩

namespace Addable

theorem newer (h : Addable v level f) (hg : g ∈ v.files level') : NewerFile f g :=
  fun x hx y hy _ => h.newest x hx y ⟨level', g, hg, hy⟩

/-- Where the file is pushed down, it shares no user key with the files on the way. -/
theorem userKey_ne (h : Addable v level f) (hv : v.Ok) (hpos : 0 < level) (hle : level' ≤ level) (hg : g ∈ v.files level') :
    ∀ x ∈ f.table, ∀ y ∈ g.table, x.userKey ≠ y.userKey := by
  intro x hx y hy hk
  have hcx := h.ok.covers hx
  have hcy := (hv.file level' g hg).covers hy
  rcases h.apart hpos level' hle g hg with hlt | hlt
  · exact absurd ((hlt.trans_le hcx.1).trans_le (hk ▸ hcy.2)) (lt_irrefl _)
  · exact absurd ((hcx.2.trans_lt hlt).trans_le (hk ▸ hcy.1)) (lt_irrefl _)

end Addable

theorem Placeable.before_or (h : Placeable v level f) (hpos : 0 < level) (hg : g ∈ v.files level) : g.Before f ∨ f.Before g :=
  (h.apart hpos level le_rfl g hg).imp InternalKey.lt_of_userKey_lt InternalKey.lt_of_userKey_lt

/-- **With a flushed file the version has the right shape.** -/
theorem addFile_shape (hv : v.Shape) (h : Placeable v level f) : (v.apply (addFileEdit level f)).Shape := by
  have hclean : (addFileEdit level f).Clean := fun _ _ _ => by simp [addFileEdit]
  have hfile : ∀ l, ∀ g ∈ (v.apply (addFileEdit level f)).files l, g.Ok := by
    intro l g hg
    rcases mem_addFile_iff.mp hg with hg | ⟨-, rfl⟩
    · exact hv.file l g hg
    · exact h.ok
  have hnum : ∀ l, ((v.apply (addFileEdit level f)).files l).Pairwise fun f g => f.number ≠ g.number := by
    intro l
    have hnew : ∀ g ∈ (addFileEdit level f).newAt l, g = f := by
      intro g hg
      simp only [VersionEdit.newAt, addFileEdit, List.mem_map, List.mem_filter, List.mem_singleton] at hg
      obtain ⟨_, ⟨rfl, -⟩, rfl⟩ := hg
      rfl
    refine hclean.number_ne (hv.number_ne l) ?_ fun g hg _ g' hg' => ?_
    · simp only [VersionEdit.newAt, addFileEdit, List.filter_cons, List.filter_nil]
      split_ifs <;> simp
    · rw [hnew g' hg']
      exact (h.number l g hg).ne
  refine ⟨⟨hfile, fun l hl => ?_⟩, fun l hl => ?_, fun l l' g hg g' hg' x hx y hy hk hs => ?_, hnum, ?_⟩
  · refine apply_sorted (hv.sorted l hl) (hv.file l) (hfile l) (hnum l) fun x hx y hy hne => ?_
    rcases mem_addFile_iff.mp hx with hxv | ⟨rfl, rfl⟩
    · rcases mem_addFile_iff.mp hy with hyv | ⟨rfl, rfl⟩
      · exact hv.before_or hl hxv hyv fun heq => hne (heq ▸ rfl)
      · exact h.before_or hl hxv
    · rcases mem_addFile_iff.mp hy with hyv | ⟨-, rfl⟩
      · exact (h.before_or hl hyv).symm
      · exact absurd rfl hne
  · refine List.eq_nil_iff_forall_not_mem.mpr fun g hg => ?_
    rcases mem_addFile_iff.mp hg with hg | ⟨rfl, -⟩
    · rw [hv.levels l hl] at hg
      simp at hg
    · exact absurd h.level_lt (not_lt.mpr hl)
  · rcases mem_addFile_iff.mp hg with hgv | ⟨-, rfl⟩
    · rcases mem_addFile_iff.mp hg' with hgv' | ⟨-, rfl⟩
      · exact hv.unique l l' g hgv g' hgv' x hx y hy hk hs
      · exact absurd hs.symm (h.other y hy x ⟨l, g, hgv, hx⟩ hk.symm)
    · rcases mem_addFile_iff.mp hg' with hgv' | ⟨-, rfl⟩
      · exact absurd hs (h.other x hx y ⟨l', g', hgv', hy⟩ hk)
      · rfl
  · intro l l' x hx y hy hn
    rcases mem_addFile_iff.mp hx with hxv | ⟨rfl, rfl⟩
    · rcases mem_addFile_iff.mp hy with hyv | ⟨rfl, rfl⟩
      · exact hv.level_eq l l' x hxv y hyv hn
      · exact absurd hn (h.number l x hxv).ne
    · rcases mem_addFile_iff.mp hy with hyv | ⟨rfl, rfl⟩
      · exact absurd hn (h.number l' y hyv).ne'
      · rfl

/-- **With a flushed file the version is well formed.** -/
theorem addFile_ok (hv : v.Ok) (h : Addable v level f) : (v.apply (addFileEdit level f)).Ok := by
  refine ⟨addFile_shape hv.toShape h.toPlaceable, fun l l' hlt x hx y hy => ?_, fun x hx y hy hlt => ?_⟩
  · rcases mem_addFile_iff.mp hx with hxv | ⟨rfl, rfl⟩
    · rcases mem_addFile_iff.mp hy with hyv | ⟨rfl, rfl⟩
      · exact hv.newer l l' hlt x hxv y hyv
      · intro a ha b hb hk
        exact absurd hk.symm (h.userKey_ne hv (by omega) hlt.le hxv b hb a ha)
    · rcases mem_addFile_iff.mp hy with hyv | ⟨rfl, rfl⟩
      · exact h.newer hyv
      · exact absurd hlt (lt_irrefl _)
  · rcases mem_addFile_iff.mp hx with hxv | ⟨rfl, rfl⟩
    · rcases mem_addFile_iff.mp hy with hyv | ⟨-, rfl⟩
      · exact hv.newer_level0 x hxv y hyv hlt
      · exact absurd hlt (not_lt.mpr (h.number 0 x hxv).le)
    · rcases mem_addFile_iff.mp hy with hyv | ⟨-, rfl⟩
      · exact h.newer hyv
      · exact absurd hlt (lt_irrefl _)

/-- A compaction stays ready, unless the file comes to lie between its inputs on the next
level. -/
theorem Compaction.Ready.addFile (hc : c.Ready v) (hv : v.Ok) (h : Addable v level f)
    (hgap : level = c.level + 1 → (∀ a ∈ c.inputs, f.largest.userKey < a.smallest.userKey) ∨
      ∀ a ∈ c.inputs, a.largest.userKey < f.smallest.userKey) : c.Ready (v.apply (addFileEdit level f)) where
  level_lt := hc.level_lt
  subset0 a ha := mem_addFile_iff.mpr (Or.inl (hc.subset0 a ha))
  subset1 a ha := mem_addFile_iff.mpr (Or.inl (hc.subset1 a ha))
  stay g hg hgi a ha := by
    rcases mem_addFile_iff.mp hg with hg | ⟨-, rfl⟩
    · exact hc.stay g hg hgi a ha
    · exact h.newer (hc.subset0 a ha)
  outside g hg hgi := by
    rcases mem_addFile_iff.mp hg with hg | ⟨heq, rfl⟩
    · exact hc.outside g hg hgi
    · exact (hgap heq.symm).imp_left fun hlt a ha => InternalKey.lt_of_userKey_lt (hlt a ha)
  below l hl g hg := by
    rcases mem_addFile_iff.mp hg with hg | ⟨rfl, rfl⟩
    · exact hc.below l hl g hg
    · right
      intro a ha
      rcases List.mem_append.mp ha with ha | ha
      · exact h.userKey_ne hv (by omega) (by omega) (hc.subset0 a ha)
      · exact h.userKey_ne hv (by omega) (by omega) (hc.subset1 a ha)

end AddFile

/-! ### A compaction on its own -/

section Compact

variable {o : Options K V} {v : Version K V} {c : Compaction K V} {smallestSnapshot next s : ℕ}

/-- A compaction that `PickCompaction` or `CompactRange` chooses. -/
inductive Picked (o : Options K V) (v : Version K V) (c : Compaction K V) : Prop where
  /-- By `PickCompaction`. -/
  | automatic (compactPointer : ℕ → Option (InternalKey K)) (reason : PickReason K V) :
      reason.Legal v → v.pickCompaction o compactPointer reason = some c → Picked o v c
  /-- By `CompactRange`. -/
  | manual (level : ℕ) (b e : Option (InternalKey K)) :
      level + 1 < kNumLevels → v.compactRange o level b e = some c → Picked o v c

theorem Picked.inputsOk (h : Picked o v c) (hv : v.Ordered) : c.InputsOk v := by
  cases h with
  | automatic compactPointer reason hr hc => exact (pickCompaction_spec hv hr hc).1
  | manual level b e hl hc => exact compactRange_spec hv hl hc

/-- The outputs of `DoCompactionWork`, when nothing happens in between. -/
theorem outputs_spec (hv : v.Shape) (hc : c.InputsOk v) (hnext : ∀ level, ∀ f ∈ v.files level, f.number < next)
    (hss : smallestSnapshot < kMaxSequenceNumber) :
    Replaces v c (c.outputs o smallestSnapshot next) ∧ Keeps c smallestSnapshot (c.outputs o smallestSnapshot next) := by
  have hI := hc.sortedEntries hv
  have hseq : ∀ x ∈ c.makeInputIterator, x.sequence ≤ kMaxSequenceNumber := by
    intro x hx
    obtain ⟨f, hf, hxf⟩ := mem_makeInputIterator.mp hx
    exact (hc.file_ok hv f hf).sequence_le x hxf
  obtain ⟨⟨next', hrun⟩, hb, hnum⟩ := (workInv_start c smallestSnapshot next).run hI (hc.version ▸ hv) hss o
  refine ⟨hrun.replaces hb hI hseq fun n hn l g hg => ?_, hrun.keeps hb⟩
  rcases hnum n hn with hn | hn
  · simp [CompactionState.outputNumbers, Compaction.start] at hn
  · exact ((hnext l g hg).trans_le hn).ne'

/-- **A compaction preserves every state that is visible from its smallest snapshot on.**
For each user key, the entry that gives it its value is the same before and after. -/
theorem live_compaction_iff (hv : v.Ok) (hc : Picked o v c) (hnext : ∀ level, ∀ f ∈ v.files level, f.number < next)
    (hss : smallestSnapshot < kMaxSequenceNumber) (hs : smallestSnapshot ≤ s) (e : Entry K V) :
    Live s (v.apply (c.installEdit (c.outputs o smallestSnapshot next))).entries e ↔ Live s v.entries e := by
  have hin := hc.inputsOk hv.toOrdered
  obtain ⟨hr, hk⟩ := outputs_spec (o := o) hv.toShape hin hnext hss
  exact live_install_iff (hin.ready hv) hv hr hk hs e

/-- Options under which a table of any entries has 10 bytes. -/
def smallOptions : Options ℕ ℕ := ⟨100, fun _ => 10, fun _ => 10⟩

/-- The user key 5 is split between the two files of level 1. There is a deletion, a file of
level 2 with an entry below it, and another file of level 2. -/
def boundaryVersion : Version ℕ ℕ where
  files
    | 1 => [⟨4, 10, ⟨2, 9, .value⟩, ⟨5, 7, .value⟩, [⟨⟨2, 9, .value⟩, 20⟩, ⟨⟨5, 7, .value⟩, 50⟩]⟩,
      ⟨3, 10, ⟨5, 6, .value⟩, ⟨8, 5, .deletion⟩, [⟨⟨5, 6, .value⟩, 51⟩, ⟨⟨8, 5, .deletion⟩, 0⟩]⟩]
    | 2 => [⟨1, 10, ⟨8, 1, .value⟩, ⟨9, 2, .value⟩, [⟨⟨8, 1, .value⟩, 80⟩, ⟨⟨9, 2, .value⟩, 90⟩]⟩,
      ⟨2, 10, ⟨20, 3, .value⟩, ⟨20, 3, .value⟩, [⟨⟨20, 3, .value⟩, 10⟩]⟩]
    | _ => []

/-- Its files with their levels. -/
def boundaryFiles : List (ℕ × FileMetaData ℕ ℕ) := [1, 2].flatMap fun level => (boundaryVersion.files level).map (level, ·)

theorem mem_boundaryFiles {level : ℕ} {f : FileMetaData ℕ ℕ} (hf : f ∈ boundaryVersion.files level) :
    (level, f) ∈ boundaryFiles := by
  rcases level with _ | _ | _ | level
  · cases hf
  · exact List.mem_append_left _ (List.mem_map_of_mem hf)
  · exact List.mem_append_right _ (List.mem_append_left _ (List.mem_map_of_mem hf))
  · cases hf

theorem boundaryVersion_ok : boundaryVersion.Ok := by
  have hfile : ∀ p ∈ boundaryFiles, p.2.table.Pairwise (fun x y => x.key < y.key) ∧
      p.2.table.head?.map Entry.key = some p.2.smallest ∧ p.2.table.getLast?.map Entry.key = some p.2.largest ∧
        ∀ e ∈ p.2.table, e.sequence ≤ kMaxSequenceNumber := by decide
  have hpair : ∀ p ∈ boundaryFiles, ∀ q ∈ boundaryFiles, (p.2.number = q.2.number → p = q) ∧
      ∀ x ∈ p.2.table, ∀ y ∈ q.2.table, x.userKey = y.userKey →
        (x.sequence = y.sequence → p = q ∧ x = y) ∧ (p.1 < q.1 → y.sequence < x.sequence) := by decide
  have hlevel : ∀ level, (boundaryVersion.files level).Pairwise fun f g => f.largest < g.smallest ∧ f.number ≠ g.number := by
    intro level
    rcases level with _ | _ | _ | level
    · exact .nil
    · decide
    · decide
    · exact .nil
  refine ⟨⟨⟨fun level f hf => ?_, fun level _ => (hlevel level).imp And.left⟩, fun level hl => ?_,
    fun level level' f hf g hg x hx y hy hk hs => ?_, fun level => (hlevel level).imp And.right,
    fun level level' f hf g hg hn => ?_⟩, fun level level' hlt f hf g hg x hx y hy hk => ?_, fun f hf => by cases hf⟩
  · obtain ⟨hsorted, hfirst, hlast, hseq⟩ := hfile _ (mem_boundaryFiles hf)
    have hself := (hpair _ (mem_boundaryFiles hf) _ (mem_boundaryFiles hf)).2
    exact ⟨⟨hsorted, fun x hx y hy hk hs => ((hself x hx y hy hk).1 hs).2⟩,
      Option.map_eq_some_iff.mp hfirst, Option.map_eq_some_iff.mp hlast, hseq⟩
  · obtain ⟨n, rfl⟩ := Nat.exists_eq_add_of_le' hl
    rfl
  · exact congrArg Prod.snd (((hpair _ (mem_boundaryFiles hf) _ (mem_boundaryFiles hg)).2 x hx y hy hk).1 hs).1
  · exact congrArg Prod.fst ((hpair _ (mem_boundaryFiles hf) _ (mem_boundaryFiles hg)).1 hn)
  · exact ((hpair _ (mem_boundaryFiles hf) _ (mem_boundaryFiles hg)).2 x hx y hy hk).2 hlt

/-- The compaction of its level 1. -/
def boundaryCompaction : Compaction ℕ ℕ :=
  ⟨1, boundaryVersion.files 1, (boundaryVersion.files 2).take 1, [], boundaryVersion, some ⟨8, 5, .deletion⟩⟩

theorem boundaryVersion_picked : Picked smallOptions boundaryVersion boundaryCompaction :=
  .automatic (fun _ => none) (.size 1) (by decide) rfl

theorem boundaryVersion_number (level : ℕ) (f : FileMetaData ℕ ℕ) (hf : f ∈ boundaryVersion.files level) : f.number < 5 := by
  have hall : ∀ p ∈ boundaryFiles, p.2.number < 5 := by decide
  exact hall _ (mem_boundaryFiles hf)

/-- With the largest sequence number as smallest snapshot, every entry is taken for hidden:
`last_sequence_for_key` has no value that says that there was no entry before. -/
theorem not_live_compaction_iff_at_max : ¬ ∀ (o : Options ℕ ℕ) (v : Version ℕ ℕ) (c : Compaction ℕ ℕ)
    (smallestSnapshot next s : ℕ), v.Ok → Picked o v c → (∀ level, ∀ f ∈ v.files level, f.number < next) →
      smallestSnapshot ≤ s → ∀ e, (Live s (v.apply (c.installEdit (c.outputs o smallestSnapshot next))).entries e ↔
        Live s v.entries e) := by
  intro h
  have hiff := h smallOptions boundaryVersion boundaryCompaction kMaxSequenceNumber 5 kMaxSequenceNumber boundaryVersion_ok
    boundaryVersion_picked boundaryVersion_number le_rfl ⟨⟨2, 9, .value⟩, 20⟩
  have houts : boundaryCompaction.outputs smallOptions kMaxSequenceNumber 5 = [] := by rfl
  rw [houts] at hiff
  have hnewest : ∀ p ∈ boundaryFiles, ∀ x ∈ p.2.table, x.userKey = 2 → x.sequence ≤ 9 := by decide
  have hdeleted : ∀ p ∈ boundaryFiles, (boundaryCompaction.installEdit []).deleted p.1 p.2.number = false →
      ⟨⟨2, 9, .value⟩, 20⟩ ∉ p.2.table := by decide
  obtain ⟨level, f, hf, he⟩ := (hiff.mpr ⟨⟨⟨1, _, List.mem_cons_self, by simp⟩, by decide, fun x hx hk _ => by
    obtain ⟨level, f, hf, hx⟩ := hx
    exact hnewest _ (mem_boundaryFiles hf) x hx hk⟩, rfl⟩).mem
  obtain ⟨hf | hf, hdel⟩ := mem_apply_iff.mp hf
  · exact hdeleted _ (mem_boundaryFiles hf) hdel he
  · simp [VersionEdit.newAt, Compaction.installEdit] at hf

/-- A hidden entry, the deletion and the entry below it are dropped. -/
theorem live_compaction_iff_boundary :
    (boundaryCompaction.outputs smallOptions 9 5).flatMap (fun f => f.table.map Entry.key) =
        [⟨2, 9, .value⟩, ⟨5, 7, .value⟩, ⟨9, 2, .value⟩] ∧
      ∀ e, Live 9 (boundaryVersion.apply (boundaryCompaction.installEdit
          (boundaryCompaction.outputs smallOptions 9 5))).entries e ↔ Live 9 boundaryVersion.entries e :=
  ⟨by decide +kernel, live_compaction_iff boundaryVersion_ok boundaryVersion_picked boundaryVersion_number (by decide) le_rfl⟩

end Compact

end TLevelDB.Db
