import TLevelDB.Db.BoundaryInputs

/-!
# The inputs of a compaction

Which files `PickCompaction`, `CompactRange` and `SetupOtherInputs` choose. The inputs at
each of the two levels are *closed*: any other file of the level ends before all of
them, or begins after all of them with a larger user key than they end with
(`Closed`). So what stays behind at a level can share a user key with the inputs only
where it is newer. The inputs at the next level are all files there that overlap the
range of those at the level.

The inputs that `PickCompaction` chooses are moreover *connected*: every user key between
the first and the last of them is in the range of one of them (`Connected`), so a file
that overlaps none of them cannot lie between them. This is not so of `CompactRange`.
-/

namespace TLevelDB.Db

variable {K V : Type} [LinearOrder K]

/-! ### Files that overlap a range -/

section Overlapping

variable {files acc : List (FileMetaData K V)} {b e b' e' : Option K} {level : ℕ}

instance (b e : Option K) : DecidablePred (Overlaps (V := V) b e) := fun _ => inferInstanceAs (Decidable (_ ∧ _))

/-- The file does not reach out of the range. -/
def Within (b e : Option K) (f : FileMetaData K V) : Prop :=
  (∀ k ∈ b, k ≤ f.smallest.userKey) ∧ ∀ k ∈ e, f.largest.userKey ≤ k

/-- The user key is in the range. -/
def InRange (b e : Option K) (u : K) : Prop := (∀ k ∈ b, k ≤ u) ∧ ∀ k ∈ e, u ≤ k

/-- `b'`, `e'` is the range made larger by a file that overlaps it. -/
inductive Grows (files : List (FileMetaData K V)) (b e : Option K) : Option K → Option K → Prop where
  /-- The file begins before the range. -/
  | down {f : FileMetaData K V} {k : K} : f ∈ files → Overlaps b e f → b = some k → f.smallest.userKey < k →
      Grows files b e (some f.smallest.userKey) e
  /-- The file ends after the range. -/
  | up {f : FileMetaData K V} {k : K} : f ∈ files → Overlaps b e f → e = some k → k < f.largest.userKey →
      Grows files b e b (some f.largest.userKey)

theorem Grows.mono {more : List (FileMetaData K V)} (h : Grows files b e b' e') (hsub : ∀ f ∈ files, f ∈ more) :
    Grows more b e b' e' := by
  cases h with
  | down hf ho hk hlt => exact .down (hsub _ hf) ho hk hlt
  | up hf ho hk hlt => exact .up (hsub _ hf) ho hk hlt

/-- On a level from 1 on one pass finds the files that overlap the range. -/
theorem scanOverlapping_pos (hl : 0 < level) (files acc : List (FileMetaData K V)) :
    scanOverlapping level b e files acc = .inr (acc ++ files.filter fun f => Overlaps b e f) := by
  induction files generalizing acc with
  | nil => simp [scanOverlapping]
  | cons f files ih =>
    rw [scanOverlapping]
    split_ifs with h1 h2 h3 h4
    · rw [ih]; simp [Overlaps, h1]
    · rw [ih]; simp [Overlaps, h2]
    · omega
    · omega
    · rw [ih]; simp [Overlaps, h1, h2]

/-- On level 0 a pass finds the files that overlap the range, none of which reaches out
of it, or a range that one of them makes larger. -/
theorem scanOverlapping_zero (files acc : List (FileMetaData K V)) :
    (scanOverlapping 0 b e files acc = .inr (acc ++ files.filter fun f => Overlaps b e f) ∧
      ∀ f ∈ files, Overlaps b e f → Within b e f) ∨
    ∃ b' e', scanOverlapping 0 b e files acc = .inl (b', e') ∧ Grows files b e b' e' := by
  induction files generalizing acc with
  | nil => simp [scanOverlapping]
  | cons f files ih =>
    have hsub : ∀ g ∈ files, g ∈ f :: files := fun g hg => List.mem_cons_of_mem _ hg
    have hskip : ¬ Overlaps b e f → scanOverlapping 0 b e (f :: files) acc = scanOverlapping 0 b e files acc →
        (scanOverlapping 0 b e (f :: files) acc = .inr (acc ++ (f :: files).filter fun f => Overlaps b e f) ∧
          ∀ g ∈ f :: files, Overlaps b e g → Within b e g) ∨
        ∃ b' e', scanOverlapping 0 b e (f :: files) acc = .inl (b', e') ∧ Grows (f :: files) b e b' e' := by
      intro hno heq
      rw [heq]
      rcases ih acc with ⟨h1, h2⟩ | ⟨b', e', h1, h2⟩
      · refine Or.inl ⟨by rw [h1]; simp [hno], fun g hg hog => ?_⟩
        rcases List.mem_cons.mp hg with rfl | hg
        · exact absurd hog hno
        · exact h2 g hg hog
      · exact Or.inr ⟨b', e', h1, h2.mono hsub⟩
    by_cases h1 : afterFile b f = true
    · exact hskip (fun ho => by simp [ho.1] at h1) (by rw [scanOverlapping, if_pos h1])
    by_cases h2 : beforeFile e f = true
    · exact hskip (fun ho => by simp [ho.2] at h2) (by rw [scanOverlapping, if_neg h1, if_pos h2])
    have ho : Overlaps b e f := ⟨by simpa using h1, by simpa using h2⟩
    rw [scanOverlapping, if_neg h1, if_neg h2]
    split_ifs with h3 h4
    · cases b with
      | none => simp at h3
      | some k => exact Or.inr ⟨_, _, rfl, .down (by simp) ho rfl (by simpa using h3)⟩
    · cases e with
      | none => simp at h4
      | some k => exact Or.inr ⟨_, _, rfl, .up (by simp) ho rfl (by simpa using h4)⟩
    · have hw : Within b e f := by
        constructor
        · rintro k rfl
          simpa using h3
        · rintro k rfl
          simpa using h4
      rcases ih (acc ++ [f]) with ⟨h1, h2⟩ | ⟨b', e', h1, h2⟩
      · refine Or.inl ⟨by rw [h1]; simp [ho], fun g hg hog => ?_⟩
        rcases List.mem_cons.mp hg with rfl | hg
        · exact hw
        · exact h2 g hg hog
      · exact Or.inr ⟨b', e', h1, h2.mono hsub⟩

theorem Grows.overlaps {f : FileMetaData K V} (h : Grows files b e b' e') (hf : Overlaps b e f) :
    Overlaps b' e' f := by
  cases h with
  | down hg _ hk hlt =>
    subst hk
    refine ⟨?_, hf.2⟩
    have := hf.1
    simp only [afterFile, decide_eq_false_iff_not, not_lt] at this ⊢
    exact hlt.le.trans this
  | up hg _ hk hlt =>
    subst hk
    refine ⟨hf.1, ?_⟩
    have := hf.2
    simp only [beforeFile, decide_eq_false_iff_not, not_lt] at this ⊢
    exact this.trans hlt.le

/-- What the larger range has more is in the range of the file that made it larger. -/
theorem Grows.inRange (h : Grows files b e b' e') {u : K} (hu : InRange b' e' u) :
    InRange b e u ∨ ∃ f ∈ files, Overlaps b e f ∧ f.Covers u := by
  cases h with
  | @down f k hf ho hk hlt =>
    subst hk
    by_cases hku : k ≤ u
    · exact Or.inl ⟨by simpa using hku, hu.2⟩
    · have hle : k ≤ f.largest.userKey := by simpa [afterFile] using ho.1
      exact Or.inr ⟨f, hf, ho, hu.1 _ rfl, (not_le.mp hku).le.trans hle⟩
  | @up f k hf ho hk hlt =>
    subst hk
    by_cases hku : u ≤ k
    · exact Or.inl ⟨hu.1, by simpa using hku⟩
    · have hle : f.smallest.userKey ≤ k := by simpa [beforeFile] using ho.2
      exact Or.inr ⟨f, hf, ho, hle.trans (not_le.mp hku).le, hu.2 _ rfl⟩

theorem Grows.subrange (h : Grows files b e b' e') {u : K} (hu : InRange b e u) : InRange b' e' u := by
  cases h with
  | down _ _ hk hlt =>
    subst hk
    exact ⟨by simpa using hlt.le.trans (hu.1 _ rfl), hu.2⟩
  | up _ _ hk hlt =>
    subst hk
    exact ⟨hu.1, by simpa using (hu.2 _ rfl).trans hlt.le⟩

/-- How many ends of files lie out of the range. -/
def endsOutside (b e : Option K) (files : List (FileMetaData K V)) : ℕ :=
  files.countP (fun f => b.any (f.smallest.userKey < ·)) + files.countP fun f => e.any (· < f.largest.userKey)

theorem Grows.endsOutside_lt (h : Grows files b e b' e') : endsOutside b' e' files < endsOutside b e files := by
  unfold endsOutside
  cases h with
  | @down f k hf ho hk hlt =>
    subst hk
    refine Nat.add_lt_add_right (SortedSearch.countP_lt (fun g _ hg => ?_) hf (by simpa using hlt) (by simp)) _
    simp only [Option.any_some, decide_eq_true_eq] at hg ⊢
    exact hg.trans hlt
  | @up f k hf ho hk hlt =>
    subst hk
    refine Nat.add_lt_add_left (SortedSearch.countP_lt (fun g _ hg => ?_) hf (by simpa using hlt) (by simp)) _
    simp only [Option.any_some, decide_eq_true_eq] at hg ⊢
    exact hlt.trans hg

/-- What `GetOverlappingInputs` finds on level 0 for the range `b`, `e`: the files that
overlap a larger range `b'`, `e'`, which contains them and is covered by them and the
given range. -/
structure OverlapClosure (files : List (FileMetaData K V)) (b e : Option K) (inputs : List (FileMetaData K V))
    (b' e' : Option K) : Prop where
  eq : inputs = files.filter fun f => Overlaps b' e' f
  within : ∀ f ∈ inputs, Within b' e' f
  subrange : ∀ u, InRange b e u → InRange b' e' u
  overlaps : ∀ f : FileMetaData K V, Overlaps b e f → Overlaps b' e' f
  covered : ∀ u, InRange b' e' u → InRange b e u ∨ ∃ f ∈ inputs, f.Covers u

theorem OverlapClosure.mem_iff {inputs : List (FileMetaData K V)} (h : OverlapClosure files b e inputs b' e')
    {f : FileMetaData K V} : f ∈ inputs ↔ f ∈ files ∧ Overlaps b' e' f := by
  rw [h.eq]
  simp

/-- The passes of `GetOverlappingInputs` on level 0 end with the closure. -/
theorem overlappingLoop_zero {n : ℕ} (hn : endsOutside b e files < n) :
    ∃ b' e', OverlapClosure files b e (overlappingLoop 0 files n b e) b' e' := by
  induction n generalizing b e with
  | zero => omega
  | succ n ih =>
    rw [overlappingLoop]
    rcases scanOverlapping_zero (b := b) (e := e) files [] with ⟨h1, h2⟩ | ⟨b₁, e₁, h1, h2⟩
    · rw [h1]
      refine ⟨b, e, by simp, fun f hf => ?_, fun _ => id, fun _ => id, fun u hu => Or.inl hu⟩
      have hf : f ∈ files ∧ Overlaps b e f := by simpa using hf
      exact h2 f hf.1 hf.2
    · rw [h1]
      have hlt := h2.endsOutside_lt
      obtain ⟨b', e', hc⟩ := ih (b := b₁) (e := e₁) (by omega)
      refine ⟨b', e', hc.eq, hc.within, fun u hu => hc.subrange u (h2.subrange hu),
        fun f hf => hc.overlaps f (h2.overlaps hf), fun u hu => ?_⟩
      rcases hc.covered u hu with hu | hu
      · rcases h2.inRange hu with hu | ⟨f, hf, ho, hcov⟩
        · exact Or.inl hu
        · exact Or.inr ⟨f, hc.mem_iff.mpr ⟨hf, hc.overlaps f (h2.overlaps ho)⟩, hcov⟩
      · exact Or.inr hu

theorem endsOutside_le (b e : Option K) (files : List (FileMetaData K V)) :
    endsOutside b e files ≤ 2 * files.length := by
  have h1 := files.countP_le_length (p := fun f => b.any (f.smallest.userKey < ·))
  have h2 := files.countP_le_length (p := fun f => e.any (· < f.largest.userKey))
  unfold endsOutside
  omega

theorem getOverlappingInputs_zero (v : Version K V) (b e : Option (InternalKey K)) :
    ∃ b' e', OverlapClosure (v.files 0) (b.map InternalKey.userKey) (e.map InternalKey.userKey)
      (v.getOverlappingInputs 0 b e) b' e' :=
  overlappingLoop_zero (Nat.lt_succ_of_le (endsOutside_le _ _ _))

theorem getOverlappingInputs_pos (v : Version K V) (hl : 0 < level) (b e : Option (InternalKey K)) :
    v.getOverlappingInputs level b e = (v.files level).filter fun f =>
      Overlaps (b.map InternalKey.userKey) (e.map InternalKey.userKey) f := by
  rw [Version.getOverlappingInputs, overlappingLoop, scanOverlapping_pos hl]
  simp

end Overlapping

/-! ### Closed inputs -/

section Closed

variable {files inputs : List (FileMetaData K V)} {f g : FileMetaData K V} {l : InternalKey K}

/-- Any other file of the level ends before all the inputs begin or begins after all of
them have ended. -/
structure Convex (files inputs : List (FileMetaData K V)) : Prop where
  subset : ∀ f ∈ inputs, f ∈ files
  outside : ∀ g ∈ files, g ∉ inputs → (∀ f ∈ inputs, g.Before f) ∨ ∀ f ∈ inputs, f.Before g

/-- Any other file of the level ends before all the inputs begin or begins with a larger
user key than they end with. -/
structure Closed (files inputs : List (FileMetaData K V)) : Prop where
  subset : ∀ f ∈ inputs, f ∈ files
  outside : ∀ g ∈ files, g ∉ inputs →
    (∀ f ∈ inputs, g.Before f) ∨ ∀ f ∈ inputs, f.largest.userKey < g.smallest.userKey

theorem closed_nil (files : List (FileMetaData K V)) : Closed files [] := ⟨by simp, by simp⟩

theorem IsLargest.before_iff (h : IsLargest inputs l) : (∀ f ∈ inputs, f.Before g) ↔ l < g.smallest := by
  constructor
  · intro hall
    obtain ⟨f, hf, rfl⟩ := h.exists_eq
    exact hall f hf
  · exact fun hlt f hf => (h.le f hf).trans_lt hlt

theorem Convex.closed (h : Convex files inputs) (hl : IsLargest inputs l) (hnone : ∀ f ∈ files, ¬ IsBoundary l f) :
    Closed files inputs where
  subset := h.subset
  outside g hg hgi := by
    refine (h.outside g hg hgi).imp id fun hafter f hf => ?_
    have hlt : l < g.smallest := hl.before_iff.mp hafter
    have hne : l.userKey ≠ g.smallest.userKey := fun heq => hnone g hg ⟨hlt, heq.symm⟩
    exact (InternalKey.userKey_mono (hl.le f hf)).trans_lt ((InternalKey.userKey_le_of_lt hlt).lt_of_ne hne)

theorem Closed.not_isBoundary (h : Closed files inputs) (hok : ∀ f ∈ files, f.Ok) (hl : IsLargest inputs l)
    (hf : f ∈ files) : ¬ IsBoundary l f := by
  rintro ⟨hlt, huk⟩
  obtain ⟨x, hx, rfl⟩ := hl.exists_eq
  by_cases hfi : f ∈ inputs
  · exact absurd (hlt.trans_le (hok f hf).smallest_le_largest) (not_lt.mpr (hl.le f hfi))
  · rcases h.outside f hf hfi with hbefore | hafter
    · have hfx : f.largest < x.largest := (hbefore x hx).trans_le (hok x (h.subset x hx)).smallest_le_largest
      exact absurd (hlt.trans_le (hok f hf).smallest_le_largest) (not_lt.mpr hfx.le)
    · exact absurd (hafter x hx) (by rw [huk]; exact lt_irrefl _)

theorem Closed.addBoundaryInputs_eq (h : Closed files inputs) (hok : ∀ f ∈ files, f.Ok) :
    addBoundaryInputs files inputs = inputs := by
  by_cases hne : inputs = []
  · subst hne
    rfl
  · obtain ⟨l, hl, hlargest⟩ := exists_findLargestKey hne
    rw [addBoundaryInputs, hl]
    cases files with
    | nil => rfl
    | cons x files =>
      have hbest := isBest_findSmallestBoundaryFile (x :: files) l
      simp only [List.length_cons, addBoundaryLoop]
      cases hf : findSmallestBoundaryFile (x :: files) l with
      | none => rfl
      | some f =>
        rw [hf] at hbest
        exact absurd hbest.2.1 (h.not_isBoundary hok hlargest hbest.1)

/-- The inputs that `AddBoundaryInputs` makes of others: the least closed ones with those. -/
structure BoundaryClosure (v : Version K V) (level : ℕ) (inputs closure : List (FileMetaData K V)) : Prop where
  closed : Closed (v.files level) closure
  ordered : 0 < level → closure.Pairwise FileMetaData.Before
  nodup : (v.files level).Nodup → closure.Nodup
  subset : ∀ f ∈ inputs, f ∈ closure
  least : ∀ S, Closed (v.files level) S → (∀ f ∈ inputs, f ∈ S) → ∀ f ∈ closure, f ∈ S

/-- What holds in the loop of `AddBoundaryInputs`, on sorted files. -/
structure BoundaryInv (files inputs cf : List (FileMetaData K V)) (l : InternalKey K) : Prop where
  convex : Convex files cf
  largest : IsLargest cf l
  ordered : cf.Pairwise FileMetaData.Before
  subset : ∀ f ∈ inputs, f ∈ cf
  least : ∀ S, Closed files S → (∀ f ∈ inputs, f ∈ S) → ∀ f ∈ cf, f ∈ S

theorem IsLargest.snoc (h : IsLargest inputs l) (hf : f.Ok) (hlt : l < f.smallest) :
    IsLargest (inputs ++ [f]) f.largest where
  le x hx := by
    rcases List.mem_append.mp hx with hx | hx
    · exact ((h.le x hx).trans_lt hlt).le.trans hf.smallest_le_largest
    · rw [List.mem_singleton.mp hx]
  exists_eq := ⟨f, by simp, rfl⟩

variable {v : Version K V} {level : ℕ}

/-- With the boundary file that begins first, convex inputs stay convex. -/
theorem Convex.snoc (hv : v.Ordered) (hpos : 0 < level) (h : Convex (v.files level) inputs) (hl : IsLargest inputs l)
    (hf : f ∈ v.files level) (hb : IsBoundary l f)
    (hmin : ∀ g ∈ v.files level, IsBoundary l g → f.smallest ≤ g.smallest) : Convex (v.files level) (inputs ++ [f]) where
  subset x hx := by
    rcases List.mem_append.mp hx with hx | hx
    · exact h.subset x hx
    · rw [List.mem_singleton.mp hx]
      exact hf
  outside g hg hgi := by
    rw [List.mem_append, List.mem_singleton, not_or] at hgi
    simp only [List.forall_mem_append, List.forall_mem_singleton]
    obtain ⟨x, hx, hxl⟩ := hl.exists_eq
    have hgok := hv.file level g hg
    rcases h.outside g hg hgi.1 with hbefore | hafter
    · refine Or.inl ⟨hbefore, ?_⟩
      have hgl : g.largest < l := hxl ▸ (hbefore x hx).trans_le (hv.file level x (h.subset x hx)).smallest_le_largest
      exact hgl.trans hb.1
    · rcases hv.before_or hpos hg hf hgi.2 with hgf | hfg
      · -- `g` would be a boundary file that begins before `f`
        have hlg : l < g.smallest := hl.before_iff.mp hafter
        have hgf' : g.smallest < f.smallest := hgok.smallest_le_largest.trans_lt hgf
        have huk : g.smallest.userKey = l.userKey :=
          le_antisymm (hb.2 ▸ InternalKey.userKey_le_of_lt hgf') (InternalKey.userKey_le_of_lt hlg)
        exact absurd hgf' (not_lt.mpr (hmin g hg ⟨hlg, huk⟩))
      · exact Or.inr ⟨hafter, hfg⟩

theorem BoundaryInv.snoc {cf : List (FileMetaData K V)} (hv : v.Ordered) (hpos : 0 < level)
    (h : BoundaryInv (v.files level) inputs cf l) (hf : f ∈ v.files level) (hb : IsBoundary l f)
    (hmin : ∀ g ∈ v.files level, IsBoundary l g → f.smallest ≤ g.smallest) :
    BoundaryInv (v.files level) inputs (cf ++ [f]) f.largest where
  convex := h.convex.snoc hv hpos h.largest hf hb hmin
  largest := h.largest.snoc (hv.file level f hf) hb.1
  ordered := List.pairwise_append.mpr ⟨h.ordered, List.pairwise_singleton _ _, fun x hx y hy => by
    rw [List.mem_singleton.mp hy]
    exact h.largest.before_iff.mpr hb.1 x hx⟩
  subset x hx := List.mem_append_left _ (h.subset x hx)
  least S hS hsub := by
    simp only [List.forall_mem_append, List.forall_mem_singleton]
    have hcf := h.least S hS hsub
    refine ⟨hcf, ?_⟩
    obtain ⟨x, hx, hxl⟩ := h.largest.exists_eq
    by_contra hfS
    rcases hS.outside f hf hfS with hbefore | hafter
    · have hfx := hbefore x (hcf x hx)
      have hxok := hv.file level x (hS.subset x (hcf x hx))
      exact absurd (hb.1.trans_le (hv.file level f hf).smallest_le_largest)
        (not_lt.mpr (hxl ▸ (hfx.trans_le hxok.smallest_le_largest).le))
    · have hlt := hafter x (hcf x hx)
      rw [hxl, hb.2] at hlt
      exact lt_irrefl _ hlt

theorem nodup_of_pairwise_before (hok : ∀ f ∈ inputs, f.Ok) (h : inputs.Pairwise FileMetaData.Before) : inputs.Nodup :=
  h.imp_of_mem fun {f _} hf _ hfg heq => by
    subst heq
    exact absurd hfg (not_lt.mpr (hok f hf).smallest_le_largest)

/-- On a sorted level `AddBoundaryInputs` closes convex inputs. -/
theorem boundaryClosure_of_convex (hv : v.Ordered) (hpos : 0 < level) (hc : Convex (v.files level) inputs)
    (ho : inputs.Pairwise FileMetaData.Before) :
    BoundaryClosure v level inputs (addBoundaryInputs (v.files level) inputs) := by
  by_cases hne : inputs = []
  · subst hne
    have hnil : addBoundaryInputs (v.files level) [] = [] := rfl
    rw [hnil]
    exact ⟨closed_nil _, by simp, by simp, by simp, by simp⟩
  · obtain ⟨l, hinv, hnone⟩ := addBoundaryInputs_induct (BoundaryInv (v.files level) inputs) (hv.file level)
      (fun cf l f h hf hb hmin => h.snoc hv hpos hf hb hmin) hne
      (fun l hl => ⟨hc, hl, ho, fun _ => id, fun _ _ hsub => hsub⟩)
    exact ⟨hinv.convex.closed hinv.largest hnone, fun _ => hinv.ordered,
      fun _ => nodup_of_pairwise_before (fun f hf => hv.file level f (hinv.convex.subset f hf)) hinv.ordered, hinv.subset,
      hinv.least⟩

theorem boundaryClosure_of_closed (hv : v.Ordered) (hc : Closed (v.files level) inputs)
    (ho : 0 < level → inputs.Pairwise FileMetaData.Before) (hn : (v.files level).Nodup → inputs.Nodup) :
    BoundaryClosure v level inputs (addBoundaryInputs (v.files level) inputs) := by
  rw [hc.addBoundaryInputs_eq (hv.file level)]
  exact ⟨hc, ho, hn, fun _ => id, fun _ _ hsub => hsub⟩

end Closed

/-! ### Closing the files that overlap a range -/

section OverlappingClosed

variable {v : Version K V} {level : ℕ} {inputs A : List (FileMetaData K V)} {f : FileMetaData K V}
  {b e : Option (InternalKey K)}

/-- A file that does not overlap a range ends before it or begins after it. -/
theorem not_overlaps_iff {b e : Option K} {g : FileMetaData K V} :
    ¬ Overlaps b e g ↔ (∃ k ∈ b, g.largest.userKey < k) ∨ ∃ k ∈ e, k < g.smallest.userKey := by
  rw [Overlaps, not_and_or]
  cases b <;> cases e <;> simp [afterFile, beforeFile]

theorem closed_getOverlappingInputs_zero (v : Version K V) (b e : Option (InternalKey K)) :
    Closed (v.files 0) (v.getOverlappingInputs 0 b e) := by
  obtain ⟨b', e', hc⟩ := getOverlappingInputs_zero v b e
  refine ⟨fun f hf => (hc.mem_iff.mp hf).1, fun g hg hgi => ?_⟩
  have hno : ¬ Overlaps b' e' g := fun ho => hgi (hc.mem_iff.mpr ⟨hg, ho⟩)
  rcases not_overlaps_iff.mp hno with ⟨k, hk, hlt⟩ | ⟨k, hk, hlt⟩
  · exact Or.inl fun f hf => InternalKey.lt_of_userKey_lt (hlt.trans_le ((hc.within f hf).1 k hk))
  · exact Or.inr fun f hf => ((hc.within f hf).2 k hk).trans_lt hlt

/-- What `GetOverlappingInputs` finds on a sorted level is convex. -/
theorem convex_getOverlappingInputs_pos (hv : v.Ordered) (hpos : 0 < level) (b e : Option (InternalKey K)) :
    Convex (v.files level) (v.getOverlappingInputs level b e) := by
  rw [getOverlappingInputs_pos v hpos]
  refine ⟨fun f hf => (List.mem_filter.mp hf).1, fun g hg hgi => ?_⟩
  have hno : ¬ Overlaps (b.map InternalKey.userKey) (e.map InternalKey.userKey) g := fun ho =>
    hgi (List.mem_filter.mpr ⟨hg, by simpa using ho⟩)
  simp only [List.mem_filter, decide_eq_true_eq]
  have hcases : ∀ f, f ∈ v.files level → Overlaps (b.map InternalKey.userKey) (e.map InternalKey.userKey) f →
      g.Before f ∨ f.Before g := fun f hf ho => hv.before_or hpos hg hf fun heq => hno (heq ▸ ho)
  rcases not_overlaps_iff.mp hno with ⟨k, hk, hlt⟩ | ⟨k, hk, hlt⟩
  · refine Or.inl fun f ⟨hf, ho⟩ => (hcases f hf ho).resolve_right fun hfg => ?_
    have hle : k ≤ f.largest.userKey := by
      have := ho.1
      rw [Option.mem_def.mp hk] at this
      simpa [afterFile] using this
    have hfg' := InternalKey.userKey_mono ((le_of_lt hfg).trans (hv.file level g hg).smallest_le_largest)
    exact absurd (hle.trans hfg') (not_le.mpr hlt)
  · refine Or.inr fun f ⟨hf, ho⟩ => (hcases f hf ho).resolve_left fun hgf => ?_
    have hle : f.smallest.userKey ≤ k := by
      have := ho.2
      rw [Option.mem_def.mp hk] at this
      simpa [beforeFile] using this
    have hgf' := InternalKey.userKey_mono ((hv.file level g hg).smallest_le_largest.trans (le_of_lt hgf))
    exact absurd (hgf'.trans hle) (not_le.mpr hlt)

theorem nodup_files (hv : v.Shape) (level : ℕ) : (v.files level).Nodup :=
  (hv.number_ne level).imp fun {f g} (hne : f.number ≠ g.number) (heq : f = g) => hne (heq ▸ rfl)

theorem boundaryClosure_getOverlappingInputs (hv : v.Ordered) (level : ℕ) (b e : Option (InternalKey K)) :
    BoundaryClosure v level (v.getOverlappingInputs level b e)
      (addBoundaryInputs (v.files level) (v.getOverlappingInputs level b e)) := by
  rcases Nat.eq_zero_or_pos level with rfl | hpos
  · refine boundaryClosure_of_closed hv (closed_getOverlappingInputs_zero v b e) (fun h => absurd h (lt_irrefl 0)) ?_
    obtain ⟨b', e', hc⟩ := getOverlappingInputs_zero v b e
    rw [hc.eq]
    exact List.Nodup.filter _
  · refine boundaryClosure_of_convex hv hpos (convex_getOverlappingInputs_pos hv hpos b e) ?_
    rw [getOverlappingInputs_pos v hpos]
    exact (hv.sorted level hpos).sublist List.filter_sublist

/-- The file overlaps the range from the first to the last user key of the files `A`. -/
def MeetsHull (A : List (FileMetaData K V)) (f : FileMetaData K V) : Prop :=
  (∃ a ∈ A, a.smallest.userKey ≤ f.largest.userKey) ∧ ∃ a ∈ A, f.smallest.userKey ≤ a.largest.userKey

theorem MeetsHull.mono {B : List (FileMetaData K V)} (h : MeetsHull A f) (hsub : ∀ a ∈ A, a ∈ B) : MeetsHull B f :=
  ⟨h.1.imp fun a ⟨ha, hle⟩ => ⟨hsub a ha, hle⟩, h.2.imp fun a ⟨ha, hle⟩ => ⟨hsub a ha, hle⟩⟩

theorem meetsHull_of_mem (hf : f.Ok) (h : f ∈ A) : MeetsHull A f := ⟨⟨f, h, hf.userKey_le⟩, f, h, hf.userKey_le⟩

theorem IsRange.overlaps_iff {s l : InternalKey K} (h : IsRange A s l) :
    Overlaps (some s.userKey) (some l.userKey) f ↔ MeetsHull A f := by
  rw [overlaps_some_iff]
  constructor
  · rintro ⟨hs, hl⟩
    obtain ⟨a, ha, rfl⟩ := h.exists_smallest
    obtain ⟨a', ha', rfl⟩ := h.exists_largest
    exact ⟨⟨a, ha, hs⟩, a', ha', hl⟩
  · rintro ⟨⟨a, ha, hs⟩, a', ha', hl⟩
    exact ⟨(InternalKey.userKey_mono (h.smallest_le a ha)).trans hs,
      hl.trans (InternalKey.userKey_mono (h.le_largest a' ha'))⟩

/-- The files of a sorted level that overlap the range of `A`. -/
theorem mem_overlapping_pos (hpos : 0 < level) (hA : A ≠ []) :
    f ∈ v.overlapping level A ↔ f ∈ v.files level ∧ MeetsHull A f := by
  obtain ⟨s, l, hr, hrange⟩ := exists_getRange hA
  rw [Version.overlapping, hr, getOverlappingInputs_pos v hpos, List.mem_filter, decide_eq_true_eq]
  exact and_congr_right' hrange.overlaps_iff

/-- The files of any level that overlap the range of `A` are found. -/
theorem mem_overlapping (hA : A ≠ []) (hf : f ∈ v.files level) (h : MeetsHull A f) : f ∈ v.overlapping level A := by
  rcases Nat.eq_zero_or_pos level with rfl | hpos
  · obtain ⟨s, l, hr, hrange⟩ := exists_getRange hA
    obtain ⟨b', e', hc⟩ := getOverlappingInputs_zero v (some s) (some l)
    rw [Version.overlapping, hr]
    exact hc.mem_iff.mpr ⟨hf, hc.overlaps f (hrange.overlaps_iff.mpr h)⟩
  · exact (mem_overlapping_pos hpos hA).mpr ⟨hf, h⟩

theorem boundaryClosure_overlappingClosed (hv : v.Ordered) (level : ℕ) (A : List (FileMetaData K V)) :
    BoundaryClosure v level (v.overlapping level A) (v.overlappingClosed level A) :=
  boundaryClosure_getOverlappingInputs hv level _ _

end OverlappingClosed

/-! ### Connected files -/

section Connected

variable {v : Version K V} {level : ℕ} {A B inputs : List (FileMetaData K V)} {f n : FileMetaData K V}

/-- Every user key between the first and the last of the files is in the range of one. -/
def Connected (A : List (FileMetaData K V)) : Prop :=
  ∀ f ∈ A, ∀ g ∈ A, ∀ u, f.smallest.userKey ≤ u → u ≤ g.largest.userKey → ∃ h ∈ A, h.Covers u

theorem connected_singleton (f : FileMetaData K V) : Connected [f] := by
  intro g hg h hh u h1 h2
  rw [List.mem_singleton.mp hg] at h1
  rw [List.mem_singleton.mp hh] at h2
  exact ⟨f, by simp, h1, h2⟩

theorem Connected.congr (h : Connected A) (hAB : ∀ f, f ∈ A ↔ f ∈ B) : Connected B := by
  intro f hf g hg u h1 h2
  obtain ⟨x, hx, hu⟩ := h f ((hAB f).mpr hf) g ((hAB g).mpr hg) u h1 h2
  exact ⟨x, (hAB x).mp hx, hu⟩

/-- Files that overlap the range of connected files are connected with them. -/
theorem Connected.append (h : Connected A) (hB : ∀ f ∈ B, MeetsHull A f) : Connected (A ++ B) := by
  intro f hf g hg u h1 h2
  -- a file of `B` covers `u`, or can be replaced by one of `A`
  have hlow : f.Covers u ∨ ∃ a ∈ A, a.smallest.userKey ≤ u := by
    rcases List.mem_append.mp hf with hfA | hfB
    · exact Or.inr ⟨f, hfA, h1⟩
    · obtain ⟨a, ha, hle⟩ := (hB f hfB).1
      by_cases hu : u ≤ f.largest.userKey
      · exact Or.inl ⟨h1, hu⟩
      · exact Or.inr ⟨a, ha, hle.trans (not_le.mp hu).le⟩
  have hhigh : g.Covers u ∨ ∃ a ∈ A, u ≤ a.largest.userKey := by
    rcases List.mem_append.mp hg with hgA | hgB
    · exact Or.inr ⟨g, hgA, h2⟩
    · obtain ⟨a, ha, hle⟩ := (hB g hgB).2
      by_cases hu : g.smallest.userKey ≤ u
      · exact Or.inl ⟨hu, h2⟩
      · exact Or.inr ⟨a, ha, (not_le.mp hu).le.trans hle⟩
  rcases hlow with hfu | ⟨a, ha, hau⟩
  · exact ⟨f, hf, hfu⟩
  rcases hhigh with hgu | ⟨a', ha', hua⟩
  · exact ⟨g, hg, hgu⟩
  obtain ⟨x, hx, hxu⟩ := h a ha a' ha' u hau hua
  exact ⟨x, List.mem_append_left _ hx, hxu⟩

/-- A file that overlaps none of the connected ones lies before or after all of them. -/
theorem Connected.before_or_after (h : Connected A) (hok : ∀ f ∈ A, f.Ok) (hn : n.Ok)
    (hno : ∀ f ∈ A, f.largest.userKey < n.smallest.userKey ∨ n.largest.userKey < f.smallest.userKey) :
    (∀ f ∈ A, n.largest.userKey < f.smallest.userKey) ∨ ∀ f ∈ A, f.largest.userKey < n.smallest.userKey := by
  by_contra hcon
  rw [not_or] at hcon
  obtain ⟨h1, h2⟩ := hcon
  push Not at h1 h2
  obtain ⟨f, hf, hfn⟩ := h1
  obtain ⟨g, hg, hng⟩ := h2
  have hf' : f.largest.userKey < n.smallest.userKey := (hno f hf).resolve_right (not_lt.mpr hfn)
  -- the first user key of `n` lies between `f` and `g`
  obtain ⟨x, hx, hx1, hx2⟩ := h f hf g hg n.smallest.userKey ((hok f hf).userKey_le.trans hf'.le) hng
  rcases hno x hx with hlt | hlt
  · exact absurd hx2 (not_le.mpr hlt)
  · exact absurd (hx1.trans hn.userKey_le) (not_le.mpr hlt)

theorem connected_addBoundaryInputs (hv : v.Ordered) (hsub : ∀ f ∈ inputs, f ∈ v.files level)
    (h : Connected (A ++ inputs)) : Connected (A ++ addBoundaryInputs (v.files level) inputs) := by
  by_cases hne : inputs = []
  · subst hne
    exact h
  · obtain ⟨l, ⟨-, -, hcon⟩, -⟩ := addBoundaryInputs_induct
      (fun cf l => IsLargest cf l ∧ (∀ f ∈ cf, f.Ok) ∧ Connected (A ++ cf)) (hv.file level)
      (fun cf l f ⟨hl, hok, hcon⟩ hf hb _ => by
        have hfok := hv.file level f hf
        refine ⟨hl.snoc hfok hb.1, ?_, ?_⟩
        · simp only [List.forall_mem_append, List.forall_mem_singleton]
          exact ⟨hok, hfok⟩
        · obtain ⟨x, hx, hxl⟩ := hl.exists_eq
          have hmeets : MeetsHull (A ++ cf) f := by
            refine ⟨⟨x, by simp [hx], ?_⟩, x, by simp [hx], by rw [hxl, hb.2]⟩
            exact (hok x hx).userKey_le.trans (by rw [hxl, ← hb.2]; exact hfok.userKey_le)
          rw [← List.append_assoc]
          exact hcon.append (by simpa using hmeets))
      hne (fun l hl => ⟨hl, fun f hf => hv.file level f (hsub f hf), h⟩)
    exact hcon

/-- The files of a sorted level that overlap the range of some connected files, with
their boundary files, are connected with them. -/
theorem connected_overlappingClosed (hv : v.Ordered) (hpos : 0 < level) (hA : inputs ≠ []) (hsub : ∀ f ∈ inputs, f ∈ A)
    (h : Connected A) : Connected (A ++ v.overlappingClosed level inputs) := by
  refine connected_addBoundaryInputs hv (fun f hf => ((mem_overlapping_pos hpos hA).mp hf).1) (h.append fun f hf => ?_)
  exact ((mem_overlapping_pos hpos hA).mp hf).2.mono hsub

/-- On level 0 the closure of the range of connected files is connected with them. -/
theorem connected_overlapping_zero (hA : A ≠ []) (hok : ∀ f ∈ A, f.Ok) (h : Connected A) :
    Connected (A ++ v.overlapping 0 A) := by
  obtain ⟨s, l, hr, hrange⟩ := exists_getRange hA
  obtain ⟨b', e', hc⟩ := getOverlappingInputs_zero v (some s) (some l)
  have heq : v.overlapping 0 A = v.getOverlappingInputs 0 (some s) (some l) := by rw [Version.overlapping, hr]; rfl
  rw [heq]
  set I := v.getOverlappingInputs 0 (some s) (some l)
  -- all the files are within the closure's range
  have hA : ∀ f ∈ A, InRange b' e' f.smallest.userKey ∧ InRange b' e' f.largest.userKey := by
    intro f hf
    have hs := InternalKey.userKey_mono (hrange.smallest_le f hf)
    have hl := InternalKey.userKey_mono (hrange.le_largest f hf)
    exact ⟨hc.subrange _ ⟨by simpa using hs, by simpa using (hok f hf).userKey_le.trans hl⟩,
      hc.subrange _ ⟨by simpa using hs.trans (hok f hf).userKey_le, by simpa using hl⟩⟩
  intro f hf g hg u h1 h2
  have hu : InRange b' e' u := by
    constructor
    · intro k hk
      rcases List.mem_append.mp hf with hf | hf
      · exact ((hA f hf).1.1 k hk).trans h1
      · exact ((hc.within f hf).1 k hk).trans h1
    · intro k hk
      rcases List.mem_append.mp hg with hg | hg
      · exact h2.trans ((hA g hg).2.2 k hk)
      · exact h2.trans ((hc.within g hg).2 k hk)
  rcases hc.covered u hu with hu | ⟨x, hx, hxu⟩
  · obtain ⟨x, hx, rfl⟩ := hrange.exists_smallest
    obtain ⟨y, hy, rfl⟩ := hrange.exists_largest
    obtain ⟨z, hz, hzu⟩ := h x hx y hy u (hu.1 _ rfl) (hu.2 _ rfl)
    exact ⟨z, List.mem_append_left _ hz, hzu⟩
  · exact ⟨x, List.mem_append_right _ hx, hxu⟩

end Connected

/-! ### The inputs of a compaction -/

section InputsOk

variable {o : Options K V} {v : Version K V} {level : ℕ} {inputs0 inputs1 : List (FileMetaData K V)}
  {c : Compaction K V} {f g : FileMetaData K V}

omit [LinearOrder K] in
/-- All the inputs. -/
def Compaction.inputs (c : Compaction K V) : List (FileMetaData K V) := c.inputs0 ++ c.inputs1

/-- The inputs of a compaction of `v`: closed at its level, and at the next level the
files that overlap their range, closed. -/
structure Compaction.InputsOk (v : Version K V) (c : Compaction K V) : Prop where
  version : c.inputVersion = v
  level_lt : c.level + 1 < kNumLevels
  ne_nil : c.inputs0 ≠ []
  closed : Closed (v.files c.level) c.inputs0
  ordered : 0 < c.level → c.inputs0.Pairwise FileMetaData.Before
  nodup : (v.files c.level).Nodup → c.inputs0.Nodup
  closure : BoundaryClosure v (c.level + 1) (v.overlapping (c.level + 1) c.inputs0) c.inputs1

/-- If there are inputs at the next level, one of them overlaps the range of the others. -/
theorem Compaction.InputsOk.exists_meetsHull (h : c.InputsOk v) (hf : f ∈ c.inputs1) :
    ∃ x ∈ c.inputs1, MeetsHull c.inputs0 x := by
  obtain ⟨x, hx⟩ : ∃ x, x ∈ v.overlapping (c.level + 1) c.inputs0 := by
    by_contra hnone
    exact absurd (h.closure.least [] (closed_nil _) (fun x hx => absurd ⟨x, hx⟩ hnone) f hf) (by simp)
  exact ⟨x, h.closure.subset x hx, ((mem_overlapping_pos (Nat.succ_pos _) h.ne_nil).mp hx).2⟩

/-- Any other file of the next level ends before all inputs begin, or begins with a
larger user key than they end with. -/
theorem Compaction.InputsOk.outside (h : c.InputsOk v) (hv : v.Ordered) (hg : g ∈ v.files (c.level + 1))
    (hgi : g ∉ c.inputs1) :
    (∀ f ∈ c.inputs, g.Before f) ∨ ∀ f ∈ c.inputs, f.largest.userKey < g.smallest.userKey := by
  have hgok := hv.file _ g hg
  have hno : ¬ MeetsHull c.inputs0 g := fun hm =>
    hgi (h.closure.subset g ((mem_overlapping_pos (Nat.succ_pos _) h.ne_nil).mpr ⟨hg, hm⟩))
  have hout := h.closure.closed.outside g hg hgi
  simp only [Compaction.inputs, List.forall_mem_append]
  rw [MeetsHull, not_and_or] at hno
  rcases hno with hlow | hhigh
  · -- `g` ends before the range, so it does not come after a file that overlaps it
    push Not at hlow
    refine Or.inl ⟨fun f hf => InternalKey.lt_of_userKey_lt (hlow f hf), ?_⟩
    rcases hout with hbefore | hafter
    · exact hbefore
    · intro f hf
      obtain ⟨x, hx, ⟨a, ha, hle⟩, -⟩ := h.exists_meetsHull hf
      exact absurd (hle.trans ((hafter x hx).le.trans hgok.userKey_le)) (not_le.mpr (hlow a ha))
  · push Not at hhigh
    refine Or.inr ⟨hhigh, ?_⟩
    rcases hout with hbefore | hafter
    · intro f hf
      obtain ⟨x, hx, -, a, ha, hle⟩ := h.exists_meetsHull hf
      have hgx := InternalKey.userKey_mono (le_of_lt (hbefore x hx))
      exact absurd ((hgok.userKey_le.trans hgx).trans hle) (not_le.mpr (hhigh a ha))
    · exact hafter

/-- The inputs stay as they are, or grow to all files of the level that overlap them. -/
theorem expandInputs_cases (o : Options K V) (v : Version K V) (level : ℕ) (inputs0 inputs1 : List (FileMetaData K V)) :
    v.expandInputs o level inputs0 inputs1 = (inputs0, inputs1) ∨
      inputs0.length < (v.overlappingClosed level (inputs0 ++ inputs1)).length ∧
      v.expandInputs o level inputs0 inputs1 = (v.overlappingClosed level (inputs0 ++ inputs1),
        v.overlappingClosed (level + 1) (v.overlappingClosed level (inputs0 ++ inputs1))) := by
  cases inputs1 with
  | nil => exact Or.inl rfl
  | cons f files =>
    by_cases h : inputs0.length < (v.overlappingClosed level (inputs0 ++ f :: files)).length ∧
        totalFileSize (f :: files) + totalFileSize (v.overlappingClosed level (inputs0 ++ f :: files)) <
          o.expandedCompactionByteSizeLimit ∧
        (v.overlappingClosed (level + 1) (v.overlappingClosed level (inputs0 ++ f :: files))).length =
          (f :: files).length
    · exact Or.inr ⟨h.1, if_pos h⟩
    · exact Or.inl (if_neg h)

/-- `SetupOtherInputs`, from inputs that `AddBoundaryInputs` closes. -/
theorem inputsOk_setupOtherInputs (hv : v.Ordered) (hlevel : level + 1 < kNumLevels) (hne : inputs0 ≠ [])
    (hb : BoundaryClosure v level inputs0 (addBoundaryInputs (v.files level) inputs0)) :
    (v.setupOtherInputs o level inputs0).InputsOk v := by
  simp only [Version.setupOtherInputs]
  rcases expandInputs_cases o v level (addBoundaryInputs (v.files level) inputs0)
    (v.overlappingClosed (level + 1) (addBoundaryInputs (v.files level) inputs0)) with hkeep | ⟨hlen, hgrow⟩
  · rw [hkeep]
    obtain ⟨f, hf⟩ := List.exists_mem_of_ne_nil _ hne
    exact ⟨rfl, hlevel, List.ne_nil_of_mem (hb.subset f hf), hb.closed, hb.ordered, hb.nodup,
      boundaryClosure_overlappingClosed hv _ _⟩
  · rw [hgrow]
    have hb' := boundaryClosure_overlappingClosed hv level (addBoundaryInputs (v.files level) inputs0 ++
      v.overlappingClosed (level + 1) (addBoundaryInputs (v.files level) inputs0))
    exact ⟨rfl, hlevel, List.ne_nil_of_length_pos (Nat.zero_lt_of_lt hlen), hb'.closed, hb'.ordered, hb'.nodup,
      boundaryClosure_overlappingClosed hv _ _⟩

/-- The inputs of `SetupOtherInputs` are connected if it starts from connected ones. -/
theorem connected_setupOtherInputs (hv : v.Ordered) (hne : inputs0 ≠ [])
    (hb : BoundaryClosure v level inputs0 (addBoundaryInputs (v.files level) inputs0))
    (hcon : Connected (addBoundaryInputs (v.files level) inputs0)) :
    Connected (v.setupOtherInputs o level inputs0).inputs := by
  simp only [Version.setupOtherInputs, Compaction.inputs]
  set A := addBoundaryInputs (v.files level) inputs0
  set B := v.overlappingClosed (level + 1) A
  have hA : A ≠ [] := by
    obtain ⟨f, hf⟩ := List.exists_mem_of_ne_nil _ hne
    exact List.ne_nil_of_mem (hb.subset f hf)
  have hB := boundaryClosure_overlappingClosed hv (level + 1) A
  have hAB : Connected (A ++ B) := connected_overlappingClosed hv (Nat.succ_pos _) hA (fun _ => id) hcon
  have hABok : ∀ f ∈ A ++ B, f.Ok := by
    rw [List.forall_mem_append]
    exact ⟨fun f hf => hv.file _ f (hb.closed.subset f hf), fun f hf => hv.file _ f (hB.closed.subset f hf)⟩
  have hABne : A ++ B ≠ [] := by simp [hA]
  rcases expandInputs_cases o v level A B with hkeep | ⟨hlen, hgrow⟩
  · rw [hkeep]
    exact hAB
  · rw [hgrow]
    set C := v.overlappingClosed level (A ++ B) with hCdef
    set D := v.overlappingClosed (level + 1) C
    have hC := boundaryClosure_overlappingClosed hv level (A ++ B)
    have hD := boundaryClosure_overlappingClosed hv (level + 1) C
    -- the inputs that it starts from are among those it ends with
    have hAC : ∀ f ∈ A, f ∈ C := fun f hf => hC.subset f (mem_overlapping hABne (hb.closed.subset f hf)
      (meetsHull_of_mem (hABok f (by simp [hf])) (by simp [hf])))
    have hCne : C ≠ [] := List.ne_nil_of_length_pos (Nat.zero_lt_of_lt hlen)
    have hBD : ∀ f ∈ B, f ∈ D := hB.least D hD.closed fun f hf => hD.subset f <| by
      obtain ⟨hfiles, hm⟩ := (mem_overlapping_pos (Nat.succ_pos _) hA).mp hf
      exact (mem_overlapping_pos (Nat.succ_pos _) hCne).mpr ⟨hfiles, hm.mono hAC⟩
    have hABC : Connected (A ++ B ++ C) := by
      rcases Nat.eq_zero_or_pos level with rfl | hpos
      · refine connected_addBoundaryInputs hv (fun f hf => ?_) (connected_overlapping_zero hABne hABok hAB)
        exact (closed_getOverlappingInputs_zero v _ _).subset f hf
      · exact connected_overlappingClosed hv hpos hABne (fun _ => id) hAB
    have hABCD : Connected (A ++ B ++ C ++ D) :=
      connected_overlappingClosed hv (Nat.succ_pos _) hCne (fun f hf => by simp [hf]) hABC
    refine hABCD.congr fun f => ?_
    simp only [List.mem_append]
    constructor
    · rintro (((hf | hf) | hf) | hf)
      · exact Or.inl (hAC f hf)
      · exact Or.inr (hBD f hf)
      · exact Or.inl hf
      · exact Or.inr hf
    · rintro (hf | hf)
      · exact Or.inl (Or.inr hf)
      · exact Or.inr hf

theorem PickReason.mem_of_file {reason : PickReason K V} {compactPointer : ℕ → Option (InternalKey K)}
    (hr : reason.Legal v) (h : reason.file v compactPointer = some f) : f ∈ v.files reason.level := by
  cases reason with
  | size level =>
    simp only [PickReason.file] at h
    split at h
    next g hg =>
      cases h
      exact List.mem_of_find?_eq_some hg
    next => exact List.mem_of_mem_head? h
  | seek level g =>
    simp only [PickReason.file, Option.some.injEq] at h
    exact h ▸ hr.2

omit [LinearOrder K] in
theorem PickReason.Legal.level_lt {reason : PickReason K V} (hr : reason.Legal v) : reason.level + 1 < kNumLevels := by
  cases reason with
  | size level => exact hr.1
  | seek level g => exact hr.1

/-- **What `PickCompaction` picks.** -/
theorem pickCompaction_spec {reason : PickReason K V} {compactPointer : ℕ → Option (InternalKey K)} (hv : v.Ordered)
    (hr : reason.Legal v) (h : v.pickCompaction o compactPointer reason = some c) :
    c.InputsOk v ∧ Connected c.inputs := by
  obtain ⟨f, hf, rfl⟩ := Option.map_eq_some_iff.mp h
  have hmem := PickReason.mem_of_file hr hf
  have hfok := hv.file _ f hmem
  rcases Nat.eq_zero_or_pos reason.level with h0 | hpos
  · rw [if_pos h0, h0]
    rw [h0] at hmem
    have hf0 : f ∈ v.overlapping 0 [f] := mem_overlapping (by simp) hmem (meetsHull_of_mem hfok (by simp))
    have hne := List.ne_nil_of_mem hf0
    have hb := boundaryClosure_getOverlappingInputs hv 0 (some f.smallest) (some f.largest)
    refine ⟨inputsOk_setupOtherInputs hv (by decide) hne hb, connected_setupOtherInputs hv hne hb ?_⟩
    have hcon : Connected ([f] ++ v.overlapping 0 [f]) :=
      connected_overlapping_zero (by simp) (by simpa using hfok) (connected_singleton f)
    have hclosed := closed_getOverlappingInputs_zero v (some f.smallest) (some f.largest)
    rw [hclosed.addBoundaryInputs_eq (hv.file 0)]
    exact hcon.congr fun g => by
      simp only [List.mem_append, List.mem_singleton]
      exact ⟨fun hg => hg.elim (fun hg => hg ▸ hf0) id, Or.inr⟩
  · rw [if_neg (by omega)]
    have hconvex : Convex (v.files reason.level) [f] := by
      refine ⟨by simpa using hmem, fun g hg hgi => ?_⟩
      simpa using hv.before_or hpos hg hmem (by simpa using hgi)
    have hb := boundaryClosure_of_convex hv hpos hconvex (List.pairwise_singleton _ _)
    exact ⟨inputsOk_setupOtherInputs hv hr.level_lt (by simp) hb, connected_setupOtherInputs hv (by simp) hb
      (connected_addBoundaryInputs (A := []) hv (by simpa using hmem) (connected_singleton f))⟩

omit [LinearOrder K] in
theorem truncateInputs_isPrefix (limit total : ℕ) (files : List (FileMetaData K V)) :
    truncateInputs limit total files <+: files := by
  induction files generalizing total with
  | nil => exact List.prefix_rfl
  | cons f files ih =>
    rw [truncateInputs]
    split_ifs
    · exact List.prefix_cons_inj f |>.mpr List.nil_prefix
    · exact (List.prefix_cons_inj f).mpr (ih _)

theorem Convex.of_prefix {files inputs l : List (FileMetaData K V)} (h : Convex files inputs)
    (ho : inputs.Pairwise FileMetaData.Before) (hp : l <+: inputs) : Convex files l := by
  obtain ⟨r, rfl⟩ := hp
  refine ⟨fun f hf => h.subset f (by simp [hf]), fun g hg hgl => ?_⟩
  by_cases hgr : g ∈ r
  · exact Or.inr fun f hf => (List.pairwise_append.mp ho).2.2 f hf g hgr
  · have hout := h.outside g hg (by simp [hgl, hgr])
    simp only [List.forall_mem_append] at hout
    exact hout.imp And.left And.left

theorem boundaryClosure_truncateInputs {b e : Option (InternalKey K)} (hv : v.Ordered) (hpos : 0 < level)
    (limit total : ℕ) : BoundaryClosure v level (truncateInputs limit total (v.getOverlappingInputs level b e))
      (addBoundaryInputs (v.files level) (truncateInputs limit total (v.getOverlappingInputs level b e))) := by
  have hordered : (v.getOverlappingInputs level b e).Pairwise FileMetaData.Before := by
    rw [getOverlappingInputs_pos v hpos]
    exact (hv.sorted level hpos).sublist List.filter_sublist
  have hp := truncateInputs_isPrefix limit total (v.getOverlappingInputs level b e)
  have hconvex := convex_getOverlappingInputs_pos hv hpos b e
  exact boundaryClosure_of_convex hv hpos (hconvex.of_prefix hordered hp) (hordered.sublist hp.sublist)

/-- **What `CompactRange` picks.** -/
theorem compactRange_spec {b e : Option (InternalKey K)} (hv : v.Ordered) (hlevel : level + 1 < kNumLevels)
    (h : v.compactRange o level b e = some c) : c.InputsOk v := by
  unfold Version.compactRange at h
  cases hi : v.getOverlappingInputs level b e with
  | nil => simp [hi] at h
  | cons f files =>
    simp only [hi, Option.some.injEq] at h
    subst h
    split_ifs with hpos
    · have hne : truncateInputs o.maxFileSize 0 (f :: files) ≠ [] := by
        rw [truncateInputs]
        split_ifs <;> simp
      have hb := @boundaryClosure_truncateInputs K V _ v level b e hv hpos o.maxFileSize 0
      rw [hi] at hb
      exact inputsOk_setupOtherInputs hv hlevel hne hb
    · have hb := boundaryClosure_getOverlappingInputs hv level b e
      rw [hi] at hb
      exact inputsOk_setupOtherInputs hv hlevel (by simp) hb

end InputsOk

end TLevelDB.Db
