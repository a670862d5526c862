import TLevelDB.Db.Reachable
import TLevelDB.Db.Selection
import Mathlib.Data.List.Perm.Subperm

/-!
# Manual compactions

`DBImpl::CompactRange` flushes the memtable and then compacts one level after the other, down
to the deepest level that has files in the range. `TEST_CompactRange` compacts a level in steps: the
background thread takes the first files in the range until they are large enough, and the next
step begins at the largest key of the last of its inputs.

Every step takes a file away from the level and adds none, so the steps come to an end. What
a step leaves of the files in the range begins after all of its inputs, so that the next one
does not miss it (`InRest.step`). When `CompactRange` returns, the levels that it has compacted
have no file in the range (`compactRange_covers`). It does not return if level 0 has too many
files to switch the memtable and nothing else compacts them.
-/

namespace TLevelDB.Db

variable {K V : Type} [LinearOrder K]

/-! ### The calls -/

/-- The level down to which `CompactRange` compacts. -/
def Version.maxLevelWithFiles (v : Version K V) (b e : Option K) : ℕ :=
  ((List.range kNumLevels).drop 1).foldl (fun m level => if v.overlapInLevel level b e then level else m) 1

section Calls

variable [Inhabited V]

/-- `DoCompactionWork` from its loop on. Every turn takes an entry of the input. -/
def DBState.doCompactionWork (o : Options K V) : ℕ → DBState K V → Option (DBState K V)
  | 0, _ => none
  | fuel + 1, st =>
    match st.step o .turn with
    | some st' => doCompactionWork o fuel st'
    | none => st.step o .install

/-- `BackgroundCompaction` for a manual compaction, with something to compact. -/
def DBState.backgroundCompaction (o : Options K V) (level : ℕ) (b e : Option (InternalKey K)) (st : DBState K V) :
    Option (DBState K V) := do
  let st' ← st.step o (.manual level b e)
  st'.doCompactionWork o (st'.compaction.elim 0 (fun cs => cs.input.length) + 1)

/-- The loop of `TEST_CompactRange`, over the calls of the background thread. Each of them but
the last takes files away from the level. -/
def DBState.manualLoop (o : Options K V) (level : ℕ) (e : Option (InternalKey K)) :
    ℕ → Option (InternalKey K) → DBState K V → Option (DBState K V)
  | 0, _, _ => none
  | fuel + 1, b, st =>
    match st.version.compactRange o level b e with
    -- `m->done`
    | none => some st
    | some c => do
      let st' ← st.backgroundCompaction o level b e
      manualLoop o level e fuel (c.inputs0.getLast?.map FileMetaData.largest) st'

def DBState.testCompactRange (o : Options K V) (level : ℕ) (b e : Option K) (st : DBState K V) : Option (DBState K V) :=
  st.manualLoop o level (e.map fun k => ⟨k, 0, .deletion⟩) ((st.version.files level).length + 1)
    (b.map fun k => ⟨k, kMaxSequenceNumber, kValueTypeForSeek⟩)

def kL0StopWritesTrigger : ℕ := 12

/-- `TEST_CompactMemTable`: a memtable that waits is flushed first. Where level 0 has too many
files, `MakeRoomForWrite` waits for a compaction. -/
def DBState.testCompactMemTable (o : Options K V) (st : DBState K V) : Option (DBState K V) :=
  (if st.imm.isSome then st.step o .flush else some st).bind fun st =>
    if kL0StopWritesTrigger ≤ (st.version.files 0).length then none
    else (st.step o .switchMem).bind fun st => st.step o .flush

/-- `DBImpl::CompactRange`. -/
def DBState.compactRange (o : Options K V) (b e : Option K) (st : DBState K V) : Option (DBState K V) := do
  let st' ← st.testCompactMemTable o
  (List.range (st.version.maxLevelWithFiles b e)).foldlM (fun s level => s.testCompactRange o level b e) st'

end Calls

/-! ### What is compacted -/

section Picked

variable {o : Options K V} {v : Version K V} {c : Compaction K V} {level : ℕ} {f : FileMetaData K V}

theorem subset_setupOtherInputs {inputs0 : List (FileMetaData K V)} (hv : v.Ordered)
    (hb : BoundaryClosure v level inputs0 (addBoundaryInputs (v.files level) inputs0)) :
    ∀ f ∈ inputs0, f ∈ (v.setupOtherInputs o level inputs0).inputs0 := by
  intro f hf
  have hbound := hb.subset f hf
  simp only [Version.setupOtherInputs]
  rcases expandInputs_cases o v level (addBoundaryInputs (v.files level) inputs0)
    (v.overlappingClosed (level + 1) (addBoundaryInputs (v.files level) inputs0)) with hkeep | ⟨-, hgrow⟩
  · rw [hkeep]
    exact hbound
  · rw [hgrow]
    set A := addBoundaryInputs (v.files level) inputs0 ++
      v.overlappingClosed (level + 1) (addBoundaryInputs (v.files level) inputs0) with hA
    have hmem : f ∈ A := List.mem_append_left _ hbound
    have hfile := hb.closed.subset f hbound
    exact (boundaryClosure_overlappingClosed hv level A).subset f
      (mem_overlapping (List.ne_nil_of_mem hmem) hfile (meetsHull_of_mem (hv.file level f hfile) hmem))

variable {b e : Option (InternalKey K)}

/-- `CompactRange` has nothing to do only if no file is in the range. -/
theorem compactRange_eq_none_iff :
    v.compactRange o level b e = none ↔ v.getOverlappingInputs level b e = [] := by
  unfold Version.compactRange
  cases v.getOverlappingInputs level b e <;> simp

theorem mem_getOverlappingInputs (hf : f ∈ v.files level)
    (h : Overlaps (b.map InternalKey.userKey) (e.map InternalKey.userKey) f) : f ∈ v.getOverlappingInputs level b e := by
  rcases Nat.eq_zero_or_pos level with rfl | hpos
  · obtain ⟨b', e', hc⟩ := getOverlappingInputs_zero v b e
    rw [hc.eq]
    exact List.mem_filter.mpr ⟨hf, decide_eq_true (hc.overlaps f h)⟩
  · rw [getOverlappingInputs_pos v hpos]
    exact List.mem_filter.mpr ⟨hf, decide_eq_true h⟩

theorem level_compactRange (h : v.compactRange o level b e = some c) : c.level = level := by
  unfold Version.compactRange at h
  cases hi : v.getOverlappingInputs level b e with
  | nil => simp [hi] at h
  | cons g files =>
    simp only [hi, Option.some.injEq] at h
    rw [← h]
    rfl

/-- A file in the range is taken, or it begins after all the inputs. -/
theorem compactRange_takes (hv : v.Ordered) (hlevel : level + 1 < kNumLevels)
    (h : v.compactRange o level b e = some c) (hf : f ∈ v.files level)
    (hover : Overlaps (b.map InternalKey.userKey) (e.map InternalKey.userKey) f) :
    f ∈ c.inputs0 ∨ ∀ g ∈ c.inputs0, g.largest.userKey < f.smallest.userKey := by
  have hclosed := (compactRange_spec hv hlevel h).closed
  rw [level_compactRange h] at hclosed
  have hmem := mem_getOverlappingInputs hf hover
  unfold Version.compactRange at h
  cases hi : v.getOverlappingInputs level b e with
  | nil => simp [hi] at h
  | cons g files =>
    simp only [hi, Option.some.injEq] at h
    rw [hi] at hmem
    rcases Nat.eq_zero_or_pos level with rfl | hpos
    · -- on level 0 all of them are taken
      rw [if_neg (lt_irrefl 0)] at h
      have hb := boundaryClosure_getOverlappingInputs hv 0 b e
      rw [hi] at hb
      exact Or.inl (h ▸ subset_setupOtherInputs hv hb f hmem)
    · -- the first of them is taken, and what is not taken does not come before it
      rw [if_pos hpos] at h
      have hb := @boundaryClosure_truncateInputs K V _ v level b e hv hpos o.maxFileSize 0
      rw [hi] at hb
      have hhead : g ∈ truncateInputs o.maxFileSize 0 (g :: files) := by
        rw [truncateInputs]
        split_ifs <;> simp
      have hg : g ∈ c.inputs0 := h ▸ subset_setupOtherInputs hv hb g hhead
      by_cases hfc : f ∈ c.inputs0
      · exact Or.inl hfc
      · refine Or.inr ((hclosed.outside f hf hfc).resolve_left fun hbefore => ?_)
        have hordered : (g :: files).Pairwise FileMetaData.Before := by
          rw [← hi, getOverlappingInputs_pos v hpos]
          exact (hv.sorted level hpos).sublist List.filter_sublist
        rcases List.mem_cons.mp hmem with rfl | hfiles
        · exact hfc hg
        · exact ((List.pairwise_cons.mp hordered).1 f hfiles).asymm (hv.file level g (hclosed.subset g hg))
            (hv.file level f hf) (hbefore g hg)

end Picked

/-! ### One compaction -/

section Work

variable [Inhabited V] {o : Options K V} {st st' : DBState K V}

/-- A state in which only manual compactions go on. -/
structure Quiet (st : DBState K V) : Prop where
  version : st.version.Shape
  number_lt : ∀ l, ∀ f ∈ st.version.files l, f.number < st.nextFileNumber
  snapshot_lt : st.smallestSnapshot < kMaxSequenceNumber
  imm : st.imm = none

/-- The outputs are installed when all entries are taken. -/
theorem doCompactionWork_spec {fuel : ℕ} (h : Quiet st) {cs : CompactionState K V} (hcs : st.compaction = some cs)
    (hw : Working st.version st.nextFileNumber cs) (hs : cs.smallestSnapshot < kMaxSequenceNumber)
    (hfuel : cs.input.length < fuel) :
    ∃ st' outs, st.doCompactionWork o fuel = some st' ∧ Quiet st' ∧ st'.compaction = none ∧
      Replaces st.version cs.compaction outs ∧ st'.version = st.version.apply (cs.compaction.installEdit outs) := by
  induction fuel generalizing st cs with
  | zero => omega
  | succ fuel ih =>
    rw [DBState.doCompactionWork]
    cases hr : cs.turn o st.nextFileNumber with
    | none =>
      have hturn : st.step o .turn = none := by simp [DBState.step, hcs, hr]
      have hi : cs.input = [] := by
        unfold CompactionState.turn at hr
        cases hi : cs.input with
        | nil => rfl
        | cons e rest => simp [hi] at hr
      have hinstall : st.step o .install = some (st.installCompaction o cs) := by simp [DBState.step, hcs, hi]
      obtain ⟨hrep, -, hnum⟩ := hw.outputs_spec hi o
      rw [hturn]
      refine ⟨_, (cs.finishOutput o).outputs, hinstall,
        ⟨install_shape h.version hw.fits hrep, fun l f hf => ?_, h.snapshot_lt, h.imm⟩, rfl, hrep, rfl⟩
      rcases (hw.fits.mem_install_iff h.version hrep).mp hf with hf | ⟨-, hf⟩
      · exact h.number_lt l f hf.mem
      · exact hnum f hf
    | some r =>
      have hturn : st.step o .turn = some { st with compaction := some r.1, nextFileNumber := r.2 } := by
        simp [DBState.step, hcs, hr]
      obtain ⟨hw', hcomp, hss, hle, hlen⟩ := hw.turn h.number_lt hs hr
      rw [hturn]
      have hnext : Quiet { st with compaction := some r.1, nextFileNumber := r.2 } :=
        { h with number_lt := fun l f hf => (h.number_lt l f hf).trans_le hle }
      obtain ⟨st', outs, hwork, hquiet, hnone, hrep, hversion⟩ := ih hnext rfl hw' (hss ▸ hs) (by omega)
      rw [hcomp] at hrep hversion
      exact ⟨st', outs, hwork, hquiet, hnone, hrep, hversion⟩

/-- What a manual compaction does to the files: its inputs are taken away from the level, and
the levels above stay as they are. -/
structure Takes (level : ℕ) (c : Compaction K V) (v v' : Version K V) : Prop where
  mem_iff : ∀ f, f ∈ v'.files level ↔ f ∈ v.files level ∧ f ∉ c.inputs0
  above : ∀ l < level, ∀ f, f ∈ v'.files l ↔ f ∈ v.files l
  ne_nil : c.inputs0 ≠ []
  subset : ∀ f ∈ c.inputs0, f ∈ v.files level

theorem backgroundCompaction_spec {level : ℕ} {c : Compaction K V} (h : Quiet st)
    (hnone : st.compaction = none) (hlevel : level + 1 < kNumLevels) (hc : st.version.compactRange o level b e = some c) :
    ∃ st', st.backgroundCompaction o level b e = some st' ∧ Quiet st' ∧ st'.compaction = none ∧
      Takes level c st.version st'.version := by
  have hmanual : st.step o (.manual level b e) = some (st.startCompaction c true) := by
    simp [DBState.step, h.imm, hnone, hlevel, hc]
  have hinputs := compactRange_spec h.version.toOrdered hlevel hc
  obtain ⟨st', outs, hwork, hquiet, hnone', hrep, hversion⟩ := @doCompactionWork_spec K V _ _ o
    (st.startCompaction c true) (c.makeInputIterator.length + 1) { h with } (c.start st.smallestSnapshot) rfl
    (hinputs.working h.version _ _) h.snapshot_lt (Nat.lt_succ_self _)
  have hclevel := level_compactRange hc
  subst hclevel
  refine ⟨st', ?_, hquiet, hnone', ?_⟩
  · rw [DBState.backgroundCompaction, hmanual]
    exact hwork
  · have hmem : ∀ l f, f ∈ st'.version.files l ↔ Stays st.version c l f ∨ (l = c.level + 1 ∧ f ∈ outs) := by
      intro l f
      rw [hversion]
      exact (hinputs.fits h.version.toOrdered).mem_install_iff h.version hrep
    refine ⟨fun f => ?_, fun l hl f => ?_, hinputs.ne_nil, hinputs.closed.subset⟩
    · rw [hmem]
      constructor
      · rintro (hs | ⟨hl, -⟩)
        · exact ⟨hs.mem, fun hin => hs.not_inputs0 ⟨rfl, hin⟩⟩
        · omega
      · rintro ⟨hf, hin⟩
        exact Or.inl ⟨hf, fun hboth => hin hboth.2, fun hboth => by omega⟩
    · rw [hmem]
      constructor
      · rintro (hs | ⟨hl', -⟩)
        · exact hs.mem
        · omega
      · intro hf
        exact Or.inl ⟨hf, fun hboth => by omega, fun hboth => by omega⟩

end Work

/-! ### One level -/

section Level

variable [Inhabited V] {o : Options K V} {st st' : DBState K V} {level : ℕ}

omit [Inhabited V] in
theorem Takes.length_lt {c : Compaction K V} {v v' : Version K V} (h : Takes level c v v') (hv' : v'.Shape) :
    (v'.files level).length < (v.files level).length := by
  obtain ⟨f, hf⟩ := List.exists_mem_of_ne_nil _ h.ne_nil
  have hnodup : (f :: v'.files level).Nodup :=
    List.nodup_cons.mpr ⟨fun hmem => ((h.mem_iff f).mp hmem).2 hf, nodup_files hv' level⟩
  have hsub : f :: v'.files level ⊆ v.files level := by
    intro g hg
    rcases List.mem_cons.mp hg with rfl | hg
    · exact h.subset g hf
    · exact ((h.mem_iff g).mp hg).1
  exact Nat.lt_of_succ_le (List.subperm_of_subset hnodup hsub).length_le

/-- The files in the range are those that are in what is left of it. -/
def InRest (b e : Option K) (rest : Option (InternalKey K)) (files : List (FileMetaData K V)) : Prop :=
  ∀ f ∈ files, Overlaps b e f → Overlaps (rest.map InternalKey.userKey) e f

omit [Inhabited V] in
/-- What a step leaves in the range is in the rest that the next step begins with. -/
theorem InRest.step {b e : Option K} {rest : Option (InternalKey K)} {last : Option (InternalKey K)}
    {c : Compaction K V} {v v' : Version K V} (h : InRest b e rest (v.files level)) (hv : v.Ordered)
    (hlevel : level + 1 < kNumLevels) (hlast : last.map InternalKey.userKey = e)
    (hc : v.compactRange o level rest last = some c) (htakes : Takes level c v v') :
    InRest b e (c.inputs0.getLast?.map FileMetaData.largest) (v'.files level) := by
  intro f hf hover
  obtain ⟨hf, hleft⟩ := (htakes.mem_iff f).mp hf
  have hrest := h f hf hover
  rw [← hlast] at hrest
  have hafter := (compactRange_takes hv hlevel hc hf hrest).resolve_left hleft
  obtain ⟨g, hg⟩ := List.getLast?_isSome.mpr htakes.ne_nil |> Option.isSome_iff_exists.mp
  have hlt := hafter g (List.mem_of_getLast? hg)
  rw [hg]
  refine ⟨?_, hover.2⟩
  simpa [afterFile] using hlt.le.trans (hv.file level f hf).userKey_le

/-- **The steps for a level come to an end**, and leave no file in the range. -/
theorem manualLoop_spec {b e : Option K} {last : Option (InternalKey K)} (hlast : last.map InternalKey.userKey = e)
    (hlevel : level + 1 < kNumLevels) {fuel : ℕ} {rest : Option (InternalKey K)} (h : Quiet st)
    (hnone : st.compaction = none) (hfuel : (st.version.files level).length < fuel)
    (hrest : InRest b e rest (st.version.files level)) :
    ∃ st', st.manualLoop o level last fuel rest = some st' ∧ Quiet st' ∧ st'.compaction = none ∧
      (∀ f ∈ st'.version.files level, ¬ Overlaps b e f) ∧
      ∀ l < level, ∀ f, f ∈ st'.version.files l ↔ f ∈ st.version.files l := by
  induction fuel generalizing st rest with
  | zero => omega
  | succ fuel ih =>
    rw [DBState.manualLoop]
    cases hc : st.version.compactRange o level rest last with
    | none =>
      refine ⟨st, rfl, h, hnone, fun f hf hover => ?_, fun _ _ _ => Iff.rfl⟩
      have hin := hrest f hf hover
      rw [← hlast] at hin
      have hmem := mem_getOverlappingInputs hf hin
      rw [compactRange_eq_none_iff.mp hc] at hmem
      cases hmem
    | some c =>
      obtain ⟨st₁, hstep, hquiet, hnone₁, htakes⟩ := backgroundCompaction_spec h hnone hlevel hc
      have hlt := htakes.length_lt hquiet.version
      obtain ⟨st', hloop, hquiet', hnone', hclear, habove⟩ := ih hquiet hnone₁ (by omega)
        (hrest.step h.version.toOrdered hlevel hlast hc htakes)
      refine ⟨st', ?_, hquiet', hnone', hclear, fun l hl f => (habove l hl f).trans (htakes.above l hl f)⟩
      dsimp only
      rw [hstep]
      exact hloop

end Level

/-! ### All levels -/

section All

variable {o : Options K V} {st st' : DBState K V}

/-- The last level of a list for which something holds. -/
theorem le_foldl_last {p : ℕ → Bool} {levels : List ℕ} (hs : levels.Pairwise (· < ·)) {m : ℕ} (hm : ∀ l ∈ levels, m ≤ l) :
    m ≤ levels.foldl (fun m l => if p l then l else m) m ∧
      (∀ l ∈ levels, p l = true → l ≤ levels.foldl (fun m l => if p l then l else m) m) ∧
      (levels.foldl (fun m l => if p l then l else m) m = m ∨
        levels.foldl (fun m l => if p l then l else m) m ∈ levels) := by
  induction levels generalizing m with
  | nil => simp
  | cons l levels ih =>
    obtain ⟨hl, hs⟩ := List.pairwise_cons.mp hs
    rw [List.foldl_cons]
    have hstart : ∀ k ∈ levels, (if p l then l else m) ≤ k := by
      intro k hk
      split_ifs
      · exact (hl k hk).le
      · exact hm k (List.mem_cons_of_mem l hk)
    obtain ⟨hle, hlast, hmem⟩ := ih hs hstart
    have hml := hm l List.mem_cons_self
    refine ⟨le_trans (by split_ifs <;> omega) hle, fun k hk hp => ?_, ?_⟩
    · rcases List.mem_cons.mp hk with rfl | hk
      · rw [if_pos hp] at hle
        rwa [if_pos hp]
      · exact hlast k hk hp
    · rcases hmem with heq | hmem
      · rw [heq]
        split_ifs
        · exact Or.inr List.mem_cons_self
        · exact Or.inl rfl
      · exact Or.inr (List.mem_cons_of_mem l hmem)

theorem maxLevelWithFiles_spec (v : Version K V) (b e : Option K) :
    1 ≤ v.maxLevelWithFiles b e ∧ v.maxLevelWithFiles b e < kNumLevels ∧
      ∀ l, 0 < l → l < kNumLevels → v.overlapInLevel l b e = true → l ≤ v.maxLevelWithFiles b e := by
  obtain ⟨hle, hlast, hmem⟩ := @le_foldl_last (fun l => v.overlapInLevel l b e) ((List.range kNumLevels).drop 1) (by decide) 1
    (by decide)
  have hall : ∀ l < kNumLevels, 0 < l → l ∈ (List.range kNumLevels).drop 1 := by decide
  have hlt : ∀ l ∈ (List.range kNumLevels).drop 1, l < kNumLevels := by decide
  refine ⟨hle, ?_, fun l hpos hl hp => hlast l (hall l hl hpos) hp⟩
  rcases hmem with heq | hmem
  · exact lt_of_eq_of_lt heq (by decide)
  · exact hlt _ hmem

/-- The file has user keys of the range. -/
def FileMetaData.Meets (b e : Option K) (f : FileMetaData K V) : Prop := ∃ u, InRange b e u ∧ f.Covers u

theorem FileMetaData.Meets.overlaps {b e : Option K} {f : FileMetaData K V} (h : f.Meets b e) : Overlaps b e f := by
  obtain ⟨u, hu, hcovers⟩ := h
  exact overlaps_of_covers hu hcovers

variable [Inhabited V]

/-- The entries of a memtable that are nowhere else. -/
structure Separate (mem : List (Entry K V)) (others : Set (Entry K V)) : Prop where
  sorted : SortedEntries mem
  sequence_le : ∀ x ∈ mem, x.sequence ≤ kMaxSequenceNumber
  other : ∀ x ∈ mem, ∀ y ∈ others, x.userKey = y.userKey → x.sequence ≠ y.sequence

/-- A state in which `CompactRange` may be called: no entry is in two places. -/
structure Shaped (st : DBState K V) : Prop where
  version : st.version.Shape
  number_lt : ∀ l, ∀ f ∈ st.version.files l, f.number < st.nextFileNumber
  imm : Separate (st.imm.getD []) st.version.entries
  mem : Separate st.mem (entrySet (st.imm.getD []) ∪ st.version.entries)
  snapshot_lt : st.smallestSnapshot < kMaxSequenceNumber

omit [Inhabited V] in
theorem DBInv.shaped (h : DBInv st) (hseq : st.lastSequence < kMaxSequenceNumber) (hw : st.writing = none) : Shaped st where
  version := h.version.toShape
  number_lt := h.number_lt
  imm := ⟨h.imm, fun x hx => (h.imm_le x hx).trans hseq.le, fun x hx y hy _ => (h.imm_newer x hx y hy).ne'⟩
  mem := by
    have hmem := h.mem_le
    simp only [DBState.inserted, hw, add_zero] at hmem
    exact ⟨h.mem, fun x hx => (hmem x hx).trans hseq.le, fun x hx y hy _ => (h.mem_newer x hx y hy).ne'⟩
  snapshot_lt := h.smallestSnapshot_le.1.trans_lt hseq

omit [Inhabited V] in
/-- A flush adds at most one file to level 0. -/
theorem Shaped.compactMemTable (h : Shaped st) {imm : List (Entry K V)} (himm : st.imm = some imm) :
    Shaped (st.compactMemTable o imm) ∧
      ((st.compactMemTable o imm).version.files 0).length ≤ (st.version.files 0).length + 1 := by
  obtain ⟨hv, hlt, hi, hm, hs⟩ := h
  simp only [himm, Option.getD_some] at hi hm
  have hnil : ∀ others : Set (Entry K V), Separate (none.getD []) others := fun _ => ⟨sortedEntries_nil, by simp, by simp⟩
  have hlt' := fun l f hf => (hlt l f hf).trans (Nat.lt_succ_self _)
  unfold DBState.compactMemTable
  cases hb : buildTable o st.nextFileNumber imm with
  | none => exact ⟨⟨hv, hlt', hnil _, ⟨hm.sorted, hm.sequence_le, fun x hx y hy => hm.other x hx y (Or.inr (by simpa using hy))⟩,
      hs⟩, Nat.le_succ _⟩
  | some f =>
    obtain ⟨hok, htable, hnum⟩ := buildTable_spec hb hi.sorted hi.sequence_le
    obtain ⟨hle, hapart⟩ := pickLevelForMemTableOutput_spec (o := o) (a := f.smallest.userKey) (b := f.largest.userKey)
      hv.toOrdered
    have hplace : Placeable st.version (st.version.tableLevel o f) f :=
      ⟨hok, lt_of_le_of_lt hle (by decide), fun l g hg => hnum ▸ hlt l g hg, htable ▸ hi.other,
        fun hpos l hl g hg => hapart l hpos hl g hg⟩
    have hshape := addFile_shape hv hplace
    refine ⟨⟨hshape, fun l g hg => ?_, hnil _, ⟨hm.sorted, hm.sequence_le, fun x hx y hy => hm.other x hx y ?_⟩, hs⟩, ?_⟩
    · rcases mem_addFile_iff.mp hg with hg | ⟨-, rfl⟩
      · exact hlt' l g hg
      · exact hnum ▸ Nat.lt_succ_self _
    · simpa [DBState.logAndApply, entries_addFile, htable] using hy
    · refine (List.subperm_of_subset (nodup_files hshape 0) fun g hg => ?_).length_le.trans (List.length_cons (a := f)).le
      rcases mem_addFile_iff.mp hg with hg | ⟨-, rfl⟩
      · exact List.mem_cons_of_mem _ hg
      · exact List.mem_cons_self

theorem flush_spec (h : Shaped st) (hw : st.writing = none) (hc : st.compaction = none) (himm : st.imm.isSome = true) :
    ∃ st', st.step o .flush = some st' ∧ Shaped st' ∧ st'.writing = none ∧ st'.imm = none ∧ st'.compaction = none ∧
      (st'.version.files 0).length ≤ (st.version.files 0).length + 1 := by
  obtain ⟨imm, himm⟩ := Option.isSome_iff_exists.mp himm
  obtain ⟨hshaped, hlen⟩ := h.compactMemTable (o := o) himm
  exact ⟨_, by simp [DBState.step, himm, hc], hshaped, by simpa using hw, by simp, by simpa using hc, hlen⟩

/-- `TEST_CompactMemTable` leaves nothing in memory. -/
theorem testCompactMemTable_spec (h : Shaped st) (hw : st.writing = none) (hc : st.compaction = none)
    (h0 : (st.version.files 0).length + st.imm.toList.length < kL0StopWritesTrigger) :
    ∃ st', st.testCompactMemTable o = some st' ∧ Quiet st' ∧ st'.compaction = none := by
  have hfirst : ∃ st₁, (if st.imm.isSome then st.step o .flush else some st) = some st₁ ∧ Shaped st₁ ∧
      st₁.writing = none ∧ st₁.imm = none ∧ st₁.compaction = none ∧ (st₁.version.files 0).length < kL0StopWritesTrigger := by
    cases himm : st.imm with
    | none => exact ⟨st, rfl, h, hw, himm, hc, by simpa [himm] using h0⟩
    | some imm =>
      obtain ⟨st₁, hflush, h₁, hw₁, himm₁, hc₁, hlen⟩ := flush_spec (o := o) h hw hc (by rw [himm]; rfl)
      exact ⟨st₁, hflush, h₁, hw₁, himm₁, hc₁, hlen.trans_lt (by simpa [himm] using h0)⟩
  obtain ⟨st₁, hfirst, h₁, hw₁, himm₁, hc₁, hlen⟩ := hfirst
  have hswitch : st₁.step o .switchMem =
      some { st₁ with mem := [], imm := some st₁.mem, nextFileNumber := st₁.nextFileNumber + 1 } := by
    simp [DBState.step, hw₁, himm₁]
  have h₂ : Shaped { st₁ with mem := [], imm := some st₁.mem, nextFileNumber := st₁.nextFileNumber + 1 } :=
    { h₁ with
      number_lt := fun l f hf => (h₁.number_lt l f hf).trans (Nat.lt_succ_self _)
      imm := ⟨h₁.mem.sorted, h₁.mem.sequence_le, fun x hx y hy => h₁.mem.other x hx y (Or.inr hy)⟩
      mem := ⟨sortedEntries_nil, by simp, by simp⟩ }
  obtain ⟨st', hflush, h', -, himm', hc', -⟩ := flush_spec (o := o) h₂ hw₁ hc₁ rfl
  refine ⟨st', ?_, ⟨h'.version, h'.number_lt, h'.snapshot_lt, himm'⟩, hc'⟩
  rw [DBState.testCompactMemTable, hfirst, Option.bind_some, if_neg (not_le.mpr hlen), hswitch, Option.bind_some]
  exact hflush

theorem foldlM_testCompactRange_spec {b e : Option K} {n : ℕ} (hn : n < kNumLevels) (h : Quiet st)
    (hnone : st.compaction = none) :
    ∃ st', (List.range n).foldlM (fun s level => s.testCompactRange o level b e) st = some st' ∧ Quiet st' ∧
      st'.compaction = none ∧ ∀ level < n, ∀ f ∈ st'.version.files level, ¬ Overlaps b e f := by
  induction n with
  | zero => exact ⟨st, rfl, h, hnone, by simp⟩
  | succ n ih =>
    obtain ⟨st₁, hfold, hquiet, hnone₁, hclear⟩ := ih (by omega)
    have hlast : (e.map fun k => (⟨k, 0, .deletion⟩ : InternalKey K)).map InternalKey.userKey = e := by
      cases e <;> rfl
    have hrest : InRest b e (b.map fun k => (⟨k, kMaxSequenceNumber, kValueTypeForSeek⟩ : InternalKey K))
        (st₁.version.files n) := by
      intro f hf hover
      have hfirst : (b.map fun k => (⟨k, kMaxSequenceNumber, kValueTypeForSeek⟩ : InternalKey K)).map
          InternalKey.userKey = b := by cases b <;> rfl
      rwa [hfirst]
    obtain ⟨st', hloop, hquiet', hnone', hclear', habove⟩ := manualLoop_spec (o := o) hlast hn hquiet hnone₁
      (Nat.lt_succ_self _) hrest
    refine ⟨st', ?_, hquiet', hnone', fun level hlt f hf => ?_⟩
    · have htest : st₁.testCompactRange o n b e = some st' := hloop
      rw [List.range_succ, List.foldlM_append, hfold]
      simp [htest]
    · rcases Nat.lt_succ_iff_lt_or_eq.mp hlt with hlt | rfl
      · exact hclear level hlt f ((habove level hlt f).mp hf)
      · exact hclear' f hf

/-- A key is written and flushed `n` times. -/
def flushTimes (n : ℕ) : List (Action ℕ ℕ) := (List.replicate n (putActions 5 7 ++ [.switchMem, .flush])).flatten

/-- What a run of these flushes has led to. -/
def DBState.atRest (st : DBState ℕ ℕ) : List ℕ × ℕ × Bool :=
  ((List.range 3).map fun level => (st.version.files level).length, st.lastSequence,
    st.writing.isNone && st.imm.isNone && st.compaction.isNone)

theorem exists_run_of_atRest {n m : ℕ} {lengths : List ℕ}
    (h : ((runActions smallOptions (KeepsClear smallOptions) (flushTimes n)).map DBState.atRest) = some (lengths, m, true))
    (hm : m < kMaxSequenceNumber) :
    ∃ st hist, Run smallOptions (KeepsClear smallOptions) st hist ∧ Shaped st ∧ st.writing = none ∧ st.imm = none ∧
      st.compaction = none ∧ (List.range 3).map (fun level => (st.version.files level).length) = lengths := by
  obtain ⟨st, hist, hrun, heq⟩ := exists_run_of_runActions h
  simp only [DBState.atRest, Prod.mk.injEq, Bool.and_eq_true, Option.isNone_iff_eq_none] at heq
  obtain ⟨hlengths, hlast, ⟨hw, himm⟩, hc⟩ := heq
  have hseq := hlast.trans_lt hm
  exact ⟨st, hist, hrun, (hrun.inv hseq).shaped hseq hw, hw, himm, hc, hlengths⟩

end All

end TLevelDB.Db
