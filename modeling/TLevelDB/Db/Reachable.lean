import TLevelDB.Db.Impl

/-!
# Reachable states

What holds in every state that the database reaches (`DBInv`): the version is well formed,
the memtables are sorted, everything in the memtable is newer than everything in the
immutable one, and that newer than everything in files; a compaction that is being done is
ready to be installed, and no snapshot is older than the one it keeps entries for.

One case endangers this. A flush puts its table on level 1 or 2 where it overlaps no
file, and it does not know the outputs of a compaction that is being done. If the inputs
of that compaction leave a gap, which only those of `CompactRange` do, the table may be
put into the gap, on the level of the outputs, and these then overlap it.
-/

namespace TLevelDB.Db

variable {K V : Type} [LinearOrder K]

/-! ### Memtables -/

section MemTable

variable {mem : List (Entry K V)} {e x : Entry K V} {o : Options K V} {number : ℕ} {f : FileMetaData K V}

theorem mem_memTableAdd : x ∈ memTableAdd mem e ↔ x = e ∨ x ∈ mem := SortedSearch.mem_insertSorted

/-- A memtable stays sorted when an entry is added that is newer than all in it. -/
theorem sortedEntries_memTableAdd (h : SortedEntries mem) (hnew : ∀ x ∈ mem, x.sequence < e.sequence) :
    SortedEntries (memTableAdd mem e) := by
  constructor
  · refine SortedSearch.increasing_insertSorted h.sorted fun x hx heq => (hnew x hx).ne ?_
    exact congrArg InternalKey.sequence heq
  · intro x hx y hy hk hs
    rcases mem_memTableAdd.mp hx with rfl | hxm
    · rcases mem_memTableAdd.mp hy with rfl | hym
      · rfl
      · exact absurd hs (hnew y hym).ne'
    · rcases mem_memTableAdd.mp hy with rfl | hym
      · exact absurd hs (hnew x hxm).ne
      · exact h.distinct x hxm y hym hk hs

omit [LinearOrder K] in
theorem buildTable_eq_none_iff : buildTable o number mem = none ↔ mem = [] := by
  cases mem with
  | nil => simp [buildTable]
  | cons e mem =>
    obtain ⟨x, hx⟩ : ∃ x, (e :: mem).getLast? = some x := ⟨_, List.getLast?_eq_some_getLast (by simp)⟩
    simp [buildTable, hx]

theorem buildTable_spec (h : buildTable o number mem = some f) (hs : SortedEntries mem)
    (hseq : ∀ x ∈ mem, x.sequence ≤ kMaxSequenceNumber) : f.Ok ∧ f.table = mem ∧ f.number = number := by
  unfold buildTable at h
  split at h
  next first last hfirst hlast =>
    cases h
    exact ⟨⟨hs, ⟨first, hfirst, rfl⟩, ⟨last, hlast, rfl⟩, hseq⟩, rfl, rfl⟩
  next => cases h

end MemTable

/-! ### The invariant -/

section Inv

variable {o : Options K V} {st st' : DBState K V}

/-- A compaction that is being done, while `v` is the current version. -/
structure Working (v : Version K V) (next : ℕ) (cs : CompactionState K V) : Prop where
  fits : cs.compaction.Fits v
  inputsOk : cs.compaction.InputsOk cs.compaction.inputVersion
  shape : cs.compaction.inputVersion.Shape
  work : ∃ done, WorkInv cs.compaction cs.smallestSnapshot done cs.input cs next
  fresh : ∀ n ∈ cs.outputNumbers, ∀ l, ∀ g ∈ v.files l, n ≠ g.number

/-- And that does not change what is visible. -/
structure Running (v : Version K V) (next : ℕ) (cs : CompactionState K V) : Prop extends Working v next cs where
  ready : cs.compaction.Ready v
  inputVersion : cs.compaction.inputVersion.Ok

/-- What holds in every state. -/
structure DBInv (st : DBState K V) : Prop where
  version : st.version.Ok
  number_lt : ∀ l, ∀ f ∈ st.version.files l, f.number < st.nextFileNumber
  mem : SortedEntries st.mem
  imm : SortedEntries (st.imm.getD [])
  imm_newer : ∀ x ∈ st.imm.getD [], ∀ y ∈ st.version.entries, y.sequence < x.sequence
  mem_newer : ∀ x ∈ st.mem, ∀ y ∈ entrySet (st.imm.getD []) ∪ st.version.entries, y.sequence < x.sequence
  version_le : ∀ x ∈ st.version.entries, x.sequence ≤ st.lastSequence
  imm_le : ∀ x ∈ st.imm.getD [], x.sequence ≤ st.lastSequence
  mem_le : ∀ x ∈ st.mem, x.sequence ≤ st.lastSequence + st.inserted
  inserted_le : ∀ w ∈ st.writing, w.2 ≤ w.1.length
  snapshots_le : ∀ s ∈ st.snapshots, s ≤ st.lastSequence
  snapshots_sorted : st.snapshots.Pairwise (· ≤ ·)
  running : ∀ cs ∈ st.compaction, Running st.version st.nextFileNumber cs
  connected : ∀ cs ∈ st.compaction, st.isManual = false → Connected cs.compaction.inputs
  snapshot_le : ∀ cs ∈ st.compaction,
    cs.smallestSnapshot ≤ st.lastSequence ∧ ∀ s ∈ st.snapshots, cs.smallestSnapshot ≤ s

theorem dbInv_init : DBInv (DBState.init : DBState K V) where
  version := Version.ok_empty
  number_lt := by simp [DBState.init, Version.empty]
  mem := sortedEntries_nil
  imm := sortedEntries_nil
  imm_newer := by simp [DBState.init]
  mem_newer := by simp [DBState.init]
  version_le := by simp [DBState.init, Version.empty, Version.entries]
  imm_le := by simp [DBState.init]
  mem_le := by simp [DBState.init]
  inserted_le := by simp [DBState.init]
  snapshots_le := by simp [DBState.init]
  snapshots_sorted := by simp [DBState.init]
  running := by simp [DBState.init]
  connected := by simp [DBState.init]
  snapshot_le := by simp [DBState.init]

variable {cs : CompactionState K V} {v : Version K V} {f : FileMetaData K V} {c : Compaction K V}

theorem Running.mono {next next' : ℕ} (h : Running v next cs) (hn : next ≤ next') : Running v next' cs :=
  { h with work := h.work.imp fun _ hw => hw.congr ⟨rfl, rfl, rfl, rfl, rfl, rfl⟩ rfl (hw.outputs.congr rfl rfl hn) }

/-- The smallest snapshot is not after any snapshot, nor after the last sequence number. -/
theorem DBInv.smallestSnapshot_le (h : DBInv st) :
    st.smallestSnapshot ≤ st.lastSequence ∧ ∀ s ∈ st.snapshots, st.smallestSnapshot ≤ s := by
  have hle := h.snapshots_le
  have hsorted := h.snapshots_sorted
  unfold DBState.smallestSnapshot
  cases hs : st.snapshots with
  | nil => exact ⟨le_rfl, by simp⟩
  | cons s l =>
    rw [hs] at hle hsorted
    refine ⟨hle s (by simp), fun s' hs' => ?_⟩
    rcases List.mem_cons.mp hs' with rfl | hs'
    · exact le_rfl
    · exact (List.pairwise_cons.mp hsorted).1 s' hs'

/-! ### Writes -/

omit [LinearOrder K] in
@[simp] theorem Op.sequence_entry [Inhabited V] (s : ℕ) (op : Op K V) : (op.entry s).sequence = s := by cases op <;> rfl

theorem DBInv.insert [Inhabited V] (h : DBInv st) {batch : List (Op K V)} {i : ℕ} {op : Op K V} (hw : st.writing = some (batch, i))
    (hop : batch[i]? = some op) :
    DBInv { st with mem := memTableAdd st.mem (op.entry (st.lastSequence + 1 + i)), writing := some (batch, i + 1) } := by
  have hins : st.inserted = i := by simp [DBState.inserted, hw]
  have hmem := h.mem_le
  rw [hins] at hmem
  have hlt : ∀ x ∈ st.mem, x.sequence < (op.entry (st.lastSequence + 1 + i)).sequence := by
    intro x hx
    rw [Op.sequence_entry]
    have := hmem x hx
    omega
  refine { h with
    mem := sortedEntries_memTableAdd h.mem hlt
    mem_newer := fun x hx y hy => ?_
    mem_le := fun x hx => ?_
    inserted_le := ?_ }
  · rcases mem_memTableAdd.mp hx with rfl | hx
    · have hle : y.sequence ≤ st.lastSequence := by
        rcases hy with hy | hy
        · exact h.imm_le y hy
        · exact h.version_le y hy
      rw [Op.sequence_entry]
      omega
    · exact h.mem_newer x hx y hy
  · change x.sequence ≤ st.lastSequence + (i + 1)
    rcases mem_memTableAdd.mp hx with rfl | hx
    · rw [Op.sequence_entry]
      omega
    · have := hmem x hx
      omega
  · rintro w ⟨⟩
    exact (List.getElem?_eq_some_iff.mp hop).1

theorem DBInv.endWrite (h : DBInv st) {batch : List (Op K V)} {i : ℕ} (hw : st.writing = some (batch, i))
    (hi : i = batch.length) :
    DBInv { st with lastSequence := st.lastSequence + batch.length, writing := none } := by
  have hins : st.inserted = batch.length := by simp [DBState.inserted, hw, hi]
  have hmem := h.mem_le
  rw [hins] at hmem
  refine { h with
    version_le := fun x hx => (h.version_le x hx).trans (Nat.le_add_right _ _)
    imm_le := fun x hx => (h.imm_le x hx).trans (Nat.le_add_right _ _)
    mem_le := hmem
    inserted_le := by simp
    snapshots_le := fun s hs => (h.snapshots_le s hs).trans (Nat.le_add_right _ _)
    snapshot_le := fun cs hcs => ⟨(h.snapshot_le cs hcs).1.trans (Nat.le_add_right _ _), (h.snapshot_le cs hcs).2⟩ }

theorem DBInv.switchMem (h : DBInv st) (hw : st.writing = none) :
    DBInv { st with mem := [], imm := some st.mem, nextFileNumber := st.nextFileNumber + 1 } := by
  have hins : st.inserted = 0 := by simp [DBState.inserted, hw]
  have hmem := h.mem_le
  rw [hins] at hmem
  refine { h with
    number_lt := fun l f hf => (h.number_lt l f hf).trans (Nat.lt_succ_self _)
    mem := sortedEntries_nil
    imm := h.mem
    imm_newer := fun x hx y hy => h.mem_newer x hx y (Or.inr hy)
    mem_newer := by simp
    imm_le := hmem
    mem_le := by simp
    running := fun cs hcs => (h.running cs hcs).mono (Nat.le_succ _) }

/-! ### Flushes -/

/-- `CompactMemTable` changes the version, and of the rest of the state only these. -/
@[simp] theorem compactMemTable_frame (o : Options K V) (st : DBState K V) (imm : List (Entry K V)) :
    let st' := st.compactMemTable o imm
    st'.imm = none ∧ st'.nextFileNumber = st.nextFileNumber + 1 ∧ st'.mem = st.mem ∧ st'.lastSequence = st.lastSequence ∧
      st'.snapshots = st.snapshots ∧ st'.writing = st.writing ∧ st'.compaction = st.compaction ∧
      st'.isManual = st.isManual := by
  unfold DBState.compactMemTable
  split <;> simp [DBState.logAndApply]

/-- A table of the immutable memtable may be added where `PickLevelForMemTableOutput` says. -/
theorem DBInv.addable (h : DBInv st) (hseq : st.lastSequence < kMaxSequenceNumber)
    (hf : buildTable o st.nextFileNumber (st.imm.getD []) = some f) :
    Addable st.version (st.version.tableLevel o f) f := by
  obtain ⟨hok, htable, hnum⟩ := buildTable_spec hf h.imm fun x hx => (h.imm_le x hx).trans hseq.le
  obtain ⟨hle, hapart⟩ := pickLevelForMemTableOutput_spec (o := o) (a := f.smallest.userKey) (b := f.largest.userKey)
    h.version.toOrdered
  have hnewer : ∀ x ∈ f.table, ∀ y ∈ st.version.entries, y.sequence < x.sequence := fun x hx y hy =>
    h.imm_newer x (htable ▸ hx) y hy
  exact ⟨⟨hok, lt_of_le_of_lt hle (by decide), fun l g hg => hnum ▸ h.number_lt l g hg,
    fun x hx y hy _ => (hnewer x hx y hy).ne', fun hpos l hl g hg => hapart l hpos hl g hg⟩, hnewer⟩

/-- If a manual compaction is being done, a table that a flush puts on the level of its
outputs does not come to lie between its inputs. -/
def FlushClear (o : Options K V) (st : DBState K V) : Prop :=
  ∀ cs ∈ st.compaction, st.isManual = true → ∀ f ∈ buildTable o st.nextFileNumber (st.imm.getD []),
    st.version.tableLevel o f = cs.compaction.level + 1 →
      (∀ a ∈ cs.compaction.inputs, f.largest.userKey < a.smallest.userKey) ∨
        ∀ a ∈ cs.compaction.inputs, a.largest.userKey < f.smallest.userKey

instance : Decidable (FlushClear o st) := by
  unfold FlushClear
  infer_instance

/-- The inputs of a compaction that `PickCompaction` chose leave no gap for the table. -/
theorem DBInv.table_apart (h : DBInv st) (hseq : st.lastSequence < kMaxSequenceNumber) (hclear : FlushClear o st)
    (hcs : cs ∈ st.compaction)
    (hf : buildTable o st.nextFileNumber (st.imm.getD []) = some f)
    (hlevel : st.version.tableLevel o f = cs.compaction.level + 1) :
    (∀ a ∈ cs.compaction.inputs, f.largest.userKey < a.smallest.userKey) ∨
      ∀ a ∈ cs.compaction.inputs, a.largest.userKey < f.smallest.userKey := by
  cases hm : st.isManual with
  | true => exact hclear cs hcs hm f hf hlevel
  | false =>
    have hadd := h.addable hseq hf
    have hready := (h.running cs hcs).ready
    refine (h.connected cs hcs hm).before_or_after (hready.file_ok h.version.toOrdered) hadd.ok fun a ha => ?_
    rw [Compaction.inputs, List.mem_append] at ha
    rcases ha with ha | ha
    · exact hadd.apart (by omega) _ (by omega) a (hready.subset0 a ha)
    · exact hadd.apart (by omega) _ (by omega) a (hready.subset1 a ha)

theorem DBInv.compactMemTable (h : DBInv st) (hseq : st.lastSequence < kMaxSequenceNumber) (hclear : FlushClear o st)
    {imm : List (Entry K V)} (himm : st.imm = some imm) : DBInv (st.compactMemTable o imm) := by
  have himm' : imm = st.imm.getD [] := by simp [himm]
  subst himm'
  have hrunning := fun cs hcs => (h.running cs hcs).mono (Nat.le_succ st.nextFileNumber)
  have hnumber := fun l f hf => (h.number_lt l f hf).trans (Nat.lt_succ_self st.nextFileNumber)
  unfold DBState.compactMemTable
  cases hb : buildTable o st.nextFileNumber (st.imm.getD []) with
  | none =>
    exact { h with
      number_lt := hnumber
      imm := sortedEntries_nil
      imm_newer := by simp
      mem_newer := fun x hx y hy => h.mem_newer x hx y (Or.inr (by simpa using hy))
      imm_le := by simp
      running := hrunning }
  | some f =>
    have hadd := h.addable hseq hb
    obtain ⟨-, htable, hnum⟩ := buildTable_spec hb h.imm fun x hx => (h.imm_le x hx).trans hseq.le
    have hentries : (st.version.apply (addFileEdit (st.version.tableLevel o f) f)).entries =
        entrySet (st.imm.getD []) ∪ st.version.entries := by rw [entries_addFile, htable]
    exact { h with
      version := addFile_ok h.version hadd
      number_lt := fun l g hg => by
        rcases mem_addFile_iff.mp hg with hg | ⟨-, rfl⟩
        · exact hnumber l g hg
        · exact hnum ▸ Nat.lt_succ_self _
      imm := sortedEntries_nil
      imm_newer := by simp [DBState.logAndApply]
      mem_newer := fun x hx y hy => h.mem_newer x hx y (by simpa [DBState.logAndApply, hentries] using hy)
      version_le := fun x hx => by
        have hx : x ∈ entrySet (st.imm.getD []) ∪ st.version.entries := hentries ▸ hx
        exact hx.elim (h.imm_le x) (h.version_le x)
      imm_le := by simp [DBState.logAndApply]
      running := fun cs hcs => by
        have hr := hrunning cs hcs
        have hready := hr.ready.addFile h.version hadd (h.table_apart hseq hclear hcs hb)
        refine { hr with fits := hready.toFits, ready := hready, fresh := fun n hn l g hg => ?_ }
        rcases mem_addFile_iff.mp hg with hg | ⟨-, rfl⟩
        · exact hr.fresh n hn l g hg
        · obtain ⟨done, hw⟩ := (h.running cs hcs).work
          exact hnum ▸ (hw.outputs.lt_next n hn).ne }

/-! ### Compactions -/

/-- Outputs that can replace the inputs of a compaction are installed. -/
theorem DBInv.installOutputs (h : DBInv st) {outs : List (FileMetaData K V)}
    (hr : c.Ready st.version) (hrep : Replaces st.version c outs) (hnum : ∀ f ∈ outs, f.number < st.nextFileNumber)
    (isManual : Bool) :
    DBInv { st.logAndApply (c.installEdit outs) with compaction := none, isManual := isManual } := by
  have hsub : ∀ x ∈ (st.version.apply (c.installEdit outs)).entries, x ∈ st.version.entries := fun x hx =>
    entries_install_subset hr.toFits h.version.toShape hrep hx
  exact { h with
    version := install_ok h.version hr hrep
    number_lt := fun l f hf => by
      rcases (hr.mem_install_iff h.version.toShape hrep).mp hf with hf | ⟨-, hf⟩
      · exact h.number_lt l f hf.mem
      · exact hnum f hf
    imm_newer := fun x hx y hy => h.imm_newer x hx y (hsub y hy)
    mem_newer := fun x hx y hy => h.mem_newer x hx y (hy.imp id (hsub y))
    version_le := fun x hx => h.version_le x (hsub x hx)
    running := by simp
    connected := by simp
    snapshot_le := by simp }

/-- The file of a trivial move can replace itself. -/
theorem Compaction.Ready.replaces_self (hr : c.Ready v) (hv : v.Ok) (h0 : c.inputs0 = [f]) : Replaces v c [f] := by
  have hf0 : f ∈ c.inputs0 := by simp [h0]
  have hf := hr.subset0 f hf0
  refine ⟨by simpa using hv.file _ f hf, List.pairwise_singleton _ _, List.pairwise_singleton _ _, ?_, ?_⟩
  · intro g hg x hx
    rw [List.mem_singleton.mp hg] at hx
    exact ⟨f, List.mem_append_left _ hf0, hx⟩
  · intro g hg l g' hg' hn
    rw [List.mem_singleton.mp hg] at hn
    obtain rfl := hv.level_eq _ _ f hf g' hg' hn
    exact hv.eq_of_number hf hg' hn ▸ hf0

omit [LinearOrder K] in
theorem moveEdit_eq {c : Compaction K V} {f : FileMetaData K V} (h0 : c.inputs0 = [f]) (h1 : c.inputs1 = []) :
    c.moveEdit f = c.installEdit [f] := by
  simp [Compaction.moveEdit, Compaction.installEdit, Compaction.inputDeletions, h0, h1]

omit [LinearOrder K] in
theorem inputs_of_isTrivialMove {c : Compaction K V} {f : FileMetaData K V} (ht : c.isTrivialMove o = true)
    (hf : c.inputs0.head? = some f) : c.inputs0 = [f] ∧ c.inputs1 = [] := by
  simp only [Compaction.isTrivialMove, decide_eq_true_eq] at ht
  obtain ⟨x, hx⟩ := List.length_eq_one_iff.mp ht.1
  refine ⟨?_, List.length_eq_zero_iff.mp ht.2.1⟩
  rw [hx] at hf ⊢
  simpa using hf

theorem Compaction.InputsOk.working (hc : c.InputsOk v) (hv : v.Shape) (s next : ℕ) : Working v next (c.start s) where
  fits := hc.fits hv.toOrdered
  inputsOk := (hc.version ▸ hc : c.InputsOk c.inputVersion)
  shape := (hc.version ▸ hv : c.inputVersion.Shape)
  work := ⟨[], workInv_start c s next⟩
  fresh := by simp [CompactionState.outputNumbers, Compaction.start]

theorem DBInv.startCompaction (h : DBInv st) (hc : c.InputsOk st.version) (isManual : Bool)
    (hcon : isManual = false → Connected c.inputs) : DBInv (st.startCompaction c isManual) := by
  exact { h with
    running := by
      rintro cs ⟨⟩
      exact ⟨hc.working h.version.toShape _ _, hc.ready h.version, (hc.version ▸ h.version : c.inputVersion.Ok)⟩
    connected := by
      rintro cs ⟨⟩
      exact hcon
    snapshot_le := by
      rintro cs ⟨⟩
      exact h.smallestSnapshot_le }

/-- A turn takes one entry, and goes on with the same compaction. -/
theorem Working.turn {next : ℕ} (h : Working v next cs) (hlt : ∀ l, ∀ g ∈ v.files l, g.number < next)
    (hs : cs.smallestSnapshot < kMaxSequenceNumber) {r : CompactionState K V × ℕ} (hr : cs.turn o next = some r) :
    Working v r.2 r.1 ∧ r.1.compaction = cs.compaction ∧ r.1.smallestSnapshot = cs.smallestSnapshot ∧ next ≤ r.2 ∧
      r.1.input.length + 1 = cs.input.length := by
  unfold CompactionState.turn at hr
  cases hi : cs.input with
  | nil => simp [hi] at hr
  | cons e rest =>
    simp only [hi, Option.some.injEq] at hr
    subst hr
    obtain ⟨done, hw⟩ := h.work
    rw [hi] at hw
    obtain ⟨hw', hle, hinput⟩ := (hw.setInput rest).compactEntry (h.inputsOk.sortedEntries h.shape) h.shape hs o
    have hnum := (next_compactEntry o { cs with input := rest } next e).2
    set r := CompactionState.compactEntry o { cs with input := rest } next e
    have hcomp : r.1.compaction = cs.compaction := hw'.compaction
    have hss : r.1.smallestSnapshot = cs.smallestSnapshot := hw'.snapshot
    refine ⟨⟨hcomp ▸ h.fits, hcomp ▸ h.inputsOk, hcomp ▸ h.shape, ⟨done ++ [e], ?_⟩, fun n hn l g hg => ?_⟩, hcomp, hss, hle,
      by rw [hinput, List.length_cons]⟩
    · rw [hcomp, hss, hinput]
      exact hw'
    · rcases hnum n hn with hn | ⟨rfl, -⟩
      · exact h.fresh n hn l g hg
      · exact (hlt l g hg).ne'

theorem DBInv.turn (h : DBInv st) (hseq : st.lastSequence < kMaxSequenceNumber) {cs : CompactionState K V}
    (hcs : st.compaction = some cs) {r : CompactionState K V × ℕ} (hr : cs.turn o st.nextFileNumber = some r) :
    DBInv { st with compaction := some r.1, nextFileNumber := r.2 } := by
  have hrun := h.running cs hcs
  have hsnap := h.snapshot_le cs hcs
  obtain ⟨hwork, hcomp, hss, hle, -⟩ := hrun.toWorking.turn h.number_lt (hsnap.1.trans_lt hseq) hr
  exact { h with
    number_lt := fun l f hf => (h.number_lt l f hf).trans_le hle
    running := by
      rintro _ ⟨⟩
      exact ⟨hwork, hcomp ▸ hrun.ready, hcomp ▸ hrun.inputVersion⟩
    connected := by
      rintro _ ⟨⟩
      exact hcomp ▸ h.connected cs hcs
    snapshot_le := by
      rintro _ ⟨⟩
      exact hss ▸ hsnap }

theorem Working.outputs_spec {next : ℕ} (h : Working v next cs)
    (hi : cs.input = []) (o : Options K V) : Replaces v cs.compaction (cs.finishOutput o).outputs ∧
      Keeps cs.compaction cs.smallestSnapshot (cs.finishOutput o).outputs ∧
      ∀ f ∈ (cs.finishOutput o).outputs, f.number < next := by
  obtain ⟨done, hw⟩ := h.work
  rw [hi] at hw
  obtain rfl : done = cs.compaction.makeInputIterator := by simpa using hw.split
  have hfin := hw.finishOutput o
  have hb := builder_finishOutput o cs
  have hseq : ∀ x ∈ cs.compaction.makeInputIterator, x.sequence ≤ kMaxSequenceNumber := by
    intro x hx
    obtain ⟨f, hf, hxf⟩ := mem_makeInputIterator.mp hx
    exact (h.inputsOk.file_ok h.shape f hf).sequence_le x hxf
  have hfresh : ∀ n ∈ (cs.finishOutput o).outputNumbers, ∀ l, ∀ g ∈ v.files l, n ≠ g.number := by
    rw [outputNumbers_finishOutput]
    exact h.fresh
  refine ⟨hfin.replaces hb (h.inputsOk.sortedEntries h.shape) hseq hfresh, hfin.keeps hb, fun f hf => ?_⟩
  exact hfin.outputs.lt_next f.number (List.mem_append_left _ (List.mem_map_of_mem hf))

theorem DBInv.installCompaction (h : DBInv st) (hcs : st.compaction = some cs)
    (hi : cs.input = []) : DBInv (st.installCompaction o cs) := by
  have hrun := h.running cs hcs
  obtain ⟨hrep, -, hnum⟩ := hrun.outputs_spec hi o
  exact h.installOutputs hrun.ready hrep hnum false

end Inv

/-! ### Steps -/

section Step

variable [Inhabited V] {o : Options K V} {st st' : DBState K V} {a : Action K V} {hist : List (Op K V)}

/-- What a step can do. -/
inductive Transition (o : Options K V) (st : DBState K V) : Action K V → DBState K V → Prop where
  | beginWrite {batch} : st.writing = none →
      Transition o st (.beginWrite batch) { st with writing := some (batch, 0) }
  | insert {batch i op} : st.writing = some (batch, i) → batch[i]? = some op →
      Transition o st .insert
        { st with mem := memTableAdd st.mem (op.entry (st.lastSequence + 1 + i)), writing := some (batch, i + 1) }
  | endWrite {batch} : st.writing = some (batch, batch.length) →
      Transition o st .endWrite { st with lastSequence := st.lastSequence + batch.length, writing := none }
  | switchMem : st.writing = none → st.imm = none →
      Transition o st .switchMem { st with mem := [], imm := some st.mem, nextFileNumber := st.nextFileNumber + 1 }
  | flush {imm} : st.imm = some imm → (∀ cs ∈ st.compaction, cs.input ≠ []) →
      Transition o st .flush (st.compactMemTable o imm)
  | move {reason c f} : st.compaction = none →
      st.version.pickCompaction o st.compactPointer reason = some c → c.inputs0 = [f] →
      c.inputs1 = [] → Transition o st (.move reason) (st.logAndApply (c.installEdit [f]))
  | start {reason c} : st.imm = none → st.compaction = none →
      st.version.pickCompaction o st.compactPointer reason = some c →
      Transition o st (.start reason) (st.startCompaction c false)
  | manual {level b e c} : st.imm = none → st.compaction = none →
      level + 1 < kNumLevels → st.version.compactRange o level b e = some c →
      Transition o st (.manual level b e) (st.startCompaction c true)
  | turn {cs r} : st.compaction = some cs →
      cs.turn o st.nextFileNumber = some r →
      Transition o st .turn { st with compaction := some r.1, nextFileNumber := r.2 }
  | install {cs} : st.compaction = some cs → cs.input = [] →
      Transition o st .install (st.installCompaction o cs)
  | newSnapshot : Transition o st .newSnapshot { st with snapshots := st.snapshots ++ [st.lastSequence] }
  | releaseSnapshot {s} : s ∈ st.snapshots →
      Transition o st (.releaseSnapshot s) { st with snapshots := st.snapshots.erase s }

theorem transition_of_step (h : st.step o a = some st') : Transition o st a st' := by
  cases a with
  | beginWrite batch =>
    simp only [DBState.step, Option.ite_none_right_eq_some, Option.some.injEq] at h
    obtain ⟨hw, rfl⟩ := h
    exact .beginWrite hw
  | insert =>
    simp only [DBState.step] at h
    split at h
    · cases h
    next batch i hw =>
      split at h
      · cases h
      next op hop =>
        cases h
        exact .insert hw hop
  | endWrite =>
    simp only [DBState.step] at h
    split at h
    · cases h
    next batch i hw =>
      simp only [Option.ite_none_right_eq_some, Option.some.injEq] at h
      obtain ⟨rfl, rfl⟩ := h
      exact .endWrite hw
  | switchMem =>
    simp only [DBState.step, Option.ite_none_right_eq_some, Option.some.injEq] at h
    obtain ⟨⟨hw, hi⟩, rfl⟩ := h
    exact .switchMem hw hi
  | flush =>
    simp only [DBState.step] at h
    split at h
    · cases h
    next imm hi =>
      simp only [Option.ite_none_right_eq_some, Option.some.injEq] at h
      obtain ⟨hc, rfl⟩ := h
      refine .flush hi fun cs hcs => ?_
      rw [Option.mem_def.mp hcs] at hc
      simpa using hc
  | move reason =>
    simp only [DBState.step] at h
    split_ifs at h with hg
    split at h
    · cases h
    next c hc =>
      split_ifs at h with ht
      obtain ⟨f, hf, rfl⟩ := Option.map_eq_some_iff.mp h
      obtain ⟨h0, h1⟩ := inputs_of_isTrivialMove ht hf
      rw [moveEdit_eq h0 h1]
      exact .move (Option.isNone_iff_eq_none.mp hg) hc h0 h1
  | start reason =>
    simp only [DBState.step] at h
    split_ifs at h with hg
    split at h
    · cases h
    next c hc =>
      split_ifs at h
      cases h
      exact .start hg.1 (Option.isNone_iff_eq_none.mp hg.2) hc
  | manual level b e =>
    simp only [DBState.step] at h
    split_ifs at h with hg
    obtain ⟨c, hc, rfl⟩ := Option.map_eq_some_iff.mp h
    exact .manual hg.1 (Option.isNone_iff_eq_none.mp hg.2.1) hg.2.2 hc
  | turn =>
    simp only [DBState.step] at h
    split at h
    · cases h
    next cs hcs =>
      obtain ⟨r, hr, rfl⟩ := Option.map_eq_some_iff.mp h
      exact .turn hcs hr
  | install =>
    simp only [DBState.step] at h
    split at h
    · cases h
    next cs hcs =>
      simp only [Option.ite_none_right_eq_some, Option.some.injEq] at h
      obtain ⟨hi, rfl⟩ := h
      exact .install hcs (by simpa using hi)
  | newSnapshot =>
    cases h
    exact .newSnapshot
  | releaseSnapshot s =>
    simp only [DBState.step, Option.ite_none_right_eq_some, Option.some.injEq] at h
    obtain ⟨hs, rfl⟩ := h
    exact .releaseSnapshot hs

/-- **Every step keeps the invariant**, if a flush keeps clear of a manual compaction. -/
theorem DBInv.transition (h : DBInv st) (hseq : st.lastSequence < kMaxSequenceNumber) (hlegal : a.Legal st.version)
    (hclear : a = .flush → FlushClear o st) (ht : Transition o st a st') : DBInv st' := by
  cases ht with
  | beginWrite hw =>
    have hins : st.inserted = 0 := by simp [DBState.inserted, hw]
    have hmem := h.mem_le
    rw [hins] at hmem
    exact { h with mem_le := hmem, inserted_le := by simp }
  | insert hw hop => exact h.insert hw hop
  | endWrite hw => exact h.endWrite hw rfl
  | switchMem hw hi => exact h.switchMem hw
  | flush hi hc => exact h.compactMemTable hseq (hclear rfl) hi
  | @move reason c f hc hpick h0 h1 =>
    have hin := (pickCompaction_spec h.version.toOrdered hlegal hpick).1
    have hready := hin.ready h.version
    have hrep := hready.replaces_self h.version h0
    have hnum : ∀ g ∈ [f], g.number < st.nextFileNumber := by
      have hf : f ∈ c.inputs0 := by simp [h0]
      simpa using h.number_lt _ f (hready.subset0 f hf)
    have hinv := h.installOutputs hready hrep hnum st.isManual
    have heq : { st.logAndApply (c.installEdit [f]) with compaction := none, isManual := st.isManual } =
        st.logAndApply (c.installEdit [f]) := by simp [DBState.logAndApply, hc]
    exact heq ▸ hinv
  | start hi hc hpick =>
    obtain ⟨hin, hcon⟩ := pickCompaction_spec h.version.toOrdered hlegal hpick
    exact h.startCompaction hin false fun _ => hcon
  | manual hi hc hl hpick => exact h.startCompaction (compactRange_spec h.version.toOrdered hl hpick) true (by simp)
  | turn hcs hr => exact h.turn hseq hcs hr
  | install hcs hi => exact h.installCompaction hcs hi
  | newSnapshot =>
    exact { h with
      snapshots_le := by
        simp only [List.forall_mem_append, List.forall_mem_singleton]
        exact ⟨h.snapshots_le, le_rfl⟩
      snapshots_sorted := List.pairwise_append.mpr ⟨h.snapshots_sorted, List.pairwise_singleton _ _, by
        intro s hs t ht
        rw [List.mem_singleton.mp ht]
        exact h.snapshots_le s hs⟩
      snapshot_le := fun cs hcs => by
        simp only [List.forall_mem_append, List.forall_mem_singleton]
        exact ⟨(h.snapshot_le cs hcs).1, (h.snapshot_le cs hcs).2, (h.snapshot_le cs hcs).1⟩ }
  | releaseSnapshot hs =>
    exact { h with
      snapshots_le := fun s hs => h.snapshots_le s (List.mem_of_mem_erase hs)
      snapshots_sorted := h.snapshots_sorted.sublist List.erase_sublist
      snapshot_le := fun cs hcs =>
        ⟨(h.snapshot_le cs hcs).1, fun s hs => (h.snapshot_le cs hcs).2 s (List.mem_of_mem_erase hs)⟩ }

theorem DBInv.step (h : DBInv st) (hseq : st.lastSequence < kMaxSequenceNumber) (hlegal : a.Legal st.version)
    (hclear : a = .flush → FlushClear o st) (hstep : st.step o a = some st') : DBInv st' :=
  h.transition hseq hlegal hclear (transition_of_step hstep)

theorem lastSequence_le_of_step (h : st.step o a = some st') : st.lastSequence ≤ st'.lastSequence := by
  cases transition_of_step h with
  | endWrite hw => exact Nat.le_add_right _ _
  | flush hi hc => simp
  | _ => exact le_rfl

/-- A flush keeps clear of a manual compaction. -/
def KeepsClear (o : Options K V) (st : DBState K V) (a : Action K V) : Prop := a = .flush → FlushClear o st

instance : Decidable (KeepsClear o st a) :=
  match a with
  | .flush => decidable_of_iff (FlushClear o st) ⟨fun h _ => h, fun h => h rfl⟩
  | .beginWrite _ | .insert | .endWrite | .switchMem | .move _ | .start _ | .manual .. | .turn | .install | .newSnapshot
  | .releaseSnapshot _ => .isTrue fun h => by cases h

theorem Run.inv (h : Run o (KeepsClear o) st hist) (hseq : st.lastSequence < kMaxSequenceNumber) : DBInv st := by
  induction h with
  | init => exact dbInv_init
  | step hrun hlegal hclear hstep ih =>
    have hlt := (lastSequence_le_of_step hstep).trans_lt hseq
    exact (ih hlt).step hlt hlegal hclear hstep

theorem isManual_of_step (ha : a.isManual = false) (hm : st.isManual = false) (h : st.step o a = some st') :
    st'.isManual = false := by
  cases transition_of_step h with
  | manual => cases ha
  | flush hi hc => simpa using hm
  | start => rfl
  | install => rfl
  | _ => exact hm

/-- Without manual compactions every flush keeps clear of them. -/
theorem Run.keepsClear (h : Run o (fun _ a => a.isManual = false) st hist) :
    Run o (KeepsClear o) st hist ∧ st.isManual = false := by
  induction h with
  | init => exact ⟨.init, rfl⟩
  | step hrun hlegal ha hstep ih =>
    obtain ⟨ihrun, ihm⟩ := ih
    refine ⟨ihrun.step hlegal (fun _ cs _ hm => ?_) hstep, isManual_of_step ha ihm hstep⟩
    rw [ihm] at hm
    cases hm

end Step

/-! ### Disjoint levels -/

section Disjoint

variable [Inhabited V] {o : Options K V} {st : DBState K V} {hist : List (Op K V)}

/-- The files are sorted and disjoint by internal key, as `Builder::SaveTo` asserts. -/
structure Disjoint (files : List (FileMetaData K V)) : Prop where
  smallest_le_largest : ∀ f ∈ files, f.smallest ≤ f.largest
  before : files.Pairwise FileMetaData.Before
  noOverlap : noOverlap files = true

omit [Inhabited V] in
theorem noOverlap_of_pairwise {files : List (FileMetaData K V)} (h : files.Pairwise FileMetaData.Before) :
    noOverlap files = true := by
  induction files with
  | nil => rfl
  | cons f files ih =>
    obtain ⟨hf, hfiles⟩ := List.pairwise_cons.mp h
    cases files with
    | nil => rfl
    | cons g files =>
      have hlt : f.largest < g.smallest := hf g (by simp)
      simp [TLevelDB.Db.noOverlap, hlt, ih hfiles]

omit [Inhabited V] in
theorem Version.Ok.disjoint {v : Version K V} (hv : v.Ok) {level : ℕ} (hl : 0 < level) : Disjoint (v.files level) :=
  ⟨fun f hf => (hv.file level f hf).smallest_le_largest, hv.sorted level hl, noOverlap_of_pairwise (hv.sorted level hl)⟩

/-- **Under automatic compactions the levels from 1 on stay sorted and disjoint.** -/
theorem disjoint_of_automatic (h : Run o (fun _ a => a.isManual = false) st hist)
    (hseq : st.lastSequence < kMaxSequenceNumber) {level : ℕ} (hl : 0 < level) : Disjoint (st.version.files level) :=
  (h.keepsClear.1.inv hseq).version.disjoint hl

/-- Tables with one key each on level 2 and, as each overlaps one of these, tables with two
keys on level 1. -/
def twoLevelActions : List (Action ℕ ℕ) :=
  [putActions 1 1, [.switchMem, .flush], putActions 9 1, [.switchMem, .flush],
    putActions 1 2, putActions 2 2, [.switchMem, .flush], putActions 8 2, putActions 9 2, [.switchMem, .flush]].flatten

/-- A compaction of level 1, during which a table with this key is flushed. -/
def flushDuring (start : Action ℕ ℕ) (k turns : ℕ) : List (Action ℕ ℕ) :=
  start :: putActions k 3 ++ [.switchMem, .flush] ++ List.replicate turns .turn ++ [.install]

/-- The first and last user keys of the files of a level. -/
def DBState.ranges (st : DBState ℕ ℕ) (level : ℕ) : List (ℕ × ℕ) :=
  (st.version.files level).map fun f => (f.smallest.userKey, f.largest.userKey)

/-- The first table of level 1 is picked and merged with the first of level 2, while a table
is flushed to level 2. -/
theorem disjoint_of_automatic_flush : ∃ (st : DBState ℕ ℕ) (hist : List (Op ℕ ℕ)),
    Run smallOptions (fun _ a => a.isManual = false) st hist ∧ st.ranges 1 = [(8, 9)] ∧
      st.ranges 2 = [(1, 2), (5, 5), (9, 9)] ∧ Disjoint (st.version.files 2) := by
  have hacts : (runActions smallOptions (fun _ a => a.isManual = false)
      (twoLevelActions ++ flushDuring (.start (.size 1)) 5 3)).map
      (fun st => (st.ranges 1, st.ranges 2, st.lastSequence)) =
      some ([(8, 9)], [(1, 2), (5, 5), (9, 9)], 7) := by decide +kernel
  obtain ⟨st, hist, hrun, heq⟩ := exists_run_of_runActions hacts
  obtain ⟨hone, htwo, hlast⟩ := by simpa only [Prod.mk.injEq] using heq
  exact ⟨st, hist, hrun, hone, htwo, disjoint_of_automatic hrun (hlast ▸ by decide) (by decide)⟩

/-- **Under manual compactions too, if every flush keeps clear of them.** -/
theorem disjoint_of_keepsClear (h : Run o (KeepsClear o) st hist) (hseq : st.lastSequence < kMaxSequenceNumber)
    {level : ℕ} (hl : 0 < level) : Disjoint (st.version.files level) := (h.inv hseq).version.disjoint hl

/-- The tables of level 1 are compacted by hand, while a table is flushed to level 2 whose key
lies after them. -/
theorem disjoint_of_keepsClear_manual : ∃ (st : DBState ℕ ℕ) (hist : List (Op ℕ ℕ)),
    Run smallOptions (KeepsClear smallOptions) st hist ∧ st.ranges 2 = [(1, 9), (10, 10)] ∧
      Disjoint (st.version.files 2) := by
  have hacts : (runActions smallOptions (KeepsClear smallOptions)
      (twoLevelActions ++ flushDuring (.manual 1 none none) 10 6)).map
      (fun st => (st.ranges 2, st.lastSequence)) = some ([(1, 9), (10, 10)], 7) := by decide +kernel
  obtain ⟨st, hist, hrun, heq⟩ := exists_run_of_runActions hacts
  obtain ⟨htwo, hlast⟩ := Prod.mk.inj heq
  exact ⟨st, hist, hrun, htwo, disjoint_of_keepsClear hrun (hlast ▸ by decide) (by decide)⟩

/-- The key of the flushed table lies between the tables of level 1. It is put on level 2, and
the output of the compaction spans it. -/
theorem not_disjoint_of_manual : ¬ ∀ (o : Options ℕ ℕ) (st : DBState ℕ ℕ) (hist : List (Op ℕ ℕ)) (level : ℕ),
    Run o (fun _ _ => True) st hist → st.lastSequence < kMaxSequenceNumber → 0 < level →
      Disjoint (st.version.files level) := by
  intro h
  have hacts : (runActions smallOptions (fun _ _ => True)
      (twoLevelActions ++ flushDuring (.manual 1 none none) 5 6)).map
      (fun st => (noOverlap (st.version.files 2), st.lastSequence)) = some (false, 7) := by decide +kernel
  obtain ⟨st, hist, hrun, heq⟩ := exists_run_of_runActions hacts
  obtain ⟨hover, hlast⟩ := Prod.mk.inj heq
  have htrue := (h _ st hist 2 hrun (hlast ▸ by decide) (by decide)).noOverlap
  simp [htrue] at hover

end Disjoint

end TLevelDB.Db
