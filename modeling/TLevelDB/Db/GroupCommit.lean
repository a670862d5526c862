import TLevelDB.Db.WriteQueue

/-!
# Group commit

Without errors, and when no batch is null, the writers are taken off the queue in groups, in
the order in which they came. The operations of a group are one record of the log, and the
operations of all groups are the entries of the memtables, with consecutive sequence
numbers.
-/

namespace TLevelDB.Db

variable {α : Type}

/-! ### Groups -/

/-- The operations of a group. -/
def BatchGroup.result (g : BatchGroup α) (first : Writer α) : List α := if g.inTmp then g.tmpBatch else first.ops

/-- Writers that the group of `first` can take when it has this size: none of them wants the log
synced unless `first` does, and their batches do not make it too big. -/
def FitGroup (byteSize : List α → ℕ) (first : Writer α) (size : ℕ) (ws : List (Writer α)) : Prop :=
  (∀ w ∈ ws, w.sync = true → first.sync = true) ∧
    (ws.filterMap Writer.batch = [] ∨
      size + ((ws.filterMap Writer.batch).map byteSize).sum ≤ maxSize (byteSize first.ops))

instance (byteSize : List α → ℕ) (first : Writer α) (size : ℕ) (ws : List (Writer α)) :
    Decidable (FitGroup byteSize first size ws) := inferInstanceAs (Decidable (_ ∧ _))

theorem FitGroup.sync {byteSize : List α → ℕ} {first w : Writer α} {size : ℕ} {ws : List (Writer α)}
    (h : FitGroup byteSize first size ws) (hw : w ∈ first :: ws) (hsync : w.sync = true) : first.sync = true := by
  rcases List.mem_cons.mp hw with rfl | hw
  · exact hsync
  · exact h.1 w hw hsync

/-- A group takes writers from the front of those that are left. -/
theorem growGroup_members (byteSize : List α → ℕ) (first : Writer α) (size : ℕ) (g : BatchGroup α) (ws : List (Writer α))
    (hlast : g.members.getLast?.map Writer.id = some g.lastWriter) :
    ∃ taken rest, ws = taken ++ rest ∧ (growGroup byteSize first size g ws).members = g.members ++ taken ∧
      FitGroup byteSize first size taken ∧
      (growGroup byteSize first size g ws).members.getLast?.map Writer.id =
        some (growGroup byteSize first size g ws).lastWriter := by
  induction ws generalizing size g with
  | nil => exact ⟨[], [], rfl, by simp [growGroup], by simp [FitGroup], hlast⟩
  | cons w ws ih =>
    -- the loop goes on with a group that has this writer as its last
    have hgo : ∀ size' (g' : BatchGroup α), g'.members = g.members ++ [w] → g'.lastWriter = w.id →
        (∀ taken, FitGroup byteSize first size' taken → FitGroup byteSize first size (w :: taken)) →
        ∃ taken rest, w :: ws = taken ++ rest ∧
          (growGroup byteSize first size' g' ws).members = g.members ++ taken ∧
          FitGroup byteSize first size taken ∧
          (growGroup byteSize first size' g' ws).members.getLast?.map Writer.id =
            some (growGroup byteSize first size' g' ws).lastWriter := by
      intro size' g' hmembers' hlast' hfit
      obtain ⟨taken, rest, rfl, hmembers, hfit', hlast⟩ := ih size' g' (by simp [hmembers', hlast'])
      exact ⟨w :: taken, rest, rfl, by simp [hmembers, hmembers'], hfit taken hfit', hlast⟩
    rw [growGroup]
    by_cases hsync : (w.sync && !first.sync) = true
    · rw [if_pos hsync]
      exact ⟨[], w :: ws, rfl, by simp, by simp [FitGroup], hlast⟩
    · have hsync' : w.sync = true → first.sync = true := by
        intro hw
        simpa [hw] using hsync
      rw [if_neg hsync]
      cases hb : w.batch with
      | none => exact hgo _ _ rfl rfl fun taken h => ⟨by simpa using ⟨hsync', h.1⟩, by simpa [hb] using h.2⟩
      | some b =>
        by_cases hsize : maxSize (byteSize first.ops) < size + byteSize b
        · simp only [if_pos hsize]
          exact ⟨[], w :: ws, rfl, by simp, by simp [FitGroup], hlast⟩
        · simp only [if_neg hsize]
          refine hgo _ _ rfl rfl fun taken h => ⟨by simpa using ⟨hsync', h.1⟩, .inr ?_⟩
          rw [List.filterMap_cons_some hb, List.map_cons, List.sum_cons, ← Nat.add_assoc]
          rcases h.2 with hnil | hle
          · simpa [hnil] using hsize
          · exact hle

/-- A group holds the batches of its writers one after the other. -/
theorem growGroup_result (byteSize : List α → ℕ) (first : Writer α) (size : ℕ) (g : BatchGroup α) (ws : List (Writer α))
    (htmp : g.inTmp = false → g.tmpBatch = []) (hresult : g.result first = g.members.flatMap Writer.ops) :
    (growGroup byteSize first size g ws).result first =
        (growGroup byteSize first size g ws).members.flatMap Writer.ops ∧
      ((growGroup byteSize first size g ws).inTmp = false → (growGroup byteSize first size g ws).tmpBatch = []) := by
  induction ws generalizing size g with
  | nil => exact ⟨hresult, htmp⟩
  | cons w ws ih =>
    rw [growGroup]
    split
    · exact ⟨hresult, htmp⟩
    · cases hb : w.batch with
      | none =>
        refine ih _ _ htmp ?_
        show g.result first = _
        simp [hresult, Writer.ops, hb]
      | some b =>
        by_cases hsize : maxSize (byteSize first.ops) < size + byteSize b
        · simp only [if_pos hsize]
          exact ⟨hresult, htmp⟩
        · simp only [if_neg hsize]
          refine ih _ _ (by simp) ?_
          rw [List.flatMap_append, ← hresult]
          cases hg : g.inTmp with
          | true => simp [BatchGroup.result, Writer.ops, hb, hg]
          | false => simp [BatchGroup.result, Writer.ops, hb, hg, htmp hg]

/-- A group is the first writers of the queue. -/
theorem buildBatchGroup_members (byteSize : List α → ℕ) (tmpBatch : List α) (first : Writer α)
    (rest : List (Writer α)) :
    ∃ taken rest', rest = taken ++ rest' ∧ (buildBatchGroup byteSize tmpBatch first rest).members = first :: taken ∧
      FitGroup byteSize first (byteSize first.ops) taken ∧
      (buildBatchGroup byteSize tmpBatch first rest).members.getLast?.map Writer.id =
        some (buildBatchGroup byteSize tmpBatch first rest).lastWriter :=
  growGroup_members byteSize first (byteSize first.ops) ⟨[first], first.id, false, tmpBatch⟩ rest rfl

theorem buildBatchGroup_result (byteSize : List α → ℕ) (first : Writer α) (rest : List (Writer α)) :
    (buildBatchGroup byteSize [] first rest).result first =
        (buildBatchGroup byteSize [] first rest).members.flatMap Writer.ops ∧
      ((buildBatchGroup byteSize [] first rest).inTmp = false →
        (buildBatchGroup byteSize [] first rest).tmpBatch = []) :=
  growGroup_result byteSize first _ _ rest (fun _ => rfl) (by simp [BatchGroup.result])

/-! ### Numbers -/

/-- Operations with the sequence numbers from one on. -/
def number (ops : List α) : List (ℕ × α) := ops.mapIdx fun i x => (i + 1, x)

theorem number_append (ops : List α) {r : LogRecord α} (h : r.sequence = ops.length + 1) :
    number (ops ++ r.ops) = number ops ++ r.entries := by
  rw [number, List.mapIdx_append, number, LogRecord.entries, h]
  congr 2
  funext i x
  rw [Nat.add_right_comm, Nat.add_comm i]
  congr 1
  omega

/-- The first entries of a record are those of its first operations. -/
theorem entries_take (r : LogRecord α) (count : ℕ) :
    ({ r with ops := r.ops.take count } : LogRecord α).entries = r.entries.take count := by
  apply List.ext_getElem?
  intro i
  simp only [LogRecord.entries, List.getElem?_mapIdx, List.getElem?_take]
  split <;> simp

/-! ### The invariant -/

/-- A record is that of a group: it holds the batches of its writers one after the other,
and it is synced if one of them wants that. -/
def RecordOf (g : List (Writer α)) (r : LogRecord α) : Prop :=
  r.ops = g.flatMap Writer.ops ∧ ((∃ w ∈ g, w.sync = true) → r.synced = true)

namespace WriteState

/-- The group that the writer at the front is working for. -/
structure GroupInv (s : WriteState α) (g : BatchGroup α) (r : LogRecord α) : Prop where
  members : g.members <+: s.writers
  last : g.members.getLast?.map Writer.id = some g.lastWriter
  tmp : g.inTmp = false → s.tmpBatch = []
  sequence : r.sequence = s.lastSequence + 1
  ops : r.ops = g.members.flatMap Writer.ops
  sync : ∀ w ∈ g.members, w.sync = true → s.writers.head?.map Writer.sync = some true

/-- The record is in the current log, after the records of the groups that have finished. -/
def LoggedLast (s : WriteState α) (recs : List (LogRecord α)) (r : LogRecord α) : Prop :=
  ∃ log, s.log = log ++ [r] ∧ recs = s.closedLogs.flatten ++ log

/-- What holds at each place of `Write`, when `recs` are the records of the groups that have finished. -/
def LeadingInv (s : WriteState α) (recs : List (LogRecord α)) : Leading α → Prop
  | .no | .makingRoom _ _ =>
    s.tmpBatch = [] ∧ s.records = recs ∧ s.inserted = number (recs.flatMap LogRecord.ops)
  | .logging g r =>
    s.GroupInv g r ∧ s.records = recs ∧ s.inserted = number (recs.flatMap LogRecord.ops)
  | .logged g r =>
    s.GroupInv g r ∧ s.LoggedLast recs r ∧ s.inserted = number (recs.flatMap LogRecord.ops)
  | .inserting g r count =>
    s.GroupInv g r ∧ s.LoggedLast recs r ∧ RecordOf g.members r ∧
      s.inserted = number (recs.flatMap LogRecord.ops) ++ r.entries.take count
  | .ending g r ok syncError =>
    s.GroupInv g r ∧ s.LoggedLast recs r ∧ RecordOf g.members r ∧ ok = true ∧ syncError = false ∧
      s.inserted = number (recs.flatMap LogRecord.ops) ++ r.entries

/-- These groups have finished, and these are their records. -/
structure Inv (s : WriteState α) (groups : List (List (Writer α))) (recs : List (LogRecord α)) : Prop where
  order : s.arrivals = groups.flatten ++ s.writers
  ids : s.arrivals.map Writer.id = List.range s.arrivals.length
  batches : ∀ w ∈ s.arrivals, w.batch.isSome
  finished : s.finished = groups.flatten.map fun w => (w, true)
  returned : ∀ f ∈ s.returned, f ∈ s.finished
  holds : List.Forall₂ RecordOf groups recs
  entries : recs.flatMap LogRecord.entries = number (recs.flatMap LogRecord.ops)
  lastSequence : s.lastSequence = (recs.flatMap LogRecord.ops).length
  bgError : s.bgError = false
  leading : s.LeadingInv recs s.leading

theorem inv_init : (init : WriteState α).Inv [] [] := by
  constructor <;> simp [init, LeadingInv, records, inserted, number]

end WriteState

/-- No call has a null batch, and nothing fails. -/
def WriteEvent.Plain (e : WriteEvent α) : Prop :=
  match e with
  | .call batch _ => batch.isSome
  | .makeRoom input => input.newFileOk = true ∧ input.closeOk = true
  | .addRecord ok | .sync ok => ok = true
  | .bgError => False
  | .lead | .insert | .finish | .ret _ | .flush => True

instance (e : WriteEvent α) : Decidable e.Plain :=
  match e with
  | .call batch _ => inferInstanceAs (Decidable (batch.isSome = true))
  | .makeRoom input => inferInstanceAs (Decidable (input.newFileOk = true ∧ input.closeOk = true))
  | .addRecord ok | .sync ok => inferInstanceAs (Decidable (ok = true))
  | .bgError => .isFalse id
  | .lead | .insert | .finish | .ret _ | .flush => .isTrue trivial

namespace WriteState

section Steps

variable {byteSize : List α → ℕ} {s s' : WriteState α} {groups : List (List (Writer α))} {recs : List (LogRecord α)}

/-- The queue only grows at its end while a writer works for a group. -/
theorem GroupInv.mono {g : BatchGroup α} {r : LogRecord α} (h : s.GroupInv g r) (hw : s.writers <+: s'.writers)
    (htmp : s'.tmpBatch = s.tmpBatch) (hseq : s'.lastSequence = s.lastSequence) : s'.GroupInv g r := by
  refine ⟨h.members.trans hw, h.last, htmp ▸ h.tmp, hseq ▸ h.sequence, h.ops, fun v hv hsync => ?_⟩
  have hhead := h.sync v hv hsync
  obtain ⟨tail, hw⟩ := hw
  cases hq : s.writers with
  | nil => simp [hq] at hhead
  | cons x xs => simpa [← hw, hq] using hhead

theorem Inv.of_queue_eq (h : s.Inv groups recs)
    (heq : (s'.arrivals, s'.writers, s'.finished, s'.returned, s'.lastSequence, s'.bgError) =
      (s.arrivals, s.writers, s.finished, s.returned, s.lastSequence, s.bgError))
    (hleading : s'.LeadingInv recs s'.leading) : s'.Inv groups recs := by
  simp only [Prod.mk.injEq] at heq
  obtain ⟨harrivals, hwriters, hfinished, hreturned, hseq, hbg⟩ := heq
  exact ⟨by rw [harrivals, hwriters, h.order], by rw [harrivals, h.ids], by rw [harrivals]; exact h.batches,
    by rw [hfinished, h.finished], by rw [hreturned, hfinished]; exact h.returned, h.holds, h.entries,
    by rw [hseq, h.lastSequence], by rw [hbg, h.bgError], hleading⟩

theorem Inv.call (h : s.Inv groups recs) {batch : Option (List α)} {sync : Bool} (hbatch : batch.isSome)
    (hstep : s.step byteSize (.call batch sync) = some s') : s'.Inv groups recs := by
  simp only [step, Option.some.injEq] at hstep
  subst hstep
  have hleading := h.leading
  refine ⟨?_, ?_, ?_, h.finished, h.returned, h.holds, h.entries, h.lastSequence, h.bgError, ?_⟩
  · simp [h.order]
  · simp [h.ids, List.range_succ]
  · intro w hw
    obtain hw | rfl := List.mem_append.mp hw |>.imp_right List.mem_singleton.mp
    · exact h.batches w hw
    · exact hbatch
  · cases hl : s.leading with
    | no | makingRoom _ _ => simpa [hl, LeadingInv, records, inserted] using hleading
    | logging g r | logged g r | inserting g r _ | ending g r _ _ =>
      rw [hl] at hleading
      exact ⟨hleading.1.mono (List.prefix_append _ _) rfl rfl, hleading.2⟩

theorem Inv.lead (h : s.Inv groups recs) (hstep : s.step byteSize .lead = some s') : s'.Inv groups recs := by
  simp only [step] at hstep
  split at hstep
  · rename_i w rest hl hw
    cases hstep
    have hleading := h.leading
    rw [hl] at hleading
    exact h.of_queue_eq rfl hleading
  · cases hstep

/-- The writer at the front builds its group. -/
theorem Inv.afterRoom (h : s.Inv groups recs) {w : Writer α} {rest : List (Writer α)} (hw : s.writers = w :: rest)
    (htmp : s.tmpBatch = []) (hrecs : s.records = recs) (hinserted : s.inserted = number (recs.flatMap LogRecord.ops)) :
    (s.afterRoom byteSize w rest).Inv groups recs := by
  obtain ⟨b, hb⟩ := Option.isSome_iff_exists.mp (h.batches w (by simp [h.order, hw]))
  obtain ⟨hresult, htmp'⟩ := buildBatchGroup_result byteSize w rest
  obtain ⟨taken, rest', rfl, hmembers, hfit, hlast⟩ := buildBatchGroup_members byteSize [] w rest
  simp only [WriteState.afterRoom, hb, htmp]
  refine h.of_queue_eq rfl ⟨⟨⟨rest', ?_⟩, hlast, htmp', rfl, ?_, ?_⟩, hrecs, hinserted⟩
  · simp [hmembers, hw]
  · simpa [BatchGroup.result, Writer.ops, hb] using hresult
  · intro v hv hsync
    rw [hmembers] at hv
    simp [hw, hfit.sync hv hsync]

theorem Inv.makeRoom (h : s.Inv groups recs) {input : RoomInput} (hplain : input.newFileOk = true ∧ input.closeOk = true)
    (hstep : s.step byteSize (.makeRoom input) = some s') : s'.Inv groups recs := by
  simp only [step] at hstep
  split at hstep
  · rename_i force allowDelay w rest hl hw
    rw [Option.some.injEq] at hstep
    have hleading := h.leading
    rw [hl] at hleading
    obtain ⟨htmp, hrecs, hinserted⟩ := hleading
    obtain ⟨-, hfail⟩ | heq | ⟨heq, -⟩ | heq | ⟨heq, himm⟩ :=
      makeRoomTurn_cases byteSize s w rest force allowDelay input
    · simp [h.bgError, hplain.1] at hfail
    · rw [← hstep, heq]
      exact h.of_queue_eq rfl ⟨htmp, hrecs, hinserted⟩
    · rw [← hstep, heq]
      exact h.afterRoom hw htmp hrecs hinserted
    · rw [← hstep, heq]
      exact h
    · -- the switch only renames logs and memtables
      rw [← hstep, heq]
      refine h.of_queue_eq ?_ ⟨htmp, ?_, ?_⟩
      · simp [switchMem, hplain.2]
      · rw [← hrecs]
        simp [records, switchMem]
      · rw [← hinserted]
        simp [inserted, switchMem, himm]
  · cases hstep

theorem Inv.addRecord (h : s.Inv groups recs) {ok : Bool} (hok : ok = true)
    (hstep : s.step byteSize (.addRecord ok) = some s') : s'.Inv groups recs := by
  simp only [step] at hstep
  split at hstep
  · rename_i g r hl
    rw [if_pos hok] at hstep
    cases hstep
    have hleading := h.leading
    rw [hl] at hleading
    obtain ⟨hgroup, hrecs, hinserted⟩ := hleading
    exact h.of_queue_eq rfl
      ⟨hgroup.mono (List.prefix_refl _) rfl rfl, ⟨s.log, rfl, hrecs.symm⟩, hinserted⟩
  · cases hstep

/-- `Sync` marks records and leaves them as they are otherwise. -/
theorem forall₂_recordOf_sync {recs' : List (LogRecord α)} (h : List.Forall₂ RecordOf groups (recs ++ recs')) :
    List.Forall₂ RecordOf groups (recs ++ recs'.map fun r => { r with synced := true }) := by
  induction recs generalizing groups with
  | nil =>
    rw [List.nil_append] at h ⊢
    exact List.forall₂_map_right_iff.mpr (h.imp fun g r hr => ⟨hr.1, fun _ => rfl⟩)
  | cons r recs ih =>
    cases h with
    | cons hr hrest => exact .cons hr (ih hrest)

theorem flatMap_sync {β : Type} (f : LogRecord α → List β) (hf : ∀ r, f { r with synced := true } = f r)
    (recs : List (LogRecord α)) : (recs.map fun r => { r with synced := true }).flatMap f = recs.flatMap f := by
  rw [List.flatMap_map]
  simp only [hf]

theorem Inv.sync (h : s.Inv groups recs) {ok : Bool} (hok : ok = true)
    (hstep : s.step byteSize (.sync ok) = some s') : ∃ recs', s'.Inv groups recs' := by
  simp only [step] at hstep
  split at hstep
  · rename_i g r w rest hl hw
    have hleading := h.leading
    rw [hl] at hleading
    obtain ⟨hgroup, ⟨log, hlog, hrecs⟩, hinserted⟩ := hleading
    by_cases hsync : w.sync = true
    · -- the records of the current log are synced, that of the group too
      rw [if_neg (by simp [hsync]), if_pos hok] at hstep
      cases hstep
      have hops := flatMap_sync LogRecord.ops (fun _ => rfl) log
      have hentries := flatMap_sync LogRecord.entries (fun _ => rfl) log
      refine ⟨s.closedLogs.flatten ++ log.map fun r => { r with synced := true }, h.order, h.ids, h.batches,
        h.finished, h.returned, ?_, ?_, ?_, h.bgError,
        ⟨hgroup.members, hgroup.last, hgroup.tmp, hgroup.sequence, hgroup.ops, hgroup.sync⟩,
        ⟨log.map fun r => { r with synced := true }, ?_, rfl⟩, ⟨hgroup.ops, fun _ => rfl⟩, ?_⟩
      · exact forall₂_recordOf_sync (hrecs ▸ h.holds)
      · rw [List.flatMap_append, List.flatMap_append, hops, hentries, ← List.flatMap_append, ← List.flatMap_append,
          ← hrecs, h.entries]
      · show s.lastSequence = _
        rw [List.flatMap_append, hops, ← List.flatMap_append, ← hrecs, h.lastSequence]
      · simp [hlog]
      · show s.inserted = _
        rw [List.flatMap_append, hops, ← List.flatMap_append, ← hrecs, hinserted, List.take_zero, List.append_nil]
    · rw [if_pos (by simpa using hsync)] at hstep
      cases hstep
      refine ⟨recs, h.of_queue_eq rfl ⟨hgroup.mono (List.prefix_refl _) rfl rfl, ⟨log, hlog, hrecs⟩,
        ⟨hgroup.ops, ?_⟩, ?_⟩⟩
      · rintro ⟨v, hv, hvsync⟩
        have hhead := hgroup.sync v hv hvsync
        simp [hw, hsync] at hhead
      · rw [List.take_zero, List.append_nil]
        exact hinserted
  · cases hstep

theorem Inv.insert (h : s.Inv groups recs) (hstep : s.step byteSize .insert = some s') : s'.Inv groups recs := by
  simp only [step] at hstep
  split at hstep
  · rename_i g r count hl
    have hleading := h.leading
    rw [hl] at hleading
    obtain ⟨hgroup, hlogged, hrecord, hinserted⟩ := hleading
    have hgroup' : ∀ {s' : WriteState α}, s'.writers = s.writers → s'.tmpBatch = s.tmpBatch →
        s'.lastSequence = s.lastSequence → s'.GroupInv g r := fun hw => hgroup.mono (hw ▸ List.prefix_refl _)
    split at hstep
    · rename_i e he
      cases hstep
      refine h.of_queue_eq rfl ⟨hgroup' rfl rfl rfl, hlogged, hrecord, ?_⟩
      have hmore : s.inserted ++ [e] = number (recs.flatMap LogRecord.ops) ++ r.entries.take (count + 1) := by
        rw [hinserted, List.append_assoc, List.take_add_one, he]
        rfl
      rw [← hmore]
      simp [inserted]
    · rename_i hnone
      cases hstep
      refine h.of_queue_eq rfl ⟨hgroup' rfl rfl rfl, hlogged, hrecord, rfl, rfl, ?_⟩
      rw [List.take_of_length_le (List.getElem?_eq_none_iff.mp hnone)] at hinserted
      exact hinserted
  · cases hstep

theorem popCount_eq {members rest : List (Writer α)} {last : ℕ} (hnodup : (s.writers.map Writer.id).Nodup)
    (hw : s.writers = members ++ rest) (hlast : members.getLast?.map Writer.id = some last) :
    s.popCount last = members.length := by
  obtain ⟨x, hx, rfl⟩ := Option.map_eq_some_iff.mp hlast
  obtain ⟨init, rfl⟩ : ∃ init, members = init ++ [x] := List.getLast?_eq_some_iff.mp hx
  have hne : ∀ w ∈ init, (w.id != x.id) = true := by
    intro w hwi
    rw [hw, List.map_append, List.map_append, List.append_assoc] at hnodup
    have hdistinct := (List.nodup_append.mp hnodup).2.2
    exact bne_iff_ne.mpr (hdistinct w.id (List.mem_map_of_mem hwi) x.id (by simp))
  rw [popCount, hw, List.append_assoc, List.takeWhile_append_of_pos hne]
  simp

theorem Inv.finish (h : s.Inv groups recs) (hstep : s.step byteSize .finish = some s') :
    ∃ groups' recs', s'.Inv groups' recs' := by
  simp only [step] at hstep
  split at hstep
  · rename_i g r ok syncError hl
    cases hstep
    have hleading := h.leading
    rw [hl] at hleading
    obtain ⟨hgroup, ⟨log, hlog, hrecs⟩, hrecord, rfl, rfl, hinserted⟩ := hleading
    obtain ⟨rest, hw⟩ := hgroup.members
    have hnodup : (s.writers.map Writer.id).Nodup := by
      have hall : (s.arrivals.map Writer.id).Nodup := h.ids ▸ List.nodup_range
      rw [h.order, List.map_append] at hall
      exact (List.nodup_append.mp hall).2.1
    have hcount := popCount_eq hnodup hw.symm hgroup.last
    have hnumber := number_append (recs.flatMap LogRecord.ops) (hgroup.sequence.trans (by rw [h.lastSequence]))
    refine ⟨groups ++ [g.members], recs ++ [r], ?_, h.ids, h.batches, ?_, ?_, ?_, ?_, ?_, ?_, ?_, ?_, ?_⟩
    · simp [pop, hcount, h.order, ← hw]
    · simp [pop, hcount, h.finished, ← hw]
    · exact fun f hf => List.mem_append_left _ (h.returned f hf)
    · exact List.rel_append h.holds (.cons hrecord .nil)
    · simp [h.entries, hnumber]
    · simp [h.lastSequence]
    · simp [h.bgError]
    · show (if g.inTmp = true then [] else s.tmpBatch) = []
      cases htmp : g.inTmp with
      | true => rfl
      | false => exact hgroup.tmp htmp
    · simp [records, pop, hlog, hrecs]
    · show s.inserted = _
      rw [hinserted, List.flatMap_append, List.flatMap_singleton, hnumber]
  · cases hstep

theorem Inv.ret (h : s.Inv groups recs) {index : ℕ} (hstep : s.step byteSize (.ret index) = some s') :
    s'.Inv groups recs := by
  simp only [step, Option.map_eq_some_iff] at hstep
  obtain ⟨f, hf, rfl⟩ := hstep
  refine ⟨h.order, h.ids, h.batches, h.finished, ?_, h.holds, h.entries, h.lastSequence, h.bgError, ?_⟩
  · intro f' hf'
    obtain hf' | rfl := List.mem_append.mp hf' |>.imp_right List.mem_singleton.mp
    · exact h.returned f' hf'
    · exact List.mem_of_getElem? hf
  · have hleading := h.leading
    cases hl : s.leading with
    | no | makingRoom _ _ =>
      rw [hl] at hleading
      exact hleading
    | logging g r | logged g r | inserting g r _ | ending g r _ _ =>
      rw [hl] at hleading
      exact ⟨hleading.1.mono (List.prefix_refl _) rfl rfl, hleading.2⟩

theorem Inv.flush (h : s.Inv groups recs) (hstep : s.step byteSize .flush = some s') : s'.Inv groups recs := by
  simp only [step, Option.map_eq_some_iff] at hstep
  obtain ⟨entries, himm, rfl⟩ := hstep
  have hsame : { s with tables := s.tables ++ entries, imm := none }.inserted = s.inserted := by
    simp [inserted, himm]
  refine h.of_queue_eq rfl ?_
  have hleading := h.leading
  cases hl : s.leading with
  | no | makingRoom _ _ =>
    rw [hl] at hleading
    exact ⟨hleading.1, hleading.2.1, hsame.trans hleading.2.2⟩
  | logging g r | logged g r =>
    rw [hl] at hleading
    exact ⟨hleading.1.mono (List.prefix_refl _) rfl rfl, hleading.2.1, hsame.trans hleading.2.2⟩
  | inserting g r count =>
    rw [hl] at hleading
    exact ⟨hleading.1.mono (List.prefix_refl _) rfl rfl, hleading.2.1, hleading.2.2.1, hsame.trans hleading.2.2.2⟩
  | ending g r ok syncError =>
    rw [hl] at hleading
    obtain ⟨hgroup, hlogged, hrecord, hok, hse, hinserted⟩ := hleading
    exact ⟨hgroup.mono (List.prefix_refl _) rfl rfl, hlogged, hrecord, hok, hse, hsame.trans hinserted⟩

theorem Inv.step {e : WriteEvent α} (h : s.Inv groups recs) (hplain : e.Plain) (hstep : s.step byteSize e = some s') :
    ∃ groups' recs', s'.Inv groups' recs' := by
  cases e with
  | call batch sync => exact ⟨groups, recs, h.call hplain hstep⟩
  | lead => exact ⟨groups, recs, h.lead hstep⟩
  | makeRoom input => exact ⟨groups, recs, h.makeRoom hplain hstep⟩
  | addRecord ok => exact ⟨groups, recs, h.addRecord hplain hstep⟩
  | sync ok => exact ⟨groups, h.sync hplain hstep⟩
  | insert => exact ⟨groups, recs, h.insert hstep⟩
  | finish => exact h.finish hstep
  | ret index => exact ⟨groups, recs, h.ret hstep⟩
  | flush => exact ⟨groups, recs, h.flush hstep⟩
  | bgError => exact hplain.elim

theorem exists_inv (h : WriteRun byteSize (fun _ e => e.Plain) s) : ∃ groups recs, s.Inv groups recs := by
  induction h with
  | init => exact ⟨[], [], inv_init⟩
  | step _ hplain hstep ih =>
    obtain ⟨groups, recs, hinv⟩ := ih
    exact hinv.step hplain hstep

end Steps

theorem flatMap_ops_of_forall₂ {groups : List (List (Writer α))} {recs : List (LogRecord α)}
    (h : List.Forall₂ RecordOf groups recs) : recs.flatMap LogRecord.ops = groups.flatten.flatMap Writer.ops := by
  induction h with
  | nil => rfl
  | cons hr _ ih => simp [hr.1, ih]

/-- The group that is being logged or inserted. -/
def group? (s : WriteState α) : Option (BatchGroup α) :=
  match s.leading with
  | .no | .makingRoom _ _ => none
  | .logging g _ | .logged g _ | .inserting g _ _ | .ending g _ _ _ => some g

/-- In every run without errors and null batches: the writers leave the queue in groups, in
the order in which they came; every group that has left it is one record of a log, which
holds the whole batches of its writers one after the other and is synced if one of them
wants it; the operations of all groups are in the memtables, in this order, each once and
with consecutive sequence numbers, and after them at most a part of the next ones; a call
that has returned was in such a group; and the group that is at work is the front of the queue. -/
theorem group_commit {byteSize : List α → ℕ} {s : WriteState α} (h : WriteRun byteSize (fun _ e => e.Plain) s) :
    ∃ (groups : List (List (Writer α))) (recs : List (LogRecord α)) (next : List α),
      s.arrivals = groups.flatten ++ s.writers ∧
      recs <+: s.records ∧ List.Forall₂ RecordOf groups recs ∧
      recs.flatMap LogRecord.entries = number (groups.flatten.flatMap Writer.ops) ∧
      next <+: s.writers.flatMap Writer.ops ∧
      s.inserted = number (groups.flatten.flatMap Writer.ops ++ next) ∧
      (∀ f ∈ s.returned, f.1 ∈ groups.flatten ∧ f.2 = true) ∧
      ∀ g ∈ s.group?, g.members <+: s.writers := by
  obtain ⟨groups, recs, hinv⟩ := exists_inv h
  have hops := flatMap_ops_of_forall₂ hinv.holds
  have hleading := hinv.leading
  have hentries := hinv.entries
  have hreturned : ∀ f ∈ s.returned, f.1 ∈ groups.flatten ∧ f.2 = true := by
    intro f hf
    have hfinished := hinv.returned f hf
    rw [hinv.finished, List.mem_map] at hfinished
    obtain ⟨w, hw, rfl⟩ := hfinished
    exact ⟨hw, rfl⟩
  have hnext : ∀ {g : BatchGroup α} {r : LogRecord α}, s.GroupInv g r → r.ops <+: s.writers.flatMap Writer.ops := by
    intro g r hgroup
    obtain ⟨rest, hw⟩ := hgroup.members
    exact ⟨rest.flatMap Writer.ops, by rw [hgroup.ops, ← hw, List.flatMap_append]⟩
  have hlast : ∀ {r : LogRecord α}, s.LoggedLast recs r → recs <+: s.records := by
    rintro r ⟨log, hlog, rfl⟩
    exact ⟨[r], by rw [records, hlog, List.append_assoc]⟩
  rw [hops] at hentries
  cases hl : s.leading with
  | no | makingRoom _ _ =>
    rw [hl] at hleading
    obtain ⟨-, hrecs, hinserted⟩ := hleading
    exact ⟨groups, recs, [], hinv.order, hrecs ▸ List.prefix_refl _, hinv.holds, hentries, List.nil_prefix,
      by rw [hinserted, hops, List.append_nil], hreturned, by simp [group?, hl]⟩
  | logging g r =>
    rw [hl] at hleading
    obtain ⟨hgroup, hrecs, hinserted⟩ := hleading
    exact ⟨groups, recs, [], hinv.order, hrecs ▸ List.prefix_refl _, hinv.holds, hentries, List.nil_prefix,
      by rw [hinserted, hops, List.append_nil], hreturned, by simpa [group?, hl] using hgroup.members⟩
  | logged g r =>
    rw [hl] at hleading
    obtain ⟨hgroup, hlogged, hinserted⟩ := hleading
    exact ⟨groups, recs, [], hinv.order, hlast hlogged, hinv.holds, hentries, List.nil_prefix,
      by rw [hinserted, hops, List.append_nil], hreturned, by simpa [group?, hl] using hgroup.members⟩
  | inserting g r count =>
    rw [hl] at hleading
    obtain ⟨hgroup, hlogged, -, hinserted⟩ := hleading
    have hnumber := number_append (recs.flatMap LogRecord.ops) (r := { r with ops := r.ops.take count })
      (hgroup.sequence.trans (by rw [hinv.lastSequence]))
    exact ⟨groups, recs, r.ops.take count, hinv.order, hlast hlogged, hinv.holds, hentries,
      (List.take_prefix _ _).trans (hnext hgroup), by rw [hinserted, ← entries_take, ← hnumber, hops], hreturned,
      by simpa [group?, hl] using hgroup.members⟩
  | ending g r ok syncError =>
    rw [hl] at hleading
    obtain ⟨hgroup, hlogged, -, -, -, hinserted⟩ := hleading
    have hnumber := number_append (recs.flatMap LogRecord.ops) (hgroup.sequence.trans (by rw [hinv.lastSequence]))
    exact ⟨groups, recs, r.ops, hinv.order, hlast hlogged, hinv.holds, hentries, hnext hgroup,
      by rw [hinserted, ← hnumber, hops], hreturned, by simpa [group?, hl] using hgroup.members⟩

/-- While the first call is logged, three others come. The second and the third make a group; the
last wants the log synced. -/
theorem group_commit_two_calls : ∃ s : WriteState ℕ, WriteRun List.length (fun _ e => e.Plain) s ∧
    s.returned.length = 4 ∧ s.records.map LogRecord.ops = [[5], [6, 7, 8], [9]] ∧
      ∃ (groups : List (List (Writer ℕ))) (recs : List (LogRecord ℕ)),
        s.arrivals = groups.flatten ++ s.writers ∧ List.Forall₂ RecordOf groups recs ∧ recs <+: s.records := by
  let room : RoomInput := ⟨false, true, false, true, true⟩
  have hrun : (runEvents List.length (fun _ e => e.Plain) (init : WriteState ℕ)
      [.call (some [5]) false, .lead, .makeRoom room, .call (some [6, 7]) false, .call (some [8]) false,
        .call (some [9]) true, .addRecord true, .sync true, .insert, .insert, .finish,
        .lead, .makeRoom room, .addRecord true, .sync true, .insert, .insert, .insert, .insert, .finish,
        .lead, .makeRoom room, .addRecord true, .sync true, .insert, .insert, .finish, .ret 0, .ret 2, .ret 1,
        .ret 3]).map (fun s => (s.returned.length, s.records.map LogRecord.ops)) = some (4, [[5], [6, 7, 8], [9]]) := by
    decide +kernel
  obtain ⟨s, hs, heq⟩ := Option.map_eq_some_iff.mp hrun
  obtain ⟨hreturned, hrecords⟩ := Prod.mk.inj heq
  have h := WriteRun.init.runEvents hs
  obtain ⟨groups, recs, -, horder, hrecs, hholds, -⟩ := group_commit h
  exact ⟨s, h, hreturned, hrecords, groups, recs, horder, hholds, hrecs⟩

end WriteState

end TLevelDB.Db
