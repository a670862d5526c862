import TLevelDB.Db.GroupCommit

/-!
# Writes with a null batch

`TEST_CompactMemTable` calls `Write` with a null batch so that the memtable is switched.
When such a writer comes to the front of the queue itself, `MakeRoomForWrite` does that on
its behalf. When it is taken into the group of another writer, it is marked as done together
with the group, and no memtable is switched.
-/

namespace TLevelDB.Db

variable {α : Type} {byteSize : List α → ℕ}

/-- The operations of a write are among these entries, with consecutive sequence numbers. -/
def Writer.InsertedIn (w : Writer α) (entries : List (ℕ × α)) : Prop :=
  ∃ sequence, (⟨sequence, w.ops, false⟩ : LogRecord α).entries <:+: entries

theorem entries_append (sequence : ℕ) (xs ys : List α) (synced : Bool) :
    (⟨sequence, xs ++ ys, synced⟩ : LogRecord α).entries =
      (⟨sequence, xs, synced⟩ : LogRecord α).entries ++ (⟨sequence + xs.length, ys, synced⟩ : LogRecord α).entries := by
  simp only [LogRecord.entries, List.mapIdx_append]
  congr 2
  funext i x
  rw [Nat.add_assoc, Nat.add_comm i]

variable {w : Writer α}

/-- The record of a group holds what each of its writers writes. -/
theorem insertedIn_of_mem {members : List (Writer α)} (hw : w ∈ members) {r : LogRecord α}
    (hops : r.ops = members.flatMap Writer.ops) {entries : List (ℕ × α)} (hentries : r.entries <:+: entries) :
    w.InsertedIn entries := by
  obtain ⟨before, after, rfl⟩ := List.append_of_mem hw
  refine ⟨r.sequence + (before.flatMap Writer.ops).length, List.IsInfix.trans ?_ hentries⟩
  have hr : r.entries = (⟨r.sequence, before.flatMap Writer.ops ++ (w.ops ++ after.flatMap Writer.ops), false⟩ :
      LogRecord α).entries := by
    rw [LogRecord.entries, hops]
    simp [LogRecord.entries]
  rw [hr, entries_append, entries_append]
  exact ⟨_, _, List.append_assoc _ _ _⟩

namespace WriteState

/-- A switch was forced on behalf of this writer, when all writers before it had finished and
what they wrote was inserted; and what was inserted up to then is in `imm_` or in a table. -/
def Switched (s : WriteState α) (w : Writer α) : Prop :=
  ∃ sw ∈ s.switches, sw.writer = w.id ∧ sw.forced = true ∧
    (∀ v ∈ s.arrivals, v.id < w.id → ∃ ok, (v, ok) ∈ sw.finished ∧ (ok = true → v.InsertedIn sw.inserted)) ∧
    sw.inserted <+: s.tables ++ s.imm.getD []

/-- Every null batch that has returned OK has switched the memtable. -/
def NullSwitches (s : WriteState α) : Prop := ∀ f ∈ s.returned, f.1.batch = none → f.2 = true → s.Switched f.1

/-- A writer goes to build its group, and the first of those that wait fit into it with a null
batch among them. -/
def takesNull (byteSize : List α → ℕ) (s : WriteState α) (e : WriteEvent α) : Bool :=
  match e, s.leading, s.writers with
  | .makeRoom input, .makingRoom force allowDelay, w :: rest =>
    s.findsRoom force allowDelay input && w.batch.isSome && rest.inits.any fun waiting =>
      FitGroup byteSize w (byteSize w.ops) waiting && waiting.any fun v => v.batch.isNone
  | _, _, _ => false

/-- What holds at each place of `Write`. -/
def FrontInv (s : WriteState α) : Leading α → Prop
  | .no => s.tmpBatch = []
  | .makingRoom force _ =>
    s.tmpBatch = [] ∧ ∃ w rest, s.writers = w :: rest ∧ (w.batch = none → force = false → s.Switched w)
  | .logging g r | .logged g r => s.GroupInv g r ∧ ∀ w ∈ g.members, w.batch.isSome
  | .inserting g r count =>
    s.GroupInv g r ∧ (∀ w ∈ g.members, w.batch.isSome) ∧ r.entries.take count <:+ s.mem
  | .ending g r ok _ =>
    s.GroupInv g r ∧ (∀ w ∈ g.members, w.batch.isSome) ∧ (ok = true → r.entries <:+ s.mem)

structure SwitchInv (s : WriteState α) : Prop where
  order : s.arrivals = s.finished.map Prod.fst ++ s.writers
  ids : s.arrivals.map Writer.id = List.range s.arrivals.length
  returned : ∀ f ∈ s.returned, f ∈ s.finished
  finished : ∀ f ∈ s.finished, f.1.batch = none → f.2 = true → s.Switched f.1
  inserted : ∀ f ∈ s.finished, f.2 = true → f.1.InsertedIn s.inserted
  front : s.FrontInv s.leading

theorem switchInv_init : (init : WriteState α).SwitchInv := by
  constructor <;> simp [init, FrontInv]

section Steps

variable {s s' : WriteState α}

/-- The writers that come later have larger names. -/
theorem SwitchInv.id_lt (h : s.SwitchInv) (hw : w ∈ s.arrivals) : w.id < s.arrivals.length := by
  have hid : w.id ∈ s.arrivals.map Writer.id := List.mem_map_of_mem hw
  rw [h.ids] at hid
  exact List.mem_range.mp hid

/-- Writers that came before the one at the front have finished. -/
theorem SwitchInv.finished_of_lt (h : s.SwitchInv) {v : Writer α} {rest : List (Writer α)}
    (hw : s.writers = w :: rest) (hv : v ∈ s.arrivals) (hlt : v.id < w.id) : ∃ f ∈ s.finished, f.1 = v := by
  have hsorted : s.arrivals.Pairwise fun v v' => v.id < v'.id := by
    rw [← List.pairwise_map, h.ids]
    exact List.pairwise_lt_range
  rw [h.order, hw] at hsorted hv
  obtain hv | hv := List.mem_append.mp hv
  · simpa using hv
  · have hrest := (List.pairwise_append.mp hsorted).2.1
    obtain rfl | hv := List.mem_cons.mp hv
    · omega
    · have := List.rel_of_pairwise_cons hrest hv
      omega

theorem Switched.mono (h : s.Switched w) (hswitches : s.switches <+: s'.switches)
    (harrivals : ∀ v ∈ s'.arrivals, v ∈ s.arrivals ∨ ¬ v.id < w.id)
    (hkept : s.tables ++ s.imm.getD [] <+: s'.tables ++ s'.imm.getD []) : s'.Switched w := by
  obtain ⟨sw, hsw, hwriter, hforced, hbefore, hinserted⟩ := h
  exact ⟨sw, hswitches.subset hsw, hwriter, hforced,
    fun v hv hlt => hbefore v ((harrivals v hv).resolve_right (not_not.mpr hlt)) hlt, hinserted.trans hkept⟩

theorem FrontInv.mono {leading : Leading α} (h : s.FrontInv leading) (hwriters : s.writers <+: s'.writers)
    (heq : (s'.tmpBatch, s'.lastSequence, s'.mem) = (s.tmpBatch, s.lastSequence, s.mem))
    (hswitched : ∀ w ∈ s.writers, s.Switched w → s'.Switched w) : s'.FrontInv leading := by
  simp only [Prod.mk.injEq] at heq
  obtain ⟨htmp, hseq, hmem⟩ := heq
  cases leading with
  | no => exact htmp.trans h
  | makingRoom force allowDelay =>
    obtain ⟨htmp', w, rest, hw, hfront⟩ := h
    obtain ⟨more, hmore⟩ := hwriters
    exact ⟨htmp.trans htmp', w, rest ++ more, by rw [← hmore, hw, List.cons_append],
      fun hnull hforce => hswitched w (by simp [hw]) (hfront hnull hforce)⟩
  | logging g r | logged g r => exact ⟨h.1.mono hwriters htmp hseq, h.2⟩
  | inserting g r _ | ending g r _ _ => exact ⟨h.1.mono hwriters htmp hseq, h.2.1, hmem ▸ h.2.2⟩

theorem SwitchInv.of_queue_eq (h : s.SwitchInv)
    (heq : (s'.arrivals, s'.writers, s'.finished) = (s.arrivals, s.writers, s.finished))
    (hreturned : ∀ f ∈ s'.returned, f ∈ s.finished) (hswitches : s.switches <+: s'.switches)
    (hkept : s.tables ++ s.imm.getD [] <+: s'.tables ++ s'.imm.getD []) (hinserted : s.inserted <+: s'.inserted)
    (hfront : s'.FrontInv s'.leading) : s'.SwitchInv := by
  simp only [Prod.mk.injEq] at heq
  obtain ⟨harrivals, hwriters, hfinished⟩ := heq
  refine ⟨by rw [harrivals, hwriters, hfinished, h.order], by rw [harrivals, h.ids], hfinished ▸ hreturned, ?_, ?_,
    hfront⟩
  · intro f hf hnull hok
    exact (h.finished f (hfinished ▸ hf) hnull hok).mono hswitches (fun v hv => .inl (harrivals ▸ hv)) hkept
  · intro f hf hok
    obtain ⟨sequence, hin⟩ := h.inserted f (hfinished ▸ hf) hok
    exact ⟨sequence, hin.trans hinserted.isInfix⟩

/-- Only the place of the front writer and what it works with change. -/
theorem SwitchInv.of_front (h : s.SwitchInv)
    (heq : (s'.arrivals, s'.writers, s'.finished, s'.returned, s'.switches, s'.tables, s'.imm) =
      (s.arrivals, s.writers, s.finished, s.returned, s.switches, s.tables, s.imm)) (hmem : s.mem <+: s'.mem)
    (hfront : s'.FrontInv s'.leading) : s'.SwitchInv := by
  simp only [Prod.mk.injEq] at heq
  obtain ⟨harrivals, hwriters, hfinished, hreturned, hswitches, htables, himm⟩ := heq
  refine h.of_queue_eq (by simp [*]) (hreturned ▸ h.returned) (hswitches ▸ List.prefix_refl _)
    (by simp [htables, himm]) ?_ hfront
  rw [WriteState.inserted, WriteState.inserted, htables, himm]
  exact List.prefix_append_right_inj _ |>.mpr hmem

theorem SwitchInv.pop (h : s.SwitchInv) {members rest : List (Writer α)} {last : ℕ} {ok : Bool}
    (hw : s.writers = members ++ rest) (hlast : members.getLast?.map Writer.id = some last)
    (hnull : ∀ w ∈ members, w.batch = none → ok = true → s.Switched w)
    (hinserted : ∀ w ∈ members, ok = true → w.InsertedIn s.inserted)
    (heq : (s'.arrivals, s'.returned, s'.switches, s'.tables, s'.imm, s'.mem) =
      (s.arrivals, s.returned, s.switches, s.tables, s.imm, s.mem))
    (hpop : (s'.writers, s'.finished, s'.leading) =
      ((s.pop last ok).writers, (s.pop last ok).finished, (s.pop last ok).leading))
    (htmp : s'.tmpBatch = []) : s'.SwitchInv := by
  simp only [Prod.mk.injEq] at heq hpop
  obtain ⟨harrivals, hreturned, hswitches, htables, himm, hmem⟩ := heq
  have hnodup : (s.writers.map Writer.id).Nodup := by
    have hall : (s.arrivals.map Writer.id).Nodup := h.ids ▸ List.nodup_range
    rw [h.order, List.map_append] at hall
    exact (List.nodup_append.mp hall).2.1
  have hcount := popCount_eq hnodup hw hlast
  simp only [WriteState.pop, hcount, hw, List.take_left, List.drop_left] at hpop
  obtain ⟨hwriters, hfinished, hleading⟩ := hpop
  have hfst : (members.map fun w => (w, ok)).map Prod.fst = members := by simp [Function.comp_def]
  -- a writer that has finished finished before, or now
  have hcases : ∀ f ∈ s'.finished, f ∈ s.finished ∨ (f.1 ∈ members ∧ f.2 = ok) := by
    intro f hf
    rw [hfinished, List.mem_append, List.mem_map] at hf
    obtain hf | ⟨w, hmem, rfl⟩ := hf
    · exact .inl hf
    · exact .inr ⟨hmem, rfl⟩
  refine ⟨?_, harrivals ▸ h.ids, ?_, ?_, ?_, ?_⟩
  · rw [harrivals, hwriters, hfinished, List.map_append, hfst, List.append_assoc, ← hw, h.order]
  · rw [hreturned, hfinished]
    exact fun f hf => List.mem_append_left _ (h.returned f hf)
  · intro f hf hbatch hok
    have hswitched : s.Switched f.1 := by
      obtain hf | ⟨hmem, heq⟩ := hcases f hf
      · exact h.finished f hf hbatch hok
      · exact hnull f.1 hmem hbatch (heq ▸ hok)
    exact hswitched.mono (hswitches ▸ List.prefix_refl _) (fun v hv => .inl (harrivals ▸ hv)) (by simp [htables, himm])
  · intro f hf hok
    rw [WriteState.inserted, htables, himm, hmem]
    obtain hf | ⟨hmem, heq⟩ := hcases f hf
    · exact h.inserted f hf hok
    · exact hinserted f.1 hmem (heq ▸ hok)
  · rw [hleading]
    exact htmp

theorem SwitchInv.call (h : s.SwitchInv) {batch : Option (List α)} {sync : Bool}
    (hstep : s.step byteSize (.call batch sync) = some s') : s'.SwitchInv := by
  simp only [step, Option.some.injEq] at hstep
  subst hstep
  set new : Writer α := ⟨s.arrivals.length, batch, sync⟩ with hnew
  -- the new writer comes after all others
  have hmono : ∀ w ∈ s.arrivals, s.Switched w →
      { s with writers := s.writers ++ [new], arrivals := s.arrivals ++ [new] }.Switched w := by
    intro w hw hswitched
    refine hswitched.mono (List.prefix_refl _) (fun v hv => ?_) (List.prefix_refl _)
    obtain hv | rfl := List.mem_append.mp hv |>.imp_right List.mem_singleton.mp
    · exact .inl hv
    · exact .inr (h.id_lt hw).not_gt
  refine ⟨?_, ?_, h.returned, ?_, h.inserted, ?_⟩
  · simp [h.order]
  · simp [h.ids, List.range_succ, hnew]
  · intro f hf hnull hok
    exact hmono f.1 (by rw [h.order]; exact List.mem_append_left _ (List.mem_map_of_mem hf)) (h.finished f hf hnull hok)
  · exact h.front.mono (List.prefix_append _ _) rfl fun w hw =>
      hmono w (by rw [h.order]; exact List.mem_append_right _ hw)

/-- When the front writer switches, all writers before it have finished. -/
theorem SwitchInv.switchMem (h : s.SwitchInv) {rest : List (Writer α)} {force closeOk allowDelay : Bool}
    (hw : s.writers = w :: rest) (htmp : s.tmpBatch = []) (himm : s.imm = none)
    (hswitched : w.batch = none → force = false → s.Switched w) :
    { s.switchMem w.id force closeOk with leading := .makingRoom false allowDelay }.SwitchInv := by
  have hswitches : s.switches <+: (s.switchMem w.id force closeOk).switches := List.prefix_append _ _
  have hkept : s.tables ++ s.imm.getD [] <+: (s.switchMem w.id force closeOk).tables ++
      (s.switchMem w.id force closeOk).imm.getD [] := by
    simp [WriteState.switchMem, himm]
  have hinserted : s.inserted <+: (s.switchMem w.id force closeOk).inserted := by
    simp [WriteState.inserted, WriteState.switchMem, himm]
  refine h.of_queue_eq rfl h.returned hswitches hkept hinserted ⟨htmp, w, rest, hw, fun hnull _ => ?_⟩
  by_cases hforce : force = false
  · exact (hswitched hnull hforce).mono hswitches (fun v hv => .inl hv) hkept
  · refine ⟨⟨w.id, force, s.finished, s.inserted⟩, by simp [WriteState.switchMem], rfl,
      eq_true_of_ne_false hforce, ?_, ?_⟩
    · intro v hv hlt
      obtain ⟨f, hf, rfl⟩ := h.finished_of_lt hw hv hlt
      exact ⟨f.2, hf, h.inserted f hf⟩
    · simp [WriteState.switchMem, WriteState.inserted, himm]

/-- The writer at the front builds its group. -/
theorem SwitchInv.afterRoom_some (h : s.SwitchInv) {rest : List (Writer α)} {b : List α}
    (hw : s.writers = w :: rest) (hb : w.batch = some b) (htmp : s.tmpBatch = [])
    (hsome : ∀ waiting, waiting <+: rest → FitGroup byteSize w (byteSize w.ops) waiting → ∀ v ∈ waiting, v.batch.isSome) :
    (s.afterRoom byteSize w rest).SwitchInv := by
  obtain ⟨hresult, htmp'⟩ := buildBatchGroup_result byteSize w rest
  obtain ⟨taken, rest', rfl, hmembers, hfit, hlast⟩ := buildBatchGroup_members byteSize [] w rest
  simp only [afterRoom, hb, htmp]
  refine h.of_front rfl (List.prefix_refl _) ⟨⟨⟨rest', ?_⟩, hlast, htmp', rfl, ?_, ?_⟩, ?_⟩
  · simp [hmembers, hw]
  · simpa [BatchGroup.result, Writer.ops, hb] using hresult
  · intro v hv hsync
    rw [hmembers] at hv
    simp [hw, hfit.sync hv hsync]
  · rw [hmembers]
    simpa [hb] using hsome taken (List.prefix_append _ _) hfit

theorem SwitchInv.makeRoom (h : s.SwitchInv) {input : RoomInput} (hP : s.takesNull byteSize (.makeRoom input) = false)
    (hstep : s.step byteSize (.makeRoom input) = some s') : s'.SwitchInv := by
  simp only [step] at hstep
  split at hstep
  · rename_i force allowDelay w rest hl hw
    simp only [takesNull, hl, hw] at hP
    have hfront := h.front
    rw [hl] at hfront
    obtain ⟨htmp, _, _, hw', hswitched⟩ := hfront
    cases hw.symm.trans hw'
    rw [Option.some.injEq] at hstep
    have hone : s.writers = [w] ++ rest := hw
    obtain ⟨heq, -⟩ | heq | ⟨heq, hroom⟩ | heq | ⟨heq, himm⟩ :=
      makeRoomTurn_cases byteSize s w rest force allowDelay input <;> rw [← hstep, heq]
    · exact h.pop hone rfl (by simp) (by simp) rfl rfl htmp
    · exact h.of_front rfl (List.prefix_refl _) ⟨htmp, w, rest, hw, hswitched⟩
    · have hforce : force = false := by simp_all [findsRoom]
      cases hb : w.batch with
      | none =>
        simp only [afterRoom, hb]
        refine h.pop hone rfl ?_ ?_ rfl rfl htmp <;> intro v hv <;> cases List.mem_singleton.mp hv
        · exact fun _ _ => hswitched hb hforce
        · exact fun _ => ⟨0, by simp [Writer.ops, hb, LogRecord.entries]⟩
      | some b =>
        refine h.afterRoom_some hw hb htmp fun waiting hwaiting hfit v hv => ?_
        simp only [hroom, hb, Option.isSome_some, Bool.true_and, List.any_eq_false, List.mem_inits] at hP
        refine Option.isSome_iff_ne_none.mpr fun hnull => hP waiting hwaiting ?_
        simpa [hfit] using ⟨v, hv, hnull⟩
    · exact h
    · exact h.switchMem hw htmp himm hswitched
  · cases hstep

theorem SwitchInv.insert (h : s.SwitchInv) (hstep : s.step byteSize .insert = some s') : s'.SwitchInv := by
  have hfront := h.front
  simp only [step] at hstep
  split at hstep
  · rename_i g r count hl
    rw [hl] at hfront
    obtain ⟨hgroup, hsome, hmem⟩ := hfront
    split at hstep
    · rename_i e he
      cases hstep
      refine h.of_front rfl (List.prefix_append _ _) ⟨hgroup.mono (List.prefix_refl _) rfl rfl, hsome, ?_⟩
      obtain ⟨before, hbefore⟩ := hmem
      exact ⟨before, by rw [List.take_add_one, he, ← hbefore, Option.toList_some, List.append_assoc]⟩
    · rename_i hnone
      cases hstep
      refine h.of_front rfl (List.prefix_refl _) ⟨hgroup.mono (List.prefix_refl _) rfl rfl, hsome, fun _ => ?_⟩
      rwa [List.take_of_length_le (List.getElem?_eq_none_iff.mp hnone)] at hmem
  · cases hstep

theorem SwitchInv.finish (h : s.SwitchInv) (hstep : s.step byteSize .finish = some s') : s'.SwitchInv := by
  have hfront := h.front
  simp only [step] at hstep
  split at hstep
  · rename_i g r ok syncError hl
    cases hstep
    rw [hl] at hfront
    obtain ⟨hgroup, hsome, hmem⟩ := hfront
    obtain ⟨rest, hw⟩ := hgroup.members
    refine h.pop hw.symm hgroup.last ?_ ?_ rfl rfl ?_
    · intro w hw hnull
      simpa [hnull] using hsome w hw
    · intro w hw hok
      refine insertedIn_of_mem hw hgroup.ops ((hmem hok).isInfix.trans ?_)
      exact (List.suffix_append _ _).isInfix
    · show (if g.inTmp = true then [] else s.tmpBatch) = []
      cases htmp : g.inTmp with
      | true => rfl
      | false => exact hgroup.tmp htmp
  · cases hstep

theorem SwitchInv.step (h : s.SwitchInv) {e : WriteEvent α} (hP : s.takesNull byteSize e = false)
    (hstep : s.step byteSize e = some s') : s'.SwitchInv := by
  have hfront := h.front
  cases e with
  | call batch sync => exact h.call hstep
  | makeRoom input => exact h.makeRoom hP hstep
  | insert => exact h.insert hstep
  | finish => exact h.finish hstep
  | lead =>
    simp only [WriteState.step] at hstep
    split at hstep
    · rename_i w rest hl hw
      cases hstep
      rw [hl] at hfront
      refine h.of_front rfl (List.prefix_refl _) ⟨hfront, w, rest, hw, fun hnull hforce => ?_⟩
      simp [hnull] at hforce
    · cases hstep
  | addRecord ok =>
    simp only [WriteState.step] at hstep
    split at hstep
    · rename_i g r hl
      rw [hl] at hfront
      split at hstep <;> cases hstep
      · exact h.of_front rfl (List.prefix_refl _) ⟨hfront.1.mono (List.prefix_refl _) rfl rfl, hfront.2⟩
      · exact h.of_front rfl (List.prefix_refl _) ⟨hfront.1.mono (List.prefix_refl _) rfl rfl, hfront.2, by simp⟩
    · cases hstep
  | sync ok =>
    simp only [WriteState.step] at hstep
    split at hstep
    · rename_i g r w rest hl hw
      rw [hl] at hfront
      have hgroup := hfront.1
      split at hstep
      · cases hstep
        exact h.of_front rfl (List.prefix_refl _) ⟨hgroup.mono (List.prefix_refl _) rfl rfl, hfront.2, by simp⟩
      split at hstep <;> cases hstep
      · exact h.of_front rfl (List.prefix_refl _)
          ⟨⟨hgroup.members, hgroup.last, hgroup.tmp, hgroup.sequence, hgroup.ops, hgroup.sync⟩, hfront.2, by simp⟩
      · exact h.of_front rfl (List.prefix_refl _) ⟨hgroup.mono (List.prefix_refl _) rfl rfl, hfront.2, by simp⟩
    · cases hstep
  | ret index =>
    simp only [WriteState.step, Option.map_eq_some_iff] at hstep
    obtain ⟨f, hf, rfl⟩ := hstep
    refine h.of_queue_eq rfl ?_ (List.prefix_refl _) (List.prefix_refl _) (List.prefix_refl _)
      (hfront.mono (List.prefix_refl _) rfl fun w _ hw => hw)
    intro f' hf'
    obtain hf' | rfl := List.mem_append.mp hf' |>.imp_right List.mem_singleton.mp
    · exact h.returned f' hf'
    · exact List.mem_of_getElem? hf
  | flush =>
    simp only [WriteState.step, Option.map_eq_some_iff] at hstep
    obtain ⟨entries, himm, rfl⟩ := hstep
    have hkept : s.tables ++ s.imm.getD [] <+: s.tables ++ entries ++ (none : Option (List (ℕ × α))).getD [] := by
      simp [himm]
    refine h.of_queue_eq rfl h.returned (List.prefix_refl _) hkept (by simp [WriteState.inserted, himm])
      (hfront.mono (List.prefix_refl _) rfl fun w _ hw => hw.mono (List.prefix_refl _) (fun v hv => .inl hv) hkept)
  | bgError =>
    cases hstep
    exact h.of_front rfl (List.prefix_refl _) (hfront.mono (List.prefix_refl _) rfl fun w _ hw => hw)

end Steps

theorem nullSwitches_of_run {s : WriteState α} (h : WriteRun byteSize (fun s e => s.takesNull byteSize e = false) s) :
    s.NullSwitches := by
  have hinv : s.SwitchInv := by
    induction h with
    | init => exact switchInv_init
    | step _ hP hstep ih => exact ih.step hP hstep
  exact fun f hf hnull hok => hinv.finished f (hinv.returned f hf) hnull hok

/-- A null batch comes after another write and finds itself at the front. -/
theorem nullSwitches_of_run_front : ∃ s : WriteState ℕ, WriteRun List.length (fun s e => s.takesNull List.length e = false) s ∧
    s.returned.map (fun f => (f.1.batch, f.2)) = [(none, true)] ∧ s.imm = some [(1, 5)] ∧ s.NullSwitches := by
  have hrun : (runEvents List.length (fun s e => s.takesNull List.length e = false) (init : WriteState ℕ)
      [.call (some [5]) false, .lead, .makeRoom ⟨false, true, false, true, true⟩, .call none false, .addRecord true,
        .sync true, .insert, .insert, .finish, .lead, .makeRoom ⟨false, true, false, true, true⟩,
        .makeRoom ⟨false, true, false, true, true⟩, .ret 1]).map
      (fun s => (s.returned.map fun f => (f.1.batch, f.2), s.imm)) = some ([(none, true)], some [(1, 5)]) := by
    decide +kernel
  obtain ⟨s, hs, heq⟩ := Option.map_eq_some_iff.mp hrun
  rw [Prod.mk.injEq] at heq
  have h := WriteRun.init.runEvents hs
  exact ⟨s, h, heq.1, heq.2, nullSwitches_of_run h⟩

/-- While a write is logged, another one and then a null batch come. The null batch returns with
the group of the other. -/
theorem not_nullSwitches : ¬ ∀ s : WriteState ℕ, WriteRun List.length (fun _ _ => True) s → s.NullSwitches := by
  intro hall
  let room : RoomInput := ⟨false, true, false, true, true⟩
  have hrun : (runEvents List.length (fun _ _ => True) (init : WriteState ℕ)
      [.call (some [4]) false, .lead, .makeRoom room, .call (some [5]) false, .call none false, .addRecord true,
        .sync true, .insert, .insert, .finish, .lead, .makeRoom room, .addRecord true, .sync true, .insert, .insert,
        .finish, .ret 2]).map
      (fun s => (s.returned.map fun f => (f.1.batch, f.2), s.switches.length)) = some ([(none, true)], 0) := by
    decide +kernel
  obtain ⟨s, hs, heq⟩ := Option.map_eq_some_iff.mp hrun
  rw [Prod.mk.injEq] at heq
  obtain ⟨hreturned, hswitches⟩ := heq
  obtain ⟨f, hf, hnull⟩ : ∃ f ∈ s.returned, (f.1.batch, f.2) = (none, true) := by
    rw [← List.mem_map, hreturned]
    exact List.mem_singleton_self _
  rw [Prod.mk.injEq] at hnull
  obtain ⟨sw, hsw, -⟩ := hall s (WriteRun.init.runEvents hs) f hf hnull.1 hnull.2
  rw [List.length_eq_zero_iff] at hswitches
  simp [hswitches] at hsw

end WriteState

end TLevelDB.Db
