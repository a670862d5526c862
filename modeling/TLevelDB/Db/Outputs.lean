import TLevelDB.Db.System

/-!
# The outputs of a compaction

What the calls of `DoCompactionWork` write: each turn of its loop finishes the output that is
being built, opens one, or adds to it.
-/

namespace TLevelDB.Db

open TLevelDB.Storage

variable {K V β : Type} [LinearOrder K] {F : Formats K V β} {o : Options K V} {cs : CompactionState K V} {next : ℕ}
  {e : Entry K V}

/-! ### Numbers -/

omit [LinearOrder K] in
/-- Outputs are never given up. -/
theorem outputNumbers_subset_add (cs : CompactionState K V) (next : ℕ) (e : Entry K V) :
    cs.outputNumbers ⊆ (cs.add next e).1.outputNumbers := by
  unfold CompactionState.add
  cases h : cs.builder with
  | none => simp [CompactionState.outputNumbers, h]
  | some b => simp [CompactionState.outputNumbers, h]

theorem outputNumbers_shouldStopBefore (o : Options K V) (cs : CompactionState K V) (key : InternalKey K) :
    (cs.shouldStopBefore o key).2.outputNumbers = cs.outputNumbers := by
  obtain ⟨left, bytes, heq⟩ := shouldStopBefore_eq o cs key
  rw [heq]
  rfl

/-! ### The parts of a turn -/

/-- The state after the loop has finished an output if it should stop before the entry. -/
def CompactionState.stop (o : Options K V) (cs : CompactionState K V) (e : Entry K V) : CompactionState K V :=
  if (cs.shouldStopBefore o e.key).1 then (cs.shouldStopBefore o e.key).2.finishOutput o
  else (cs.shouldStopBefore o e.key).2

/-- The calls of that. -/
def Formats.stopCalls (F : Formats K V β) (o : Options K V) (cs : CompactionState K V) (e : Entry K V) :
    List (EnvCall β) :=
  if (cs.shouldStopBefore o e.key).1 then F.finishOutputCalls (cs.shouldStopBefore o e.key).2 else []

omit [LinearOrder K] in
/-- The state after the loop has closed an output that is big enough. -/
def CompactionState.close (o : Options K V) (cs : CompactionState K V) : CompactionState K V :=
  if cs.builder.any (fun b => o.maxFileSize ≤ o.builderSize b.table) then cs.finishOutput o else cs

omit [LinearOrder K] in
/-- The calls of that. -/
def Formats.closeCalls (F : Formats K V β) (o : Options K V) (cs : CompactionState K V) : List (EnvCall β) :=
  if cs.builder.any (fun b => o.maxFileSize ≤ o.builderSize b.table) then F.finishOutputCalls cs else []

theorem compactEntry_eq (o : Options K V) (cs : CompactionState K V) (next : ℕ) (e : Entry K V) :
    cs.compactEntry o next e =
      if ((cs.stop o e).dropEntry e).1 then (((cs.stop o e).dropEntry e).2, next)
      else ((((cs.stop o e).dropEntry e).2.add next e).1.close o, (((cs.stop o e).dropEntry e).2.add next e).2) := by
  simp only [CompactionState.compactEntry, ← CompactionState.stop.eq_1, CompactionState.close]
  split_ifs <;> rfl

theorem compactEntryCalls_eq (F : Formats K V β) (o : Options K V) (cs : CompactionState K V) (next : ℕ) (e : Entry K V) :
    F.compactEntryCalls o cs next e = F.stopCalls o cs e ++
      if ((cs.stop o e).dropEntry e).1 then []
      else F.addCalls ((cs.stop o e).dropEntry e).2 next e ++
        F.closeCalls o (((cs.stop o e).dropEntry e).2.add next e).1 := by
  simp only [Formats.compactEntryCalls, ← CompactionState.stop.eq_1, ← Formats.stopCalls.eq_1, Formats.closeCalls]
  split_ifs <;> simp

theorem outputNumbers_stop (o : Options K V) (cs : CompactionState K V) (e : Entry K V) :
    (cs.stop o e).outputNumbers = cs.outputNumbers := by
  unfold CompactionState.stop
  split_ifs
  · rw [outputNumbers_finishOutput, outputNumbers_shouldStopBefore]
  · exact outputNumbers_shouldStopBefore o cs e.key

omit [LinearOrder K] in
theorem outputNumbers_close (o : Options K V) (cs : CompactionState K V) :
    (cs.close o).outputNumbers = cs.outputNumbers := by
  unfold CompactionState.close
  split_ifs
  · exact outputNumbers_finishOutput o cs
  · rfl

/-! ### Calls -/

variable {c : EnvCall β} {name : FileName}

omit [LinearOrder K] in
theorem writes_finishOutputCalls (hc : c ∈ F.finishOutputCalls cs) (hw : c.Writes name) :
    ∃ n ∈ cs.outputNumbers, name = .table n := by
  unfold Formats.finishOutputCalls at hc
  split at hc
  · cases hc
  next b hb =>
    refine ⟨b.number, by simp [CompactionState.outputNumbers, hb], ?_⟩
    simp only [List.mem_cons, List.not_mem_nil, or_false] at hc
    rcases hc with rfl | rfl <;> exact hw.symm

omit [LinearOrder K] in
theorem writes_addCalls (hc : c ∈ F.addCalls cs next e) (hw : c.Writes name) :
    ∃ n ∈ (cs.add next e).1.outputNumbers, name = .table n := by
  unfold Formats.addCalls at hc
  split at hc
  next hb =>
    refine ⟨next, by simp [CompactionState.add, hb, CompactionState.outputNumbers], ?_⟩
    simp only [List.mem_cons, List.not_mem_nil, or_false] at hc
    rcases hc with rfl | rfl <;> exact hw.symm
  next b hb =>
    refine ⟨b.number, by simp [CompactionState.add, hb, CompactionState.outputNumbers], ?_⟩
    rw [List.mem_singleton.mp hc] at hw
    exact hw.symm

theorem writes_stopCalls (hc : c ∈ F.stopCalls o cs e) (hw : c.Writes name) :
    ∃ n ∈ cs.outputNumbers, name = .table n := by
  unfold Formats.stopCalls at hc
  split_ifs at hc
  · rw [← outputNumbers_shouldStopBefore o cs e.key]
    exact writes_finishOutputCalls hc hw
  · cases hc

omit [LinearOrder K] in
theorem writes_closeCalls (hc : c ∈ F.closeCalls o cs) (hw : c.Writes name) : ∃ n ∈ cs.outputNumbers, name = .table n := by
  unfold Formats.closeCalls at hc
  split_ifs at hc
  · exact writes_finishOutputCalls hc hw
  · cases hc

theorem writes_compactEntryCalls (hc : c ∈ F.compactEntryCalls o cs next e) (hw : c.Writes name) :
    ∃ n ∈ (cs.compactEntry o next e).1.outputNumbers, name = .table n := by
  have hdrop : ((cs.stop o e).dropEntry e).2.outputNumbers = cs.outputNumbers := by
    rw [outputNumbers_dropEntry, outputNumbers_stop]
  have hadd := outputNumbers_subset_add ((cs.stop o e).dropEntry e).2 next e
  rw [compactEntryCalls_eq, List.mem_append] at hc
  rw [compactEntry_eq]
  rcases hc with hc | hc
  · obtain ⟨n, hn, rfl⟩ := writes_stopCalls hc hw
    rw [← hdrop] at hn
    split_ifs
    · exact ⟨n, hn, rfl⟩
    · exact ⟨n, by rw [outputNumbers_close]; exact hadd hn, rfl⟩
  · split_ifs at hc ⊢
    · cases hc
    · rw [outputNumbers_close]
      rcases List.mem_append.mp hc with hc | hc
      · exact writes_addCalls hc hw
      · exact writes_closeCalls hc hw

theorem writes_turnCalls {r : CompactionState K V × ℕ} (hr : cs.turn o next = some r) (hc : c ∈ F.turnCalls o cs next)
    (hw : c.Writes name) : ∃ n ∈ r.1.outputNumbers, name = .table n := by
  unfold CompactionState.turn at hr
  unfold Formats.turnCalls at hc
  split at hr
  · cases hr
  next e input hinput =>
    cases hr
    simp only [hinput] at hc
    exact writes_compactEntryCalls hc hw

omit [LinearOrder K] in
theorem finishOutputCalls_not_remove : Call.remove name ∉ F.finishOutputCalls cs := by
  unfold Formats.finishOutputCalls
  split <;> simp

theorem turnCalls_not_remove : Call.remove name ∉ F.turnCalls o cs next := by
  unfold Formats.turnCalls
  split
  · simp
  next e input _ =>
    rw [compactEntryCalls_eq, List.mem_append, not_or]
    refine ⟨?_, ?_⟩
    · unfold Formats.stopCalls
      split_ifs
      · exact finishOutputCalls_not_remove
      · simp
    · split_ifs
      · simp
      · rw [List.mem_append, not_or]
        refine ⟨?_, ?_⟩
        · unfold Formats.addCalls
          split <;> simp
        · unfold Formats.closeCalls
          split_ifs
          · exact finishOutputCalls_not_remove
          · simp

end TLevelDB.Db
