import TLevelDB.Log.Corruption

/-!
# Reading without checksums

`log::Reader` can be told not to compare checksums. Then it takes every physical record whose
length fits its block. It reads what a reader with checksums reads if that one never reports a
mismatch (`readUnchecked_eq`): all else that a reader checks, both of them check.
-/

namespace TLevelDB.Log

/-- The records that a reader without checksums returns. -/
def readUnchecked (file : List UInt8) : List (List UInt8) := (Reader.create file false 0).readAll.1

namespace Reader

/-- The same reader, without checksums. -/
def unchecked (r : Reader) : Reader := { r with checksum := false }

/-- No mismatch has been reported. -/
def NoMismatch (r : Reader) : Prop := ∀ report ∈ r.reports, report.2 ≠ "checksum mismatch"

variable {r : Reader} {ps : List PhysicalRead} {quiet : Bool}

/-- Both check all else. From the beginning of a file on, every mismatch is reported. -/
theorem parseBuffer_unchecked (h0 : r.initialOffset = 0) (h : r.parseBuffer.2.NoMismatch) :
    r.unchecked.parseBuffer = (r.parseBuffer.1, r.parseBuffer.2.unchecked) := by
  by_cases hmismatch : r.checksum = true ∧
      value ((r.buffer.drop 6).take (1 + headerLength r.buffer)) ≠ unmask (decodeFixed32 r.buffer)
  · simp only [parseBuffer, reportCorruption_eq, unchecked, offset, hmismatch] at h ⊢
    split_ifs at h ⊢ <;> simp_all [NoMismatch, dropped]
    exact h _ _ (.inr ⟨rfl, rfl⟩) rfl
  · simp only [parseBuffer, reportCorruption_eq, unchecked, offset, hmismatch, if_false] at h ⊢
    split_ifs at h ⊢ <;> simp_all

theorem readPhysicalRecord_unchecked (h0 : r.initialOffset = 0) (h : r.readPhysicalRecord.2.NoMismatch) :
    r.unchecked.readPhysicalRecord = (r.readPhysicalRecord.1, r.readPhysicalRecord.2.unchecked) := by
  have hrefill : r.unchecked.refill = r.refill.unchecked ∧ r.refill.initialOffset = 0 := by
    by_cases h : r.buffer.length < kHeaderSize ∧ r.eof = false <;> simp [refill, unchecked, h, h0]
  rw [readPhysicalRecord] at h ⊢
  rw [readPhysicalRecord, hrefill.1]
  by_cases hshort : r.refill.buffer.length < kHeaderSize
  · rw [if_pos hshort, if_pos (show r.refill.unchecked.buffer.length < kHeaderSize from hshort)]
    rfl
  · rw [if_neg hshort] at h ⊢
    rw [if_neg (show ¬ r.refill.unchecked.buffer.length < kHeaderSize from hshort)]
    exact parseBuffer_unchecked hrefill.2 h

theorem exists_trace (r : Reader) : ∃ ps, Trace false r ps := by
  induction hn : r.unread using Nat.strong_induction_on generalizing r with
  | _ n ih =>
    by_cases heof : r.readPhysicalRecord.1 = .eof
    · exact ⟨[], .eof heof (by simp)⟩
    · have hlt := (consumes_readPhysicalRecord r).unread heof
      obtain ⟨ps, htrace⟩ := ih _ (hn ▸ hlt) r.readPhysicalRecord.2.core rfl
      exact ⟨_, .step heof htrace⟩

/-- Without checksums the results are the same. -/
theorem trace_unchecked (h : Trace quiet r ps) (h0 : r.initialOffset = 0) (hr : r.reports = [])
    (hno : ∀ p ∈ ps, ∀ report ∈ p.reports, report.2 ≠ "checksum mismatch") : Trace quiet r.unchecked ps := by
  induction h with
  | @eof r heof hunread =>
    have hreports := ((consumes_readPhysicalRecord r).reports heof).trans hr
    have heq := readPhysicalRecord_unchecked h0 (by simp [NoMismatch, hreports])
    exact .eof (by rw [heq]; exact heof) (by rw [heq]; exact hunread)
  | @step r ps hne _ ih =>
    obtain ⟨hhead, htail⟩ := List.forall_mem_cons.mp hno
    have heq := readPhysicalRecord_unchecked h0 hhead
    have hstep := @Trace.step quiet r.unchecked ps
    simp only [physicalRead, heq] at hstep
    exact hstep hne (ih ((initialOffset_readPhysicalRecord r).trans h0) rfl htail)

/-- What is reported of a physical record stays. -/
theorem mem_reports_scan (h : Trace quiet r ps) {p : PhysicalRead} (hp : p ∈ ps) {report : ℕ × String}
    (hreport : report ∈ p.reports) (initial : ℕ) (resync : Bool) (state : Option (ℕ × List UInt8)) :
    report ∈ (scan initial resync state ps).2 := by
  induction h generalizing resync state with
  | eof => exact absurd hp List.not_mem_nil
  | @step r ps hne _ ih =>
    rcases List.mem_cons.mp hp with rfl | hp
    · exact List.mem_append_left _ hreport
    · have hrest := ih hp
      change r.physicalRead.physical ≠ .eof at hne
      generalize r.physicalRead = q at hne ⊢
      obtain ⟨physical, o, reports⟩ := q
      cases physical <;> cases resync <;> cases state <;> simp_all [scan, Found.report, Found.record]

end Reader

/-- A reader with checksums reports no mismatch. -/
def NoMismatch (file : List UInt8) : Prop := (Reader.create file true 0).readAll.2.NoMismatch

instance (file : List UInt8) : Decidable (NoMismatch file) := inferInstanceAs (Decidable (∀ report ∈ _, _ ≠ _))

/-- Then a reader without checksums reads the same records. -/
theorem readUnchecked_eq {file : List UInt8} (h : NoMismatch file) : readUnchecked file = read file := by
  obtain ⟨ps, htrace⟩ := Reader.exists_trace (Reader.create file true 0).core
  have hfuel := Nat.lt_succ_of_le htrace.length_le
  have hfinds := Reader.readPlacedLoop_of_zero rfl htrace hfuel
  have hno : ∀ p ∈ ps, ∀ report ∈ p.reports, report.2 ≠ "checksum mismatch" := by
    intro p hp report hreport
    rw [NoMismatch, Reader.readAll, readAllLoop_eq] at h
    exact h report (hfinds.reports ▸ Reader.mem_reports_scan htrace hp hreport _ _ _)
  have htrace' : Trace false (Reader.create file false 0).core ps :=
    @Reader.trace_unchecked (Reader.create file true 0).core _ _ htrace rfl rfl hno
  have hfinds' := Reader.readPlacedLoop_of_zero rfl htrace' hfuel
  rw [readUnchecked, read, Reader.readAll, Reader.readAll, readAllLoop_eq, readAllLoop_eq]
  exact congrArg (List.map Prod.snd) (hfinds'.records.trans hfinds.records.symm)

end TLevelDB.Log
