import TLevelDB.Lib.Formats
import TLevelDB.Log.Reuse

/-!
# Logs that are cut off

A reader of a log that was cut off at some byte returns the records that are there as a
whole, and has nothing to report: `ReportCorruption` is called for what a writer that
stopped cannot have left behind (`readAll_take`). So what `log::Writer` and
`log::Reader` do is a format for logs (`recordFormat`).
-/

namespace TLevelDB.Log

open Reader Storage

/-! ### What a writer leaves behind -/

theorem Clean.of_append {inFragmented : Bool} {ps qs : List Physical} (h : Clean inFragmented (ps ++ qs)) :
    Clean inFragmented ps := by
  induction ps generalizing inFragmented with
  | nil => trivial
  | cons p ps ih => cases inFragmented <;> cases p <;> first | exact ih h | exact h.elim

theorem Tail.clean {left : List UInt8} {fs : List Fragment} (h : Tail left fs) {ps : List Physical}
    (hps : Clean false ps) : Clean true (fs.map Fragment.toPhysical ++ ps) := by
  induction h with
  | last => exact hps
  | middle _ _ ih => exact ih

theorem clean_fragmentsOf (room : ℕ) (rs : List (List UInt8)) :
    Clean false ((fragmentsOf room rs).map Fragment.toPhysical) := by
  induction rs generalizing room with
  | nil => trivial
  | cons r rs ih =>
    rw [fragmentsOf, List.map_append]
    have hrest := ih (roomAfter room (fragments room r))
    have h := fragmented_fragments room r
    generalize fragments room r = fs at h hrest
    cases h with
    | full => exact hrest
    | first _ htail => exact htail.clean hrest

variable {rs : List (List UInt8)} {t : ℕ}

/-- A reader of a log that was cut off finds the fragments of the records that are whole,
and may find some of the next record. -/
theorem exists_parses_take (ht : t ≤ (write rs).length) :
    ∃ fs state, Cut rs t fs state ∧ Parses true 0 ((write rs).take t) (fs.map Fragment.toPhysical) := by
  obtain ⟨fs, state, hcut, -, hends⟩ | ⟨fs, state, f, j, hcut⟩ := cut_cases ht
  · -- nothing follows the trailer
    have hparses := hends.parses true (m := 0) hcut.fits hcut.types (size_full_le _) (by simp [Fragment.size, kHeaderSize])
    rw [List.take_zero, List.append_nil] at hparses
    exact ⟨fs, state, hcut, hparses⟩
  · have htorn := @Parses.torn_fragment true _ f j (start_le (roomAfter_le le_rfl fs)) hcut.fit hcut.lt
    have hparses := Parses.layout le_rfl hcut.fits hcut.types htorn.gap
    rw [List.append_nil, ← hcut.take] at hparses
    exact ⟨fs, state, hcut.toCut, .trailer (by decide) (Nat.zero_le _) hparses⟩

theorem Cut.clean {fs : List Fragment} {state : Option (List UInt8)}
    (h : Cut rs t fs state) : Clean false (fs.map Fragment.toPhysical) := by
  obtain ⟨rest, hrest⟩ := h.initial
  have hclean := clean_fragmentsOf kBlockSize rs
  rw [← hrest, List.map_append] at hclean
  exact hclean.of_append

/-- **A log that was cut off**: its records that are there as a whole are read. -/
theorem read_take (ht : t ≤ (write rs).length) :
    read ((write rs).take t) = wholeRecords rs t := by
  obtain ⟨fs, state, hcut, hparses⟩ := exists_parses_take ht
  have hrecords := hcut.records []
  rw [List.append_nil, show assemble state [] = [] by simp [assemble], List.append_nil] at hrecords
  exact (read_eq hparses).trans hrecords

/-- It is read to its end, and is not corrupt. -/
theorem readAll_take (ht : t ≤ (write rs).length) : (Reader.create ((write rs).take t) true 0).readAll.2.reports = [] ∧
      (Reader.create ((write rs).take t) true 0).readAll.2.unread = 0 := by
  obtain ⟨fs, state, hcut, hparses⟩ := exists_parses_take ht
  exact (readAllLoop_spec hparses (at_create _) (Nat.lt_succ_of_le (at_create _).unread.ge)).2 rfl hcut.clean

/-- A reader of the file reports no corruption. -/
def intact (file : List UInt8) : Bool := (Reader.create file true 0).readAll.2.reports.isEmpty

theorem intact_of_prefix_write {bytes : List UInt8} (h : bytes <+: write rs) :
    intact bytes = true := by
  rw [List.prefix_iff_eq_take.mp h, intact, (readAll_take h.length_le).1]
  rfl

/-! ### Records at an offset -/

/-- What a writer appends for a record to a file of that length. -/
def encodeRecord (offset : ℕ) (r : List UInt8) : List UInt8 := ((Writer.reopen ⟨[], []⟩ offset).addRecord r).2.dest.bytes

theorem encodeRecord_eq (offset : ℕ) (r : List UInt8) :
    encodeRecord offset r = layout (kBlockSize - offset % kBlockSize) (fragments (kBlockSize - offset % kBlockSize) r) := by
  have hspec := Writer.addRecords_spec (w := Writer.reopen ⟨[], []⟩ offset) (Nat.mod_lt _ (by decide)).le rfl [r]
  simpa [Writer.addRecords, fragmentsOf, encodeRecord, Writer.room, Writer.reopen] using hspec

/-- Where fragments lie depends on the block in which they begin. -/
theorem layout_fragmentsOf_congr {room room' : ℕ} (hgap : gap room = gap room') (hstart : start room = start room')
    (rs : List (List UInt8)) : layout room (fragmentsOf room rs) = layout room' (fragmentsOf room' rs) := by
  cases rs with
  | nil => rfl
  | cons r rs =>
    have hfragments : fragments room r = fragments room' r := by
      rw [fragments, fragments, fragmentsLoop_succ _ room, fragmentsLoop_succ _ room', hstart]
    rw [fragmentsOf, fragmentsOf, hfragments]
    cases hfs : fragments room' r with
    | nil => exact absurd hfs (by rw [fragments, fragmentsLoop_succ]; simp)
    | cons f fs => simp only [roomAfter, List.cons_append, layout, hgap, hstart]

/-- What is left of the block in which a file of that length ends. -/
def roomAt (length : ℕ) : ℕ := kBlockSize - length % kBlockSize

/-- A writer that only knows how long the file is begins the next fragment where it should. -/
theorem roomAt_write (rs : List (List UInt8)) :
    gap (roomAt (write rs).length) = gap (roomAfter kBlockSize (fragmentsOf kBlockSize rs)) ∧
      start (roomAt (write rs).length) = start (roomAfter kBlockSize (fragmentsOf kBlockSize rs)) := by
  rw [write_eq]
  set fs := fragmentsOf kBlockSize rs with hfs
  have hends : EndsAt (layout kBlockSize fs ++ List.replicate 0 0) fs (roomAt (layout kBlockSize fs).length) :=
    endsAt_of_mod (fits_fragmentsOf _ _) (Nat.zero_le _) (Nat.mod_lt _ (by decide)).le (by simp)
  obtain ⟨zeros, -, hbytes, hgap, hstart⟩ := hends
  have hzeros : zeros = 0 := by simpa using congrArg List.length hbytes
  rw [hzeros, Nat.sub_zero] at hgap
  exact ⟨hgap, hstart⟩

theorem write_append (rs more : List (List UInt8)) :
    write (rs ++ more) = write rs ++ layout (roomAt (write rs).length) (fragmentsOf (roomAt (write rs).length) more) := by
  obtain ⟨hgap, hstart⟩ := roomAt_write rs
  rw [layout_fragmentsOf_congr hgap hstart, write_eq, write_eq, fragmentsOf_append, layout_append]

theorem write_snoc (rs : List (List UInt8)) (r : List UInt8) :
    write (rs ++ [r]) = write rs ++ encodeRecord (write rs).length r := by
  rw [write_append, encodeRecord_eq, fragmentsOf, fragmentsOf, List.append_nil]
  rfl

theorem writeRecords_encodeRecord (rs : List (List UInt8)) : writeRecords encodeRecord rs = write rs := by
  induction rs using List.reverseRecOn with
  | nil => rfl
  | append_singleton rs r ih =>
    rw [write_snoc, ← ih]
    simp [writeRecords]

theorem read_write (rs : List (List UInt8)) : read (write rs) = rs := by
  have hread := read_take (le_refl (write rs).length)
  rwa [List.take_length, wholeRecords_length] at hread

/-- Nothing is read of a record that is not whole. -/
theorem read_write_torn {r bytes : List UInt8}
    (hle : bytes <+: encodeRecord (write rs).length r) (hne : bytes ≠ encodeRecord (write rs).length r) :
    read (write rs ++ bytes) = rs := by
  have hsnoc := write_snoc rs r
  have hprefix : write rs ++ bytes <+: write (rs ++ [r]) := by
    rw [hsnoc]
    exact List.prefix_append_right_inj _ |>.mpr hle
  have hlt : bytes.length < (encodeRecord (write rs).length r).length :=
    lt_of_le_of_ne hle.length_le fun heq => hne (hle.eq_of_length heq)
  have hwhole : wholeRecords (rs ++ [r]) (write rs ++ bytes).length = (rs ++ [r]).take rs.length := by
    refine wholeRecords_eq ?_ ?_
    · simp
    · rw [List.take_of_length_le (by simp), hsnoc, List.length_append, List.length_append]
      exact Nat.add_lt_add_left hlt _
  rw [List.prefix_iff_eq_take.mp hprefix, read_take hprefix.length_le, hwhole, List.take_left]

/-- The log of `log::Writer` and `log::Reader` as a format. -/
def recordFormat : LogFormat (List UInt8) UInt8 where
  encode := encodeRecord
  decode := read
  intact := intact
  decode_write rs := by rw [writeRecords_encodeRecord, read_write]
  decode_torn rs r bytes hle hne := by
    rw [writeRecords_encodeRecord] at hle hne ⊢
    exact read_write_torn hle hne
  intact_of_prefix rs bytes hle := intact_of_prefix_write (writeRecords_encodeRecord rs ▸ hle)

end TLevelDB.Log
