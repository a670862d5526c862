import TLevelDB.Log.RoundTrip

/-!
# A log whose file fails

A writer goes on after a call of `Append` that failed, and counts the bytes that the call
was to write. It writes where a reader looks as long as its `block_offset_` agrees with the
length of the file (`Writer.Aligned`) and the trailers of blocks are not cut off.
-/

namespace TLevelDB.Log

/-! ### Where a file ends -/

/-- The file ends after these fragments or in the trailer after them, and this much is left
of the block. -/
def EndsAt (bytes : List UInt8) (fs : List Fragment) (room : ℕ) : Prop :=
  ∃ zeros ≤ gap (roomAfter kBlockSize fs), bytes = layout kBlockSize fs ++ List.replicate zeros 0 ∧
    gap room = gap (roomAfter kBlockSize fs) - zeros ∧ start room = start (roomAfter kBlockSize fs)

section EndsAt

variable {bytes : List UInt8} {fs gs : List Fragment} {room : ℕ} {f : Fragment}

theorem size_full_le (room : ℕ) : (⟨.full, []⟩ : Fragment).size ≤ start room := kHeaderSize_le_start room

theorem gap_add_start (room : ℕ) : gap room + start room = room ∨ gap room + start room = room + kBlockSize := by
  by_cases h : room < kHeaderSize
  · rw [gap_of_lt h, start_of_lt h]
    omega
  · rw [gap_of_le (Nat.not_lt.mp h), start_of_le (Nat.not_lt.mp h)]
    omega

theorem endsAt_nil : EndsAt [] [] kBlockSize := ⟨0, Nat.zero_le _, rfl, rfl, rfl⟩

/-- A reader of a file that ends in a trailer or in the fragment after it. -/
theorem EndsAt.parses (quiet : Bool) {m : ℕ} (h : EndsAt bytes fs room) (hfits : Fits kBlockSize fs)
    (htypes : ∀ f ∈ fs, f.type ≠ .zero) (hf : f.size ≤ start room) (hm : m < gap room + f.size) :
    Parses quiet 0 (bytes ++ (List.replicate (gap room) 0 ++ f.bytes).take m) (fs.map Fragment.toPhysical) := by
  obtain ⟨zeros, hzeros, rfl, hgap, hstart⟩ := h
  have hsplit : List.replicate zeros 0 ++ (List.replicate (gap room) 0 ++ f.bytes).take m =
      (List.replicate (gap (roomAfter kBlockSize fs)) 0 ++ f.bytes).take (zeros + m) := by
    have hadd : gap (roomAfter kBlockSize fs) = zeros + gap room := by omega
    have htake : ∀ l : List UInt8, (List.replicate zeros 0 ++ l).take (zeros + m) = List.replicate zeros 0 ++ l.take m := by
      intro l
      rw [List.take_append, List.take_of_length_le (by simp), List.length_replicate, Nat.add_sub_cancel_left]
    rw [hadd, List.replicate_add, List.append_assoc, htake]
  have htorn := @Parses.torn quiet _ f (zeros + m) (roomAfter_le le_rfl fs) (hstart ▸ hf) (by omega)
  have hparses := Parses.layout le_rfl hfits htypes htorn
  rw [List.append_nil, ← hsplit] at hparses
  rw [List.append_assoc]
  exact .trailer (by decide) (Nat.zero_le _) (by simpa using hparses)

theorem EndsAt.append (h : EndsAt bytes fs room) (gs : List Fragment) :
    EndsAt (bytes ++ layout room gs) (fs ++ gs) (roomAfter room gs) := by
  cases gs with
  | nil => simpa [layout, roomAfter] using h
  | cons g gs =>
    obtain ⟨zeros, hzeros, rfl, hgap, hstart⟩ := h
    have hroom : roomAfter kBlockSize (fs ++ g :: gs) = roomAfter room (g :: gs) := by
      rw [roomAfter_append, roomAfter, roomAfter, hstart]
    refine ⟨0, Nat.zero_le _, ?_, by rw [hroom, Nat.sub_zero], by rw [hroom]⟩
    have hadd : gap (roomAfter kBlockSize fs) = zeros + gap room := by omega
    rw [layout_append, layout, layout, hadd, ← hstart]
    simp only [List.replicate_add, List.replicate_zero, List.append_assoc, List.append_nil]

theorem EndsAt.fits (h : EndsAt bytes fs room) (hfits : Fits kBlockSize fs) (hgs : Fits room gs) :
    Fits kBlockSize (fs ++ gs) := by
  obtain ⟨zeros, -, -, -, hstart⟩ := h
  refine fits_append.mpr ⟨hfits, ?_⟩
  cases gs with
  | nil => trivial
  | cons g gs => rwa [Fits, ← hstart, ← Fits]

/-- Blocks are full but for the last. -/
theorem length_layout (hfits : Fits room fs) :
    ∃ blocks, (layout room fs).length + roomAfter room fs = room + blocks * kBlockSize := by
  induction fs generalizing room with
  | nil => exact ⟨0, by simp [layout, roomAfter]⟩
  | cons f fs ih =>
    obtain ⟨hfit, hfits⟩ := hfits
    obtain ⟨blocks, hblocks⟩ := ih hfits
    have hlen : (layout room (f :: fs)).length = gap room + f.size + (layout (start room - f.size) fs).length := by
      simp [layout, Nat.add_assoc]
    rw [roomAfter, hlen]
    by_cases hroom : room < kHeaderSize
    · refine ⟨blocks + 1, ?_⟩
      rw [start_of_lt hroom] at hfit hblocks ⊢
      rw [gap_of_lt hroom, Nat.add_mul]
      omega
    · have hle := Nat.not_lt.mp hroom
      refine ⟨blocks, ?_⟩
      rw [start_of_le hle] at hfit hblocks ⊢
      rw [gap_of_le hle]
      omega

/-- The length of the file says how much is left of the block. -/
theorem endsAt_of_mod {zeros offset : ℕ} (hfits : Fits kBlockSize fs) (hzeros : zeros ≤ gap (roomAfter kBlockSize fs))
    (hoffset : offset ≤ kBlockSize)
    (hmod : (layout kBlockSize fs ++ List.replicate zeros 0).length % kBlockSize = offset % kBlockSize) :
    EndsAt (layout kBlockSize fs ++ List.replicate zeros 0) fs (kBlockSize - offset) := by
  have hle := roomAfter_le le_rfl fs
  obtain ⟨blocks, hblocks⟩ := length_layout hfits
  refine ⟨zeros, hzeros, rfl, ?_⟩
  rw [List.length_append, List.length_replicate] at hmod
  revert hle hzeros hblocks
  generalize roomAfter kBlockSize fs = room
  intro hzeros hle hblocks
  -- the room that is left is this one, or one of the two is zero and the other is a whole block
  by_cases hroom : room < kHeaderSize
  · rw [gap_of_lt hroom] at hzeros ⊢
    rw [start_of_lt hroom]
    by_cases hleft : kBlockSize - offset < kHeaderSize
    · rw [gap_of_lt hleft, start_of_lt hleft]
      refine ⟨?_, rfl⟩
      simp only [kBlockSize, kHeaderSize] at *
      omega
    · rw [gap_of_le (Nat.not_lt.mp hleft), start_of_le (Nat.not_lt.mp hleft)]
      constructor <;> simp only [kBlockSize, kHeaderSize] at * <;> omega
  · rw [gap_of_le (Nat.not_lt.mp hroom)] at hzeros ⊢
    rw [start_of_le (Nat.not_lt.mp hroom)]
    by_cases hleft : kBlockSize - offset < kHeaderSize
    · rw [gap_of_lt hleft, start_of_lt hleft]
      constructor <;> simp only [kBlockSize, kHeaderSize] at * <;> omega
    · rw [gap_of_le (Nat.not_lt.mp hleft), start_of_le (Nat.not_lt.mp hleft)]
      constructor <;> simp only [kBlockSize, kHeaderSize] at * <;> omega

end EndsAt

/-! ### Runs of a writer -/

namespace Writer

/-- The `block_offset_` of the writer agrees with the length of the file. -/
def Aligned (w : Writer) : Prop := w.dest.bytes.length % kBlockSize = w.blockOffset % kBlockSize
deriving Decidable

/-- The records whose `AddRecord` returns OK, when these are added one after the other. -/
def okRecords : Writer → List (List UInt8) → List (List UInt8)
  | _, [] => []
  | w, r :: rs =>
    if (w.addRecord r).1 then r :: okRecords (w.addRecord r).2 rs else okRecords (w.addRecord r).2 rs

/-- Every record is added when the writer is aligned, and no trailer is cut off. -/
def AlignedRun : Writer → List (List UInt8) → Prop
  | _, [] => True
  | w, r :: rs => (w.Aligned ∧ w.TrailerWritten) ∧ AlignedRun (w.addRecord r).2 rs

instance decidableAlignedRun : (w : Writer) → (rs : List (List UInt8)) → Decidable (w.AlignedRun rs)
  | _, [] => isTrue trivial
  | w, r :: rs =>
    have := decidableAlignedRun (w.addRecord r).2 rs
    inferInstanceAs (Decidable (_ ∧ _))

/-- These records can be read, and a record that is added while the writer is aligned comes
where a reader looks for it. -/
def Sound (w : Writer) (oks : List (List UInt8)) : Prop :=
  w.blockOffset ≤ kBlockSize ∧ ∃ fs, Fits kBlockSize fs ∧ (∀ f ∈ fs, f.type ≠ .zero) ∧
    oks.Sublist (assemble none (fs.map Fragment.toPhysical)) ∧ Parses false 0 w.dest.bytes (fs.map Fragment.toPhysical) ∧
    (w.Aligned → EndsAt w.dest.bytes fs w.room)

theorem sound_of_endsAt {w : Writer} {oks : List (List UInt8)} {fs : List Fragment} (hoff : w.blockOffset ≤ kBlockSize)
    (hfits : Fits kBlockSize fs) (htypes : ∀ f ∈ fs, f.type ≠ .zero)
    (hoks : oks.Sublist (assemble none (fs.map Fragment.toPhysical))) (hends : EndsAt w.dest.bytes fs w.room) :
    w.Sound oks := by
  have hparses := hends.parses false (m := 0) hfits htypes (size_full_le _) (by simp [Fragment.size, kHeaderSize])
  exact ⟨hoff, fs, hfits, htypes, hoks, by simpa using hparses, fun _ => hends⟩

/-- After a fragment that was cut off the writer is only aligned when nothing of a whole
block was written. -/
theorem endsAt_of_torn {bytes : List UInt8} {fs : List Fragment} {room offset k : ℕ} {f : Fragment}
    (hends : EndsAt bytes fs room) (hfits : Fits kBlockSize fs) (hf : f.size ≤ start room) (hk : k < f.size)
    (hoffset : offset ≤ kBlockSize) (hroom : kBlockSize - offset = start room - f.size)
    (hmod : (bytes ++ (List.replicate (gap room) 0 ++ f.bytes.take k)).length % kBlockSize = offset % kBlockSize) :
    EndsAt (bytes ++ (List.replicate (gap room) 0 ++ f.bytes.take k)) fs (kBlockSize - offset) := by
  obtain ⟨zeros, hzeros, rfl, hgap, hstart⟩ := hends
  obtain ⟨blocks, hblocks⟩ := length_layout hfits
  have hle : start room ≤ kBlockSize := hstart ▸ start_le (roomAfter_le le_rfl fs)
  have hsum := gap_add_start (roomAfter kBlockSize fs)
  rw [← hstart] at hsum
  have hlen : (layout kBlockSize fs ++ List.replicate zeros 0 ++
      (List.replicate (gap room) 0 ++ f.bytes.take k)).length =
      (layout kBlockSize fs).length + gap (roomAfter kBlockSize fs) + k := by
    simp only [List.length_append, List.length_replicate, List.length_take, Fragment.length_bytes]
    omega
  rw [hlen] at hmod
  have hwhole : k = 0 ∧ f.size = kBlockSize := by
    simp only [kBlockSize] at *
    omega
  obtain ⟨rfl, hsize⟩ := hwhole
  have hroom' : kBlockSize - offset = 0 := by omega
  have hstart' : start room = kBlockSize := by omega
  refine ⟨gap (roomAfter kBlockSize fs), le_rfl, ?_, ?_, ?_⟩
  · have hadd : gap (roomAfter kBlockSize fs) = zeros + gap room := by omega
    rw [hadd, List.take_zero, List.append_nil, List.replicate_add, List.append_assoc]
  · rw [hroom', Nat.sub_self]
    rfl
  · rw [hroom', ← hstart, hstart']
    rfl

/-- A record that is added to a log that can be read leaves such a log. -/
theorem Sound.addRecord {w : Writer} {oks : List (List UInt8)} (h : w.Sound oks) (haligned : w.Aligned)
    (htrailer : w.TrailerWritten) (r : List UInt8) :
    (w.addRecord r).2.Sound (if (w.addRecord r).1 then oks ++ [r] else oks) := by
  obtain ⟨hoff, fs, hfits, htypes, hoks, -, hends⟩ := h
  have hends := hends haligned
  have hgs : Fits w.room (fragments w.room r) := (fragmented_fragments _ _).fits
  have htypes' : ∀ f ∈ fs ++ fragments w.room r, f.type ≠ .zero := fun f hf =>
    (List.mem_append.mp hf).elim (htypes f) ((fragmented_fragments _ _).type_ne_zero f)
  obtain ⟨state, hassemble⟩ := assemble_append fs none
  -- more fragments make more records
  have hmore : ∀ gs : List Fragment, oks.Sublist (assemble none ((fs ++ gs).map Fragment.toPhysical)) := by
    intro gs
    rw [List.map_append, hassemble]
    exact hoks.trans (List.sublist_append_left _ _)
  have hwrote := addRecord_spec hoff htrailer r
  generalize w.addRecord r = result at hwrote ⊢
  obtain ⟨ok, w'⟩ := result
  cases hwrote with
  | all hbytes hroom hoff' =>
    have hends' := hends.append (fragments w.room r)
    rw [← hbytes, ← hroom] at hends'
    refine sound_of_endsAt hoff' (hends.fits hfits hgs) htypes' ?_ hends'
    have hrecord := assemble_fragments w.room r state []
    rw [List.append_nil] at hrecord
    rw [List.map_append, hassemble, hrecord]
    exact hoks.append (List.Sublist.refl [r])
  | @failed done rest f k hfs hbytes hroom hoff' =>
    rw [hfs, List.append_cons, fits_append, fits_append] at hgs
    obtain ⟨⟨hdone, hf⟩, -⟩ := hgs
    have htypes'' : ∀ g ∈ fs ++ (done ++ [f]), g.type ≠ .zero := by
      intro g hg
      refine htypes' g ?_
      simp only [hfs, List.mem_append, List.mem_cons, List.not_mem_nil, or_false] at hg ⊢
      tauto
    by_cases hk : f.size ≤ k
    · -- the fragment is in the file, although `Append` failed
      have hends' := hends.append (done ++ [f])
      have hbytes' : w'.dest.bytes = w.dest.bytes ++ layout w.room (done ++ [f]) := by
        rw [hbytes, layout_append, List.take_of_length_le (by simpa using hk)]
        simp [layout]
      rw [← hbytes', ← hroom] at hends'
      exact sound_of_endsAt hoff' (hends.fits hfits (fits_append.mpr ⟨hdone, hf⟩)) htypes'' (hmore _) hends'
    · have hends' := hends.append done
      have hfits' := hends.fits hfits hdone
      have htypes₁ : ∀ g ∈ fs ++ done, g.type ≠ .zero := fun g hg =>
        htypes'' g (by rw [← List.append_assoc]; exact List.mem_append_left _ hg)
      refine ⟨hoff', fs ++ done, hfits', htypes₁, hmore done, ?_, ?_⟩
      · have hparses := hends'.parses false (m := gap (roomAfter w.room done) + k) hfits' htypes₁ hf.1 (by omega)
        rw [hbytes]
        rwa [List.take_append, List.take_of_length_le (by simp), List.length_replicate, Nat.add_sub_cancel_left]
          at hparses
      · intro haligned'
        rw [Aligned, hbytes] at haligned'
        have hroom' : kBlockSize - w'.blockOffset = start (roomAfter w.room done) - f.size := by
          rw [← room, hroom, roomAfter_append]
          rfl
        have htorn := endsAt_of_torn hends' hfits' hf.1 (by omega) hoff' hroom' haligned'
        rwa [← hbytes] at htorn

theorem Sound.addRecords {w : Writer} {oks : List (List UInt8)} (h : w.Sound oks) {rs : List (List UInt8)}
    (hrun : w.AlignedRun rs) : (w.addRecords rs).Sound (oks ++ w.okRecords rs) := by
  induction rs generalizing w oks with
  | nil => simpa [okRecords, Writer.addRecords] using h
  | cons r rs ih =>
    obtain ⟨⟨haligned, htrailer⟩, hrun⟩ := hrun
    have hrest := ih (h.addRecord haligned htrailer r) hrun
    rw [addRecords_cons, okRecords]
    split
    · rename_i hok
      simpa [hok] using hrest
    · rename_i hok
      simpa [hok] using hrest

theorem sound_create (faults : List (Option ℕ)) : (create ⟨[], faults⟩).Sound [] :=
  @sound_of_endsAt _ [] [] (Nat.zero_le _) trivial (by simp) (List.nil_sublist _) endsAt_nil

/-- In every run in which records are only added while the writer is aligned, a reader of
the file returns every record whose `AddRecord` returned OK, in order. -/
theorem okRecords_sublist_read (faults : List (Option ℕ)) (rs : List (List UInt8))
    (hrun : (create ⟨[], faults⟩).AlignedRun rs) :
    ((create ⟨[], faults⟩).okRecords rs).Sublist (read ((create ⟨[], faults⟩).addRecords rs).dest.bytes) := by
  obtain ⟨-, fs, -, -, hoks, hparses, -⟩ := (sound_create faults).addRecords hrun
  rw [read_eq hparses]
  exact hoks

/-- The first `Append` fails after its whole argument: the header is in the file, and the
second record is added after it. -/
theorem okRecords_sublist_read_after_fault :
    (create ⟨[], [some 7]⟩).AlignedRun [[], [5]] ∧
      ((create ⟨[], [some 7]⟩).okRecords [[], [5]]).Sublist
        (read ((create ⟨[], [some 7]⟩).addRecords [[], [5]]).dest.bytes) := by
  have hrun : (create ⟨[], [some 7]⟩).AlignedRun [[], [5]] := by decide +kernel
  exact ⟨hrun, okRecords_sublist_read _ _ hrun⟩

/-- The first `Append` fails after three bytes of a header. The second record is added after
them, and nothing is read of it. -/
theorem not_okRecords_sublist_read :
    ¬ ∀ (faults : List (Option ℕ)) (rs : List (List UInt8)), ((create ⟨[], faults⟩).okRecords rs).Sublist
      (read ((create ⟨[], faults⟩).addRecords rs).dest.bytes) := by
  intro h
  have hlost := h [some 3] [[1], [2]]
  have hok : (create ⟨[], [some 3]⟩).okRecords [[1], [2]] = [[2]] := by decide +kernel
  have hread : read ((create ⟨[], [some 3]⟩).addRecords [[1], [2]]).dest.bytes = [] := by decide +kernel
  rw [hok, hread] at hlost
  simp at hlost

end Writer

end TLevelDB.Log
