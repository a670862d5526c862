import TLevelDB.Log.Corruption

/-!
# Reading a log from an offset

A reader that is given an initial offset starts with the block in which the offset lies, or
with the next one if the offset lies in a trailer. In that block it passes over the
fragments that begin before the offset, and it skips what is left of a record that begins
before the block.

It returns the records whose first header is at the offset or after it, with the offsets
of these headers (`readPlaced_eq`). It may report what is left of a record, though nothing is
wrong with the log (`reports_readPlaced_iff`).
-/

namespace TLevelDB.Log

open Reader

/-! ### Where records are -/

/-- The offset of the next header that a writer appends to a log of this length. -/
def headerOffset (length : ℕ) : ℕ := length + gap (roomAt length)

/-- The records of a log, with the offset of the header of their first fragment. -/
def placedRecords (rs : List (List UInt8)) : List (ℕ × List UInt8) :=
  rs.mapIdx fun k r => (headerOffset (write (rs.take k)).length, r)

namespace Reader

/-! ### Physical records -/

/-- The reader is at this offset of the file. -/
structure AtOffset (initial pos room : ℕ) (rest : List UInt8) (r : Reader) : Prop extends Place r room rest where
  initialOffset : r.initialOffset = initial
  endOfBufferOffset : r.endOfBufferOffset = pos + r.buffer.length

section Physical

variable {initial pos room : ℕ} {rest : List UInt8} {r : Reader} {f : Fragment}

theorem AtOffset.refill (h : AtOffset initial pos room rest r) (hroom : room < kHeaderSize) (hle : room ≤ rest.length) :
    AtOffset initial (pos + room) kBlockSize (rest.drop room) r.refill := by
  obtain ⟨hrefill, hplace⟩ := h.toPlace.refill hroom hle
  have hlen : r.buffer.length = room := by rw [h.buffer, List.length_take, Nat.min_eq_left hle]
  rw [hrefill] at hplace ⊢
  exact ⟨hplace, h.initialOffset, by rw [h.endOfBufferOffset, hlen]⟩

/-- A fragment that begins before the initial offset counts as a bad record. -/
theorem AtOffset.readPhysicalRecord (h : AtOffset initial pos room (f.bytes ++ rest) r) (hroom : room ≤ kBlockSize)
    (hfit : f.size ≤ room) (htype : f.type ≠ .zero) :
    ∃ r', r.readPhysicalRecord = (if pos < initial then .bad else f.toPhysical, r') ∧
      AtOffset initial (pos + f.size) (room - f.size) rest r' ∧ r'.reports = r.reports := by
  obtain ⟨r', rfl, hread, hplace⟩ := h.readPhysicalRecord_fragment hroom hfit htype
  have hle : f.size ≤ r.buffer.length := by
    rw [h.buffer, List.length_take, List.length_append, f.length_bytes]
    omega
  have hend := h.endOfBufferOffset
  have hsize : f.size = kHeaderSize + f.payload.length := rfl
  have hoffset : r.endOfBufferOffset - (r.buffer.drop f.size).length - kHeaderSize - f.payload.length = pos := by
    rw [List.length_drop]
    omega
  obtain rfl := h.initialOffset
  rw [hoffset] at hread
  refine ⟨_, hread, ⟨hplace, rfl, ?_⟩, rfl⟩
  dsimp only
  rw [List.length_drop]
  omega

/-- At the end of the file there is nothing to report. -/
theorem AtOffset.readPhysicalRecord_nil (h : AtOffset initial pos room [] r) :
    r.readPhysicalRecord.1 = .eof ∧ r.readPhysicalRecord.2.reports = r.reports ∧ r.readPhysicalRecord.2.unread = 0 := by
  have hrefill : r.refill.buffer = [] ∧ r.refill.file = [] := by
    unfold Reader.refill
    split
    · simp [h.file]
    · simp [h.buffer, h.file]
  have hshort : r.refill.buffer.length < kHeaderSize := by
    rw [hrefill.1]
    decide
  rw [Reader.readPhysicalRecord, if_pos hshort]
  exact ⟨rfl, reports_refill r, by simp [unread, hrefill.2]⟩

end Physical

end Reader

/-! ### Records -/

/-- What `ReadPhysicalRecord` makes of a fragment, and where the fragment ends. -/
def seen (initial : ℕ) (p : Fragment × ℕ) : PhysicalRead :=
  ⟨if p.2 < initial then .bad else p.1.toPhysical, p.2 + p.1.size, []⟩

namespace Reader

variable {initial pos room : ℕ} {rest : List UInt8} {r : Reader} {f : Fragment} {fs : List Fragment}

/-- The reader goes to the block in which the fragment begins. -/
theorem AtOffset.start (h : AtOffset initial pos room (layout room (f :: fs)) r) :
    ∃ r', r.readPhysicalRecord = r'.readPhysicalRecord ∧
      AtOffset initial (pos + gap room) (start room) (f.bytes ++ layout (start room - f.size) fs) r' ∧
      r'.reports = r.reports := by
  rw [layout, List.append_assoc] at h
  by_cases hlt : room < kHeaderSize
  · rw [gap_of_lt hlt] at h ⊢
    rw [start_of_lt hlt] at h ⊢
    have hle : room ≤ (List.replicate room 0 ++ (f.bytes ++ layout (kBlockSize - f.size) fs)).length := by simp
    have hrefill := h.refill hlt hle
    rw [List.drop_left' (by simp)] at hrefill
    exact ⟨r.refill, h.readPhysicalRecord_trailer hlt hle, hrefill, reports_refill r⟩
  · have hle := Nat.not_lt.mp hlt
    rw [gap_of_le hle] at h ⊢
    rw [start_of_le hle] at h ⊢
    exact ⟨r, rfl, by simpa using h, rfl⟩

theorem AtOffset.core (h : AtOffset initial pos room rest r) : AtOffset initial pos room rest r.core :=
  ⟨⟨h.buffer, h.file, h.eof⟩, h.initialOffset, h.endOfBufferOffset⟩

theorem AtOffset.trace (h : AtOffset initial pos room (layout room fs) r) (hroom : room ≤ kBlockSize)
    (hfits : Fits room fs) (htypes : ∀ f ∈ fs, f.type ≠ .zero) :
    Trace true r.core ((placed pos room fs).map (seen initial)) := by
  induction fs generalizing pos room r with
  | nil =>
    obtain ⟨hphysical, hquiet⟩ := h.core.readPhysicalRecord_nil
    exact .eof hphysical fun _ => hquiet.2
  | cons f fs ih =>
    obtain ⟨hfit, hfits⟩ := hfits
    have htype := htypes f List.mem_cons_self
    obtain ⟨r₁, hread, hat, hreports⟩ := h.core.start
    obtain ⟨r', hphysical, hnext, hreports'⟩ := hat.readPhysicalRecord (start_le hroom) hfit htype
    rw [← hread] at hphysical
    have hoffset : r'.offset = pos + gap room + f.size := by
      rw [offset, hnext.endOfBufferOffset, Nat.add_sub_cancel]
    have hstep := @Trace.step true r.core
    simp only [physicalRead, hphysical, hoffset, hreports'.trans hreports] at hstep
    refine hstep ?_ (ih hnext ((Nat.sub_le _ _).trans (start_le hroom)) hfits fun g hg => htypes g (List.mem_cons_of_mem _ hg))
    split
    · simp
    · exact f.toPhysical_ne_eof

end Reader

/-! ### The fragments of the records -/

/-- The fragments of what is left of a record, after some of it has been written, with their
offsets. -/
inductive PlacedTail : ℕ → List UInt8 → List (Fragment × ℕ) → Prop where
  | last {o left} : PlacedTail o left [(⟨.last, left⟩, o)]
  | middle {o p left ps} : PlacedTail (o + kBlockSize) left ps → PlacedTail o (p ++ left) ((⟨.middle, p⟩, o) :: ps)

theorem Tail.placed {left : List UInt8} {fs : List Fragment} (h : Tail left fs) (o : ℕ) :
    PlacedTail o left (placed o 0 fs) := by
  have hstart : start 0 = kBlockSize := rfl
  induction h generalizing o with
  | last => exact .last
  | middle hsize _ ih =>
    rw [Log.placed, hsize, hstart, Nat.sub_self]
    exact .middle (ih _)

/-- A record is one fragment, or it goes on with the next block. -/
theorem placed_fragments (pos room : ℕ) (r : List UInt8) :
    r.length ≤ start room - kHeaderSize ∧ placed pos room (fragments room r) = [(⟨.full, r⟩, pos + gap room)] ∨
      ∃ p left ps, r = p ++ left ∧ placed pos room (fragments room r) = (⟨.first, p⟩, pos + gap room) :: ps ∧
        PlacedTail (pos + gap room + start room) left ps := by
  have h := fragmented_fragments room r
  generalize fragments room r = fs at h ⊢
  cases h with
  | full hsize => exact .inl ⟨Nat.le_sub_of_add_le' hsize, rfl⟩
  | first hsize htail =>
    refine .inr ⟨_, _, _, rfl, ?_, htail.placed _⟩
    rw [placed, hsize, Nat.sub_self]

/-! ### The first block that is read -/

/-- The block to which `SkipToInitialBlock` goes. -/
def initialBlock (initial : ℕ) : ℕ :=
  if kBlockSize - 6 < initial % kBlockSize then initial - initial % kBlockSize + kBlockSize
  else initial - initial % kBlockSize

/-- The reader passes over the fragment in the first block that it reads, and the fragment
does not end its record. -/
def CutOff (initial : ℕ) (p : Fragment × ℕ) : Prop :=
  initialBlock initial ≤ p.2 ∧ p.2 < initial ∧ (p.1.type = .first ∨ p.1.type = .middle)

instance (initial : ℕ) (p : Fragment × ℕ) : Decidable (CutOff initial p) := inferInstanceAs (Decidable (_ ∧ _ ∧ _))

section Places

variable {initial pos room : ℕ}

theorem initialBlock_mod (initial : ℕ) : initialBlock initial % kBlockSize = 0 := by
  unfold initialBlock
  split <;> simp only [kBlockSize] at * <;> omega

theorem le_initialBlock_add (initial : ℕ) : initial ≤ initialBlock initial + kBlockSize := by
  unfold initialBlock
  split <;> simp only [kBlockSize] at * <;> omega

/-- No header is passed over with the blocks before the first one, if it is not before the offset. -/
theorem initialBlock_le {o : ℕ} (hheader : o % kBlockSize + kHeaderSize ≤ kBlockSize) (hle : initial ≤ o) :
    initialBlock initial ≤ o := by
  unfold initialBlock
  split <;> simp only [kBlockSize, kHeaderSize] at * <;> omega

theorem aligned_start (halign : (pos + room) % kBlockSize = 0) : (pos + gap room + start room) % kBlockSize = 0 := by
  rw [Nat.add_assoc]
  obtain heq | heq := gap_add_start room
  · rw [heq, halign]
  · rw [heq, ← Nat.add_assoc, Nat.add_mod_right, halign]

/-- A header does not begin in a trailer. -/
theorem header_mod (hroom : room ≤ kBlockSize) (halign : (pos + room) % kBlockSize = 0) :
    (pos + gap room) % kBlockSize + kHeaderSize ≤ kBlockSize := by
  have hend := aligned_start halign
  have hstart := start_le hroom
  have hheader := kHeaderSize_le_start room
  simp only [kBlockSize, kHeaderSize] at *
  omega

end Places

/-- What a reader makes of fragments, of which it reads those from the initial block on. -/
def scanned (initial : ℕ) (resync : Bool) (state : Option (ℕ × List UInt8)) (ps : List (Fragment × ℕ)) : Found :=
  scan initial resync state ((ps.filter (initialBlock initial ≤ ·.2)).map (seen initial))

section Records

variable {initial o : ℕ} {left : List UInt8} {f : Fragment} {ps qs : List (Fragment × ℕ)} {resync : Bool}
  {state : Option (ℕ × List UInt8)} {found : Found}

theorem scanned_unseen (h : o < initialBlock initial) :
    scanned initial resync state ((f, o) :: ps) = scanned initial resync state ps := by
  rw [scanned, List.filter_cons_of_neg (by simpa using h), scanned]

/-- The fragment begins before the initial offset. -/
theorem scanned_bad (hbase : initialBlock initial ≤ o) (h : o < initial) :
    scanned initial resync none ((f, o) :: ps) = scanned initial false none ps := by
  rw [scanned, List.filter_cons_of_pos (by simpa using hbase), List.map_cons, seen, if_pos h]
  cases resync <;> rfl

theorem scanned_seen (hbase : initialBlock initial ≤ o) (h : initial ≤ o) : scanned initial resync state ((f, o) :: ps) =
    scan initial resync state (⟨f.toPhysical, o + f.size, []⟩ :: (ps.filter (initialBlock initial ≤ ·.2)).map (seen initial)) := by
  rw [scanned, List.filter_cons_of_pos (by simpa using hbase), List.map_cons, seen, if_neg (Nat.not_lt.mpr h)]

/-- The rest of a record of which the reader has the beginning. -/
theorem scanned_finish (h : scanned initial false none qs = found) (htail : PlacedTail o left ps)
    (hbase : initialBlock initial ≤ o) (ho : initial ≤ o) (q : ℕ) (scratch : List UInt8) :
    scanned initial false (some (q, scratch)) (ps ++ qs) = found.record q (scratch ++ left) := by
  induction htail generalizing scratch with
  | last =>
    rw [← h]
    exact scanned_seen hbase ho
  | middle _ ih =>
    rw [← List.append_assoc, ← ih (by omega) (by omega)]
    exact scanned_seen hbase ho

theorem dropped_ne_nil (h : initial ≤ o) (f : Fragment) (reason : String) :
    dropped initial (o + f.size) f.payload.length reason ≠ [] := by
  rw [dropped, if_pos (by rw [Fragment.size]; omega)]
  exact List.cons_ne_nil _ _

/-- The rest of a record whose beginning was passed over in the first block is reported. -/
theorem scanned_lose (h : scanned initial false none qs = found) (htail : PlacedTail o left ps)
    (hbase : initialBlock initial ≤ o) (ho : initial ≤ o) :
    ∃ lost, lost ≠ [] ∧ scanned initial false none (ps ++ qs) = found.report lost := by
  induction htail with
  | last =>
    rw [← h]
    exact ⟨_, dropped_ne_nil ho _ _, scanned_seen hbase ho⟩
  | @middle _ p _ _ _ ih =>
    obtain ⟨lost, -, hlost⟩ := ih (by omega) (by omega)
    have hne := dropped_ne_nil ho ⟨.middle, p⟩ "missing start of fragmented record(1)"
    refine ⟨_, List.append_ne_nil_of_left_ne_nil hne lost, (scanned_seen hbase ho).trans ?_⟩
    rw [Found.report, List.append_assoc]
    exact congrArg (Found.report _) hlost

/-- What a reader makes of the fragments between records: in the initial block it may not be
resyncing any more. -/
def ScansFrom (initial : ℕ) (qs : List (Fragment × ℕ)) (found : Found) : Prop :=
  ∀ resync, (resync = false → ∀ q ∈ qs, initialBlock initial ≤ q.2) → scanned initial resync none qs = found

theorem ScansFrom.seen (h : ScansFrom initial qs found) (hbase : ¬ o < initialBlock initial)
    (hsorted : ∀ q ∈ qs, o ≤ q.2) : scanned initial false none qs = found :=
  h false fun _ q hq => (Nat.not_lt.mp hbase).trans (hsorted q hq)

/-- The rest of a record that begins before the first block is skipped, unless some of it is
passed over in the first block. -/
theorem ScansFrom.skip (h : ScansFrom initial qs found)
    (htail : PlacedTail o left ps) (ho : o % kBlockSize = 0) (hsorted : ∀ p ∈ ps, ∀ q ∈ qs, p.2 ≤ q.2) :
    ∃ lost, (lost = [] ↔ ∀ p ∈ ps, ¬ CutOff initial p) ∧ scanned initial true none (ps ++ qs) = found.report lost := by
  induction htail with
  | @last o left =>
    have hcut : ¬ CutOff initial (⟨.last, left⟩, o) := by
      rintro ⟨-, -, htype | htype⟩ <;> cases htype
    refine ⟨[], by simpa using hcut, ?_⟩
    by_cases hbase : o < initialBlock initial
    · exact (scanned_unseen hbase).trans (h true (by simp))
    · have hseen := h.seen hbase (hsorted _ List.mem_cons_self)
      rw [← hseen]
      by_cases hlt : o < initial
      · exact scanned_bad (Nat.not_lt.mp hbase) hlt
      · exact scanned_seen (Nat.not_lt.mp hbase) (Nat.not_lt.mp hlt)
  | @middle o p left ps htail ih =>
    have hnext : (o + kBlockSize) % kBlockSize = 0 := by rw [Nat.add_mod_right, ho]
    obtain ⟨lost, hlost, hscans⟩ := ih hnext fun p hp => hsorted p (List.mem_cons_of_mem _ hp)
    by_cases hcut : CutOff initial (⟨.middle, p⟩, o)
    · -- the reader is not resyncing any more
      obtain ⟨hbase, hlt, -⟩ := hcut
      have hseen := h.seen (Nat.not_lt.mpr hbase) (hsorted _ List.mem_cons_self)
      have hle := le_initialBlock_add initial
      dsimp only at hbase hlt
      obtain ⟨lost, hlost, hscans⟩ := scanned_lose hseen htail (by omega) (by omega)
      exact ⟨lost, by simp [hlost, CutOff, hbase, hlt], (scanned_bad hbase hlt).trans hscans⟩
    · refine ⟨lost, by simpa [hcut] using hlost, ?_⟩
      rw [← hscans]
      by_cases hbase : o < initialBlock initial
      · exact scanned_unseen hbase
      · have hle : initial ≤ o := by
          by_contra hlt
          exact hcut ⟨Nat.not_lt.mp hbase, Nat.not_le.mp hlt, .inr rfl⟩
        exact scanned_seen (Nat.not_lt.mp hbase) hle

theorem PlacedTail.le (h : PlacedTail o left ps) {p : Fragment × ℕ} (hp : p ∈ ps) : o ≤ p.2 := by
  induction h with
  | last =>
    rw [List.mem_singleton] at hp
    rw [hp]
  | middle _ ih =>
    rcases List.mem_cons.mp hp with rfl | hp
    · exact le_rfl
    · exact (Nat.le_add_right _ _).trans (ih hp)

theorem exists_mem_placed_fragments (pos room : ℕ) (r : List UInt8) :
    ∃ f, (f, pos + gap room) ∈ placed pos room (fragments room r) := by
  obtain ⟨-, hplaced⟩ | ⟨p, left, ps, -, hplaced, -⟩ := placed_fragments pos room r
  · exact ⟨_, by rw [hplaced]; exact List.mem_cons_self⟩
  · exact ⟨_, by rw [hplaced]; exact List.mem_cons_self⟩

variable {pos room : ℕ} {r : List UInt8} {fs : List Fragment}

theorem place_eq (o : ℕ) (type : RecordType) (p : List UInt8) :
    o + (⟨type, p⟩ : Fragment).size - kHeaderSize - p.length = o := by
  simp only [Fragment.size]
  omega

theorem ScansFrom.full_record (h : ScansFrom initial qs found) (hroom : room ≤ kBlockSize)
    (halign : (pos + room) % kBlockSize = 0) (hsorted : ∀ q ∈ qs, pos + gap room ≤ q.2)
    (hresync : resync = false → initialBlock initial ≤ pos + gap room) :
    scanned initial resync none ((⟨.full, r⟩, pos + gap room) :: qs) =
      if initial ≤ pos + gap room then found.record (pos + gap room) r else found := by
  have hheader := @initialBlock_le initial _ (header_mod hroom halign)
  by_cases hbase : pos + gap room < initialBlock initial
  · rw [if_neg fun hle => Nat.not_lt.mpr (hheader hle) hbase, scanned_unseen hbase]
    refine h resync ?_
    intro hfalse
    exact absurd hbase (Nat.not_lt.mpr (hresync hfalse))
  · rw [← h.seen hbase hsorted]
    split
    · rename_i hle
      rw [scanned_seen (Nat.not_lt.mp hbase) hle]
      cases resync <;> simp [scan, Fragment.toPhysical, place_eq, unended, Found.report, scanned]
    · rename_i hlt
      exact scanned_bad (Nat.not_lt.mp hbase) (Nat.not_le.mp hlt)

/-- One record: it is returned if it does not begin before the offset, and its fragments are
reported if one of them is cut off. -/
theorem ScansFrom.record (h : ScansFrom initial qs found) (hroom : room ≤ kBlockSize)
    (halign : (pos + room) % kBlockSize = 0)
    (hsorted : ∀ p ∈ placed pos room (fragments room r), ∀ q ∈ qs, p.2 ≤ q.2) :
    ∃ lost, (lost = [] ↔ ∀ p ∈ placed pos room (fragments room r), ¬ CutOff initial p) ∧
      ∀ resync, (resync = false → initialBlock initial ≤ pos + gap room) →
        scanned initial resync none (placed pos room (fragments room r) ++ qs) =
          (if initial ≤ pos + gap room then found.record (pos + gap room) r else found).report lost := by
  have hheader := @initialBlock_le initial _ (header_mod hroom halign)
  obtain ⟨-, hplaced⟩ | ⟨p, left, ps, rfl, hplaced, htail⟩ := placed_fragments pos room r
  · rw [hplaced] at hsorted ⊢
    have hcut : ¬ CutOff initial (⟨.full, r⟩, pos + gap room) := by
      rintro ⟨-, -, htype | htype⟩ <;> cases htype
    refine ⟨[], by simpa using hcut, ?_⟩
    intro resync hresync
    exact h.full_record hroom halign (hsorted _ List.mem_cons_self) hresync
  · rw [hplaced] at hsorted ⊢
    have hend := aligned_start halign
    by_cases hbase : pos + gap room < initialBlock initial
    · -- the record begins before the first block
      obtain ⟨lost, hlost, hscans⟩ := h.skip htail hend fun p hp => hsorted p (List.mem_cons_of_mem _ hp)
      have hcut : ¬ CutOff initial (⟨.first, p⟩, pos + gap room) := fun hcut => Nat.not_lt.mpr hcut.1 hbase
      refine ⟨lost, by simpa [hcut] using hlost, ?_⟩
      intro resync hresync
      rw [if_neg fun hle => Nat.not_lt.mpr (hheader hle) hbase, List.cons_append, scanned_unseen hbase]
      cases resync with
      | false => exact absurd hbase (Nat.not_lt.mpr (hresync rfl))
      | true => exact hscans
    · have hseen := h.seen hbase (hsorted _ List.mem_cons_self)
      have hbase := Nat.not_lt.mp hbase
      have hnext : initialBlock initial + kBlockSize ≤ pos + gap room + start room := by
        have hmod := initialBlock_mod initial
        have hstart := kHeaderSize_le_start room
        simp only [kBlockSize, kHeaderSize] at *
        omega
      have hle := le_initialBlock_add initial
      by_cases hlt : pos + gap room < initial
      · -- its beginning is passed over
        obtain ⟨lost, hlost, hscans⟩ := scanned_lose hseen htail (by omega) (by omega)
        refine ⟨lost, by simp [hlost, CutOff, hbase, hlt], ?_⟩
        intro resync _
        rw [if_neg (Nat.not_le.mpr hlt), List.cons_append, scanned_bad hbase hlt, hscans]
      · have hge := Nat.not_lt.mp hlt
        have hcut : ∀ p ∈ ps, ¬ CutOff initial p := by
          intro p hp hcut
          have hpos := htail.le hp
          have hp := hcut.2.1
          omega
        refine ⟨[], ?_, ?_⟩
        · simpa [CutOff, hlt] using hcut
        · intro resync _
          rw [if_pos hge, ← scanned_finish hseen htail (by omega) (by omega), List.cons_append, scanned_seen hbase hge]
          cases resync <;> simp [scan, Fragment.toPhysical, place_eq, unended, Found.report, scanned]

/-- The records with the offsets of their first headers; the first of them is written after
`pos` bytes, with that much room left of the block. -/
def placesFrom : ℕ → ℕ → List (List UInt8) → List (ℕ × List UInt8)
  | _, _, [] => []
  | pos, room, r :: rs =>
    (pos + gap room, r) :: placesFrom (pos + (layout room (fragments room r)).length) (roomAfter room (fragments room r)) rs

theorem aligned_after (hfits : Fits room fs) (halign : (pos + room) % kBlockSize = 0) :
    (pos + (layout room fs).length + roomAfter room fs) % kBlockSize = 0 := by
  induction fs generalizing pos room with
  | nil => exact halign
  | cons f fs ih =>
    have hrest := ih hfits.2 (room_aligned halign hfits.1)
    rw [roomAfter, layout]
    simpa [Nat.add_assoc] using hrest

/-- The fragments are in the order of their places. -/
theorem le_of_mem_placed {p : Fragment × ℕ} (hp : p ∈ placed pos room fs) :
    pos + gap room ≤ p.2 ∧ p.2 ≤ pos + (layout room fs).length := by
  induction fs generalizing pos room with
  | nil => exact absurd hp List.not_mem_nil
  | cons f fs ih =>
    rw [layout]
    simp only [List.length_append, List.length_replicate, Fragment.length_bytes]
    rcases List.mem_cons.mp hp with rfl | hp
    · dsimp only
      omega
    · have hrest := ih hp
      omega

/-- What a reader that starts with the initial block makes of the fragments of all records. -/
theorem scans_fragmentsOf (hroom : room ≤ kBlockSize) (halign : (pos + room) % kBlockSize = 0) (rs : List (List UInt8)) :
    ∃ reports, (reports = [] ↔ ∀ p ∈ placed pos room (fragmentsOf room rs), ¬ CutOff initial p) ∧
      ScansFrom initial (placed pos room (fragmentsOf room rs))
        ((placesFrom pos room rs).filter fun p => initial ≤ p.1, reports) := by
  induction rs generalizing pos room with
  | nil => exact ⟨[], by simp [fragmentsOf, placed], fun _ _ => rfl⟩
  | cons r rs ih =>
    obtain ⟨reports, hreports, hrest⟩ := ih (roomAfter_le hroom (fragments room r))
      (aligned_after (fragmented_fragments _ _).fits halign)
    have hsorted : ∀ p ∈ placed pos room (fragments room r), ∀ q ∈ placed (pos + (layout room (fragments room r)).length)
        (roomAfter room (fragments room r)) (fragmentsOf (roomAfter room (fragments room r)) rs), p.2 ≤ q.2 := by
      intro p hp q hq
      have hfirst := (le_of_mem_placed hp).2
      have hsecond := (le_of_mem_placed hq).1
      omega
    obtain ⟨lost, hlost, hrecord⟩ := hrest.record hroom halign hsorted
    rw [fragmentsOf, placed_append]
    refine ⟨lost ++ reports, ?_, ?_⟩
    · rw [List.append_eq_nil_iff, hlost, hreports, List.forall_mem_append]
    · intro resync hresync
      obtain ⟨f, hf⟩ := exists_mem_placed_fragments pos room r
      rw [hrecord resync fun hfalse => hresync hfalse _ (List.mem_append_left _ hf), placesFrom, List.filter_cons]
      by_cases hle : initial ≤ pos + gap room <;> simp [hle, Found.report, Found.record]

/-! ### Skipping to the first block -/

/-- The fragments of the blocks before the first one that is read. -/
theorem exists_split {base : ℕ} (hfits : Fits room fs) (hroom : room ≤ kBlockSize)
    (halign : (pos + room) % kBlockSize = 0) (hbase : base % kBlockSize = 0) (hle : pos ≤ base) :
    ∃ before rest, fs = before ++ rest ∧ placed pos room fs = placed pos room before ++ placed base 0 rest ∧
      (∀ p ∈ placed pos room before, p.2 < base) ∧ (layout room fs).drop (base - pos) = layout 0 rest ∧ Fits 0 rest := by
  induction fs generalizing pos room with
  | nil => exact ⟨[], [], rfl, rfl, by simp [placed], by simp [layout], trivial⟩
  | cons f fs ih =>
    obtain ⟨hfit, hfits⟩ := hfits
    have hend := aligned_start halign
    have hstart := start_le hroom
    have hheader := kHeaderSize_le_start room
    by_cases hlt : pos + gap room < base
    · have hnext : pos + gap room + f.size ≤ base := by
        simp only [kBlockSize, kHeaderSize] at *
        omega
      obtain ⟨before, rest, rfl, hplaced, hbefore, hdrop, hrest⟩ := ih hfits ((Nat.sub_le _ _).trans hstart)
        (room_aligned halign hfit) hnext
      refine ⟨f :: before, rest, rfl, ?_, ?_, ?_, hrest⟩
      · rw [placed, hplaced, placed, List.cons_append]
      · simpa [placed] using ⟨hlt, fun a b => hbefore (a, b)⟩
      · rw [layout, List.drop_append, List.drop_of_length_le (by simp; omega), List.nil_append, ← hdrop]
        congr 1
        simp
        omega
    · have hbase' : base = pos + gap room ∧ start room = kBlockSize := by
        by_cases hshort : room < kHeaderSize
        · rw [gap_of_lt hshort] at hlt ⊢
          refine ⟨?_, start_of_lt hshort⟩
          clear hend hstart hheader hfit
          simp only [kBlockSize, kHeaderSize] at *
          omega
        · rw [gap_of_le (Nat.not_lt.mp hshort)] at hlt ⊢
          rw [start_of_le (Nat.not_lt.mp hshort)]
          simp only [kBlockSize, kHeaderSize] at *
          omega
      obtain ⟨rfl, hstart⟩ := hbase'
      rw [hstart] at hfit hfits
      refine ⟨[], f :: fs, rfl, ?_, by simp [placed], ?_, hfit, hfits⟩
      · rw [← placed_start, hstart]
        rfl
      · rw [layout, List.append_assoc, Nat.add_sub_cancel_left, List.drop_left' (by simp), hstart]
        rfl

end Records

namespace Reader

/-- The reader before its first call of `ReadPhysicalRecord`. -/
def atInitialBlock (file : List UInt8) (checksum : Bool) (initial : ℕ) : Reader :=
  { create file checksum initial with
    endOfBufferOffset := initialBlock initial, file := file.drop (initialBlock initial) }

theorem skip_create (file : List UInt8) (checksum : Bool) (initial : ℕ) :
    (if (create file checksum initial).lastRecordOffset < (create file checksum initial).initialOffset
      then (create file checksum initial).skipToInitialBlock else create file checksum initial) =
      atInitialBlock file checksum initial := by
  split
  · rfl
  · rename_i hzero
    have hzero : initial = 0 := Nat.eq_zero_of_not_pos hzero
    rw [hzero]
    rfl

/-- What a reader returns and reports that starts to read a log at an offset. -/
theorem readPlaced_spec (rs : List (List UInt8)) (checksum : Bool) (initial : ℕ) :
    (create (write rs) checksum initial).readPlaced.1 =
        (placesFrom 0 kBlockSize rs).filter (fun p => initial ≤ p.1) ∧
      ((create (write rs) checksum initial).readPlaced.2.reports = [] ↔
        ∀ p ∈ placed 0 kBlockSize (fragmentsOf kBlockSize rs), ¬ CutOff initial p) := by
  obtain ⟨reports, hreports, hscans⟩ := @scans_fragmentsOf initial 0 kBlockSize le_rfl (by decide) rs
  have hfits := fits_fragmentsOf kBlockSize rs
  obtain ⟨before, rest, hfs, hplaced, hbefore, hdrop, hrest⟩ := exists_split hfits le_rfl (by decide)
    (initialBlock_mod initial) (Nat.zero_le _)
  have hresync : (atInitialBlock (write rs) checksum initial).resyncing = false →
      ∀ p ∈ placed 0 kBlockSize (fragmentsOf kBlockSize rs), initialBlock initial ≤ p.2 := by
    intro hfalse p _
    have hzero : initial = 0 := Nat.eq_zero_of_not_pos (of_decide_eq_false hfalse)
    rw [hzero]
    exact Nat.zero_le _
  have hscans := hscans _ hresync
  have hstart : AtOffset initial (initialBlock initial) 0 (layout 0 rest) (atInitialBlock (write rs) checksum initial) := by
    have hfile : (atInitialBlock (write rs) checksum initial).file = layout 0 rest := by
      rw [atInitialBlock, write_eq, ← hdrop, Nat.sub_zero]
    exact ⟨⟨rfl, hfile, rfl⟩, rfl, rfl⟩
  have htrace := hstart.trace (Nat.zero_le _) hrest fun f hf =>
    type_fragmentsOf_ne_zero kBlockSize rs f (hfs ▸ List.mem_append_right before hf)
  -- nothing of the blocks before the first one is read
  have hfilter : (placed 0 kBlockSize (fragmentsOf kBlockSize rs)).filter (initialBlock initial ≤ ·.2) =
      placed (initialBlock initial) 0 rest := by
    rw [hplaced, List.filter_append, List.filter_eq_nil_iff.mpr (by simpa using hbefore), List.nil_append,
      List.filter_eq_self]
    intro p hp
    simpa using (Nat.le_add_right _ _).trans (le_of_mem_placed hp).1
  rw [scanned, hfilter] at hscans
  have hfuel : (atInitialBlock (write rs) checksum initial).core.unread < (create (write rs) checksum initial).unread + 1 := by
    simp only [core, atInitialBlock, create, unread, List.length_nil, List.length_drop]
    omega
  have hfinds := readPlacedLoop_spec (skip_create _ _ _) htrace (htrace.length_le.trans_lt hfuel)
  rw [show (atInitialBlock (write rs) checksum initial).initialOffset = initial from rfl, hscans] at hfinds
  refine ⟨hfinds.records, ?_⟩
  rw [← hreports, readPlaced, hfinds.reports]
  rfl

end Reader

theorem placesFrom_eq (before rs : List (List UInt8)) :
    placesFrom (write before).length (roomAfter kBlockSize (fragmentsOf kBlockSize before)) rs =
      rs.mapIdx fun k r => (headerOffset (write (before ++ rs.take k)).length, r) := by
  induction rs generalizing before with
  | nil => rfl
  | cons r rs ih =>
    have hroom : roomAfter kBlockSize (fragmentsOf kBlockSize (before ++ [r])) =
        roomAfter (roomAfter kBlockSize (fragmentsOf kBlockSize before))
          (fragments (roomAfter kBlockSize (fragmentsOf kBlockSize before)) r) := by
      rw [fragmentsOf_append, roomAfter_append, fragmentsOf, fragmentsOf, List.append_nil]
    have hlen : (write (before ++ [r])).length = (write before).length +
        (layout (roomAfter kBlockSize (fragmentsOf kBlockSize before))
          (fragments (roomAfter kBlockSize (fragmentsOf kBlockSize before)) r)).length := by
      rw [write_eq, write_eq, fragmentsOf_append, layout_append, List.length_append, fragmentsOf, fragmentsOf, List.append_nil]
    rw [placesFrom, ← hroom, ← hlen, ih, List.mapIdx_cons, List.take_zero, List.append_nil, headerOffset, (roomAt_write before).1]
    simp

/-- A reader that starts at any offset of a log returns the records whose first header is
there or further on, each with the offset of that header. -/
theorem readPlaced_eq (rs : List (List UInt8)) (checksum : Bool) (initial : ℕ) :
    (Reader.create (write rs) checksum initial).readPlaced.1 = (placedRecords rs).filter fun p => initial ≤ p.1 := by
  have hplaces : placesFrom 0 kBlockSize rs = placedRecords rs := placesFrom_eq [] rs
  rw [(readPlaced_spec rs checksum initial).1, hplaces]

/-- It reports nothing if and only if no fragment that it passes over in its first block goes
on in the next one: a fragment that is passed over counts as a bad record and ends the
resynchronisation, so what follows of its record is reported. -/
theorem reports_readPlaced_iff (rs : List (List UInt8)) (initial : ℕ) :
    (Reader.create (write rs) true initial).readPlaced.2.reports = [] ↔
      ∀ p ∈ placed 0 kBlockSize (fragmentsOf kBlockSize rs), ¬ CutOff initial p :=
  (readPlaced_spec rs true initial).2

/-- A reader that starts with the second byte of a record of two blocks reports the end of
the record. -/
theorem reports_readPlaced_ne_nil :
    ¬ ∀ (rs : List (List UInt8)) (initial : ℕ), (Reader.create (write rs) true initial).readPlaced.2.reports = [] := by
  intro h
  have hnone := (readPlaced_spec [List.replicate kBlockSize 0] true 1).2.mp (h _ _)
  obtain ⟨hle, -⟩ | ⟨p, left, ps, -, hplaced, -⟩ := placed_fragments 0 kBlockSize (List.replicate kBlockSize 0)
  · rw [List.length_replicate] at hle
    exact absurd hle (by decide)
  · refine hnone (⟨.first, p⟩, 0) ?_ ⟨Nat.zero_le 0, Nat.zero_lt_one, .inl rfl⟩
    rw [fragmentsOf, placed_append, hplaced]
    exact List.mem_append_left _ List.mem_cons_self

end TLevelDB.Log
