import TLevelDB.Log.Writer

/-!
# Reading a log

`Reader` is `log::Reader` over a file whose reads do not fail. `ReadPhysicalRecord` works on
a buffer that holds what is left of one block; `ReadRecord` puts fragments together. Offsets
are only subtracted from a place further on in the file, so `ℕ` does for `uint64_t`.

`Trace` are the calls of `ReadPhysicalRecord` up to the end of the file, and `scan` what
`ReadRecord` returns and reports for them (`readPlacedLoop_spec`). `Reader.At room rest` says
where a reader is: `rest` is what it has not consumed of the file and `room` what is left of
the block. `Parses room rest ps` are the results of `ReadPhysicalRecord` from there on, and
`assemble` the records that `ReadRecord` makes of them (`readAllLoop_spec`).
-/

namespace TLevelDB.Log

/-- What `ReadPhysicalRecord` returns. -/
inductive Physical where
  | full (fragment : List UInt8)
  | first (fragment : List UInt8)
  | middle (fragment : List UInt8)
  | last (fragment : List UInt8)
  | eof
  | bad
  /-- A type that no writer writes. -/
  | unknown (type : ℕ) (fragment : List UInt8)
  deriving DecidableEq

/-- The type of a physical record as `ReadRecord` takes it: `kEof` is 5 and `kBadRecord` is 6. -/
def Physical.ofType (type : ℕ) (fragment : List UInt8) : Physical :=
  match type with
  | 1 => .full fragment
  | 2 => .first fragment
  | 3 => .middle fragment
  | 4 => .last fragment
  | 5 => .eof
  | 6 => .bad
  | n => .unknown n fragment

def Physical.fragment : Physical → List UInt8
  | full p | first p | middle p | last p | unknown _ p => p
  | eof | bad => []

theorem Physical.fragment_ofType {type : ℕ} {p : List UInt8} (heof : Physical.ofType type p ≠ .eof)
    (hbad : Physical.ofType type p ≠ .bad) : (Physical.ofType type p).fragment = p := by
  unfold Physical.ofType at *
  split at * <;> simp_all [Physical.fragment]

structure Reader where
  /-- What is not read of the file. -/
  file : List UInt8
  checksum : Bool
  buffer : List UInt8
  eof : Bool
  lastRecordOffset : ℕ
  endOfBufferOffset : ℕ
  initialOffset : ℕ
  resyncing : Bool
  /-- The calls of `reporter->Corruption`. -/
  reports : List (ℕ × String)

namespace Reader

def create (file : List UInt8) (checksum : Bool) (initialOffset : ℕ) : Reader :=
  ⟨file, checksum, [], false, 0, 0, initialOffset, decide (0 < initialOffset), []⟩

def reportCorruption (r : Reader) (bytes : ℕ) (reason : String) : Reader :=
  if r.initialOffset ≤ r.endOfBufferOffset - r.buffer.length - bytes
  then { r with reports := r.reports ++ [(bytes, reason)] } else r

/-- `SkipToInitialBlock`; a file can be skipped beyond its end. -/
def skipToInitialBlock (r : Reader) : Reader :=
  let offsetInBlock := r.initialOffset % kBlockSize
  let blockStartLocation := r.initialOffset - offsetInBlock
  let blockStartLocation :=
    if kBlockSize - 6 < offsetInBlock then blockStartLocation + kBlockSize else blockStartLocation
  { r with endOfBufferOffset := blockStartLocation, file := r.file.drop blockStartLocation }

/-- The next block, when less than a header is left of this one. -/
def refill (r : Reader) : Reader :=
  if r.buffer.length < kHeaderSize ∧ r.eof = false then
    { r with
      buffer := r.file.take kBlockSize
      file := r.file.drop kBlockSize
      endOfBufferOffset := r.endOfBufferOffset + (r.file.take kBlockSize).length
      eof := decide ((r.file.take kBlockSize).length < kBlockSize) }
  else r

/-- The physical record at the beginning of a buffer that holds a header. -/
def parseBuffer (r : Reader) : Physical × Reader :=
  let header := r.buffer
  let length := headerLength header
  let type := headerType header
  if header.length < kHeaderSize + length then
    if r.eof then (.eof, { r with buffer := [] })
    else (.bad, { r with buffer := [] }.reportCorruption header.length "bad record length")
  else if type = 0 ∧ length = 0 then (.bad, { r with buffer := [] })
  else if r.checksum ∧ value ((header.drop 6).take (1 + length)) ≠ unmask (decodeFixed32 header) then
    (.bad, { r with buffer := [] }.reportCorruption header.length "checksum mismatch")
  else
    let r := { r with buffer := header.drop (kHeaderSize + length) }
    -- skip a physical record that started before `initial_offset_`
    if r.endOfBufferOffset - r.buffer.length - kHeaderSize - length < r.initialOffset then (.bad, r)
    else (.ofType type ((header.drop kHeaderSize).take length), r)

/-- `ReadPhysicalRecord`: its loop reads at most one block, since a short one is the last. -/
def readPhysicalRecord (r : Reader) : Physical × Reader :=
  if r.refill.buffer.length < kHeaderSize then (.eof, { r.refill with buffer := [] }) else r.refill.parseBuffer

/-- The loop of `ReadRecord`. -/
def readRecordLoop : ℕ → Reader → Bool → List UInt8 → ℕ → Option (List UInt8) × Reader
  | 0, r, _, _, _ => (none, r)
  | fuel + 1, r, inFragmentedRecord, scratch, prospectiveRecordOffset =>
    let (physical, r) := r.readPhysicalRecord
    let physicalRecordOffset := r.endOfBufferOffset - r.buffer.length - kHeaderSize - physical.fragment.length
    let go := readRecordLoop fuel
    match r.resyncing, physical with
    | true, .middle _ => go r inFragmentedRecord scratch prospectiveRecordOffset
    | true, .last _ => go { r with resyncing := false } inFragmentedRecord scratch prospectiveRecordOffset
    | _, physical =>
      let r := { r with resyncing := false }
      match physical with
      | .full fragment =>
        let r := if inFragmentedRecord ∧ scratch ≠ []
          then r.reportCorruption scratch.length "partial record without end(1)" else r
        (some fragment, { r with lastRecordOffset := physicalRecordOffset })
      | .first fragment =>
        let r := if inFragmentedRecord ∧ scratch ≠ []
          then r.reportCorruption scratch.length "partial record without end(2)" else r
        go r true fragment physicalRecordOffset
      | .middle fragment =>
        if inFragmentedRecord then go r true (scratch ++ fragment) prospectiveRecordOffset
        else go (r.reportCorruption fragment.length "missing start of fragmented record(1)")
          false scratch prospectiveRecordOffset
      | .last fragment =>
        if inFragmentedRecord then
          (some (scratch ++ fragment), { r with lastRecordOffset := prospectiveRecordOffset })
        else go (r.reportCorruption fragment.length "missing start of fragmented record(2)")
          false scratch prospectiveRecordOffset
      | .eof => (none, r)
      | .bad =>
        if inFragmentedRecord then
          go (r.reportCorruption scratch.length "error in middle of record") false [] prospectiveRecordOffset
        else go r false scratch prospectiveRecordOffset
      | .unknown type fragment =>
        go (r.reportCorruption (fragment.length + if inFragmentedRecord then scratch.length else 0)
          ("unknown record type " ++ toString type)) false [] prospectiveRecordOffset

/-- What is not consumed of the file. -/
def unread (r : Reader) : ℕ := r.file.length + r.buffer.length

/-- `ReadRecord`: every turn but the last consumes a header. -/
def readRecord (r : Reader) : Option (List UInt8) × Reader :=
  let r := if r.lastRecordOffset < r.initialOffset then r.skipToInitialBlock else r
  r.readRecordLoop (r.unread + 1) false [] 0

/-- Calls of `ReadRecord` until one of them says that there is no more. -/
def readAllLoop : ℕ → Reader → List (List UInt8) × Reader
  | 0, r => ([], r)
  | fuel + 1, r =>
    match r.readRecord with
    | (some record, r) => (record :: (readAllLoop fuel r).1, (readAllLoop fuel r).2)
    | (none, r) => ([], r)

def readAll (r : Reader) : List (List UInt8) × Reader := r.readAllLoop (r.unread + 1)

/-- Calls of `ReadRecord` and then `LastRecordOffset`, until there is no more. -/
def readPlacedLoop : ℕ → Reader → List (ℕ × List UInt8) × Reader
  | 0, r => ([], r)
  | fuel + 1, r =>
    match r.readRecord with
    | (some record, r) => ((r.lastRecordOffset, record) :: (readPlacedLoop fuel r).1, (readPlacedLoop fuel r).2)
    | (none, r) => ([], r)

def readPlaced (r : Reader) : List (ℕ × List UInt8) × Reader := r.readPlacedLoop (r.unread + 1)

/-! ### Where a reader is -/

/-- `rest` is what is not consumed of the file, and `room` what is left of the block. -/
structure Place (r : Reader) (room : ℕ) (rest : List UInt8) : Prop where
  buffer : r.buffer = rest.take room
  file : r.file = rest.drop room
  eof : r.eof = decide (rest.length < room)

/-- The reader is at this place, checks checksums and does not skip anything. -/
structure At (r : Reader) (room : ℕ) (rest : List UInt8) : Prop extends Place r room rest where
  checksum : r.checksum = true
  initialOffset : r.initialOffset = 0
  resyncing : r.resyncing = false

theorem at_create (file : List UInt8) : At (create file true 0) 0 file := by
  refine ⟨⟨?_, ?_, ?_⟩, ?_, ?_, ?_⟩ <;> simp [create]

section Position

variable {r : Reader} {room : ℕ} {rest : List UInt8}

theorem Place.unread (h : Place r room rest) : r.unread = rest.length := by
  rw [Reader.unread, h.file, h.buffer, List.length_drop, List.length_take]
  omega

theorem At.reportCorruption (h : At r room rest) (bytes : ℕ) (reason : String) :
    At (r.reportCorruption bytes reason) room rest := by
  unfold Reader.reportCorruption
  split
  · exact ⟨⟨h.buffer, h.file, h.eof⟩, h.checksum, h.initialOffset, h.resyncing⟩
  · exact h

/-- The reader gives up the rest of the block. -/
theorem At.drop (h : At r room rest) :
    At { r with buffer := [] } (if room ≤ rest.length then 0 else 1) (rest.drop room) := by
  refine ⟨?_, h.checksum, h.initialOffset, h.resyncing⟩
  by_cases hle : room ≤ rest.length
  · simp only [if_pos hle]
    exact ⟨by simp, by simpa using h.file, by simpa using h.eof.trans (by simpa using hle)⟩
  · have hnil : rest.drop room = [] := List.drop_eq_nil_of_le (by omega)
    simp only [if_neg hle]
    exact ⟨by simp [hnil], by simpa [hnil] using h.file, by simpa [hnil] using h.eof.trans (by simpa using hle)⟩

theorem Place.refill (h : Place r room rest) (hroom : room < kHeaderSize) (hle : room ≤ rest.length) :
    r.refill = { r with
        buffer := r.file.take kBlockSize
        file := r.file.drop kBlockSize
        endOfBufferOffset := r.endOfBufferOffset + (r.file.take kBlockSize).length
        eof := decide ((r.file.take kBlockSize).length < kBlockSize) } ∧
      Place r.refill kBlockSize (rest.drop room) := by
  have heof : r.eof = false := by simpa using h.eof.trans (by simpa using hle)
  have hbuffer : r.buffer.length < kHeaderSize := by
    rw [h.buffer, List.length_take]
    omega
  have hrefill : r.refill = _ := if_pos ⟨hbuffer, heof⟩
  refine ⟨hrefill, ?_⟩
  rw [hrefill]
  refine ⟨by rw [h.file], by rw [h.file], ?_⟩
  simp only [h.file, List.length_take, List.length_drop, decide_eq_decide]
  omega

theorem At.refill (h : At r room rest) (hroom : room < kHeaderSize) (hle : room ≤ rest.length) :
    At r.refill kBlockSize (rest.drop room) := by
  obtain ⟨hrefill, hplace⟩ := h.toPlace.refill hroom hle
  rw [hrefill] at hplace ⊢
  exact ⟨hplace, h.checksum, h.initialOffset, h.resyncing⟩

theorem refill_of_le (h : kHeaderSize ≤ r.buffer.length) : r.refill = r :=
  if_neg fun hr => absurd hr.1 (Nat.not_lt.mpr h)

theorem refill_of_eof (h : r.eof = true) : r.refill = r :=
  if_neg fun hr => absurd (h.symm.trans hr.2) (by simp)

@[simp] theorem reports_refill (r : Reader) : r.refill.reports = r.reports := by
  unfold Reader.refill
  split <;> rfl

theorem Place.readPhysicalRecord_trailer (h : Place r room rest) (hroom : room < kHeaderSize) (hle : room ≤ rest.length) :
    r.readPhysicalRecord = r.refill.readPhysicalRecord := by
  obtain ⟨-, hat⟩ := h.refill hroom hle
  have hrefill : r.refill.refill = r.refill := by
    by_cases hbuffer : kHeaderSize ≤ r.refill.buffer.length
    · exact refill_of_le hbuffer
    · refine refill_of_eof ?_
      rw [hat.buffer, List.length_take] at hbuffer
      have hlt : (rest.drop room).length < kBlockSize := by
        have hsize : kHeaderSize ≤ kBlockSize := by decide
        omega
      rw [hat.eof, decide_eq_true hlt]
  rw [readPhysicalRecord, readPhysicalRecord, hrefill]

/-- Nothing is left of a file of which the last block is given up. -/
theorem Place.unread_drop (h : Place r room rest) (hroom : rest.length < room) : { r with buffer := [] }.unread = 0 := by
  have hfile : r.file = [] := by rw [h.file, List.drop_of_length_le hroom.le]
  simp [Reader.unread, hfile]

/-- Less than a header at the end of the file is ignored. -/
theorem Place.readPhysicalRecord_short (h : Place r room rest) (hroom : rest.length < room)
    (hlen : rest.length < kHeaderSize) :
    r.readPhysicalRecord.1 = .eof ∧ r.readPhysicalRecord.2.reports = r.reports ∧ r.readPhysicalRecord.2.unread = 0 := by
  have heof : r.eof = true := by rw [h.eof, decide_eq_true hroom]
  have hbuffer : r.buffer.length < kHeaderSize := by
    rw [h.buffer, List.length_take]
    omega
  rw [readPhysicalRecord, refill_of_eof heof, if_pos hbuffer]
  exact ⟨rfl, rfl, h.unread_drop hroom⟩

theorem Place.readPhysicalRecord_parse (h : Place r room rest) (hroom : kHeaderSize ≤ room)
    (hlen : kHeaderSize ≤ rest.length) : r.readPhysicalRecord = r.parseBuffer := by
  have hbuffer : kHeaderSize ≤ r.buffer.length := by
    rw [h.buffer, List.length_take]
    omega
  rw [readPhysicalRecord, refill_of_le hbuffer, if_neg (Nat.not_lt.mpr hbuffer)]

/-- The header is in the buffer when it is in the block. -/
theorem headerLength_take (hroom : kHeaderSize ≤ room) : headerLength (rest.take room) = headerLength rest := by
  have hroom' : 7 ≤ room := hroom
  simp [headerLength, List.getD_eq_getElem?_getD, show 4 < room by omega, show 5 < room by omega]

theorem headerType_take (hroom : kHeaderSize ≤ room) : headerType (rest.take room) = headerType rest := by
  have hroom' : 7 ≤ room := hroom
  simp [headerType, List.getD_eq_getElem?_getD, show 6 < room by omega]

theorem decodeFixed32_take (hroom : kHeaderSize ≤ room) (hlen : kHeaderSize ≤ rest.length) :
    decodeFixed32 (rest.take room) = decodeFixed32 rest := by
  obtain ⟨n, rfl⟩ := Nat.exists_eq_add_of_le' hroom
  match rest, hlen with
  | b₀ :: b₁ :: b₂ :: b₃ :: _, _ => rfl

/-- The checksum that a reader computes for the physical record at the beginning of this. -/
def actualCrc (rest : List UInt8) : UInt32 := value ((rest.drop 6).take (1 + headerLength rest))

theorem actualCrc_take (hroom : kHeaderSize + headerLength rest ≤ room) :
    actualCrc (rest.take room) = actualCrc rest := by
  have hsize : kHeaderSize = 7 := rfl
  rw [actualCrc, actualCrc, headerLength_take (by omega), List.drop_take, List.take_take, Nat.min_eq_left (by omega)]

/-- The physical record in the buffer is accepted, unless it started before `initial_offset_`. -/
theorem parseBuffer_ok {r : Reader} (hlong : ¬ r.buffer.length < kHeaderSize + headerLength r.buffer)
    (hzero : ¬ (headerType r.buffer = 0 ∧ headerLength r.buffer = 0))
    (hcrc : r.checksum = true → actualCrc r.buffer = unmask (decodeFixed32 r.buffer)) :
    r.parseBuffer =
      (if r.endOfBufferOffset - (r.buffer.drop (kHeaderSize + headerLength r.buffer)).length - kHeaderSize -
          headerLength r.buffer < r.initialOffset then .bad
        else .ofType (headerType r.buffer) ((r.buffer.drop kHeaderSize).take (headerLength r.buffer)),
        { r with buffer := r.buffer.drop (kHeaderSize + headerLength r.buffer) }) := by
  simp only [parseBuffer]
  rw [if_neg hlong, if_neg hzero, if_neg fun hbad => hbad.2 (hcrc hbad.1)]
  split <;> rfl

/-- A physical record that begins this goes beyond the end of the file. -/
theorem Place.readPhysicalRecord_torn (h : Place r room rest) (hlen : kHeaderSize ≤ rest.length) (hroom : rest.length < room)
    (hlong : rest.length < kHeaderSize + headerLength rest) :
    r.readPhysicalRecord.1 = .eof ∧ r.readPhysicalRecord.2.reports = r.reports ∧ r.readPhysicalRecord.2.unread = 0 := by
  have hheader : kHeaderSize ≤ room := by omega
  have heof : r.eof = true := by rw [h.eof, decide_eq_true hroom]
  have hbuffer : r.buffer = rest := by rw [h.buffer, List.take_of_length_le hroom.le]
  rw [← hbuffer] at hlong
  rw [h.readPhysicalRecord_parse hheader hlen]
  simp only [parseBuffer]
  rw [if_pos hlong, if_pos heof]
  exact ⟨rfl, rfl, h.unread_drop hroom⟩

/-- A physical record that begins this goes beyond the end of the block. -/
theorem At.readPhysicalRecord_long (h : At r room rest) (hheader : kHeaderSize ≤ room) (hroom : room ≤ rest.length)
    (hlong : room < kHeaderSize + headerLength rest) :
    r.readPhysicalRecord.1 = .bad ∧ At r.readPhysicalRecord.2 0 (rest.drop room) := by
  have heof : r.eof = false := by simpa using h.eof.trans (by simpa using hroom)
  have hlong' : r.buffer.length < kHeaderSize + headerLength r.buffer := by
    rw [h.buffer, headerLength_take hheader, List.length_take]
    omega
  have hdrop := h.drop
  rw [if_pos hroom] at hdrop
  rw [h.readPhysicalRecord_parse hheader (hheader.trans hroom)]
  simp only [parseBuffer]
  rw [if_pos hlong', if_neg (by simp [heof])]
  exact ⟨rfl, hdrop.reportCorruption _ _⟩

/-- The physical record that begins this is in the block and in the file. -/
theorem Place.not_long (h : Place r room rest) (hroom : kHeaderSize + headerLength rest ≤ room)
    (hlen : kHeaderSize + headerLength rest ≤ rest.length) :
    ¬ r.buffer.length < kHeaderSize + headerLength r.buffer := by
  rw [h.buffer, headerLength_take (by omega), List.length_take]
  omega

/-- The physical record that begins this is of zeros, or its checksum is wrong. -/
theorem At.readPhysicalRecord_bad (h : At r room rest) (hroom : kHeaderSize + headerLength rest ≤ room)
    (hlen : kHeaderSize + headerLength rest ≤ rest.length)
    (hbad : headerType rest = 0 ∧ headerLength rest = 0 ∨ actualCrc rest ≠ unmask (decodeFixed32 rest)) :
    r.readPhysicalRecord.1 = .bad ∧
      At r.readPhysicalRecord.2 (if room ≤ rest.length then 0 else 1) (rest.drop room) := by
  have hheader : kHeaderSize ≤ room := by omega
  have hlen' : kHeaderSize ≤ rest.length := by omega
  rw [← headerLength_take hheader, ← headerType_take hheader, ← actualCrc_take hroom,
    ← decodeFixed32_take hheader hlen', ← h.buffer] at hbad
  rw [h.readPhysicalRecord_parse hheader hlen']
  simp only [parseBuffer]
  rw [if_neg (h.not_long hroom hlen)]
  by_cases hzero : headerType r.buffer = 0 ∧ headerLength r.buffer = 0
  · rw [if_pos hzero]
    exact ⟨rfl, h.drop⟩
  · have hcrc := hbad.resolve_left hzero
    rw [actualCrc] at hcrc
    rw [if_neg hzero, if_pos ⟨h.checksum, hcrc⟩]
    exact ⟨rfl, h.drop.reportCorruption _ _⟩

/-- The physical record that begins this is read, unless it started before `initial_offset_`. -/
theorem Place.readPhysicalRecord_ok (h : Place r room rest) (hroom : kHeaderSize + headerLength rest ≤ room)
    (hlen : kHeaderSize + headerLength rest ≤ rest.length) (hzero : ¬ (headerType rest = 0 ∧ headerLength rest = 0))
    (hok : actualCrc rest = unmask (decodeFixed32 rest)) :
    ∃ r', r' = { r with buffer := r.buffer.drop (kHeaderSize + headerLength rest) } ∧
      r.readPhysicalRecord =
        (if r.endOfBufferOffset - r'.buffer.length - kHeaderSize - headerLength rest < r.initialOffset then .bad
          else .ofType (headerType rest) ((rest.drop kHeaderSize).take (headerLength rest)), r') ∧
      Place r' (room - (kHeaderSize + headerLength rest)) (rest.drop (kHeaderSize + headerLength rest)) := by
  have hheader : kHeaderSize ≤ room := by omega
  have hlen' : kHeaderSize ≤ rest.length := by omega
  have hlength : headerLength r.buffer = headerLength rest := by rw [h.buffer, headerLength_take hheader]
  have htype : headerType r.buffer = headerType rest := by rw [h.buffer, headerType_take hheader]
  rw [← actualCrc_take hroom, ← decodeFixed32_take hheader hlen', ← h.buffer] at hok
  rw [← htype, ← hlength] at hzero
  have hpayload : (r.buffer.drop kHeaderSize).take (headerLength rest) =
      (rest.drop kHeaderSize).take (headerLength rest) := by
    rw [h.buffer, List.drop_take, List.take_take, Nat.min_eq_left]
    omega
  refine ⟨_, rfl, ?_, ?_, ?_, ?_⟩
  · rw [h.readPhysicalRecord_parse hheader hlen', parseBuffer_ok (h.not_long hroom hlen) hzero fun _ => hok, htype,
      hlength, hpayload]
  · simp only [h.buffer, List.drop_take]
  · simp only [h.file, List.drop_drop]
    rw [Nat.add_sub_cancel' hroom]
  · simp only [h.eof, List.length_drop, decide_eq_decide]
    omega

theorem At.readPhysicalRecord_ok (h : At r room rest) (hroom : kHeaderSize + headerLength rest ≤ room)
    (hlen : kHeaderSize + headerLength rest ≤ rest.length) (hzero : ¬ (headerType rest = 0 ∧ headerLength rest = 0))
    (hok : actualCrc rest = unmask (decodeFixed32 rest)) :
    (r.readPhysicalRecord.1 = .ofType (headerType rest) ((rest.drop kHeaderSize).take (headerLength rest)) ∧
      At r.readPhysicalRecord.2 (room - (kHeaderSize + headerLength rest))
        (rest.drop (kHeaderSize + headerLength rest))) ∧ r.readPhysicalRecord.2.reports = r.reports := by
  obtain ⟨r', rfl, hread, hplace⟩ := h.toPlace.readPhysicalRecord_ok hroom hlen hzero hok
  rw [hread, if_neg (by simp [h.initialOffset])]
  exact ⟨⟨rfl, hplace, h.checksum, h.initialOffset, h.resyncing⟩, rfl⟩

end Position

end Reader

/-! ### What only `ReadRecord` uses -/

/-- What is reported of bytes that end at this offset. -/
def dropped (initial offset bytes : ℕ) (reason : String) : List (ℕ × String) :=
  if initial ≤ offset - bytes then [(bytes, reason)] else []

namespace Reader

/-- Where what is not consumed begins. -/
def offset (r : Reader) : ℕ := r.endOfBufferOffset - r.buffer.length

theorem reportCorruption_eq (r : Reader) (bytes : ℕ) (reason : String) : r.reportCorruption bytes reason =
    { r with reports := r.reports ++ dropped r.initialOffset r.offset bytes reason } := by
  unfold reportCorruption dropped offset
  split <;> simp

/-- The reader without what only `ReadRecord` uses. -/
def core (r : Reader) : Reader := { r with resyncing := false, lastRecordOffset := 0, reports := [] }

/-- A result for the reader itself, from one without what only `ReadRecord` uses. -/
def keep (r : Reader) (result : Physical × Reader) : Physical × Reader :=
  (result.1, { result.2 with
    resyncing := r.resyncing, lastRecordOffset := r.lastRecordOffset, reports := r.reports ++ result.2.reports })

theorem parseBuffer_core (r : Reader) : r.parseBuffer = r.keep r.core.parseBuffer := by
  simp only [parseBuffer, reportCorruption_eq, core, offset]
  split_ifs <;> simp only [*, keep, if_true, if_false, List.nil_append, List.append_nil]

theorem readPhysicalRecord_core (r : Reader) : r.readPhysicalRecord = r.keep r.core.readPhysicalRecord := by
  have hcore : r.core.refill = r.refill.core ∧ r.refill.keep = r.keep := by
    by_cases h : r.buffer.length < kHeaderSize ∧ r.eof = false
    · simp [refill, core, h]
      rfl
    · simp [refill, core, h]
  rw [readPhysicalRecord, readPhysicalRecord, hcore.1, parseBuffer_core, ← hcore.2]
  by_cases h : r.refill.buffer.length < kHeaderSize
  · rw [if_pos h, if_pos (show r.refill.core.buffer.length < kHeaderSize from h)]
    simp [keep, core]
  · rw [if_neg h, if_neg (show ¬ r.refill.core.buffer.length < kHeaderSize from h)]

theorem initialOffset_readPhysicalRecord (r : Reader) : r.readPhysicalRecord.2.initialOffset = r.initialOffset := by
  simp only [readPhysicalRecord, refill, parseBuffer, reportCorruption]
  split_ifs <;> rfl

/-- Something is consumed. A record that is not bad does not begin before `initial_offset_`, and at the end of
the file there is nothing to report. -/
structure Consumes (r : Reader) (result : Physical × Reader) : Prop where
  unread : result.1 ≠ .eof → result.2.unread < r.unread
  place : result.1 ≠ .eof → result.1 ≠ .bad →
    r.initialOffset ≤ result.2.offset - kHeaderSize - result.1.fragment.length
  reports : result.1 = .eof → result.2.reports = r.reports

theorem consumes_parseBuffer {r : Reader} (h : kHeaderSize ≤ r.buffer.length) : Consumes r r.parseBuffer := by
  have hpos : 0 < r.buffer.length := (by decide : 0 < kHeaderSize).trans_le h
  have hlt : r.buffer.length - (kHeaderSize + headerLength r.buffer) < r.buffer.length :=
    Nat.sub_lt hpos (Nat.add_pos_left (by decide) _)
  simp only [parseBuffer, reportCorruption_eq]
  split_ifs with hlong _ _ _ hinitial
  · exact ⟨by simp, by simp, fun _ => rfl⟩
  · exact ⟨fun _ => by simpa [Reader.unread] using hpos, by simp, by simp⟩
  · exact ⟨fun _ => by simpa [Reader.unread] using hpos, by simp, by simp⟩
  · exact ⟨fun _ => by simpa [Reader.unread] using hpos, by simp, by simp⟩
  · exact ⟨fun _ => by simpa [Reader.unread] using hlt, by simp, by simp⟩
  · refine ⟨fun _ => by simpa [Reader.unread] using hlt, fun heof hbad => ?_, fun _ => rfl⟩
    rw [Physical.fragment_ofType heof hbad, List.length_take, List.length_drop, Nat.min_eq_left (by omega)]
    exact Nat.not_lt.mp hinitial

theorem consumes_readPhysicalRecord (r : Reader) : Consumes r r.readPhysicalRecord := by
  have hunread : r.refill.unread ≤ r.unread := by
    unfold refill
    split
    · simp only [Reader.unread, List.length_take, List.length_drop]
      omega
    · exact le_rfl
  have hinitial : r.refill.initialOffset = r.initialOffset := by
    unfold refill
    split <;> rfl
  rw [readPhysicalRecord]
  split_ifs with h
  · exact ⟨by simp, by simp, fun _ => reports_refill r⟩
  · obtain ⟨hlt, hplace, hreports⟩ := consumes_parseBuffer (Nat.not_lt.mp h)
    rw [hinitial] at hplace
    exact ⟨fun h => (hlt h).trans_le hunread, hplace, fun h => (hreports h).trans (reports_refill r)⟩

theorem At.core {r : Reader} {room : ℕ} {rest : List UInt8} (h : At r room rest) : At r.core room rest :=
  ⟨⟨h.buffer, h.file, h.eof⟩, h.checksum, h.initialOffset, rfl⟩

end Reader

/-! ### What a reader finds -/

open Reader

/-- A call of `ReadPhysicalRecord`: its result, where the result ends, and what is reported. -/
structure PhysicalRead where
  physical : Physical
  offset : ℕ
  reports : List (ℕ × String)

def Reader.physicalRead (r : Reader) : PhysicalRead :=
  ⟨r.readPhysicalRecord.1, r.readPhysicalRecord.2.offset, r.readPhysicalRecord.2.reports⟩

/-- The calls of `ReadPhysicalRecord` from here on, up to the end of the file; with `quiet`
they leave nothing of the file. -/
inductive Trace (quiet : Bool) : Reader → List PhysicalRead → Prop where
  | eof {r} : r.readPhysicalRecord.1 = .eof → (quiet = true → r.readPhysicalRecord.2.unread = 0) → Trace quiet r []
  | step {r ps} : r.readPhysicalRecord.1 ≠ .eof → Trace quiet r.readPhysicalRecord.2.core ps →
      Trace quiet r (r.physicalRead :: ps)

theorem Trace.length_le {quiet : Bool} {r : Reader} {ps : List PhysicalRead} (h : Trace quiet r ps) :
    ps.length ≤ r.unread := by
  induction h with
  | eof => exact Nat.zero_le _
  | @step r ps hne _ ih => exact (Nat.succ_le_succ ih).trans ((consumes_readPhysicalRecord r).unread hne)

/-- What a reader returns, and what it reports. -/
abbrev Found := List (ℕ × List UInt8) × List (ℕ × String)

namespace Found

def report (lost : List (ℕ × String)) (found : Found) : Found := (found.1, lost ++ found.2)

def record (place : ℕ) (record : List UInt8) (found : Found) : Found := ((place, record) :: found.1, found.2)

end Found

/-- A record of which there is a beginning is given up. -/
def unended (initial offset : ℕ) (reason : String) : Option (ℕ × List UInt8) → List (ℕ × String)
  | some (_, scratch) => if scratch ≠ [] then dropped initial offset scratch.length reason else []
  | none => []

/-- What `ReadRecord` does with the results of `ReadPhysicalRecord`, where it is resyncing or
not and has the beginning of a record or not. -/
def scan (initial : ℕ) (resync : Bool) (state : Option (ℕ × List UInt8)) : List PhysicalRead → Found
  | [] => ([], [])
  | ⟨physical, o, reports⟩ :: ps =>
    (match resync, state, physical with
    | true, _, .middle _ => scan initial true state ps
    | true, _, .last _ => scan initial false state ps
    | _, _, .full p => ((scan initial false none ps).record (o - kHeaderSize - p.length) p).report
        (unended initial o "partial record without end(1)" state)
    | _, _, .first p => (scan initial false (some (o - kHeaderSize - p.length, p)) ps).report
        (unended initial o "partial record without end(2)" state)
    | _, some (q, scratch), .middle p => scan initial false (some (q, scratch ++ p)) ps
    | _, none, .middle p => (scan initial false none ps).report
        (dropped initial o p.length "missing start of fragmented record(1)")
    | _, some (q, scratch), .last p => (scan initial false none ps).record q (scratch ++ p)
    | _, none, .last p => (scan initial false none ps).report
        (dropped initial o p.length "missing start of fragmented record(2)")
    | _, _, .eof => ([], [])
    | _, some (_, scratch), .bad => (scan initial false none ps).report
        (dropped initial o scratch.length "error in middle of record")
    | _, none, .bad => scan initial false none ps
    | _, _, .unknown type p => (scan initial false none ps).report
        (dropped initial o (p.length + state.elim 0 (·.2.length)) ("unknown record type " ++ toString type))).report reports

namespace Reader

variable {quiet : Bool} {r r' : Reader} {ps : List PhysicalRead} {found : Found} {fuel n initial : ℕ}
  {before : List (ℕ × String)} {result : List (ℕ × List UInt8) × Reader}

/-- The calls of `ReadRecord` after one that has returned this. -/
def goOn (n : ℕ) : Option (List UInt8) × Reader → List (ℕ × List UInt8) × Reader
  | (some record, r) => ((r.lastRecordOffset, record) :: (readPlacedLoop n r).1, (readPlacedLoop n r).2)
  | (none, r) => ([], r)

/-- After these reports this is found. -/
structure Finds (quiet : Bool) (before : List (ℕ × String)) (found : Found) (result : List (ℕ × List UInt8) × Reader) :
    Prop where
  records : result.1 = found.1
  reports : result.2.reports = before ++ found.2
  unread : quiet = true → result.2.unread = 0

theorem Finds.report {lost : List (ℕ × String)} (h : Finds quiet (before ++ lost) found result) :
    Finds quiet before (found.report lost) result :=
  ⟨h.records, h.reports.trans (List.append_assoc _ _ _), h.unread⟩

theorem Finds.record (h : Finds quiet before found (r.readPlacedLoop n)) (record : List UInt8) :
    Finds quiet before (found.record r.lastRecordOffset record) (goOn n (some record, r)) :=
  ⟨by rw [goOn, h.records]; rfl, h.reports, h.unread⟩

theorem report_unended (r : Reader) (inFragmented : Bool) (scratch : List UInt8) (reason : String) (o : ℕ) :
    (if inFragmented = true ∧ scratch ≠ [] then r.reportCorruption scratch.length reason else r) =
      { r with reports := r.reports ++
          unended r.initialOffset r.offset reason (if inFragmented then some (o, scratch) else none) } := by
  cases inFragmented <;> by_cases h : scratch = [] <;> simp [reportCorruption_eq, unended, h]

theorem readPlacedLoop_succ (n : ℕ) (r : Reader) : r.readPlacedLoop (n + 1) = goOn n r.readRecord := by
  rw [readPlacedLoop, goOn.eq_def]

/-- The loop of `ReadRecord`, and the calls after it. -/
theorem readRecordLoop_spec {c : Reader} (h : Trace quiet c ps) (hinitial : c.initialOffset = initial) (hc : r.core = c)
    (hfuel : ps.length < fuel) (hn : ps.length ≤ n) (inFragmented : Bool) (scratch : List UInt8) (place : ℕ)
    (hplace : inFragmented = true → initial ≤ place) :
    Finds quiet r.reports (scan initial r.resyncing (if inFragmented then some (place, scratch) else none) ps)
      (goOn n (r.readRecordLoop fuel inFragmented scratch place)) := by
  induction h generalizing r fuel n inFragmented scratch place with
  | @eof c heof hunread =>
    obtain ⟨fuel, rfl⟩ := Nat.exists_eq_succ_of_ne_zero (Nat.ne_zero_of_lt hfuel)
    subst hc
    have hreports := (consumes_readPhysicalRecord r.core).reports heof
    simp only [readRecordLoop, readPhysicalRecord_core r, keep, heof]
    cases r.resyncing <;> exact ⟨rfl, congrArg (r.reports ++ ·) hreports, hunread⟩
  | @step c ps hne htrace ih =>
    obtain ⟨fuel, rfl⟩ := Nat.exists_eq_succ_of_ne_zero (Nat.ne_zero_of_lt hfuel)
    obtain ⟨n, rfl⟩ := Nat.exists_eq_succ_of_ne_zero (Nat.ne_zero_of_lt hn)
    rw [List.length_cons] at hfuel hn
    subst hc
    have hkeeps := r.core.initialOffset_readPhysicalRecord.trans hinitial
    have hle := (consumes_readPhysicalRecord r.core).place hne
    rw [hinitial] at hle
    simp only [readRecordLoop, readPhysicalRecord_core r, keep, physicalRead]
    generalize r.core.readPhysicalRecord = result at *
    obtain ⟨p, c⟩ := result
    dsimp only at *
    obtain rfl := hkeeps
    have hgo := fun resync last reports b s o ho =>
      @ih { c with resyncing := resync, lastRecordOffset := last, reports := reports } _ _ rfl rfl
        (Nat.lt_of_succ_lt_succ hfuel) (Nat.le_of_succ_le hn) b s o ho
    have hreturn : ∀ last reports, c.initialOffset ≤ last →
        Finds quiet reports (scan c.initialOffset false none ps)
          ({ c with resyncing := false, lastRecordOffset := last, reports := reports }.readPlacedLoop (n + 1)) := by
      intro last reports hlast
      rw [readPlacedLoop_succ, readRecord, if_neg (Nat.not_lt.mpr hlast)]
      exact @ih { c with resyncing := false, lastRecordOffset := last, reports := reports } _ _ rfl rfl
        (Nat.lt_succ_of_le htrace.length_le) (Nat.le_of_succ_le_succ hn) false [] 0 (by simp)
    refine Finds.report ?_
    cases p with
    | full fragment =>
      have hle := hle (by simp)
      simp only [report_unended _ _ _ _ place]
      cases r.resyncing <;> exact ((hreturn _ _ hle).record fragment).report
    | first fragment =>
      have hle := hle (by simp)
      simp only [report_unended _ _ _ _ place]
      cases r.resyncing <;> exact (hgo false _ _ true fragment _ fun _ => hle).report
    | middle fragment =>
      cases r.resyncing
      · cases inFragmented
        · simp only [reportCorruption_eq]
          exact (hgo false _ _ false scratch place (by simp)).report
        · exact hgo false _ _ true (scratch ++ fragment) place hplace
      · exact hgo true _ _ inFragmented scratch place hplace
    | last fragment =>
      cases r.resyncing
      · cases inFragmented
        · simp only [reportCorruption_eq]
          exact (hgo false _ _ false scratch place (by simp)).report
        · exact (hreturn _ _ (hplace rfl)).record (scratch ++ fragment)
      · exact hgo false _ _ inFragmented scratch place hplace
    | eof => exact absurd rfl hne
    | bad =>
      cases inFragmented
      · cases r.resyncing <;> exact hgo false _ _ false scratch place (by simp)
      · simp only [reportCorruption_eq]
        cases r.resyncing <;> exact (hgo false _ _ false [] place (by simp)).report
    | unknown type fragment =>
      simp only [reportCorruption_eq]
      cases inFragmented <;> cases r.resyncing <;> exact (hgo false _ _ false [] place (by simp)).report

/-- Calls of `ReadRecord` until there is no record left; the first one may skip blocks. -/
theorem readPlacedLoop_spec (hskip : (if r.lastRecordOffset < r.initialOffset then r.skipToInitialBlock else r) = r')
    (h : Trace quiet r'.core ps) (hfuel : ps.length < fuel) :
    Finds quiet r'.reports (scan r'.initialOffset r'.resyncing none ps) (r.readPlacedLoop fuel) := by
  obtain ⟨n, rfl⟩ := Nat.exists_eq_succ_of_ne_zero (Nat.ne_zero_of_lt hfuel)
  rw [readPlacedLoop_succ, readRecord, hskip]
  exact readRecordLoop_spec h rfl rfl (Nat.lt_succ_of_le h.length_le) (Nat.le_of_lt_succ hfuel) false [] 0 (by simp)

theorem readPlacedLoop_of_zero (hzero : r.initialOffset = 0) (h : Trace quiet r.core ps) (hfuel : ps.length < fuel) :
    Finds quiet r.reports (scan r.initialOffset r.resyncing none ps) (r.readPlacedLoop fuel) :=
  readPlacedLoop_spec (if_neg (by simp [hzero])) h hfuel

end Reader

/-! ### Records -/

/-- The results of `ReadPhysicalRecord` from this place on, up to the end of the file; with
`quiet` it reports no corruption, and leaves nothing of the file. -/
inductive Parses (quiet : Bool) : ℕ → List UInt8 → List Physical → Prop where
  | eof {room : ℕ} {rest : List UInt8} : (∀ r, At r room rest → r.readPhysicalRecord.1 = .eof ∧
      (quiet = true → r.readPhysicalRecord.2.reports = r.reports ∧ r.readPhysicalRecord.2.unread = 0)) →
      Parses quiet room rest []
  | step {room room' : ℕ} {rest rest' : List UInt8} {p : Physical} {ps : List Physical} : p ≠ .eof →
      (∀ r, At r room rest → (r.readPhysicalRecord.1 = p ∧ At r.readPhysicalRecord.2 room' rest') ∧
        (quiet = true → r.readPhysicalRecord.2.reports = r.reports)) →
      rest'.length < rest.length → Parses quiet room' rest' ps → Parses quiet room rest (p :: ps)

variable {quiet : Bool}

/-- The records that `ReadRecord` makes of these physical records, with what it has of a
fragmented record. -/
def assemble : Option (List UInt8) → List Physical → List (List UInt8)
  | _, [] => []
  | _, .full fragment :: ps => fragment :: assemble none ps
  | _, .first fragment :: ps => assemble (some fragment) ps
  | none, .middle _ :: ps => assemble none ps
  | some scratch, .middle fragment :: ps => assemble (some (scratch ++ fragment)) ps
  | none, .last _ :: ps => assemble none ps
  | some scratch, .last fragment :: ps => (scratch ++ fragment) :: assemble none ps
  | _, .eof :: _ => []
  | _, .bad :: ps => assemble none ps
  | _, .unknown _ _ :: ps => assemble none ps

/-- Physical records at which `ReadRecord` reports nothing, where it has the beginning of a
fragmented record or not. -/
def Clean : Bool → List Physical → Prop
  | _, [] => True
  | false, .full _ :: ps => Clean false ps
  | false, .first _ :: ps => Clean true ps
  | true, .middle _ :: ps => Clean true ps
  | true, .last _ :: ps => Clean false ps
  | _, _ => False

section Spec

variable {room : ℕ} {rest : List UInt8} {ps : List Physical} {r : Reader}

theorem Parses.trace (h : Parses quiet room rest ps) (hr : At r room rest) :
    ∃ qs, Trace quiet r.core qs ∧ qs.map PhysicalRead.physical = ps ∧ (quiet = true → ∀ q ∈ qs, q.reports = []) := by
  induction h generalizing r with
  | eof heof =>
    obtain ⟨hphysical, hquiet⟩ := heof _ hr.core
    exact ⟨[], .eof hphysical fun hq => (hquiet hq).2, rfl, by simp⟩
  | step hp hread _ _ ih =>
    obtain ⟨⟨rfl, hat⟩, hquiet⟩ := hread _ hr.core
    obtain ⟨qs, htrace, hqs, hreports⟩ := ih hat
    exact ⟨_ :: qs, .step hp htrace, congrArg _ hqs, fun hq => List.forall_mem_cons.mpr ⟨hquiet hq, hreports hq⟩⟩

theorem records_scan (initial : ℕ) (state : Option (ℕ × List UInt8)) (qs : List PhysicalRead) :
    (scan initial false state qs).1.map Prod.snd = assemble (state.map Prod.snd) (qs.map PhysicalRead.physical) := by
  induction qs generalizing state with
  | nil => simp [scan, assemble]
  | cons q qs ih =>
    obtain ⟨p, o, reports⟩ := q
    cases p <;> cases state <;> simp [scan, assemble, Found.report, Found.record, ih]

theorem reports_scan {state : Option (ℕ × List UInt8)} {qs : List PhysicalRead}
    (h : Clean state.isSome (qs.map PhysicalRead.physical)) (hquiet : ∀ q ∈ qs, q.reports = []) (initial : ℕ) :
    (scan initial false state qs).2 = [] := by
  induction qs generalizing state with
  | nil => rfl
  | cons q qs ih =>
    obtain ⟨p, o, reports⟩ := q
    obtain ⟨rfl, hqs⟩ := List.forall_mem_cons.mp hquiet
    cases p <;> cases state <;> first
      | exact h.elim
      | simpa [scan, Found.report, Found.record, unended] using ih h hqs

theorem readAllLoop_eq (r : Reader) (fuel : ℕ) :
    r.readAllLoop fuel = ((r.readPlacedLoop fuel).1.map Prod.snd, (r.readPlacedLoop fuel).2) := by
  induction fuel generalizing r with
  | zero => rfl
  | succ fuel ih =>
    rw [readAllLoop, readPlacedLoop]
    cases h : r.readRecord with
    | mk result r' => cases result <;> simp [ih]

/-- A reader returns the records that the physical records of the file make. -/
theorem readAllLoop_spec {fuel : ℕ} (h : Parses quiet room rest ps) (hr : At r room rest) (hfuel : rest.length < fuel) :
    (r.readAllLoop fuel).1 = assemble none ps ∧ (quiet = true → Clean false ps →
      (r.readAllLoop fuel).2.reports = r.reports ∧ (r.readAllLoop fuel).2.unread = 0) := by
  obtain ⟨qs, htrace, rfl, hreports⟩ := h.trace hr
  rw [← hr.unread] at hfuel
  have hfinds := readPlacedLoop_of_zero hr.initialOffset htrace (htrace.length_le.trans_lt hfuel)
  rw [hr.resyncing] at hfinds
  rw [readAllLoop_eq]
  refine ⟨by rw [hfinds.records, records_scan]; rfl, fun hq hclean => ⟨?_, hfinds.unread hq⟩⟩
  rw [hfinds.reports, @reports_scan none qs hclean (hreports hq), List.append_nil]

end Spec

/-- The records that a reader returns of a file. -/
def read (file : List UInt8) : List (List UInt8) := (Reader.create file true 0).readAll.1

theorem read_eq {file : List UInt8} {ps : List Physical} (h : Parses quiet 0 file ps) : read file = assemble none ps :=
  (readAllLoop_spec h (at_create file) (Nat.lt_succ_of_le (at_create file).unread.ge)).1

end TLevelDB.Log
