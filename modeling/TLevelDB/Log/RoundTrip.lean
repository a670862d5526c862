import TLevelDB.Log.Reader

/-!
# What is read of what was written

A reader gets the fragments of a `layout` one by one, skips its trailers, and takes a
fragment that is not there to its end for the end of the file. The fragments of a record
make that record again; a record whose last fragments are missing is dropped.
-/

namespace TLevelDB.Log

open Reader

/-! ### Physical records -/

def Fragment.toPhysical (f : Fragment) : Physical :=
  match f.type with
  | .zero => .unknown 0 f.payload
  | .full => .full f.payload
  | .first => .first f.payload
  | .middle => .middle f.payload
  | .last => .last f.payload

theorem Fragment.ofType_eq (f : Fragment) : Physical.ofType f.type.toByte.toNat f.payload = f.toPhysical := by
  unfold Fragment.toPhysical
  cases f.type <;> rfl

theorem Fragment.toPhysical_ne_eof (f : Fragment) : f.toPhysical ≠ .eof := by
  unfold Fragment.toPhysical
  cases f.type <;> simp

theorem Fragment.actualCrc_header (f : Fragment) (h : f.payload.length < 2 ^ 16) (rest : List UInt8) :
    actualCrc (f.header ++ rest) = value (f.type.toByte :: rest.take f.payload.length) := by
  rw [actualCrc, f.drop_header, f.headerLength_header rest h, Nat.add_comm, List.take_succ_cons]

theorem Fragment.headerLength_bytes (f : Fragment) (h : f.payload.length < 2 ^ 16) (rest : List UInt8) :
    headerLength (f.bytes ++ rest) = f.payload.length := by
  rw [Fragment.bytes, List.append_assoc, f.headerLength_header _ h]

/-- The checksum of a fragment is the one in its header. -/
theorem Fragment.actualCrc_bytes (f : Fragment) (h : f.payload.length < 2 ^ 16) (rest : List UInt8) :
    actualCrc (f.bytes ++ rest) = unmask (decodeFixed32 (f.bytes ++ rest)) := by
  rw [Fragment.bytes, List.append_assoc, f.actualCrc_header h, List.take_left, f.decodeFixed32_header, unmask_mask]

section Parsing

variable {quiet : Bool} {room : ℕ} {rest : List UInt8} {ps : List Physical} {f : Fragment} {fs : List Fragment}

theorem Parses.trailer (hroom : room < kHeaderSize) (hle : room ≤ rest.length)
    (h : Parses quiet kBlockSize (rest.drop room) ps) : Parses quiet room rest ps := by
  cases h with
  | eof heof =>
    refine .eof fun r hr => ?_
    rw [hr.readPhysicalRecord_trailer hroom hle, ← reports_refill r]
    exact heof _ (hr.refill hroom hle)
  | @step _ room' _ rest' p ps hp hread hlt hps =>
    refine .step hp (fun r hr => ?_) (hlt.trans_le (by simp)) hps
    rw [hr.readPhysicalRecord_trailer hroom hle, ← reports_refill r]
    exact hread _ (hr.refill hroom hle)

theorem payload_lt (hfit : f.size ≤ room) (hroom : room ≤ kBlockSize) : f.payload.length < 2 ^ 16 := by
  have hblock : kBlockSize = 32768 := rfl
  rw [Fragment.size] at hfit
  omega

/-- A fragment counts as a bad record if it started before `initial_offset_`. -/
theorem Reader.Place.readPhysicalRecord_fragment {r : Reader} (h : Place r room (f.bytes ++ rest))
    (hroom : room ≤ kBlockSize) (hfit : f.size ≤ room) (htype : f.type ≠ .zero) :
    ∃ r', r' = { r with buffer := r.buffer.drop f.size } ∧
      r.readPhysicalRecord =
        (if r.endOfBufferOffset - r'.buffer.length - kHeaderSize - f.payload.length < r.initialOffset then .bad
          else f.toPhysical, r') ∧
      Place r' (room - f.size) rest := by
  have hpayload := payload_lt hfit hroom
  have hlength := f.headerLength_bytes hpayload rest
  have hsize : kHeaderSize + headerLength (f.bytes ++ rest) = f.size := by rw [hlength, Fragment.size]
  have htype' : headerType (f.bytes ++ rest) = f.type.toByte.toNat := by
    rw [Fragment.bytes, List.append_assoc, f.headerType_header]
  have hdrop : (f.bytes ++ rest).drop f.size = rest := by rw [← f.length_bytes, List.drop_left]
  have hfragment : ((f.bytes ++ rest).drop kHeaderSize).take f.payload.length = f.payload := by
    rw [Fragment.bytes, List.append_assoc, ← f.length_header, List.drop_left, List.take_left]
  have hok := h.readPhysicalRecord_ok (by rw [hsize]; exact hfit) (by rw [hsize]; simp)
    (by rw [htype']; cases ht : f.type <;> simp_all [RecordType.toByte]) (f.actualCrc_bytes hpayload rest)
  rwa [hsize, hdrop, hlength, hfragment, htype', f.ofType_eq] at hok

theorem Parses.fragment (hroom : room ≤ kBlockSize) (hfit : f.size ≤ room) (htype : f.type ≠ .zero)
    (h : Parses quiet (room - f.size) rest ps) : Parses quiet room (f.bytes ++ rest) (f.toPhysical :: ps) := by
  have hshorter : rest.length < (f.bytes ++ rest).length := by
    rw [List.length_append, f.length_bytes, Fragment.size, kHeaderSize]
    omega
  refine .step f.toPhysical_ne_eof (fun r hr => ?_) hshorter h
  obtain ⟨r', rfl, hread, hplace⟩ := hr.readPhysicalRecord_fragment hroom hfit htype
  rw [hread, if_neg (by simp [hr.initialOffset])]
  exact ⟨⟨rfl, hplace, hr.checksum, hr.initialOffset, hr.resyncing⟩, fun _ => rfl⟩

/-- A trailer before a fragment. -/
theorem Parses.gap (h : Parses quiet (start room) rest ps) :
    Parses quiet room (List.replicate (gap room) 0 ++ rest) ps := by
  by_cases hlt : room < kHeaderSize
  · rw [gap_of_lt hlt]
    rw [start_of_lt hlt] at h
    refine .trailer hlt (by simp) ?_
    rwa [List.drop_append_of_le_length (by simp), List.drop_of_length_le (by simp), List.nil_append]
  · rw [start_of_le (Nat.not_lt.mp hlt)] at h
    simpa [gap_of_le (Nat.not_lt.mp hlt)] using h

theorem Parses.layout (hroom : room ≤ kBlockSize) (hfits : Fits room fs) (htypes : ∀ f ∈ fs, f.type ≠ .zero)
    (h : Parses quiet (roomAfter room fs) rest ps) : Parses quiet room (layout room fs ++ rest) (fs.map Fragment.toPhysical ++ ps) := by
  induction fs generalizing room with
  | nil => exact h
  | cons f fs ih =>
    obtain ⟨hfit, hfits⟩ := hfits
    have hstart := start_le hroom
    have hrest := ih ((Nat.sub_le _ _).trans hstart) hfits (fun g hg => htypes g (List.mem_cons_of_mem _ hg)) h
    have hfragment := Parses.fragment hstart hfit (htypes f List.mem_cons_self) hrest
    simpa [Log.layout] using hfragment.gap

theorem Parses.torn_fragment {j : ℕ} (hroom : room ≤ kBlockSize) (hfit : f.size ≤ room) (hj : j < f.size) :
    Parses quiet room (f.bytes.take j) [] := by
  have hlen : (f.bytes.take j).length = j := by simp [hj.le]
  refine .eof fun r hr => ?_
  by_cases hheader : j < kHeaderSize
  · obtain ⟨heof, hreports⟩ := hr.readPhysicalRecord_short (by omega) (by omega)
    exact ⟨heof, fun _ => hreports⟩
  · have hlength : headerLength (f.bytes.take j) = f.payload.length := by
      have hwhole := f.headerLength_header f.payload (payload_lt hfit hroom)
      rwa [← Fragment.bytes, ← headerLength_take (Nat.not_lt.mp hheader)] at hwhole
    obtain ⟨heof, hreports⟩ := hr.readPhysicalRecord_torn (by omega) (by omega) (by rw [hlen, hlength]; exact hj)
    exact ⟨heof, fun _ => hreports⟩

/-- What is there of a trailer and of the fragment after it. -/
theorem Parses.torn {m : ℕ} (hroom : room ≤ kBlockSize) (hfit : f.size ≤ start room)
    (hm : m < Log.gap room + f.size) : Parses quiet room ((List.replicate (Log.gap room) 0 ++ f.bytes).take m) [] := by
  by_cases hgap : m < Log.gap room
  · have hlt : room < kHeaderSize := by
      by_contra hle
      rw [gap_of_le (Nat.not_lt.mp hle)] at hgap
      exact Nat.not_lt_zero _ hgap
    have hgap' : m < room := gap_of_lt hlt ▸ hgap
    refine .eof fun r hr => ?_
    have hlen : ((List.replicate (Log.gap room) 0 ++ f.bytes).take m).length = m := by
      simp only [List.length_take, List.length_append, List.length_replicate, Fragment.length_bytes]
      omega
    obtain ⟨heof, hreports⟩ := hr.readPhysicalRecord_short (by omega) (by omega)
    exact ⟨heof, fun _ => hreports⟩
  · rw [List.take_append, List.take_of_length_le (by simp; omega), List.length_replicate]
    exact (Parses.torn_fragment (start_le hroom) hfit (by omega)).gap

theorem Parses.nil (hroom : room ≤ kBlockSize) : Parses quiet room [] [] := by
  have htorn := @Parses.torn quiet _ ⟨.full, []⟩ 0 hroom (kHeaderSize_le_start room) (by simp [Fragment.size, kHeaderSize])
  simpa using htorn

/-- What begins this does not fit the room that is left, is of zeros, or has a wrong checksum. -/
def BadHead (room : ℕ) (rest : List UInt8) : Prop :=
  room < kHeaderSize + headerLength rest ∨ headerType rest = 0 ∧ headerLength rest = 0 ∨
    actualCrc rest ≠ unmask (decodeFixed32 rest)

/-- A bad record in a block that is there to its end. -/
theorem Parses.bad (hheader : kHeaderSize ≤ room) (hle : room ≤ rest.length) (hbad : BadHead room rest)
    (h : Parses false kBlockSize (rest.drop room) ps) : Parses false room rest (.bad :: ps) := by
  have hpos : 0 < kHeaderSize := by decide
  have hnext : Parses false 0 (rest.drop room) ps := .trailer hpos (Nat.zero_le _) h
  have hlt : (rest.drop room).length < rest.length := by
    rw [List.length_drop]
    omega
  by_cases hlong : room < kHeaderSize + headerLength rest
  · exact .step (by simp) (fun r hr => ⟨hr.readPhysicalRecord_long hheader hle hlong, nofun⟩) hlt hnext
  · have hfit := Nat.not_lt.mp hlong
    refine .step (by simp) (fun r hr =>
      ⟨hr.readPhysicalRecord_bad hfit (hfit.trans hle) (hbad.resolve_left hlong), nofun⟩) hlt ?_
    rwa [if_pos hle]

/-- A bad record in the last block; if it goes beyond the end of the file, it is not noticed. -/
theorem Parses.bad_last (hlen : kHeaderSize ≤ rest.length) (hlt : rest.length < room) (hbad : BadHead rest.length rest) :
    Parses false room rest [] ∨ Parses false room rest [.bad] := by
  by_cases hlong : rest.length < kHeaderSize + headerLength rest
  · exact .inl (.eof fun r hr => ⟨(hr.readPhysicalRecord_torn hlen hlt hlong).1, nofun⟩)
  · have hfit := Nat.not_lt.mp hlong
    have hnil : rest.drop room = [] := List.drop_of_length_le hlt.le
    refine .inr (.step (by simp) (fun r hr =>
      ⟨hr.readPhysicalRecord_bad (hfit.trans hlt.le) hfit (hbad.resolve_left hlong), nofun⟩) ?_ ?_) <;> rw [hnil]
    · exact Nat.lt_of_lt_of_le (by decide) hlen
    · exact Parses.nil (by split <;> decide)

end Parsing

/-! ### Records -/

theorem Tail.type_ne_zero {left : List UInt8} {fs : List Fragment} (h : Tail left fs) : ∀ f ∈ fs, f.type ≠ .zero := by
  induction h with
  | last => simp
  | middle _ _ ih => simpa using ih

theorem Fragmented.type_ne_zero {room : ℕ} {r : List UInt8} {fs : List Fragment} (h : Fragmented room r fs) :
    ∀ f ∈ fs, f.type ≠ .zero := by
  cases h with
  | full => simp
  | first _ htail => simpa using htail.type_ne_zero

theorem type_fragmentsOf_ne_zero (room : ℕ) (rs : List (List UInt8)) : ∀ f ∈ fragmentsOf room rs, f.type ≠ .zero := by
  induction rs generalizing room with
  | nil => simp [fragmentsOf]
  | cons r rs ih =>
    intro f hf
    rw [fragmentsOf, List.mem_append] at hf
    exact hf.elim ((fragmented_fragments _ _).type_ne_zero f) (ih _ f)

/-- The fragments of what is left of a record complete it. -/
theorem Tail.assemble {left : List UInt8} {fs : List Fragment} (h : Tail left fs) (scratch : List UInt8)
    (ps : List Physical) : assemble (some scratch) (fs.map Fragment.toPhysical ++ ps) =
      (scratch ++ left) :: Log.assemble none ps := by
  induction h generalizing scratch with
  | last => rfl
  | middle _ _ ih =>
    rw [← List.append_assoc]
    exact ih _

/-- The fragments of a record make it, whatever was read before them. -/
theorem assemble_fragments (room : ℕ) (r : List UInt8) (state : Option (List UInt8)) (ps : List Physical) :
    assemble state ((fragments room r).map Fragment.toPhysical ++ ps) = r :: assemble none ps := by
  have h := fragmented_fragments room r
  generalize fragments room r = fs at h
  cases h with
  | full => cases state <;> rfl
  | first _ htail => cases state <;> exact htail.assemble _ ps

theorem assemble_append (fs : List Fragment) (state : Option (List UInt8)) :
    ∃ state', ∀ ps, assemble state (fs.map Fragment.toPhysical ++ ps) =
      assemble state (fs.map Fragment.toPhysical) ++ assemble state' ps := by
  induction fs generalizing state with
  | nil => exact ⟨state, fun ps => by simp [assemble]⟩
  | cons f fs ih =>
    -- what is kept of the fragments up to this one
    have hstep : ∃ out state₁, ∀ qs, assemble state (f.toPhysical :: qs) = out ++ assemble state₁ qs := by
      unfold Fragment.toPhysical
      cases f.type with
      | zero => exact ⟨[], none, fun qs => by simp [assemble]⟩
      | full => exact ⟨[f.payload], none, fun qs => by simp [assemble]⟩
      | first => exact ⟨[], some f.payload, fun qs => by simp [assemble]⟩
      | middle =>
        cases state with
        | none => exact ⟨[], none, fun qs => by simp [assemble]⟩
        | some scratch => exact ⟨[], some (scratch ++ f.payload), fun qs => by simp [assemble]⟩
      | last =>
        cases state with
        | none => exact ⟨[], none, fun qs => by simp [assemble]⟩
        | some scratch => exact ⟨[scratch ++ f.payload], none, fun qs => by simp [assemble]⟩
    obtain ⟨out, state₁, hstep⟩ := hstep
    obtain ⟨state', hrest⟩ := ih state₁
    refine ⟨state', fun ps => ?_⟩
    rw [List.map_cons, List.cons_append, hstep, hstep, hrest ps, List.append_assoc]

theorem assemble_fragmentsOf (room : ℕ) (rs : List (List UInt8)) (ps : List Physical) :
    assemble none ((fragmentsOf room rs).map Fragment.toPhysical ++ ps) = rs ++ assemble none ps := by
  induction rs generalizing room with
  | nil => rfl
  | cons r rs ih =>
    rw [fragmentsOf, List.map_append, List.append_assoc, assemble_fragments, ih, List.cons_append]

end TLevelDB.Log
