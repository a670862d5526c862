import TLevelDB.Log.Format
import Mathlib.Data.List.Infix
import Mathlib.Data.List.Induction

/-!
# Writing a log

`Writer.addRecord` is `log::Writer::AddRecord`. The file it writes to may fail: a call of
`Append` then leaves a prefix of its argument behind. A writer whose file does not fail
appends the `layout` of the `fragments` of the record.
-/

namespace TLevelDB.Log

/-! ### The writer -/

/-- A file that is written. -/
structure Dest where
  bytes : List UInt8
  /-- How the next calls of `Append` end: `none` is a call that succeeds, `some k` one that
  fails after the first `k` bytes of its argument. The calls after these succeed. -/
  faults : List (Option ℕ)

def Dest.append (d : Dest) (data : List UInt8) : Bool × Dest :=
  match d.faults with
  | [] => (true, ⟨d.bytes ++ data, []⟩)
  | none :: faults => (true, ⟨d.bytes ++ data, faults⟩)
  | some k :: faults => (false, ⟨d.bytes ++ data.take k, faults⟩)

structure Writer where
  dest : Dest
  blockOffset : ℕ

namespace Writer

/-- `Writer(dest)`, for a new file. -/
def create (dest : Dest) : Writer := ⟨dest, 0⟩

/-- `Writer(dest, dest_length)`, for a file that has that length already. -/
def reopen (dest : Dest) (destLength : ℕ) : Writer := ⟨dest, destLength % kBlockSize⟩

def emitPhysicalRecord (w : Writer) (f : Fragment) : Bool × Writer :=
  let header := w.dest.append f.header
  let payload := if header.1 then header.2.append f.payload else header
  -- the offset goes on whatever reached the file
  (payload.1, ⟨payload.2, w.blockOffset + kHeaderSize + f.payload.length⟩)

/-- The beginning of a turn of the loop: less than a header is left of the block. -/
def switchBlock (w : Writer) : Writer :=
  let leftover := kBlockSize - w.blockOffset
  if leftover < kHeaderSize then
    -- what `Append` says about the trailer is ignored
    ⟨if 0 < leftover then (w.dest.append (List.replicate leftover 0)).2 else w.dest, 0⟩
  else w

end Writer

/-- The type of a fragment that begins or ends a record. -/
def recordType (begin_ end_ : Bool) : RecordType :=
  if begin_ && end_ then .full else if begin_ then .first else if end_ then .last else .middle

/-- The fragment that is emitted next of what is left of a record, with that many bytes left of the block. -/
def nextFragment (room : ℕ) (begin_ : Bool) (left : List UInt8) : Fragment :=
  let avail := room - kHeaderSize
  let fragmentLength := if left.length < avail then left.length else avail
  ⟨recordType begin_ (left.length = fragmentLength), left.take fragmentLength⟩

namespace Writer

/-- The loop of `AddRecord`. -/
def addRecordLoop : ℕ → Writer → Bool → List UInt8 → Bool × Writer
  | 0, w, _, _ => (true, w)
  | fuel + 1, w, begin_, left =>
    let w := w.switchBlock
    let fragment := nextFragment (kBlockSize - w.blockOffset) begin_ left
    let (ok, w) := w.emitPhysicalRecord fragment
    let left := left.drop fragment.payload.length
    if ok && decide (0 < left.length) then addRecordLoop fuel w false left else (ok, w)

/-- `AddRecord`: every turn but the first writes a byte of the record. -/
def addRecord (w : Writer) (slice : List UInt8) : Bool × Writer := w.addRecordLoop (slice.length + 2) true slice

/-- Calls of `AddRecord` one after the other. -/
def addRecords (w : Writer) (records : List (List UInt8)) : Writer := records.foldl (fun w r => (w.addRecord r).2) w

end Writer

/-! ### Where fragments lie

`room` is what is left of the block. -/

/-- The trailer before the next fragment. -/
def gap (room : ℕ) : ℕ := if room < kHeaderSize then room else 0

/-- What is left of the block in which the next fragment begins. -/
def start (room : ℕ) : ℕ := if room < kHeaderSize then kBlockSize else room

/-- These fragments one after the other. -/
def layout : ℕ → List Fragment → List UInt8
  | _, [] => []
  | room, f :: fs => List.replicate (gap room) 0 ++ f.bytes ++ layout (start room - f.size) fs

/-- What is left of the block after these fragments. -/
def roomAfter : ℕ → List Fragment → ℕ
  | room, [] => room
  | room, f :: fs => roomAfter (start room - f.size) fs

/-- Every fragment stays within its block. -/
def Fits : ℕ → List Fragment → Prop
  | _, [] => True
  | room, f :: fs => f.size ≤ start room ∧ Fits (start room - f.size) fs

/-- The fragments of what is left of a record. -/
def fragmentsLoop : ℕ → ℕ → Bool → List UInt8 → List Fragment
  | 0, _, _, _ => []
  | fuel + 1, room, begin_, left =>
    let fragment := nextFragment (start room) begin_ left
    let left := left.drop fragment.payload.length
    fragment :: if 0 < left.length then fragmentsLoop fuel (start room - fragment.size) false left else []

/-- The fragments of a record. -/
def fragments (room : ℕ) (slice : List UInt8) : List Fragment := fragmentsLoop (slice.length + 2) room true slice

/-- The fragments of records one after the other. -/
def fragmentsOf : ℕ → List (List UInt8) → List Fragment
  | _, [] => []
  | room, r :: rs => fragments room r ++ fragmentsOf (roomAfter room (fragments room r)) rs

section Layout

variable {room : ℕ} {f : Fragment} {fs gs : List Fragment}

theorem layout_append (room : ℕ) (fs gs : List Fragment) :
    layout room (fs ++ gs) = layout room fs ++ layout (roomAfter room fs) gs := by
  induction fs generalizing room with
  | nil => rfl
  | cons f fs ih => simp [layout, roomAfter, ih]

theorem roomAfter_append (room : ℕ) (fs gs : List Fragment) :
    roomAfter room (fs ++ gs) = roomAfter (roomAfter room fs) gs := by
  induction fs generalizing room with
  | nil => rfl
  | cons f fs ih => simp [roomAfter, ih]

theorem fits_append : Fits room (fs ++ gs) ↔ Fits room fs ∧ Fits (roomAfter room fs) gs := by
  induction fs generalizing room with
  | nil => simp [Fits, roomAfter]
  | cons f fs ih => simp [Fits, roomAfter, ih, and_assoc]

theorem gap_of_lt (h : room < kHeaderSize) : gap room = room := if_pos h

theorem gap_of_le (h : kHeaderSize ≤ room) : gap room = 0 := if_neg (Nat.not_lt.mpr h)

theorem start_of_lt (h : room < kHeaderSize) : start room = kBlockSize := if_pos h

theorem start_of_le (h : kHeaderSize ≤ room) : start room = room := if_neg (Nat.not_lt.mpr h)

theorem start_le (h : room ≤ kBlockSize) : start room ≤ kBlockSize := by
  unfold start
  split <;> omega

theorem kHeaderSize_le_start (room : ℕ) : kHeaderSize ≤ start room := by
  unfold start
  split
  · decide
  · omega

theorem roomAfter_le (h : room ≤ kBlockSize) (fs : List Fragment) : roomAfter room fs ≤ kBlockSize := by
  induction fs generalizing room with
  | nil => exact h
  | cons f fs ih => exact ih ((Nat.sub_le _ _).trans (start_le h))

theorem nextFragment_eq (room : ℕ) (begin_ : Bool) (left : List UInt8) :
    nextFragment room begin_ left =
      ⟨recordType begin_ (decide (left.length ≤ room - kHeaderSize)), left.take (room - kHeaderSize)⟩ := by
  simp only [nextFragment]
  split
  · have hle : left.length ≤ room - kHeaderSize := by omega
    rw [List.take_length, List.take_of_length_le hle]
    simp [hle]
  · have hiff : left.length = room - kHeaderSize ↔ left.length ≤ room - kHeaderSize := by omega
    simp [hiff]

theorem drop_nextFragment (room : ℕ) (begin_ : Bool) (left : List UInt8) :
    left.drop (nextFragment room begin_ left).payload.length = left.drop (room - kHeaderSize) := by
  rw [nextFragment_eq, List.length_take]
  by_cases hle : left.length ≤ room - kHeaderSize
  · rw [Nat.min_eq_right hle, List.drop_length, List.drop_eq_nil_of_le hle]
  · rw [Nat.min_eq_left (by omega)]

theorem size_nextFragment_le (h : kHeaderSize ≤ room) (begin_ : Bool) (left : List UInt8) :
    (nextFragment room begin_ left).size ≤ room := by
  rw [nextFragment_eq, Fragment.size, List.length_take]
  omega

/-- A fragment after which something is left of the record goes to the end of the block. -/
theorem size_nextFragment_of_left (h : kHeaderSize ≤ room) {begin_ : Bool} {left : List UInt8}
    (hleft : room - kHeaderSize < left.length) : (nextFragment room begin_ left).size = room := by
  rw [nextFragment_eq, Fragment.size, List.length_take]
  omega

theorem fragmentsLoop_succ (fuel room : ℕ) (begin_ : Bool) (left : List UInt8) :
    fragmentsLoop (fuel + 1) room begin_ left = nextFragment (start room) begin_ left ::
      if start room - kHeaderSize < left.length
      then fragmentsLoop fuel 0 false (left.drop (start room - kHeaderSize)) else [] := by
  simp only [fragmentsLoop, drop_nextFragment, List.length_drop, Nat.sub_pos_iff_lt, List.cons.injEq, true_and]
  split
  · rename_i hleft
    rw [size_nextFragment_of_left (kHeaderSize_le_start room) hleft, Nat.sub_self]
  · rfl

theorem nextFragment_of_lt {left : List UInt8} (h : room - kHeaderSize < left.length) (begin_ : Bool) :
    nextFragment room begin_ left = ⟨if begin_ then .first else .middle, left.take (room - kHeaderSize)⟩ := by
  rw [nextFragment_eq, decide_eq_false (Nat.not_le.mpr h)]
  cases begin_ <;> rfl

theorem nextFragment_of_le {left : List UInt8} (h : left.length ≤ room - kHeaderSize) (begin_ : Bool) :
    nextFragment room begin_ left = ⟨if begin_ then .full else .last, left⟩ := by
  rw [nextFragment_eq, decide_eq_true h, List.take_of_length_le h]
  cases begin_ <;> rfl

/-- The fragments of what is left of a record after its first one: every one begins with a
block, and fills it if it is not the last. -/
inductive Tail : List UInt8 → List Fragment → Prop where
  | last {left} : (⟨.last, left⟩ : Fragment).size ≤ kBlockSize → Tail left [⟨.last, left⟩]
  | middle {p left fs} : (⟨.middle, p⟩ : Fragment).size = kBlockSize → Tail left fs →
      Tail (p ++ left) (⟨.middle, p⟩ :: fs)

/-- A record is one fragment, or it goes on with the next block. -/
inductive Fragmented (room : ℕ) : List UInt8 → List Fragment → Prop where
  | full {r} : (⟨.full, r⟩ : Fragment).size ≤ start room → Fragmented room r [⟨.full, r⟩]
  | first {p left fs} : (⟨.first, p⟩ : Fragment).size = start room → Tail left fs →
      Fragmented room (p ++ left) (⟨.first, p⟩ :: fs)

theorem tail_fragmentsLoop {fuel : ℕ} {left : List UInt8} (hfuel : left.length < fuel) :
    Tail left (fragmentsLoop fuel 0 false left) := by
  induction fuel generalizing left with
  | zero => exact absurd hfuel (Nat.not_lt_zero _)
  | succ fuel ih =>
    have hstart : start 0 = kBlockSize := rfl
    rw [fragmentsLoop_succ, hstart]
    split
    · rename_i hleft
      have hsize := @size_nextFragment_of_left kBlockSize (by decide) false left hleft
      have hdrop : (left.drop (kBlockSize - kHeaderSize)).length < fuel := by
        rw [List.length_drop]
        simp only [kBlockSize, kHeaderSize] at hleft ⊢
        omega
      rw [nextFragment_of_lt hleft] at hsize ⊢
      have htail := Tail.middle hsize (ih hdrop)
      rwa [List.take_append_drop] at htail
    · rename_i hleft
      have hsize := @size_nextFragment_le kBlockSize (by decide) false left
      rw [nextFragment_of_le (Nat.not_lt.mp hleft)] at hsize ⊢
      exact .last hsize

theorem fragmented_fragments (room : ℕ) (r : List UInt8) : Fragmented room r (fragments room r) := by
  rw [fragments, fragmentsLoop_succ]
  split
  · rename_i hleft
    have hsize := @size_nextFragment_of_left (start room) (kHeaderSize_le_start room) true r hleft
    have hdrop : (r.drop (start room - kHeaderSize)).length < r.length + 1 := by
      rw [List.length_drop]
      omega
    rw [nextFragment_of_lt hleft] at hsize ⊢
    have hfirst := Fragmented.first hsize (tail_fragmentsLoop hdrop)
    rwa [List.take_append_drop] at hfirst
  · rename_i hleft
    have hsize := @size_nextFragment_le (start room) (kHeaderSize_le_start room) true r
    rw [nextFragment_of_le (Nat.not_lt.mp hleft)] at hsize ⊢
    exact .full hsize

theorem Tail.fits {left : List UInt8} (h : Tail left fs) : Fits 0 fs := by
  induction h with
  | last hsize => exact ⟨hsize, trivial⟩
  | middle hsize _ ih =>
    have hstart : start 0 = kBlockSize := rfl
    refine ⟨hsize.le, ?_⟩
    rwa [hsize, hstart, Nat.sub_self]

theorem Fragmented.fits {r : List UInt8} (h : Fragmented room r fs) : Fits room fs := by
  cases h with
  | full hsize => exact ⟨hsize, trivial⟩
  | first hsize htail =>
    refine ⟨hsize.le, ?_⟩
    rw [hsize, Nat.sub_self]
    exact htail.fits

theorem fits_fragmentsOf (room : ℕ) (rs : List (List UInt8)) : Fits room (fragmentsOf room rs) := by
  induction rs generalizing room with
  | nil => trivial
  | cons r rs ih => exact fits_append.mpr ⟨(fragmented_fragments _ _).fits, ih _⟩

theorem fragmentsOf_append (room : ℕ) (rs rs' : List (List UInt8)) :
    fragmentsOf room (rs ++ rs') = fragmentsOf room rs ++ fragmentsOf (roomAfter room (fragmentsOf room rs)) rs' := by
  induction rs generalizing room with
  | nil => rfl
  | cons r rs ih => simp [fragmentsOf, ih, roomAfter_append]

end Layout

/-! ### What the writer appends -/

namespace Dest

theorem append_spec (d : Dest) (data : List UInt8) :
    ∃ k, (d.append data).2.bytes = d.bytes ++ data.take k ∧ ((d.append data).1 = true → data.length ≤ k) := by
  unfold append
  split
  · exact ⟨data.length, by simp, fun _ => le_rfl⟩
  · exact ⟨data.length, by simp, fun _ => le_rfl⟩
  · exact ⟨_, rfl, by simp⟩

theorem append_of_no_faults {d : Dest} (h : d.faults = []) (data : List UInt8) :
    d.append data = (true, ⟨d.bytes ++ data, []⟩) := by
  simp [append, h]

end Dest

namespace Writer

/-- What is left of the block, as the writer sees it. -/
def room (w : Writer) : ℕ := kBlockSize - w.blockOffset

/-- A trailer that the next call of `AddRecord` appends is not cut off. -/
def TrailerWritten (w : Writer) : Prop := ∀ k ∈ w.dest.faults.head?.join, gap w.room ≤ k
deriving Decidable

theorem emitPhysicalRecord_spec (w : Writer) (f : Fragment) :
    ∃ k, (w.emitPhysicalRecord f).2.dest.bytes = w.dest.bytes ++ f.bytes.take k ∧
      ((w.emitPhysicalRecord f).1 = true → f.size ≤ k) := by
  obtain ⟨k, hbytes, hk⟩ := w.dest.append_spec f.header
  unfold emitPhysicalRecord
  by_cases hok : (w.dest.append f.header).1 = true
  · obtain ⟨m, hbytes', hm⟩ := (w.dest.append f.header).2.append_spec f.payload
    have hwhole : f.header.take k = f.header := List.take_of_length_le (hk hok)
    simp only [hok, ↓reduceIte]
    refine ⟨kHeaderSize + m, ?_, fun h => Nat.add_le_add_left (hm h) _⟩
    rw [hbytes', hbytes, hwhole, Fragment.bytes, ← f.length_header, List.take_length_add_append, List.append_assoc]
  · -- the header was cut off, or `Append` failed after it
    simp only [hok]
    refine ⟨min k kHeaderSize, ?_, by simp [hok]⟩
    simp only [Bool.false_eq_true, ↓reduceIte, hbytes, Fragment.bytes]
    rw [List.take_append_of_le_length (by rw [f.length_header]; exact Nat.min_le_right _ _)]
    simp [List.take_eq_take_iff]

variable {w : Writer}

theorem emitPhysicalRecord_of_no_faults (h : w.dest.faults = []) (f : Fragment) :
    (w.emitPhysicalRecord f).1 = true ∧ (w.emitPhysicalRecord f).2.dest.faults = [] := by
  simp only [emitPhysicalRecord, Dest.append_of_no_faults h, ↓reduceIte]
  simp [Dest.append]

theorem blockOffset_emitPhysicalRecord (w : Writer) (f : Fragment) :
    (w.emitPhysicalRecord f).2.blockOffset = w.blockOffset + f.size := by
  simp [emitPhysicalRecord, Fragment.size, Nat.add_assoc]

theorem switchBlock_of_lt (h : w.room < kHeaderSize) :
    w.switchBlock = ⟨if 0 < w.room then (w.dest.append (List.replicate w.room 0)).2 else w.dest, 0⟩ := if_pos h

theorem switchBlock_of_le (h : kHeaderSize ≤ w.room) : w.switchBlock = w := if_neg (Nat.not_lt.mpr h)

theorem switchBlock_spec (hw : w.blockOffset ≤ kBlockSize) (htrailer : w.TrailerWritten) :
    w.switchBlock.dest.bytes = w.dest.bytes ++ List.replicate (gap w.room) 0 ∧
      w.switchBlock.room = start w.room ∧ w.switchBlock.blockOffset ≤ kBlockSize := by
  by_cases hroom : w.room < kHeaderSize
  · simp only [TrailerWritten, gap_of_lt hroom] at htrailer
    rw [switchBlock_of_lt hroom, gap_of_lt hroom, start_of_lt hroom]
    by_cases hpos : 0 < w.room
    · simp only [hpos, ↓reduceIte]
      cases hfaults : w.dest.faults with
      | nil => simp [Dest.append, hfaults, Writer.room]
      | cons fault faults =>
        cases fault with
        | none => simp [Dest.append, hfaults, Writer.room]
        | some k =>
          have hk : min k w.room = w.room := Nat.min_eq_right (htrailer k (by simp [hfaults]))
          simp only [Dest.append, hfaults, List.take_replicate, hk]
          simp [Writer.room]
    · rw [if_neg hpos, Nat.eq_zero_of_not_pos hpos]
      simp [Writer.room]
  · have hle := Nat.not_lt.mp hroom
    rw [switchBlock_of_le hle, gap_of_le hle, start_of_le hle]
    simp [hw]

/-- How a writer that was to write these fragments has ended: it wrote them all, or it
failed at one of them. -/
inductive Wrote (w w' : Writer) (fs : List Fragment) : Bool → Prop where
  | all : w'.dest.bytes = w.dest.bytes ++ layout w.room fs → w'.room = roomAfter w.room fs →
      w'.blockOffset ≤ kBlockSize → Wrote w w' fs true
  | failed {done rest : List Fragment} {f : Fragment} {k : ℕ} : fs = done ++ f :: rest →
      w'.dest.bytes = w.dest.bytes ++ layout w.room done ++
        (List.replicate (gap (roomAfter w.room done)) 0 ++ f.bytes.take k) →
      w'.room = roomAfter w.room (done ++ [f]) → w'.blockOffset ≤ kBlockSize → Wrote w w' fs false

/-- The fragment of a turn of the loop comes before the fragments of the other turns. -/
theorem Wrote.cons {w₁ w' : Writer} {f : Fragment} {fs : List Fragment} {ok : Bool}
    (hbytes : w₁.dest.bytes = w.dest.bytes ++ layout w.room [f]) (hroom : w₁.room = start w.room - f.size)
    (h : Wrote w₁ w' fs ok) : Wrote w w' (f :: fs) ok := by
  have hcons : ∀ gs, layout w.room (f :: gs) = layout w.room [f] ++ layout w₁.room gs := by
    intro gs
    simp [layout, hroom]
  cases h with
  | all hb hr ho => exact .all (by rw [hb, hbytes, hcons fs, List.append_assoc]) (by rw [hr, hroom, roomAfter]) ho
  | @failed done rest g k hfs hb hr ho =>
    refine @Wrote.failed w w' _ (f :: done) rest g k (by rw [hfs, List.cons_append]) ?_ ?_ ho
    · rw [hb, hbytes, hcons done, hroom, roomAfter]
      simp only [List.append_assoc]
    · rw [hr, hroom, List.cons_append, roomAfter]

theorem addRecordLoop_spec (fuel : ℕ) (w : Writer) (begin_ : Bool) (left : List UInt8)
    (hw : w.blockOffset ≤ kBlockSize) (htrailer : w.TrailerWritten) :
    Wrote w (w.addRecordLoop fuel begin_ left).2 (fragmentsLoop fuel w.room begin_ left)
      (w.addRecordLoop fuel begin_ left).1 := by
  induction fuel generalizing w begin_ left with
  | zero => exact .all (by simp [addRecordLoop, fragmentsLoop, layout]) rfl hw
  | succ fuel ih =>
    obtain ⟨hbytes₁, hroom₁, hoff₁⟩ := switchBlock_spec hw htrailer
    have hstart : kHeaderSize ≤ start w.room := kHeaderSize_le_start _
    set f := nextFragment (start w.room) begin_ left with hf
    set w₁ := w.switchBlock with hw₁
    have hfit : f.size ≤ start w.room := size_nextFragment_le hstart _ _
    obtain ⟨k, hbytes₂, hk⟩ := w₁.emitPhysicalRecord_spec f
    have hoff₂ := w₁.blockOffset_emitPhysicalRecord f
    set e := w₁.emitPhysicalRecord f with he
    have hroom₂ : e.2.room = start w.room - f.size := by
      rw [← hroom₁, room, room, hoff₂]
      omega
    have hle₂ : e.2.blockOffset ≤ kBlockSize := by
      rw [← hroom₁, room] at hfit
      omega
    have hloop : w.addRecordLoop (fuel + 1) begin_ left =
        if e.1 && decide (0 < (left.drop f.payload.length).length)
        then e.2.addRecordLoop fuel false (left.drop f.payload.length) else e := by
      have hnext : nextFragment (kBlockSize - w₁.blockOffset) begin_ left = f := by
        rw [hf, ← hroom₁, room]
      simp only [addRecordLoop, ← hw₁, hnext, ← he]
    rw [hloop]
    by_cases hok : e.1 = true
    · have hwhole : e.2.dest.bytes = w.dest.bytes ++ layout w.room [f] := by
        rw [hbytes₂, hbytes₁, List.take_of_length_le (by simpa using hk hok)]
        simp [layout]
      by_cases hleft : 0 < (left.drop f.payload.length).length
      · -- the fragment filled the block, so no trailer comes next
        have hfull : e.2.room = 0 := by
          rw [hf, drop_nextFragment, List.length_drop, Nat.sub_pos_iff_lt] at hleft
          rw [hroom₂, hf, size_nextFragment_of_left hstart hleft, Nat.sub_self]
        have htrailer₂ : e.2.TrailerWritten := by
          intro k _
          rw [hfull]
          exact Nat.zero_le _
        have hrest := ih e.2 false (left.drop f.payload.length) hle₂ htrailer₂
        simp only [hok, hleft, decide_true, Bool.and_self, ↓reduceIte]
        simp only [fragmentsLoop, ← hf, hleft, ↓reduceIte, ← hroom₂]
        exact hrest.cons hwhole hroom₂
      · simp only [hok, hleft, decide_false, Bool.and_false, Bool.false_eq_true, ↓reduceIte]
        simp only [fragmentsLoop, ← hf, hleft, ↓reduceIte]
        exact .all hwhole hroom₂ hle₂
    · simp only [Bool.eq_false_iff.mpr hok, Bool.false_and, Bool.false_eq_true, ↓reduceIte]
      refine @Wrote.failed w e.2 _ [] _ f k rfl ?_ hroom₂ hle₂
      rw [hbytes₂, hbytes₁]
      simp [layout, roomAfter]

theorem addRecord_spec (hw : w.blockOffset ≤ kBlockSize) (htrailer : w.TrailerWritten) (slice : List UInt8) :
    Wrote w (w.addRecord slice).2 (fragments w.room slice) (w.addRecord slice).1 :=
  addRecordLoop_spec _ _ _ _ hw htrailer

/-! ### A file that does not fail -/

theorem trailerWritten_of_no_faults (h : w.dest.faults = []) : w.TrailerWritten := by
  simp [TrailerWritten, h]

theorem addRecordLoop_of_no_faults (fuel : ℕ) (w : Writer) (begin_ : Bool) (left : List UInt8)
    (h : w.dest.faults = []) :
    (w.addRecordLoop fuel begin_ left).1 = true ∧ (w.addRecordLoop fuel begin_ left).2.dest.faults = [] := by
  induction fuel generalizing w begin_ left with
  | zero => exact ⟨rfl, h⟩
  | succ fuel ih =>
    have hswitch : w.switchBlock.dest.faults = [] := by
      by_cases hroom : w.room < kHeaderSize
      · rw [switchBlock_of_lt hroom, Dest.append_of_no_faults h]
        split
        · rfl
        · exact h
      · rw [switchBlock_of_le (Nat.not_lt.mp hroom)]
        exact h
    have hemit := emitPhysicalRecord_of_no_faults hswitch
    simp only [addRecordLoop]
    split
    · exact ih _ _ _ (hemit _).2
    · exact hemit _

theorem addRecords_cons (w : Writer) (r : List UInt8) (rs : List (List UInt8)) :
    w.addRecords (r :: rs) = (w.addRecord r).2.addRecords rs := rfl

theorem addRecords_spec (hw : w.blockOffset ≤ kBlockSize) (h : w.dest.faults = []) (rs : List (List UInt8)) :
    (w.addRecords rs).dest.bytes = w.dest.bytes ++ layout w.room (fragmentsOf w.room rs) := by
  induction rs generalizing w with
  | nil => simp [addRecords, fragmentsOf, layout]
  | cons r rs ih =>
    have hwrote := addRecord_spec hw (trailerWritten_of_no_faults h) r
    obtain ⟨hok, hfaults⟩ := addRecordLoop_of_no_faults _ w true r h
    rw [show (w.addRecord r).1 = true from hok] at hwrote
    cases hwrote with
    | all hbytes hroom hoff =>
      rw [addRecords_cons, ih hoff hfaults, hbytes, hroom, fragmentsOf, layout_append, List.append_assoc]

end Writer

/-- The log of these records. -/
def write (rs : List (List UInt8)) : List UInt8 := ((Writer.create ⟨[], []⟩).addRecords rs).dest.bytes

theorem write_eq (rs : List (List UInt8)) : write rs = layout kBlockSize (fragmentsOf kBlockSize rs) :=
  Writer.addRecords_spec (Nat.zero_le _) rfl rs

end TLevelDB.Log
