import TLevelDB.Log.Faults
import Mathlib.Data.List.GetD
import Mathlib.Data.Nat.Find
import Mathlib.Tactic.IntervalCases

/-!
# Appending to a log whose end was torn off

With `reuse_logs` a log that a crash has cut off at some byte is opened again, and records
are appended to it by a `Writer` that is told the length of the file. When the cut falls
between fragments or into a trailer, everything is read that one would expect. When it falls
into a fragment, what is there of the fragment stays in front of the new records: only when
the new records begin in another block, the reader finds them again.
-/

namespace TLevelDB.Log

open Reader

/-! ### The cut -/

/-- The log of these records cut off after `t` bytes, to which more records are appended. -/
def reuse (rs : List (List UInt8)) (t : ℕ) (more : List (List UInt8)) : List UInt8 :=
  ((Writer.reopen ⟨(write rs).take t, []⟩ t).addRecords more).dest.bytes

/-- The records that lie completely inside the first `t` bytes of their log. -/
def wholeRecords (rs : List (List UInt8)) (t : ℕ) : List (List UInt8) :=
  rs.take (Nat.findGreatest (fun k => (write (rs.take k)).length ≤ t) rs.length)

/-- The fragment inside which the cut falls, and how much is left of it. -/
def tornFragment : ℕ → List Fragment → ℕ → Option (Fragment × ℕ)
  | _, [], _ => none
  | room, f :: fs, t =>
    if t ≤ gap room then none
    else if t < gap room + f.size then some (f, t - gap room)
    else tornFragment (start room - f.size) fs (t - gap room - f.size)

/-- The payload of a torn fragment with zeros in place of what is missing. -/
def zeroFilled (f : Fragment) (j : ℕ) : List UInt8 :=
  f.payload.take (j - kHeaderSize) ++ List.replicate (f.size - j) 0

/-- The cut does not fall inside a fragment; or the next record will begin in another block,
and the zeros that fill this one up do not happen to complete a record with its checksum. -/
def ReuseSafe (rs : List (List UInt8)) (t : ℕ) : Prop :=
  ∀ c ∈ tornFragment kBlockSize (fragmentsOf kBlockSize rs) t,
    kBlockSize - t % kBlockSize < kHeaderSize ∧
      (kHeaderSize ≤ c.2 → c.1.type = .full ∨ c.1.type = .last →
        value (c.1.type.toByte :: zeroFilled c.1 c.2) ≠ value (c.1.type.toByte :: c.1.payload))

section Cut

variable {room t : ℕ} {fs gs : List Fragment}

theorem length_layout_cons (room : ℕ) (f : Fragment) (fs : List Fragment) :
    (layout room (f :: fs)).length = gap room + f.size + (layout (start room - f.size) fs).length := by
  simp [layout, Nat.add_assoc]

theorem tornFragment_append_of_le (h : (layout room fs).length ≤ t) :
    tornFragment room (fs ++ gs) t = tornFragment (roomAfter room fs) gs (t - (layout room fs).length) := by
  induction fs generalizing room t with
  | nil => rfl
  | cons f fs ih =>
    have hpos : 0 < f.size := by simp [Fragment.size, kHeaderSize]
    rw [length_layout_cons] at h ⊢
    rw [List.cons_append, tornFragment, if_neg (by omega), if_neg (by omega), ih (by omega), roomAfter]
    congr 1
    omega

/-- Where a cut falls. -/
theorem exists_cut (h : t < (layout room fs).length) :
    ∃ done f rest m, fs = done ++ f :: rest ∧ m < gap (roomAfter room done) + f.size ∧
      t = (layout room done).length + m ∧
      (layout room fs).take t =
        layout room done ++ (List.replicate (gap (roomAfter room done)) 0 ++ f.bytes).take m := by
  induction fs generalizing room t with
  | nil => simp [layout] at h
  | cons f fs ih =>
    have hlen : (List.replicate (gap room) (0 : UInt8) ++ f.bytes).length = gap room + f.size := by simp
    by_cases hhere : t < gap room + f.size
    · refine ⟨[], f, fs, t, rfl, hhere, by simp [layout], ?_⟩
      show (layout room (f :: fs)).take t = [] ++ (List.replicate (gap room) 0 ++ f.bytes).take t
      rw [layout, List.take_append_of_le_length (by omega), List.nil_append]
    · have hlt : t - (gap room + f.size) < (layout (start room - f.size) fs).length := by
        rw [length_layout_cons] at h
        omega
      obtain ⟨done, g, rest, m, rfl, hm, ht, htake⟩ := ih hlt
      refine ⟨f :: done, g, rest, m, rfl, hm, ?_, ?_⟩
      · rw [length_layout_cons]
        omega
      · rw [layout, List.take_append, List.take_of_length_le (by omega), hlen, htake, layout, roomAfter]
        simp only [List.append_assoc]

end Cut

/-- Fragments of a record before its last make no record. -/
theorem Tail.assemble_before {left : List UInt8} {fs done rest : List Fragment} {f : Fragment} (h : Tail left fs)
    (hfs : fs = done ++ f :: rest) (scratch : List UInt8) : ∃ scratch', ∀ ps,
      Log.assemble (some scratch) (done.map Fragment.toPhysical ++ ps) = Log.assemble (some scratch') ps := by
  induction h generalizing done scratch with
  | last =>
    cases done with
    | nil => exact ⟨scratch, fun ps => rfl⟩
    | cons g done => simp at hfs
  | middle _ _ ih =>
    cases done with
    | nil => exact ⟨scratch, fun ps => rfl⟩
    | cons g done =>
      rw [List.cons_append, List.cons.injEq] at hfs
      obtain ⟨rfl, hfs⟩ := hfs
      exact ih hfs _

theorem assemble_fragments_before {room : ℕ} {r : List UInt8} {done rest : List Fragment} {f : Fragment}
    (state : Option (List UInt8)) (h : fragments room r = done ++ f :: rest) :
    ∃ state', (∀ ps, assemble state (done.map Fragment.toPhysical ++ ps) = assemble state' ps) ∧
      (f.type = .last → state'.isSome) := by
  have hr := fragmented_fragments room r
  generalize fragments room r = fs at h hr
  cases done with
  | nil =>
    rw [List.nil_append] at h
    subst h
    cases hr <;> exact ⟨state, fun ps => rfl, nofun⟩
  | cons g done =>
    cases hr with
    | full => simp at h
    | @first p _ _ _ htail =>
      rw [List.cons_append, List.cons.injEq] at h
      obtain ⟨rfl, h⟩ := h
      obtain ⟨scratch, hscratch⟩ := htail.assemble_before h p
      exact ⟨some scratch, fun ps => by cases state <;> exact hscratch ps, fun _ => rfl⟩

/-- The first fragments of a log make the records that are whole. The next fragment is one of the record after
these. -/
theorem exists_whole {room : ℕ} {rs : List (List UInt8)} {done rest : List Fragment} {f : Fragment}
    (h : fragmentsOf room rs = done ++ f :: rest) :
    ∃ k state, (∀ ps, assemble none (done.map Fragment.toPhysical ++ ps) = rs.take k ++ assemble state ps) ∧
      (f.type = .last → state.isSome) ∧ (layout room (fragmentsOf room (rs.take k))).length ≤ (layout room done).length ∧
      (layout room (done ++ [f])).length ≤ (layout room (fragmentsOf room (rs.take (k + 1)))).length := by
  induction rs generalizing room done with
  | nil => simp [fragmentsOf] at h
  | cons r rs ih =>
    have hlayout : ∀ fs, (layout room (fragments room r ++ fs)).length =
        (layout room (fragments room r)).length + (layout (roomAfter room (fragments room r)) fs).length := by
      intro fs
      rw [layout_append, List.length_append]
    rw [fragmentsOf] at h
    by_cases hlt : done.length < (fragments room r).length
    · -- the record is not whole
      obtain ⟨here, hfs⟩ : ∃ here, fragments room r = done ++ f :: here := by
        rcases List.append_eq_append_iff.mp h with ⟨fs, hfs, _⟩ | ⟨fs, hfs, hcons⟩
        · simp [hfs] at hlt
        · cases fs with
          | nil => simp [hfs] at hlt
          | cons g fs => exact ⟨fs, by rw [hfs, (List.cons.inj hcons).1]⟩
      obtain ⟨state, hstate, hlast⟩ := assemble_fragments_before none hfs
      refine ⟨0, state, hstate, hlast, Nat.zero_le _, ?_⟩
      have hsplit : done ++ f :: here = done ++ [f] ++ here := by simp
      rw [List.take_succ_cons, List.take_zero, fragmentsOf, fragmentsOf, List.append_nil, hfs, hsplit,
        layout_append _ (done ++ [f]) here, List.length_append]
      exact Nat.le_add_right _ _
    · obtain ⟨more, rfl⟩ : fragments room r <+: done :=
        List.prefix_of_prefix_length_le ⟨_, h⟩ (List.prefix_append done _) (Nat.not_lt.mp hlt)
      rw [List.append_assoc, List.append_cancel_left_eq] at h
      obtain ⟨k, state, hassemble, hlast, hle, hnext⟩ := ih h
      refine ⟨k + 1, state, fun ps => ?_, hlast, ?_, ?_⟩
      · rw [List.map_append, List.append_assoc, assemble_fragments, hassemble, List.take_succ_cons, List.cons_append]
      · rw [List.take_succ_cons, fragmentsOf, hlayout, hlayout]
        omega
      · rw [List.take_succ_cons, fragmentsOf, List.append_assoc, hlayout, hlayout]
        omega

theorem length_write_take_le (rs : List (List UInt8)) {m n : ℕ} (h : m ≤ n) :
    (write (rs.take m)).length ≤ (write (rs.take n)).length := by
  have hsplit : rs.take n = rs.take m ++ (rs.take n).drop m := by
    conv_lhs => rw [← List.take_append_drop m (rs.take n), List.take_take, Nat.min_eq_left h]
  rw [hsplit, write_eq, write_eq, fragmentsOf_append, layout_append, List.length_append]
  exact Nat.le_add_right _ _

theorem wholeRecords_eq {rs : List (List UInt8)} {t k : ℕ} (hle : (write (rs.take k)).length ≤ t)
    (hlt : t < (write (rs.take (k + 1))).length) : wholeRecords rs t = rs.take k := by
  have hk : k ≤ rs.length := by
    by_contra hgt
    rw [List.take_of_length_le (by omega)] at hle hlt
    omega
  rw [wholeRecords, Nat.findGreatest_eq_iff.mpr ⟨hk, fun _ => hle, fun n hn _ hwhole => ?_⟩]
  have := length_write_take_le rs (show k + 1 ≤ n from hn)
  omega

theorem wholeRecords_length (rs : List (List UInt8)) : wholeRecords rs (write rs).length = rs := by
  rw [wholeRecords, Nat.findGreatest_eq (by rw [List.take_length]), List.take_length]

/-- The fragments that are whole before a cut make the records that are whole. -/
structure Cut (rs : List (List UInt8)) (t : ℕ) (fs : List Fragment) (state : Option (List UInt8)) : Prop where
  initial : fs <+: fragmentsOf kBlockSize rs
  records : ∀ ps, assemble none (fs.map Fragment.toPhysical ++ ps) = wholeRecords rs t ++ assemble state ps

/-- The cut falls into a fragment `f` after these, of which `j` bytes are left. -/
structure TornCut (rs : List (List UInt8)) (t : ℕ) (fs : List Fragment) (state : Option (List UInt8)) (f : Fragment)
    (j : ℕ) : Prop extends Cut rs t fs state where
  torn : tornFragment kBlockSize (fragmentsOf kBlockSize rs) t = some (f, j)
  pos : 0 < j
  lt : j < f.size
  next : fs ++ [f] <+: fragmentsOf kBlockSize rs
  last : f.type = .last → state.isSome
  take : (write rs).take t = layout kBlockSize fs ++
    (List.replicate (gap (roomAfter kBlockSize fs)) 0 ++ f.bytes.take j)

section Cut

variable {rs : List (List UInt8)} {t j : ℕ} {fs : List Fragment} {state : Option (List UInt8)} {f : Fragment}

theorem fits_initial (h : fs <+: fragmentsOf kBlockSize rs) : Fits kBlockSize fs := by
  obtain ⟨rest, hrest⟩ := h
  exact (fits_append.mp (hrest ▸ fits_fragmentsOf kBlockSize rs)).1

theorem Cut.fits (h : Cut rs t fs state) : Fits kBlockSize fs := fits_initial h.initial

theorem Cut.types (h : Cut rs t fs state) : ∀ f ∈ fs, f.type ≠ .zero := fun f hf =>
  type_fragmentsOf_ne_zero _ _ f (h.initial.subset hf)

theorem TornCut.fit (h : TornCut rs t fs state f j) : f.size ≤ start (roomAfter kBlockSize fs) :=
  (fits_append.mp (fits_initial h.next)).2.1

theorem TornCut.type (h : TornCut rs t fs state f j) : f.type ≠ .zero :=
  type_fragmentsOf_ne_zero _ _ f (h.next.subset (by simp))

/-- A cut falls between fragments or into a trailer, or into a fragment. -/
theorem cut_cases (ht : t ≤ (write rs).length) :
    (∃ fs state, Cut rs t fs state ∧ tornFragment kBlockSize (fragmentsOf kBlockSize rs) t = none ∧
      EndsAt ((write rs).take t) fs (kBlockSize - t % kBlockSize)) ∨
    ∃ fs state f j, TornCut rs t fs state f j := by
  have hmod : ∀ {fs : List Fragment} {zeros : ℕ}, Fits kBlockSize fs → zeros ≤ gap (roomAfter kBlockSize fs) →
      (write rs).take t = layout kBlockSize fs ++ List.replicate zeros 0 →
      EndsAt ((write rs).take t) fs (kBlockSize - t % kBlockSize) := by
    intro fs zeros hfits hzeros heq
    have hlen : (layout kBlockSize fs ++ List.replicate zeros 0).length = t := by
      rw [← heq, List.length_take, Nat.min_eq_left ht]
    rw [heq]
    exact endsAt_of_mod hfits hzeros (Nat.mod_lt _ (by decide)).le (by rw [hlen, Nat.mod_mod])
  obtain hlt | rfl := ht.lt_or_eq
  · rw [write_eq] at hlt
    obtain ⟨fs, f, rest, m, hfs, hm, htm, htake⟩ := exists_cut hlt
    obtain ⟨k, state, hassemble, hlast, hle, hnext⟩ := exists_whole hfs
    rw [layout_append, List.length_append, length_layout_cons] at hnext
    have hwhole : wholeRecords rs t = rs.take k := by
      refine wholeRecords_eq ?_ ?_ <;> rw [write_eq] <;> omega
    have hcut : Cut rs t fs state := ⟨⟨f :: rest, hfs.symm⟩, fun ps => by rw [hassemble, hwhole]⟩
    have htorn : tornFragment kBlockSize (fragmentsOf kBlockSize rs) t =
        if m ≤ gap (roomAfter kBlockSize fs) then none else some (f, m - gap (roomAfter kBlockSize fs)) := by
      rw [hfs, tornFragment_append_of_le (by omega), tornFragment, htm, Nat.add_sub_cancel_left, if_pos hm]
    rw [← write_eq] at htake
    by_cases hgap : m ≤ gap (roomAfter kBlockSize fs)
    · refine .inl ⟨fs, state, hcut, by rw [htorn, if_pos hgap], hmod hcut.fits hgap ?_⟩
      rw [htake, List.take_append_of_le_length (by simpa using hgap), List.take_replicate, Nat.min_eq_left hgap]
    · refine .inr ⟨fs, state, f, m - gap (roomAfter kBlockSize fs), hcut, by rw [htorn, if_neg hgap], by omega,
        by omega, ⟨rest, by simp [hfs]⟩, hlast, ?_⟩
      rw [htake, List.take_append, List.take_of_length_le (by simp; omega), List.length_replicate]
  · refine .inl ⟨fragmentsOf kBlockSize rs, none, ⟨List.prefix_refl _, ?_⟩, ?_, ?_⟩
    · rw [wholeRecords_length]
      exact assemble_fragmentsOf _ _
    · rw [← List.append_nil (fragmentsOf kBlockSize rs), tornFragment_append_of_le (write_eq rs ▸ le_rfl), tornFragment]
    · exact @hmod _ 0 (fits_fragmentsOf _ _) (Nat.zero_le _) (by rw [List.take_length, write_eq]; simp)

end Cut

/-! ### What stays of a torn fragment -/

section TornFragment

variable {room : ℕ} {rest : List UInt8} {ps : List Physical}

theorem Parses.short (hlen : rest.length < kHeaderSize) (hle : rest.length ≤ room) :
    Parses false room rest [] := by
  obtain hlt | heq := hle.lt_or_eq
  · exact .eof fun r hr => ⟨(hr.readPhysicalRecord_short hlt hlen).1, nofun⟩
  · refine .trailer (by omega) heq.ge ?_
    rw [List.drop_of_length_le hle]
    exact Parses.nil le_rfl

theorem parses_last (hlen : kHeaderSize ≤ rest.length) (hle : rest.length ≤ room)
    (hshort : rest.length < kHeaderSize + headerLength rest + kHeaderSize) :
    ∃ ps, Parses false room rest ps ∧ (ps = [] ∨ ps = [.bad] ∨ kHeaderSize + headerLength rest ≤ rest.length ∧
      ps = [.ofType (headerType rest) ((rest.drop kHeaderSize).take (headerLength rest))]) := by
  by_cases hbad : BadHead rest.length rest
  · obtain hlt | rfl := hle.lt_or_eq
    · obtain hparses | hparses := Parses.bad_last hlen hlt hbad
      · exact ⟨[], hparses, .inl rfl⟩
      · exact ⟨[.bad], hparses, .inr (.inl rfl)⟩
    · refine ⟨[.bad], .bad hlen le_rfl hbad ?_, .inr (.inl rfl)⟩
      rw [List.drop_length]
      exact Parses.nil le_rfl
  · rw [BadHead, not_or, not_or, Nat.not_lt, not_not] at hbad
    obtain ⟨hfit, hzero, hcrc⟩ := hbad
    have hok := fun r hr => At.readPhysicalRecord_ok (r := r) hr (hfit.trans hle) hfit hzero hcrc
    by_cases heof : Physical.ofType (headerType rest) ((rest.drop kHeaderSize).take (headerLength rest)) = .eof
    · exact ⟨[], .eof fun r hr => ⟨(hok r hr).1.1.trans heof, nofun⟩, .inl rfl⟩
    · have hheader : 0 < kHeaderSize := by decide
      refine ⟨_, .step heof (fun r hr => ⟨(hok r hr).1, nofun⟩) ?_ (Parses.short ?_ ?_), .inr (.inr ⟨hfit, rfl⟩)⟩ <;>
        rw [List.length_drop] <;> omega

theorem parses_last_of_block (hheader : kHeaderSize ≤ room) (hle : room ≤ rest.length)
    (hshort : room < kHeaderSize + headerLength rest + kHeaderSize)
    (hneof : ∀ p, Physical.ofType (headerType rest) p ≠ .eof) (h : Parses false kBlockSize (rest.drop room) ps) :
    ∃ p, Parses false room rest (p :: ps) ∧
      (p = .bad ∧ BadHead room rest ∨ actualCrc rest = unmask (decodeFixed32 rest) ∧
        p = .ofType (headerType rest) ((rest.drop kHeaderSize).take (headerLength rest))) := by
  by_cases hbad : BadHead room rest
  · exact ⟨.bad, .bad hheader hle hbad h, .inl ⟨rfl, hbad⟩⟩
  · have hpos : 0 < kHeaderSize := by decide
    rw [BadHead, not_or, not_or, Nat.not_lt, not_not] at hbad
    obtain ⟨hfit, hzero, hcrc⟩ := hbad
    refine ⟨_, .step (hneof _) (fun r hr => ⟨(hr.readPhysicalRecord_ok hfit (hfit.trans hle) hzero hcrc).1, nofun⟩) ?_
      (Parses.trailer (by omega) ?_ ?_), .inr ⟨hcrc, rfl⟩⟩
    · rw [List.length_drop]
      omega
    · rw [List.length_drop]
      omega
    · rwa [List.drop_drop, Nat.add_sub_cancel' hfit]

end TornFragment

theorem bytes_empty : (⟨.full, []⟩ : Fragment).bytes = [5, 43, 40, 67, 0, 0, 1] := by decide +kernel

theorem fragments_nil (room : ℕ) : fragments room [] = [⟨.full, []⟩] := by
  simp [fragments, fragmentsLoop_succ, nextFragment_eq, recordType]

/-- A header that is cut off and goes on with the header of an empty record is not the
header of a record. -/
theorem ofType_torn_header {f : Fragment} {j : ℕ} (hj : 0 < j) (hlt : j < kHeaderSize) (p : List UInt8) :
    Physical.ofType (headerType (f.bytes.take j ++ (⟨.full, []⟩ : Fragment).bytes)) p = .eof ∨
      ∃ n, Physical.ofType (headerType (f.bytes.take j ++ (⟨.full, []⟩ : Fragment).bytes)) p = .unknown n p := by
  have hlen : (f.bytes.take j).length = j := by
    simp [Fragment.size]
    omega
  have hlt' : j < 7 := hlt
  have hbyte : (f.bytes.take j ++ (⟨.full, []⟩ : Fragment).bytes).getD 6 0 =
      [5, 43, 40, 67, 0, 0, 1].getD (6 - j) 0 := by
    rw [bytes_empty, List.getD_append_right _ _ _ _ (by omega), hlen]
  rw [headerType, hbyte]
  interval_cases j
  · exact .inr ⟨0, rfl⟩
  · exact .inr ⟨0, rfl⟩
  · exact .inr ⟨67, rfl⟩
  · exact .inr ⟨40, rfl⟩
  · exact .inr ⟨43, rfl⟩
  · exact .inl rfl

/-- A fragment of which the header is there. -/
theorem take_bytes {f : Fragment} {j : ℕ} (hj : kHeaderSize ≤ j) :
    f.bytes.take j = f.header ++ f.payload.take (j - kHeaderSize) := by
  rw [Fragment.bytes, List.take_append, List.take_of_length_le (by simpa using hj), f.length_header]

/-- Zeros in place of what is missing complete the fragment, with its checksum. -/
def ZerosComplete (f : Fragment) (j : ℕ) : Prop :=
  kHeaderSize ≤ j ∧ value (f.type.toByte :: zeroFilled f j) = value (f.type.toByte :: f.payload)

/-- What is read of a torn fragment and zeros: nothing of use, unless they complete it. -/
def ReadsTorn (f : Fragment) (j : ℕ) (p : Physical) : Prop :=
  (p = .bad ∨ ∃ n q, p = .unknown n q) ∧ ¬ ZerosComplete f j ∨
    p = (⟨f.type, zeroFilled f j⟩ : Fragment).toPhysical ∧ ZerosComplete f j

/-- A torn fragment of which zeros fill up the block: it is given up, unless the zeros happen
to complete it. -/
theorem parses_zero_filled {f : Fragment} {j zeros : ℕ} {tail : List UInt8} {ps : List Physical} (hj : 0 < j)
    (hlt : j < f.size) (hzeros : zeros < kHeaderSize) (hfit : f.size ≤ j + zeros) (hroom : j + zeros ≤ kBlockSize)
    (htype : f.type ≠ .zero) (h : Parses false kBlockSize tail ps) :
    ∃ p, Parses false (j + zeros) (f.bytes.take j ++ (List.replicate zeros 0 ++ tail)) (p :: ps) ∧
      ReadsTorn f j p := by
  have hlen : (f.bytes.take j).length = j := by simp [hlt.le]
  have hheader : kHeaderSize ≤ j + zeros := by
    rw [Fragment.size] at hfit
    omega
  have hdrop : (f.bytes.take j ++ (List.replicate zeros 0 ++ tail)).drop (j + zeros) = tail := by
    rw [← List.append_assoc]
    exact List.drop_left' (by simp [hlen])
  have hle : j + zeros ≤ (f.bytes.take j ++ (List.replicate zeros 0 ++ tail)).length := by
    simp only [List.length_append, hlen, List.length_replicate]
    omega
  rw [← hdrop] at h
  by_cases hhead : j < kHeaderSize
  · -- the type is one of the zeros
    have hzero : headerType (f.bytes.take j ++ (List.replicate zeros 0 ++ tail)) = 0 := by
      have hsize : kHeaderSize = 7 := rfl
      have hbyte : (f.bytes.take j ++ (List.replicate zeros 0 ++ tail)).getD 6 0 = 0 := by
        rw [List.getD_append_right _ _ _ _ (by omega), List.getD_append _ _ _ _ (by simp; omega), List.getD_replicate]
        omega
      rw [headerType, hbyte]
      rfl
    obtain ⟨p, hparses, hp⟩ := parses_last_of_block hheader hle (by omega)
      (fun p => by rw [hzero]; simp [Physical.ofType]) h
    refine ⟨p, hparses, .inl ⟨?_, fun hge => Nat.not_lt.mpr hge.1 hhead⟩⟩
    obtain ⟨hbad, -⟩ | ⟨-, hok⟩ := hp
    · exact .inl hbad
    · rw [hzero] at hok
      exact .inr ⟨0, _, hok⟩
  · have hge := Nat.not_lt.mp hhead
    have hpayload := payload_lt hfit hroom
    set rest := f.payload.take (j - kHeaderSize) ++ (List.replicate zeros 0 ++ tail) with hrest
    have heq : f.bytes.take j ++ (List.replicate zeros 0 ++ tail) = f.header ++ rest := by
      rw [take_bytes hge, List.append_assoc]
    have hfilled : rest.take f.payload.length = zeroFilled f j := by
      have hmin : f.payload.length - (j - kHeaderSize) = f.size - j := by
        rw [Fragment.size]
        omega
      have hlen' : (f.payload.take (j - kHeaderSize)).length = j - kHeaderSize := by
        rw [List.length_take]
        rw [Fragment.size] at hlt
        omega
      rw [hrest, zeroFilled, List.take_append, List.take_of_length_le (by simp), hlen', hmin,
        List.take_append_of_le_length (by simp; omega), List.take_replicate, Nat.min_eq_left (by omega)]
    have hlength := f.headerLength_header rest hpayload
    have hcrc := f.actualCrc_header hpayload rest
    have hexpected : unmask (decodeFixed32 (f.header ++ rest)) = value (f.type.toByte :: f.payload) := by
      rw [f.decodeFixed32_header, unmask_mask]
    rw [hfilled] at hcrc
    rw [heq] at hle h ⊢
    obtain ⟨p, hparses, hp⟩ := parses_last_of_block hheader hle
      (by rw [hlength]; rw [Fragment.size] at hlt; omega)
      (fun p => by
        rw [f.headerType_header]
        exact (Fragment.ofType_eq ⟨f.type, p⟩).symm ▸ Fragment.toPhysical_ne_eof ⟨f.type, p⟩) h
    rw [BadHead, hcrc, hexpected, f.headerType_header, hlength] at hp
    refine ⟨p, hparses, ?_⟩
    obtain ⟨hbad, hwhy⟩ | ⟨hok, hp⟩ := hp
    · have hwhy := hwhy.resolve_left (Nat.not_lt.mpr hfit)
      refine .inl ⟨.inl hbad, fun hzeros => hwhy.resolve_left (fun hz => ?_) hzeros.2⟩
      cases ht : f.type <;> simp_all [RecordType.toByte]
    · refine .inr ⟨?_, hge, hok⟩
      rw [hp, ← f.length_header, List.drop_left, hfilled]
      exact Fragment.ofType_eq ⟨f.type, zeroFilled f j⟩

/-- An empty record after a torn fragment in the same block is not read. -/
theorem parses_empty_after_torn {f : Fragment} {j room : ℕ} (hj : 0 < j) (hlt : j < f.size) (hfit : f.size ≤ room)
    (hroom : room ≤ kBlockSize) (hleft : j + kHeaderSize ≤ room) (state : Option (List UInt8)) :
    ∃ ps, Parses false room (f.bytes.take j ++ (⟨.full, []⟩ : Fragment).bytes) ps ∧ assemble state ps ≠ [[]] := by
  have hlen : (f.bytes.take j ++ (⟨.full, []⟩ : Fragment).bytes).length = j + kHeaderSize := by
    rw [List.length_append, List.length_take, f.length_bytes, Nat.min_eq_left hlt.le, Fragment.length_bytes]
    rfl
  have hnone : ∀ p : Physical, p = .eof ∨ (∃ n q, p = .unknown n q) ∨ p = .bad → assemble state [p] = [] := by
    rintro p (rfl | ⟨n, q, rfl⟩ | rfl) <;> simp [assemble]
  by_cases hhead : j < kHeaderSize
  · obtain ⟨ps, hparses, hps⟩ :=
      @parses_last room (f.bytes.take j ++ (⟨.full, []⟩ : Fragment).bytes) (by omega) (by omega) (by omega)
    refine ⟨ps, hparses, ?_⟩
    obtain rfl | rfl | ⟨-, rfl⟩ := hps
    · simp [assemble]
    · simp [assemble]
    · rw [hnone]
      · simp
      · obtain heof | ⟨n, hn⟩ := ofType_torn_header hj hhead _
        · exact .inl heof
        · exact .inr (.inl ⟨n, _, hn⟩)
  · have hge := Nat.not_lt.mp hhead
    have hpayload := payload_lt hfit hroom
    set rest := f.payload.take (j - kHeaderSize) ++ (⟨.full, []⟩ : Fragment).bytes with hrest
    have heq : f.bytes.take j ++ (⟨.full, []⟩ : Fragment).bytes = f.header ++ rest := by
      rw [take_bytes hge, List.append_assoc]
    have hlength := f.headerLength_header rest hpayload
    rw [heq] at hlen ⊢
    have hsize : f.size = kHeaderSize + f.payload.length := rfl
    obtain ⟨ps, hparses, hps⟩ := @parses_last room (f.header ++ rest) (by omega) (by omega) (by omega)
    refine ⟨ps, hparses, ?_⟩
    obtain rfl | rfl | ⟨hle, rfl⟩ := hps
    · simp [assemble]
    · simp [assemble]
    · -- the fragment is completed by bytes of the new record, and is not empty
      rw [f.headerType_header, hlength, ← f.length_header, List.drop_left]
      have hne : rest.take f.payload.length ≠ [] := by
        intro hnil
        have hcount := congrArg List.length hnil
        rw [List.length_take, List.length_nil] at hcount
        rw [List.length_append, f.length_header] at hlen
        have hpos : 0 < kHeaderSize := by decide
        omega
      cases f.type <;> cases state <;> simp [Physical.ofType, RecordType.toByte, assemble, hne]

/-! ### The final file -/

theorem reuse_eq (rs : List (List UInt8)) (t : ℕ) (more : List (List UInt8)) :
    reuse rs t more = (write rs).take t ++ layout (kBlockSize - t % kBlockSize)
      (fragmentsOf (kBlockSize - t % kBlockSize) more) :=
  Writer.addRecords_spec (Nat.mod_lt _ (by decide)).le rfl more

/-- Records are read whatever the reader has of a record before them. -/
theorem assemble_records (room : ℕ) (rs : List (List UInt8)) (state : Option (List UInt8)) :
    assemble state ((fragmentsOf room rs).map Fragment.toPhysical) = rs := by
  cases rs with
  | nil => simp [fragmentsOf, assemble]
  | cons r rs =>
    have hrest := assemble_fragmentsOf (roomAfter room (fragments room r)) rs []
    rw [List.append_nil] at hrest
    rw [fragmentsOf, List.map_append, assemble_fragments, hrest]
    simp [assemble]

theorem EndsAt.read_reuse {rs : List (List UInt8)} {t : ℕ} {fs : List Fragment} {state : Option (List UInt8)}
    (h : EndsAt ((write rs).take t) fs (kBlockSize - t % kBlockSize)) (hcut : Cut rs t fs state)
    (more : List (List UInt8)) : read (reuse rs t more) = wholeRecords rs t ++ more := by
  set room := kBlockSize - t % kBlockSize with hroom
  have hends := h.append (fragmentsOf room more)
  have hfits := h.fits hcut.fits (fits_fragmentsOf room more)
  have htypes : ∀ f ∈ fs ++ fragmentsOf room more, f.type ≠ .zero := fun f hf =>
    (List.mem_append.mp hf).elim (hcut.types f) (type_fragmentsOf_ne_zero _ _ f)
  have hparses := hends.parses (m := 0) false hfits htypes (size_full_le _) (by simp [Fragment.size, kHeaderSize])
  rw [List.take_zero, List.append_nil] at hparses
  rw [reuse_eq, read_eq hparses, List.map_append, hcut.records, assemble_records]

section Torn

variable {rs : List (List UInt8)} {t j : ℕ} {fs : List Fragment} {state : Option (List UInt8)} {f : Fragment}

theorem Cut.read {rest : List UInt8} {ps : List Physical} (hcut : Cut rs t fs state)
    (h : Parses false (start (roomAfter kBlockSize fs)) rest ps) :
    read (layout kBlockSize fs ++ (List.replicate (gap (roomAfter kBlockSize fs)) 0 ++ rest)) =
      wholeRecords rs t ++ assemble state ps := by
  have hparses := Parses.layout le_rfl hcut.fits hcut.types h.gap
  rw [read_eq (.trailer (by decide) (Nat.zero_le _) (by simpa using hparses)), hcut.records]

/-- How much of the block is left after a cut inside a fragment. -/
theorem TornCut.room_eq (h : TornCut rs t fs state f j) (ht : t ≤ (write rs).length) :
    j + (kBlockSize - t % kBlockSize) = start (roomAfter kBlockSize fs) := by
  have hlen := congrArg List.length h.take
  simp only [List.length_take, List.length_append, List.length_replicate, Fragment.length_bytes] at hlen
  obtain ⟨blocks, hblocks⟩ := length_layout h.fits
  have hle := start_le (roomAfter_le le_rfl fs)
  have hsum := gap_add_start (roomAfter kBlockSize fs)
  have hpos := h.pos
  have hlt := h.lt
  have hfit := h.fit
  simp only [kBlockSize] at *
  omega

/-- Records that are appended with less than a header left of the block begin the next one. -/
theorem layout_fragmentsOf_of_lt {room : ℕ} (h : room < kHeaderSize) (r : List UInt8) (more : List (List UInt8)) :
    layout room (fragmentsOf room (r :: more)) =
      List.replicate room 0 ++ layout kBlockSize (fragmentsOf room (r :: more)) ∧
    Fits kBlockSize (fragmentsOf room (r :: more)) := by
  have hfits := fits_fragmentsOf room (r :: more)
  have hblock : start kBlockSize = kBlockSize := rfl
  rw [fragmentsOf, fragments, fragmentsLoop_succ, List.cons_append] at hfits ⊢
  simp only [layout, Fits, gap_of_lt h, start_of_lt h, hblock] at hfits ⊢
  exact ⟨by simp [gap_of_le (show kHeaderSize ≤ kBlockSize by decide)], hfits⟩

/-- With less than a header left of the block, the new records are read from the next block
on, after what zeros make of the fragment. -/
theorem TornCut.read_cons (h : TornCut rs t fs state f j) (ht : t ≤ (write rs).length)
    (hleft : kBlockSize - t % kBlockSize < kHeaderSize) (r : List UInt8) (more : List (List UInt8)) :
    ∃ room p, read (reuse rs t (r :: more)) = wholeRecords rs t ++
        assemble state (p :: (fragmentsOf room (r :: more)).map Fragment.toPhysical) ∧ ReadsTorn f j p := by
  have hroom := h.room_eq ht
  have hle := start_le (roomAfter_le le_rfl fs)
  have hfit := h.fit
  rw [reuse_eq, h.take]
  generalize kBlockSize - t % kBlockSize = zeros at hroom hleft ⊢
  rw [List.append_assoc, List.append_assoc]
  obtain ⟨hlayout, hfits⟩ := layout_fragmentsOf_of_lt hleft r more
  have hnext := @Parses.layout false _ _ _ _ le_rfl hfits (type_fragmentsOf_ne_zero _ _)
    (Parses.nil (roomAfter_le le_rfl (fragmentsOf zeros (r :: more))))
  rw [List.append_nil, List.append_nil] at hnext
  obtain ⟨p, hparses, hp⟩ := parses_zero_filled h.pos h.lt hleft (by omega) (by omega) h.type hnext
  rw [hroom] at hparses
  exact ⟨zeros, p, by rw [hlayout, h.toCut.read hparses], hp⟩

/-- The fragment is given up, and the new records are read from the next block on. -/
theorem TornCut.read_reuse (h : TornCut rs t fs state f j) (ht : t ≤ (write rs).length)
    (hleft : kBlockSize - t % kBlockSize < kHeaderSize) (hcrc : f.type = .full ∨ f.type = .last → ¬ ZerosComplete f j)
    (more : List (List UInt8)) : read (reuse rs t more) = wholeRecords rs t ++ more := by
  cases more with
  | nil =>
    have hle := start_le (roomAfter_le le_rfl fs)
    rw [reuse_eq, h.take, fragmentsOf, layout, List.append_nil, h.toCut.read (Parses.torn_fragment hle h.fit h.lt)]
    simp [assemble]
  | cons r more =>
    obtain ⟨room, p, hread, hp⟩ := h.read_cons ht hleft r more
    rw [hread]
    congr 1
    have hrecords := assemble_records room (r :: more)
    obtain ⟨rfl | ⟨n, q, rfl⟩, -⟩ | ⟨rfl, hzeros⟩ := hp
    · simpa [assemble] using hrecords none
    · simpa [assemble] using hrecords none
    · -- a fragment that is not the last of its record makes nothing
      cases hf : f.type with
      | zero => exact absurd hf h.type
      | full => exact absurd hzeros (hcrc (.inl hf))
      | last => exact absurd hzeros (hcrc (.inr hf))
      | first => simpa [Fragment.toPhysical, hf, assemble] using hrecords _
      | middle => cases state <;> simpa [Fragment.toPhysical, hf, assemble] using hrecords _

/-- When an empty record that is appended is read, the fragment is given up. -/
theorem TornCut.safe (h : TornCut rs t fs state f j) (ht : t ≤ (write rs).length)
    (hread : read (reuse rs t [[]]) = wholeRecords rs t ++ [[]]) :
    kBlockSize - t % kBlockSize < kHeaderSize ∧ (f.type = .full ∨ f.type = .last → ¬ ZerosComplete f j) := by
  have hleft : kBlockSize - t % kBlockSize < kHeaderSize := by
    by_contra hge
    have hge := Nat.not_lt.mp hge
    have hroom := h.room_eq ht
    have hle := start_le (roomAfter_le le_rfl fs)
    obtain ⟨ps, hparses, hne⟩ := parses_empty_after_torn h.pos h.lt h.fit hle (by omega) state
    have hlayout : layout (kBlockSize - t % kBlockSize) (fragmentsOf (kBlockSize - t % kBlockSize) [[]]) =
        (⟨.full, []⟩ : Fragment).bytes := by
      simp [fragmentsOf, fragments_nil, layout, gap_of_le hge]
    rw [reuse_eq, h.take, hlayout, List.append_assoc, List.append_assoc, h.toCut.read hparses] at hread
    exact hne (List.append_cancel_left hread)
  refine ⟨hleft, fun htype hzeros => ?_⟩
  obtain ⟨room, p, hcons, hp⟩ := h.read_cons ht hleft [] []
  have hrecords := List.append_cancel_left (hcons.symm.trans hread)
  obtain ⟨-, hne⟩ | ⟨rfl, -⟩ := hp
  · exact hne hzeros
  · -- the zeros complete a record that was not whole
    obtain hf | hf := htype
    · simp [Fragment.toPhysical, hf, assemble, fragmentsOf, fragments_nil] at hrecords
    · obtain ⟨scratch, rfl⟩ := Option.isSome_iff_exists.mp (h.last hf)
      simp [Fragment.toPhysical, hf, assemble, fragmentsOf, fragments_nil] at hrecords

/-- After a cut, whatever records are appended are read after the ones that are whole, if
and only if the cut is safe. -/
theorem read_reuse_iff (ht : t ≤ (write rs).length) :
    (∀ more, read (reuse rs t more) = wholeRecords rs t ++ more) ↔ ReuseSafe rs t := by
  obtain ⟨fs, state, hcut, htorn, hends⟩ | ⟨fs, state, f, j, htear⟩ := cut_cases ht
  · exact iff_of_true (hends.read_reuse hcut) (by simp [ReuseSafe, htorn])
  · have hsafe : ReuseSafe rs t ↔ kBlockSize - t % kBlockSize < kHeaderSize ∧
        (f.type = .full ∨ f.type = .last → ¬ ZerosComplete f j) := by
      rw [ReuseSafe, htear.torn, ZerosComplete]
      simp
      tauto
    rw [hsafe]
    exact ⟨fun h => htear.safe ht (h [[]]), fun h => htear.read_reuse ht h.1 h.2⟩

end Torn

/-- A log that was cut off at the end of its record. -/
theorem read_reuse_iff_at_end : 8 ≤ (write [[1], [2]]).length ∧ ReuseSafe [[1], [2]] 8 ∧
    ∀ more, read (reuse [[1], [2]] 8 more) = wholeRecords [[1], [2]] 8 ++ more := by
  have hle : 8 ≤ (write [[1], [2]]).length := by decide +kernel
  have htorn : tornFragment kBlockSize (fragmentsOf kBlockSize [[1], [2]]) 8 = none := by decide +kernel
  have hsafe : ReuseSafe [[1], [2]] 8 := by simp [ReuseSafe, htorn]
  exact ⟨hle, hsafe, (read_reuse_iff hle).mpr hsafe⟩

/-- The log of one record of one byte is cut off after three bytes of the header. A record
that is appended then is not read. -/
theorem not_read_reuse : ¬ ∀ (rs : List (List UInt8)) (t : ℕ), t ≤ (write rs).length →
    ∀ more, read (reuse rs t more) = wholeRecords rs t ++ more := by
  intro h
  have hlost := h [[1]] 3 (by decide +kernel) [[2]]
  have hread : read (reuse [[1]] 3 [[2]]) = [] := by decide +kernel
  rw [hread] at hlost
  simp at hlost

end TLevelDB.Log
