import TLevelDB.Log.Intact

/-!
# Logs with damaged bytes

Bytes of a log are changed, in headers, payloads and trailers, so that a reader notices
every fragment it finds changed: the length in its header does not fit the block, or the
checksum is wrong. The reader gives up the rest of such a block and goes on with the next
one, where a fragment begins. So what it finds are the fragments of the log, of which some
runs are replaced by one bad record each (`Damaged`). A bad record makes it forget what it
has of a record, so it never joins what does not belong together: it returns records that
were written, in their order, and among them all those that lie in blocks without a
changed byte.
-/

namespace TLevelDB.Log

open Reader

/-! ### Where the fragments are -/

/-- The fragments with the places where they begin; the first of them is written after
`offset` bytes, with that much room left of the block. -/
def placed : ℕ → ℕ → List Fragment → List (Fragment × ℕ)
  | _, _, [] => []
  | offset, room, f :: fs =>
    (f, offset + gap room) :: placed (offset + gap room + f.size) (start room - f.size) fs

/-- The records with the places where their fragments begin. -/
def recordPlaces : ℕ → ℕ → List (List UInt8) → List (List UInt8 × List ℕ)
  | _, _, [] => []
  | offset, room, r :: rs =>
    let fs := fragments room r
    (r, (placed offset room fs).map Prod.snd) ::
      recordPlaces (offset + (layout room fs).length) (roomAfter room fs) rs

/-- A block of a file. -/
def block (file : List UInt8) (i : ℕ) : List UInt8 := (file.drop (i * kBlockSize)).take kBlockSize

/-- The records none of whose fragments begins in a block that has been changed. A fragment
ends in the block in which it begins. -/
def cleanRecords (rs : List (List UInt8)) (file : List UInt8) : List (List UInt8) :=
  ((recordPlaces 0 kBlockSize rs).filter fun p =>
    p.2.all fun o => block file (o / kBlockSize) = block (write rs) (o / kBlockSize)).map Prod.fst

/-- The length in the header does not fit the rest of the block, or the checksum is wrong. -/
def FailsCheck (buffer : List UInt8) : Prop :=
  buffer.length < kHeaderSize + headerLength buffer ∨ actualCrc buffer ≠ unmask (decodeFixed32 buffer)

instance (buffer : List UInt8) : Decidable (FailsCheck buffer) := inferInstanceAs (Decidable (_ ∨ _))

/-- The header or the payload of the fragment has been changed. -/
def Touched (file : List UInt8) (p : Fragment × ℕ) : Prop := (file.drop p.2).take p.1.size ≠ p.1.bytes

instance (file : List UInt8) (p : Fragment × ℕ) : Decidable (Touched file p) := inferInstanceAs (Decidable (_ ≠ _))

/-- Every fragment that has been changed fails a check, where it is read with the rest of
its block. -/
def Noticed (rs : List (List UInt8)) (file : List UInt8) : Prop :=
  ∀ p ∈ placed 0 kBlockSize (fragmentsOf kBlockSize rs), Touched file p →
    FailsCheck ((file.drop p.2).take (kBlockSize - p.2 % kBlockSize))

instance (rs : List (List UInt8)) (file : List UInt8) : Decidable (Noticed rs file) :=
  inferInstanceAs (Decidable (∀ p ∈ _, _ → _))

/-- What begins at this place of a file passes its checks. -/
def passes (file : List UInt8) (o : ℕ) : Bool := !decide (FailsCheck ((file.drop o).take (kBlockSize - o % kBlockSize)))

theorem map_fst_recordPlaces (offset room : ℕ) (rs : List (List UInt8)) :
    (recordPlaces offset room rs).map Prod.fst = rs := by
  induction rs generalizing offset room with
  | nil => rfl
  | cons r rs ih => rw [recordPlaces, List.map_cons, ih]

section Places

variable {offset room : ℕ} {f : Fragment} {fs gs : List Fragment}

theorem placed_append (offset room : ℕ) (fs gs : List Fragment) :
    placed offset room (fs ++ gs) =
      placed offset room fs ++ placed (offset + (layout room fs).length) (roomAfter room fs) gs := by
  induction fs generalizing offset room with
  | nil => rfl
  | cons f fs ih =>
    rw [List.cons_append, placed, ih, placed, List.cons_append, roomAfter]
    congr 3
    simp [layout]
    omega

theorem gap_start (room : ℕ) : gap (start room) = 0 := gap_of_le (kHeaderSize_le_start room)

theorem start_start (room : ℕ) : start (start room) = start room := start_of_le (kHeaderSize_le_start room)

/-- A trailer before the first fragment may be left out. -/
theorem placed_start (offset room : ℕ) (f : Fragment) (fs : List Fragment) :
    placed (offset + gap room) (start room) (f :: fs) = placed offset room (f :: fs) := by
  rw [placed, placed, gap_start, start_start, Nat.add_zero]

theorem length_layout_start (room : ℕ) (f : Fragment) (fs : List Fragment) :
    gap room + (layout (start room) (f :: fs)).length = (layout room (f :: fs)).length := by
  simp [layout, gap_start, start_start]

/-- The room after a fragment that fits ends where the room before it ends. -/
theorem room_aligned (h : (offset + room) % kBlockSize = 0) (hfit : f.size ≤ start room) :
    (offset + gap room + f.size + (start room - f.size)) % kBlockSize = 0 := by
  have hsum : offset + gap room + f.size + (start room - f.size) = offset + (gap room + start room) := by omega
  rw [hsum]
  obtain heq | heq := gap_add_start room
  · rw [heq, h]
  · rw [heq, ← Nat.add_assoc, Nat.add_mod_right, h]

/-- Where a fragment is, and that it ends in its block. -/
theorem mem_placed (hfits : Fits room fs) (hroom : room ≤ kBlockSize) (halign : (offset + room) % kBlockSize = 0)
    {p : Fragment × ℕ} (hp : p ∈ placed offset room fs) :
    offset ≤ p.2 ∧ ((layout room fs).drop (p.2 - offset)).take p.1.size = p.1.bytes ∧
      p.2 % kBlockSize + p.1.size ≤ kBlockSize := by
  induction fs generalizing offset room with
  | nil => exact absurd hp List.not_mem_nil
  | cons f fs ih =>
    obtain ⟨hfit, hfits⟩ := hfits
    rcases List.mem_cons.mp hp with rfl | hp
    · refine ⟨Nat.le_add_right _ _, ?_, ?_⟩
      · rw [layout, List.append_assoc, Nat.add_sub_cancel_left, List.drop_append_of_le_length (by simp),
          List.drop_of_length_le (by simp), List.nil_append, ← f.length_bytes, List.take_left]
      · have hstart := start_le hroom
        have hend := room_aligned (f := f) halign hfit
        have hsum : offset + gap room + f.size + (start room - f.size) = offset + gap room + start room := by omega
        rw [hsum] at hend
        simp only [kBlockSize] at *
        omega
    · obtain ⟨hle, hbytes, hblock⟩ := ih hfits ((Nat.sub_le _ _).trans (start_le hroom)) (room_aligned halign hfit) hp
      refine ⟨by omega, ?_, hblock⟩
      rw [layout, ← hbytes, List.drop_append, List.drop_of_length_le (by simp; omega), List.nil_append]
      congr 2
      simp
      omega

end Places

/-! ### What is left of the records -/

/-- Whether something lies in blocks that have not been changed, and whether it passes its checks. -/
structure Mark where
  clean : Bool
  passes : Bool

/-- The mark of something that has these two parts. -/
def Mark.and (m n : Mark) : Mark := ⟨m.clean && n.clean, m.passes && n.passes⟩

def Mark.all (m : ℕ → Mark) (places : List ℕ) : Mark := ⟨places.all fun o => (m o).clean, places.all fun o => (m o).passes⟩

/-- What a reader finds of the fragments: it loses none that is clean, and takes none for what it was that does
not pass its checks. -/
inductive Damaged : List (Fragment × Mark) → List Physical → Prop where
  /-- The rest of the file is lost. -/
  | stop {fs} : (∀ p ∈ fs, p.2.clean = false) → Damaged fs []
  /-- A fragment is read. -/
  | keep {f m fs ps} : m.passes = true → Damaged fs ps → Damaged ((f, m) :: fs) (f.toPhysical :: ps)
  /-- A fragment is bad, and some more are lost with it. -/
  | drop {lost fs ps} : lost ≠ [] → (∀ p ∈ lost, p.2.clean = false) →
      Damaged fs ps → Damaged (lost ++ fs) (.bad :: ps)

/-- The records that end in these fragments, with their marks. Before the fragments there may be a beginning of
the first record. -/
inductive Pending : Option (List UInt8 × Mark) → List (Fragment × Mark) → List (List UInt8 × Mark) → Prop where
  | nil : Pending none [] []
  | full {r m fs rs} : Pending none fs rs → Pending none ((⟨.full, r⟩, m) :: fs) ((r, m) :: rs)
  | first {p m fs rs} : Pending (some (p, m)) fs rs → Pending none ((⟨.first, p⟩, m) :: fs) rs
  | middle {s p m n fs rs} :
      Pending (some (s ++ p, m.and n)) fs rs → Pending (some (s, m)) ((⟨.middle, p⟩, n) :: fs) rs
  | last {s p m n fs rs} :
      Pending none fs rs → Pending (some (s, m)) ((⟨.last, p⟩, n) :: fs) ((s ++ p, m.and n) :: rs)

/-- What a reader may have of a record that begins like this: all of it if it passes its
checks so far, and nothing if it is not clean. -/
def MayHold (state : Option (List UInt8)) : Option (List UInt8 × Mark) → Prop
  | none => state = none
  | some (s, m) => state = some s ∧ m.passes = true ∨ state = none ∧ m.clean = false

/-- Some records are lost, and none of them is clean. -/
structure Loses (rs rs' : List (List UInt8 × Mark)) : Prop where
  sublist : rs'.Sublist rs
  clean : rs'.filter (·.2.clean) = rs.filter (·.2.clean)

section Pending

variable {begun : Option (List UInt8 × Mark)} {lost fs : List (Fragment × Mark)} {rs : List (List UInt8 × Mark)}

/-- After a fragment that is not clean, nothing has to be held of the record, and nothing
clean has been lost. -/
theorem Pending.lose {f : Fragment} {m : Mark} (hm : m.clean = false) (h : Pending begun ((f, m) :: fs) rs) :
    ∃ begun' rs', Pending begun' fs rs' ∧ MayHold none begun' ∧ Loses rs rs' := by
  have hcons : ∀ {r : List UInt8} {m : Mark} {rs : List (List UInt8 × Mark)}, m.clean = false →
      Loses ((r, m) :: rs) rs := fun hm => ⟨List.sublist_cons_self _ _, by simp [hm]⟩
  cases h with
  | full h => exact ⟨none, _, h, rfl, hcons hm⟩
  | first h => exact ⟨_, _, h, .inr ⟨rfl, hm⟩, List.Sublist.refl _, rfl⟩
  | middle h => exact ⟨_, _, h, .inr ⟨rfl, by simp [Mark.and, hm]⟩, List.Sublist.refl _, rfl⟩
  | last h => exact ⟨none, _, h, rfl, hcons (by simp [Mark.and, hm])⟩

theorem Pending.lose_all (hne : lost ≠ []) (hlost : ∀ p ∈ lost, p.2.clean = false) (h : Pending begun (lost ++ fs) rs) :
    ∃ begun' rs', Pending begun' fs rs' ∧ MayHold none begun' ∧ Loses rs rs' := by
  induction lost generalizing begun rs with
  | nil => exact absurd rfl hne
  | cons p lost ih =>
    obtain ⟨hp, hlost⟩ := List.forall_mem_cons.mp hlost
    obtain ⟨begun₁, rs₁, h₁, hold₁, hrs₁⟩ := Pending.lose hp h
    by_cases hnil : lost = []
    · subst hnil
      exact ⟨begun₁, rs₁, h₁, hold₁, hrs₁⟩
    · obtain ⟨begun₂, rs₂, h₂, hold₂, hrs₂⟩ := ih hnil hlost h₁
      exact ⟨begun₂, rs₂, h₂, hold₂, hrs₂.sublist.trans hrs₁.sublist, hrs₂.clean.trans hrs₁.clean⟩

/-- If all that is left is lost, nothing of it is clean. -/
theorem Pending.filter_eq_nil (h : Pending begun fs rs) (hlost : ∀ p ∈ fs, p.2.clean = false) :
    rs.filter (·.2.clean) = [] := by
  by_cases hnil : fs = []
  · subst hnil
    cases h
    rfl
  · rw [← List.append_nil fs] at h
    obtain ⟨begun', rs', h', -, hrs⟩ := Pending.lose_all hnil hlost h
    cases h'
    exact hrs.clean.symm

/-- What is read are some of the records, in their order: all that are clean, and none that does not pass its
checks. -/
structure Reads (rs : List (List UInt8 × Mark)) (read : List (List UInt8)) : Prop where
  clean : ((rs.filter (·.2.clean)).map Prod.fst).Sublist read
  passes : read.Sublist ((rs.filter (·.2.passes)).map Prod.fst)

theorem Reads.cons {read : List (List UInt8)} (h : Reads rs read) (r : List UInt8) {m : Mark} (hm : m.passes = true) :
    Reads ((r, m) :: rs) (r :: read) := by
  refine ⟨?_, by simpa [hm] using h.passes⟩
  cases hclean : m.clean
  · simpa [hclean] using h.clean.cons r
  · simpa [hclean] using h.clean

theorem Reads.of_loses {rs' : List (List UInt8 × Mark)} {read : List (List UInt8)} (h : Reads rs' read)
    (hrs : Loses rs rs') : Reads rs read :=
  ⟨hrs.clean ▸ h.clean, h.passes.trans ((hrs.sublist.filter _).map _)⟩

/-- **What is read of damaged records.** -/
theorem Damaged.reads_assemble {ps : List Physical} (h : Damaged fs ps) (hpending : Pending begun fs rs)
    {state : Option (List UInt8)} (hstate : MayHold state begun) : Reads rs (assemble state ps) := by
  induction h generalizing begun rs state with
  | stop hlost =>
    rw [assemble]
    exact ⟨by simp [hpending.filter_eq_nil hlost], List.nil_sublist _⟩
  | @keep f m fs ps hm _ ih =>
    cases hpending with
    | @full r _ _ rs hrest =>
      simp only [Fragment.toPhysical, assemble]
      exact (ih hrest (show MayHold none none from rfl)).cons r hm
    | @first p _ _ _ hrest =>
      simp only [Fragment.toPhysical, assemble]
      exact ih hrest (.inl ⟨rfl, hm⟩)
    | @middle s p c _ _ _ hrest =>
      rcases hstate with ⟨rfl, hc⟩ | ⟨rfl, hc⟩
      · exact ih hrest (.inl ⟨rfl, by simp [Mark.and, hc, hm]⟩)
      · exact ih hrest (.inr ⟨rfl, by simp [Mark.and, hc]⟩)
    | @last s p c _ _ rs hrest =>
      have hreads := ih hrest (show MayHold none none from rfl)
      rcases hstate with ⟨rfl, hc⟩ | ⟨rfl, hc⟩
      · exact hreads.cons (s ++ p) (by simp [Mark.and, hc, hm])
      · exact hreads.of_loses ⟨List.sublist_cons_self _ _, by simp [Mark.and, hc]⟩
  | @drop lost fs ps hne hlost _ ih =>
    obtain ⟨begun', rs', hrest, hold, hrs⟩ := Pending.lose_all hne hlost hpending
    rw [assemble]
    exact (ih hrest hold).of_loses hrs

end Pending

/-! ### The fragments of the records -/

/-- The fragments, marked by their places. -/
def mark (m : ℕ → Mark) (fs : List (Fragment × ℕ)) : List (Fragment × Mark) := fs.map fun p => (p.1, m p.2)

section Fragments

variable {m : ℕ → Mark} {rest : List (Fragment × Mark)} {rs : List (List UInt8 × Mark)} {fs : List Fragment}

/-- The fragments of what is left of a record complete it. -/
theorem Tail.pending (hrest : Pending none rest rs) {left : List UInt8} (h : Tail left fs) (offset : ℕ)
    (scratch : List UInt8) (c : Mark) :
    Pending (some (scratch, c)) (mark m (placed offset 0 fs) ++ rest)
      ((scratch ++ left, c.and (.all m ((placed offset 0 fs).map Prod.snd))) :: rs) := by
  have hgap : gap 0 = 0 := rfl
  have hstart : start 0 = kBlockSize := rfl
  induction h generalizing offset scratch c with
  | @last p => simpa [mark, placed, hgap, Mark.all, Mark.and] using @Pending.last scratch p c (m offset) _ _ hrest
  | @middle p _ _ hsize _ ih =>
    have hnext := ih (offset + kBlockSize) (scratch ++ p) (c.and (m offset))
    rw [placed, hgap, hstart, hsize, Nat.sub_self, Nat.add_zero, ← List.append_assoc]
    refine .middle ?_
    simpa only [mark, Mark.all, Mark.and, Bool.and_assoc, List.map_cons, List.all_cons, List.append_eq] using hnext

theorem Fragmented.pending (hrest : Pending none rest rs) {room : ℕ} {r : List UInt8} (h : Fragmented room r fs)
    (offset : ℕ) : Pending none (mark m (placed offset room fs) ++ rest)
      ((r, .all m ((placed offset room fs).map Prod.snd)) :: rs) := by
  cases h with
  | full => simpa [mark, placed, Mark.all] using @Pending.full r (m (offset + gap room)) _ _ hrest
  | @first p _ _ hsize htail =>
    rw [placed, hsize, Nat.sub_self]
    exact .first (htail.pending hrest (offset + gap room + start room) p (m (offset + gap room)))

theorem pending_fragmentsOf (m : ℕ → Mark) (offset room : ℕ) (rs : List (List UInt8)) :
    Pending none (mark m (placed offset room (fragmentsOf room rs)))
      ((recordPlaces offset room rs).map fun p => (p.1, .all m p.2)) := by
  induction rs generalizing offset room with
  | nil => exact .nil
  | cons r rs ih =>
    rw [fragmentsOf, placed_append, mark, List.map_append]
    exact (fragmented_fragments room r).pending (ih _ _) offset

end Fragments

/-! ### Reading the damaged file -/

section Reading

variable {file : List UInt8} {offset room : ℕ} {f : Fragment} {fs : List Fragment}

theorem exists_block (hfits : Fits room fs) (hroom : kHeaderSize ≤ room) :
    ∃ here later, fs = here ++ later ∧ (layout room here).length + roomAfter room here = room ∧
      (later = [] ∨ roomAfter room here < kHeaderSize) ∧ (fs ≠ [] → here ≠ []) ∧
      ∀ p ∈ placed offset room here, offset ≤ p.2 ∧ p.2 < offset + room := by
  induction fs generalizing offset room with
  | nil => exact ⟨[], [], rfl, by simp [layout, roomAfter], Or.inl rfl, by simp, by simp [placed]⟩
  | cons f fs ih =>
    obtain ⟨hfit, hfits⟩ := hfits
    rw [start_of_le hroom] at hfit hfits
    have hsize : 0 < f.size := by simp [Fragment.size, kHeaderSize]
    have hplaced : ∀ gs, placed offset room (f :: gs) = (f, offset) :: placed (offset + f.size) (room - f.size) gs := by
      intro gs
      rw [placed, gap_of_le hroom, start_of_le hroom, Nat.add_zero]
    have hlayout : ∀ gs, (layout room (f :: gs)).length = f.size + (layout (room - f.size) gs).length := by
      intro gs
      simp [layout, gap_of_le hroom, start_of_le hroom]
    by_cases hleft : kHeaderSize ≤ room - f.size
    · obtain ⟨here, later, rfl, hlen, hlater, -, hplaces⟩ := @ih (offset + f.size) _ hfits hleft
      refine ⟨f :: here, later, rfl, ?_, ?_, by simp, ?_⟩
      · rw [hlayout, roomAfter, start_of_le hroom]
        omega
      · rwa [roomAfter, start_of_le hroom]
      · rw [hplaced]
        intro p hp
        rcases List.mem_cons.mp hp with rfl | hp
        · exact ⟨le_rfl, by simp; omega⟩
        · have := hplaces p hp
          omega
    · -- the next fragment begins in another block
      refine ⟨[f], fs, rfl, ?_, Or.inr ?_, by simp, ?_⟩
      · rw [hlayout, roomAfter, roomAfter, start_of_le hroom]
        simp [layout]
        omega
      · rw [roomAfter, roomAfter, start_of_le hroom]
        omega
      · rw [hplaced]
        intro p hp
        rw [placed, List.mem_singleton] at hp
        subst hp
        exact ⟨le_rfl, by simp; omega⟩

/-- What is needed of a file for the fragments from a place on. -/
structure Laid (clean : ℕ → Bool) (file : List UInt8) (offset room : ℕ) (fs : List Fragment) : Prop where
  room_le : room ≤ kBlockSize
  aligned : (offset + room) % kBlockSize = 0
  fits : Fits room fs
  types : ∀ f ∈ fs, f.type ≠ .zero
  length : file.length = offset + (layout room fs).length
  fails : ∀ p ∈ placed offset room fs, Touched file p → FailsCheck ((file.drop p.2).take (kBlockSize - p.2 % kBlockSize))
  clean : ∀ p ∈ placed offset room fs, Touched file p → ∀ o, o / kBlockSize = p.2 / kBlockSize → clean o = false

variable {clean : ℕ → Bool}

theorem Laid.skip (h : Laid clean file offset room (f :: fs)) : Laid clean file (offset + gap room) (start room) (f :: fs) where
  room_le := start_le h.room_le
  aligned := by
    obtain heq | heq := gap_add_start room
    · rw [Nat.add_assoc, heq, h.aligned]
    · rw [Nat.add_assoc, heq, ← Nat.add_assoc, Nat.add_mod_right, h.aligned]
  fits := by
    rw [Fits, start_start]
    exact h.fits
  types := h.types
  length := by rw [h.length, ← length_layout_start, Nat.add_assoc]
  fails := by
    rw [placed_start]
    exact h.fails
  clean := by
    rw [placed_start]
    exact h.clean

/-- The same holds for the fragments after the first ones. -/
theorem Laid.append {gs : List Fragment} (h : Laid clean file offset room (fs ++ gs)) :
    Laid clean file (offset + (layout room fs).length) (roomAfter room fs) gs where
  room_le := roomAfter_le h.room_le fs
  aligned := by
    obtain ⟨blocks, hblocks⟩ := length_layout (fits_append.mp h.fits).1
    rw [Nat.add_assoc, hblocks, ← Nat.add_assoc, Nat.add_mul_mod_self_right, h.aligned]
  fits := (fits_append.mp h.fits).2
  types g hg := h.types g (List.mem_append_right _ hg)
  length := by rw [h.length, layout_append, List.length_append, Nat.add_assoc]
  fails p hp := h.fails p (by rw [placed_append]; exact List.mem_append_right _ hp)
  clean p hp := h.clean p (by rw [placed_append]; exact List.mem_append_right _ hp)

theorem FailsCheck.badHead {rest : List UInt8} (h : FailsCheck (rest.take room)) (hroom : kHeaderSize ≤ room)
    (hle : room ≤ rest.length) : BadHead room rest := by
  rw [FailsCheck, headerLength_take hroom, List.length_take, Nat.min_eq_left hle] at h
  by_cases hlong : room < kHeaderSize + headerLength rest
  · exact .inl hlong
  · have hcrc := h.resolve_left hlong
    rw [actualCrc_take (Nat.not_lt.mp hlong), decodeFixed32_take hroom (hroom.trans hle)] at hcrc
    exact .inr (.inr hcrc)

/-- A file of which the fragments from a place on can be read. -/
def Readable (clean : ℕ → Bool) (file : List UInt8) (offset room : ℕ) (fs : List Fragment) : Prop :=
  ∃ ps, Parses false room (file.drop offset) ps ∧
    Damaged (mark (fun o => ⟨clean o, passes file o⟩) (placed offset room fs)) ps

theorem Laid.room_eq (h : Laid clean file offset room fs) (hroom : kHeaderSize ≤ room) :
    kBlockSize - offset % kBlockSize = room := by
  have hle := h.room_le
  have haligned := h.aligned
  simp only [kBlockSize, kHeaderSize] at *
  omega

/-- Nothing is clean in a block with a fragment that has been changed. -/
theorem Laid.clean_eq_false (h : Laid clean file offset room (f :: fs)) (hroom : kHeaderSize ≤ room)
    (htouched : Touched file (f, offset)) {here : List Fragment}
    (hplaces : ∀ p ∈ placed offset room here, offset ≤ p.2 ∧ p.2 < offset + room) :
    ∀ p ∈ mark (fun o => ⟨clean o, passes file o⟩) (placed offset room here), p.2.clean = false := by
  intro p hp
  obtain ⟨q, hq, rfl⟩ := List.mem_map.mp hp
  have hmem : (f, offset) ∈ placed offset room (f :: fs) := by
    rw [placed, gap_of_le hroom]
    exact List.mem_cons_self
  refine h.clean _ hmem htouched q.2 ?_
  have hbounds := hplaces q hq
  have hend := h.room_eq hroom
  have hle := h.room_le
  simp only [kBlockSize, kHeaderSize] at *
  omega

theorem Laid.readable_touched (h : Laid clean file offset room (f :: fs)) (hroom : kHeaderSize ≤ room)
    (ih : ∀ {offset room : ℕ} {gs : List Fragment}, gs.length < (f :: fs).length → Laid clean file offset room gs →
      Readable clean file offset room gs) (htouched : Touched file (f, offset)) :
    Readable clean file offset room (f :: fs) := by
  obtain ⟨here, later, hsplit, hlen, hlater, hne, hplaces⟩ := @exists_block offset _ _ h.fits hroom
  have hlost := h.clean_eq_false hroom htouched hplaces
  have hmem : (f, offset) ∈ placed offset room (f :: fs) := by
    rw [placed, gap_of_le hroom]
    exact List.mem_cons_self
  have hfail := h.fails _ hmem htouched
  rw [h.room_eq hroom] at hfail
  have hfile : (file.drop offset).length = (layout room (here ++ later)).length := by
    rw [List.length_drop, h.length, Nat.add_sub_cancel_left, hsplit]
  have hheader : kHeaderSize ≤ (file.drop offset).length := by
    rw [hfile, ← hsplit, ← length_layout_start]
    simp [layout, Fragment.size]
    omega
  have hmark : mark (fun o => ⟨clean o, passes file o⟩) (placed offset room here) ≠ [] := by
    cases here with
    | nil => exact absurd rfl (hne (by simp))
    | cons g here => simp [mark, placed]
  rw [hsplit] at h ⊢
  cases later with
  | nil =>
    have hbad := Damaged.drop hmark hlost (.stop (List.forall_mem_nil _))
    rw [List.append_nil] at hfile hbad ⊢
    by_cases hle : room ≤ (file.drop offset).length
    · have hnil : (file.drop offset).drop room = [] := List.drop_of_length_le (by omega)
      exact ⟨[.bad], .bad hroom hle (hfail.badHead hroom hle) (hnil ▸ Parses.nil le_rfl), hbad⟩
    · have hlt := Nat.not_le.mp hle
      rw [List.take_of_length_le hlt.le] at hfail
      rcases Parses.bad_last hheader hlt (hfail.imp_right .inr) with hparses | hparses
      · exact ⟨[], hparses, .stop hlost⟩
      · exact ⟨[.bad], hparses, hbad⟩
  | cons g later =>
    have hshort : roomAfter room here < kHeaderSize := hlater.resolve_left (by simp)
    have hrest := (Laid.append h).skip
    rw [gap_of_lt hshort, start_of_lt hshort, Nat.add_assoc, hlen] at hrest
    have hpos : 0 < here.length := List.length_pos_of_ne_nil (hne (by simp))
    obtain ⟨ps, hparses, hdamaged⟩ := ih (by rw [hsplit, List.length_append]; omega) hrest
    have hle : room ≤ (file.drop offset).length := by
      rw [hfile, layout_append, List.length_append, ← length_layout_start, gap_of_lt hshort]
      omega
    refine ⟨.bad :: ps, .bad hroom hle (hfail.badHead hroom hle) (by rwa [List.drop_drop]), ?_⟩
    -- the fragments of this block are lost
    have hplaced : placed (offset + room) kBlockSize (g :: later) =
        placed (offset + (layout room here).length) (roomAfter room here) (g :: later) := by
      rw [← placed_start (offset + (layout room here).length), gap_of_lt hshort, start_of_lt hshort, Nat.add_assoc, hlen]
    rw [placed_append, mark, List.map_append, ← hplaced]
    exact .drop hmark hlost hdamaged

theorem Laid.passes (h : Laid clean file offset room (f :: fs)) (hroom : kHeaderSize ≤ room) {rest : List UInt8}
    (hbytes : file.drop offset = f.bytes ++ rest) : passes file offset = true := by
  have hfit : f.size ≤ room := by simpa [start_of_le hroom] using h.fits.1
  have hpayload := payload_lt hfit h.room_le
  have hsize : kHeaderSize + headerLength (file.drop offset) = f.size := by
    rw [hbytes, f.headerLength_bytes hpayload, Fragment.size]
  have hlen : f.size ≤ (file.drop offset).length := by rw [hbytes]; simp
  have hle : kHeaderSize ≤ (file.drop offset).length := by omega
  rw [Log.passes, h.room_eq hroom, Bool.not_eq_true', decide_eq_false_iff_not, FailsCheck, headerLength_take hroom,
    actualCrc_take (by omega), decodeFixed32_take hroom hle, hsize, List.length_take]
  rintro (hlt | hne)
  · omega
  · rw [hbytes] at hne
    exact hne (f.actualCrc_bytes hpayload rest)

theorem Laid.readable_untouched (h : Laid clean file offset room (f :: fs)) (hroom : kHeaderSize ≤ room)
    (ih : ∀ {offset room : ℕ} {gs : List Fragment}, gs.length < (f :: fs).length → Laid clean file offset room gs →
      Readable clean file offset room gs) (htouched : ¬ Touched file (f, offset)) :
    Readable clean file offset room (f :: fs) := by
  have hrest := Laid.append (show Laid clean file offset room ([f] ++ fs) from h)
  have hlen : (layout room [f]).length = f.size := by simp [layout, gap_of_le hroom]
  have hafter : roomAfter room [f] = room - f.size := by rw [roomAfter, roomAfter, start_of_le hroom]
  rw [hlen, hafter] at hrest
  obtain ⟨ps, hparses, hdamaged⟩ := ih (by simp) hrest
  have hfit : f.size ≤ room := by simpa [start_of_le hroom] using h.fits.1
  have hbytes : file.drop offset = f.bytes ++ file.drop (offset + f.size) := by
    have hbytes : (file.drop offset).take f.size = f.bytes := not_not.mp htouched
    rw [← List.drop_drop, ← hbytes, List.take_append_drop]
  have hplaced : placed offset room (f :: fs) = (f, offset) :: placed (offset + f.size) (room - f.size) fs := by
    rw [placed, gap_of_le hroom, start_of_le hroom, Nat.add_zero]
  refine ⟨f.toPhysical :: ps, ?_, ?_⟩
  · rw [hbytes]
    exact Parses.fragment h.room_le hfit (h.types f List.mem_cons_self) hparses
  · rw [hplaced]
    exact .keep (h.passes hroom hbytes) hdamaged

theorem Laid.readable (h : Laid clean file offset room fs) : Readable clean file offset room fs := by
  induction hn : fs.length using Nat.strong_induction_on generalizing offset room fs with
  | _ n ih =>
    subst hn
    cases fs with
    | nil =>
      have hnil : file.drop offset = [] := List.drop_of_length_le (by rw [h.length]; simp [layout])
      exact ⟨[], hnil ▸ Parses.nil h.room_le, .stop (by simp [placed, mark])⟩
    | cons f fs =>
      have hstart : Readable clean file (offset + gap room) (start room) (f :: fs) := by
        by_cases htouched : Touched file (f, offset + gap room)
        · exact h.skip.readable_touched (kHeaderSize_le_start room) (fun hlt hg => ih _ hlt hg rfl) htouched
        · exact h.skip.readable_untouched (kHeaderSize_le_start room) (fun hlt hg => ih _ hlt hg rfl) htouched
      obtain ⟨ps, hparses, hdamaged⟩ := hstart
      rw [placed_start offset room f fs] at hdamaged
      refine ⟨ps, ?_, hdamaged⟩
      by_cases hshort : room < kHeaderSize
      · rw [gap_of_lt hshort, start_of_lt hshort] at hparses
        refine .trailer hshort ?_ (by rwa [List.drop_drop])
        rw [List.length_drop, h.length, ← length_layout_start, gap_of_lt hshort]
        omega
      · rw [gap_of_le (Nat.not_lt.mp hshort), start_of_le (Nat.not_lt.mp hshort)] at hparses
        exact hparses

end Reading

/-! ### Damaged logs -/

/-- A place in an unchanged block is one where nothing has been changed. -/
theorem not_touched_of_block {rs : List (List UInt8)} {file : List UInt8} {p : Fragment × ℕ}
    (hp : p ∈ placed 0 kBlockSize (fragmentsOf kBlockSize rs))
    (hblock : block file (p.2 / kBlockSize) = block (write rs) (p.2 / kBlockSize)) : ¬ Touched file p := by
  obtain ⟨-, hbytes, hfit⟩ := mem_placed (fits_fragmentsOf _ _) le_rfl (by decide) hp
  rw [Nat.sub_zero, ← write_eq] at hbytes
  -- the bytes of a fragment are bytes of its block
  have hsub : ∀ file : List UInt8, (file.drop p.2).take p.1.size =
      ((block file (p.2 / kBlockSize)).drop (p.2 % kBlockSize)).take p.1.size := by
    intro file
    rw [block, List.drop_take, List.drop_drop, List.take_take, Nat.min_eq_left (by omega), Nat.div_add_mod' p.2 kBlockSize]
  rw [Touched, not_not, hsub file, hblock, ← hsub, hbytes]

/-- The records all of whose fragments pass their checks where they are in the file. -/
def passingRecords (rs : List (List UInt8)) (file : List UInt8) : List (List UInt8) :=
  ((recordPlaces 0 kBlockSize rs).filter fun p => p.2.all (passes file)).map Prod.fst

/-- What is read of a log of which bytes were changed: all records with no fragment in a changed block, and
only records whose fragments all pass their checks. -/
theorem exists_parses_of_noticed {rs : List (List UInt8)} {file : List UInt8} (hlen : file.length = (write rs).length)
    (hnoticed : Noticed rs file) :
    ∃ ps, Parses false 0 file ps ∧ (cleanRecords rs file).Sublist (assemble none ps) ∧
      (assemble none ps).Sublist (passingRecords rs file) := by
  have hlaid : Laid (fun o => block file (o / kBlockSize) = block (write rs) (o / kBlockSize)) file 0 kBlockSize
      (fragmentsOf kBlockSize rs) := by
    refine ⟨le_rfl, by decide, fits_fragmentsOf _ _, type_fragmentsOf_ne_zero _ _, ?_, hnoticed, ?_⟩
    · rw [hlen, write_eq, Nat.zero_add]
    · intro p hp htouched o ho
      rw [ho]
      exact decide_eq_false fun hblock => not_touched_of_block hp hblock htouched
  obtain ⟨ps, hparses, hdamaged⟩ := hlaid.readable
  rw [List.drop_zero] at hparses
  obtain ⟨hclean, hpasses⟩ := hdamaged.reads_assemble (pending_fragmentsOf _ 0 kBlockSize rs)
    (show MayHold none none from rfl)
  rw [List.filter_map, List.map_map] at hclean hpasses
  exact ⟨ps, .trailer (by decide) (Nat.zero_le _) hparses, hclean, hpasses⟩

/-- **Damage stays local**: bytes of a log are changed, and every fragment that has been
changed fails its length or checksum check. Then reading comes to an end, and returns
records that were written, in their order, among them all those with no fragment in a
changed block. -/
theorem read_damaged {rs : List (List UInt8)} {file : List UInt8} (hlen : file.length = (write rs).length)
    (hnoticed : Noticed rs file) :
    (∃ ps, Parses false 0 file ps ∧ read file = assemble none ps) ∧
      (cleanRecords rs file).Sublist (read file) ∧ (read file).Sublist rs := by
  obtain ⟨ps, hparses, hclean, hpasses⟩ := exists_parses_of_noticed hlen hnoticed
  have hread : read file = assemble none ps := read_eq hparses
  have hrecords : (passingRecords rs file).Sublist rs := by
    have hsub := (List.filter_sublist (p := fun p => p.2.all (passes file)) (l := recordPlaces 0 kBlockSize rs)).map Prod.fst
    rwa [map_fst_recordPlaces] at hsub
  rw [← hread] at hclean hpasses
  exact ⟨⟨ps, hparses, hread⟩, hclean, hpasses.trans hrecords⟩

/-- What is read of a log in which bytes were changed are records whose fragments all pass
their checks. -/
theorem read_sublist_passingRecords {rs : List (List UInt8)} {file : List UInt8}
    (hlen : file.length = (write rs).length) (hnoticed : Noticed rs file) :
    (read file).Sublist (passingRecords rs file) := by
  obtain ⟨ps, hparses, -, hpasses⟩ := exists_parses_of_noticed hlen hnoticed
  rwa [read_eq hparses]

/-- The payload of the second of two records is changed. -/
theorem read_damaged_second :
    Noticed [[1], [2]] ((write [[1], [2]]).set 15 9) ∧
      (read ((write [[1], [2]]).set 15 9)).Sublist [[1], [2]] := by
  have hnoticed : Noticed [[1], [2]] ((write [[1], [2]]).set 15 9) := by decide +kernel
  exact ⟨hnoticed, (read_damaged List.length_set hnoticed).2.2⟩

end TLevelDB.Log
