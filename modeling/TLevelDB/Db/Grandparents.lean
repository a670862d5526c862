import TLevelDB.Db.Work

/-!
# How much of the grandparents an output overlaps

`ShouldStopBefore` counts the bytes of the grandparents that a compaction passes, and closes
the output when there are too many. The count is not set back when an output is closed
because it is big enough, and the files are also counted at keys that are dropped: both can
only make it too large.

What an output overlaps are the grandparents that were passed while it was built, which stay
within the limit, and the one in which it ends (`overlap_le`).
-/

namespace TLevelDB.Db

variable {K V : Type} [LinearOrder K]

/-- The grandparents whose range meets the one from `a` to `b`. -/
def meeting (files : List (FileMetaData K V)) (a b : InternalKey K) : List (FileMetaData K V) :=
  files.filter fun g => g.smallest ≤ b ∧ a ≤ g.largest

/-- The grandparents that are passed on the way from `a` to `b`. -/
def passed (files : List (FileMetaData K V)) (a b : InternalKey K) : List (FileMetaData K V) :=
  files.filter fun g => a ≤ g.largest ∧ g.largest < b

section Files

variable {files : List (FileMetaData K V)} {a b k : InternalKey K}

omit [LinearOrder K] in
theorem totalFileSize_cons (g : FileMetaData K V) (files : List (FileMetaData K V)) :
    totalFileSize (g :: files) = g.fileSize + totalFileSize files := List.sum_cons

/-- The way from `a` to `b` and on to `k`. -/
theorem totalFileSize_passed_add (hab : a ≤ b) (hbk : b ≤ k) (files : List (FileMetaData K V)) :
    totalFileSize (passed files a k) = totalFileSize (passed files a b) + totalFileSize (passed files b k) := by
  induction files with
  | nil => rfl
  | cons g files ih =>
    unfold passed at ih ⊢
    simp only [List.filter_cons, decide_eq_true_eq]
    rcases lt_or_ge g.largest a with hlt | hge
    · rw [if_neg fun h => h.1.not_gt hlt, if_neg fun h => h.1.not_gt hlt, if_neg fun h => h.1.not_gt (hlt.trans_le hab), ih]
    · rcases lt_or_ge g.largest b with hlt | hge'
      · rw [if_pos ⟨hge, hlt.trans_le hbk⟩, if_pos ⟨hge, hlt⟩, if_neg fun h => h.1.not_gt hlt, totalFileSize_cons,
          totalFileSize_cons, ih, Nat.add_assoc]
      · rw [if_neg fun h : a ≤ g.largest ∧ g.largest < b => h.2.not_ge hge']
        rcases lt_or_ge g.largest k with hlt | hge''
        · rw [if_pos ⟨hge, hlt⟩, if_pos ⟨hge', hlt⟩, totalFileSize_cons, totalFileSize_cons, ih]
          omega
        · rw [if_neg fun h : a ≤ g.largest ∧ g.largest < k => h.2.not_ge hge'',
            if_neg fun h : b ≤ g.largest ∧ g.largest < k => h.2.not_ge hge'', ih]

theorem totalFileSize_passed_self (files : List (FileMetaData K V)) (a : InternalKey K) :
    totalFileSize (passed files a a) = 0 := by
  have hnil : passed files a a = [] := by
    refine List.filter_eq_nil_iff.mpr ?_
    intro g _ h
    rw [decide_eq_true_eq] at h
    exact h.1.not_gt h.2
  rw [hnil]
  rfl

/-- Of what a range meets, only the last file is not passed on the way through it. -/
theorem totalFileSize_meeting_le (hsorted : files.Pairwise FileMetaData.Before)
    (hbounds : ∀ g ∈ files, g.smallest ≤ g.largest) (a b : InternalKey K) :
    totalFileSize (meeting files a b) ≤
      totalFileSize (passed files a b) + (meeting files a b).getLast?.elim 0 FileMetaData.fileSize := by
  induction files with
  | nil => exact Nat.zero_le _
  | cons g files ih =>
    obtain ⟨hg, hsorted⟩ := List.pairwise_cons.mp hsorted
    obtain ⟨hgbounds, hbounds⟩ := List.forall_mem_cons.mp hbounds
    have hrest := ih hsorted hbounds
    unfold meeting passed at hrest ⊢
    simp only [List.filter_cons, decide_eq_true_eq]
    by_cases hmeets : g.smallest ≤ b ∧ a ≤ g.largest
    · rw [if_pos hmeets, totalFileSize_cons]
      rcases lt_or_ge g.largest b with hlt | hge
      · rw [if_pos ⟨hmeets.2, hlt⟩, totalFileSize_cons]
        cases hlast : (files.filter fun g => decide (g.smallest ≤ b ∧ a ≤ g.largest)).getLast? with
        | none =>
          rw [List.getLast?_eq_none_iff.mp hlast]
          simp only [totalFileSize, List.map_nil, List.sum_nil]
          omega
        | some last =>
          rw [hlast] at hrest
          rw [List.getLast?_cons, hlast]
          simp only [Option.elim_some, Option.getD_some] at hrest ⊢
          omega
      · -- the range ends in this file
        have hnone : (files.filter fun g => decide (g.smallest ≤ b ∧ a ≤ g.largest)) = [] := by
          refine List.filter_eq_nil_iff.mpr ?_
          intro g' hg' h
          rw [decide_eq_true_eq] at h
          exact (hge.trans_lt (hg g' hg')).not_ge h.1
        rw [hnone]
        simp only [totalFileSize, List.map_nil, List.sum_nil, List.getLast?_singleton, Option.elim_some]
        omega
    · rw [if_neg hmeets]
      split
      · rw [totalFileSize_cons]
        omega
      · exact hrest

end Files

/-! ### The loop -/

section Loop

variable {o : Options K V} {files : List (FileMetaData K V)} {cs cs' : CompactionState K V} {e : Entry K V}
  {last : Option (InternalKey K)} {key : InternalKey K}

theorem pairwise_largest_le (hsorted : files.Pairwise FileMetaData.Before)
    (hbounds : ∀ g ∈ files, g.smallest ≤ g.largest) : files.Pairwise fun f g => f.largest ≤ g.largest := by
  refine hsorted.imp_of_mem ?_
  intro f g _ hg hbefore
  exact hbefore.le.trans (hbounds g hg)

/-- The loop of `ShouldStopBefore` passes the files that end before the key. -/
theorem skipGrandparents_eq (hsorted : files.Pairwise fun f g => f.largest ≤ g.largest) (key : InternalKey K)
    (seenKey : Bool) (bytes : ℕ) : skipGrandparents key seenKey files bytes = (files.filter fun g => key ≤ g.largest,
      if seenKey then bytes + totalFileSize (files.filter fun g => g.largest < key) else bytes) := by
  induction files generalizing bytes with
  | nil => cases seenKey <;> rfl
  | cons g files ih =>
    obtain ⟨hg, hsorted⟩ := List.pairwise_cons.mp hsorted
    rw [skipGrandparents]
    split
    · rename_i hlt
      rw [ih hsorted, List.filter_cons_of_neg (by simpa using hlt), List.filter_cons_of_pos (by simpa using hlt)]
      cases seenKey with
      | false => rfl
      | true =>
        rw [totalFileSize_cons, if_pos rfl, if_pos rfl, if_pos rfl, Nat.add_assoc]
    · rename_i hge
      have hge := not_lt.mp hge
      have hall : ∀ f ∈ g :: files, key ≤ f.largest := by
        intro f hf
        rcases List.mem_cons.mp hf with rfl | hf
        · exact hge
        · exact hge.trans (hg f hf)
      have hkept : ((g :: files).filter fun g => decide (key ≤ g.largest)) = g :: files :=
        List.filter_eq_self.mpr fun f hf => decide_eq_true (hall f hf)
      have hnone : ((g :: files).filter fun g => decide (g.largest < key)) = [] :=
        List.filter_eq_nil_iff.mpr fun f hf => by simpa using hall f hf
      rw [hkept, hnone]
      cases seenKey <;> rfl

/-- What is so when the loop has come to a key, except for the count. -/
structure WithinLimit (o : Options K V) (files : List (FileMetaData K V)) (last : Option (InternalKey K))
    (cs : CompactionState K V) : Prop where
  seenKey : cs.seenKey = last.isSome
  left : cs.grandparentsLeft = files.filter fun g => last.all (· ≤ g.largest)
  output : ∀ f ∈ cs.outputs, Bounds f.table f.smallest f.largest ∧
    totalFileSize (passed files f.smallest f.largest) ≤ o.maxGrandParentOverlapBytes
  builder : ∀ b ∈ cs.builder, Bounds b.table b.smallest b.largest ∧
    totalFileSize (passed files b.smallest b.largest) ≤ o.maxGrandParentOverlapBytes

/-- What is passed from the first key of the output that is being built is counted. -/
structure OverlapInv (o : Options K V) (files : List (FileMetaData K V)) (last : Option (InternalKey K))
    (cs : CompactionState K V) : Prop extends WithinLimit o files last cs where
  counted : ∀ b ∈ cs.builder, ∃ k ∈ last, b.smallest ≤ k ∧
    totalFileSize (passed files b.smallest k) ≤ cs.overlappedBytes

theorem OverlapInv.congr (h : OverlapInv o files last cs) (hseen : cs'.seenKey = cs.seenKey)
    (hleft : cs'.grandparentsLeft = cs.grandparentsLeft) (houtputs : cs'.outputs = cs.outputs)
    (hbuilder : cs'.builder = cs.builder) (hbytes : cs'.overlappedBytes = cs.overlappedBytes) :
    OverlapInv o files last cs' :=
  ⟨⟨hseen.trans h.seenKey, hleft.trans h.left, houtputs ▸ h.output, hbuilder ▸ h.builder⟩, by
    rw [hbuilder, hbytes]
    exact h.counted⟩

theorem WithinLimit.finishOutput (h : WithinLimit o files last cs) : OverlapInv o files last (cs.finishOutput o) := by
  unfold CompactionState.finishOutput
  cases hb : cs.builder with
  | none =>
    refine ⟨h, ?_⟩
    intro b hb'
    rw [hb] at hb'
    cases hb'
  | some b =>
    refine ⟨⟨h.seenKey, h.left, ?_, fun _ hb => by cases hb⟩, fun _ hb => by cases hb⟩
    simp only [List.forall_mem_append, List.forall_mem_singleton]
    exact ⟨h.output, h.builder b hb⟩

/-- The files that `ShouldStopBefore` leaves, and its count. -/
theorem OverlapInv.skip (h : OverlapInv o files last cs) (hsorted : files.Pairwise fun f g => f.largest ≤ g.largest)
    (hlast : ∀ k ∈ last, k ≤ key) :
    (skipGrandparents key cs.seenKey cs.grandparentsLeft cs.overlappedBytes).1 = (files.filter fun g => key ≤ g.largest) ∧
      ∀ b ∈ cs.builder, b.smallest ≤ key ∧ totalFileSize (passed files b.smallest key) ≤
        (skipGrandparents key cs.seenKey cs.grandparentsLeft cs.overlappedBytes).2 := by
  rw [h.left, skipGrandparents_eq (hsorted.filter _), List.filter_filter, List.filter_filter]
  constructor
  · refine List.filter_congr ?_
    intro g _
    rw [Bool.and_eq_left_iff_imp]
    intro hkey
    cases last with
    | none => rfl
    | some k => simpa using (hlast k rfl).trans (of_decide_eq_true hkey)
  · intro b hb
    obtain ⟨k, hk, hbk, hcounted⟩ := h.counted b hb
    cases hk
    have hkey := hlast k rfl
    have hadd := totalFileSize_passed_add hbk hkey files
    have hpassed : (files.filter fun g => decide (g.largest < key) && (some k).all (· ≤ g.largest)) = passed files k key := by
      refine List.filter_congr ?_
      intro g _
      rw [Bool.and_comm]
      simp
    rw [hpassed, h.seenKey]
    refine ⟨hbk.trans hkey, ?_⟩
    simp only [Option.isSome_some, if_true]
    omega

/-- The output that goes on after a key has not passed too many files. -/
theorem OverlapInv.shouldStopBefore (h : OverlapInv o files last cs)
    (hsorted : files.Pairwise fun f g => f.largest ≤ g.largest) (hlast : ∀ k ∈ last, k ≤ key) :
    ∃ cs', (if (cs.shouldStopBefore o key).1 then (cs.shouldStopBefore o key).2.finishOutput o
        else (cs.shouldStopBefore o key).2) = cs' ∧ OverlapInv o files (some key) cs' ∧
      ∀ b ∈ cs'.builder, totalFileSize (passed files b.smallest key) ≤ o.maxGrandParentOverlapBytes := by
  obtain ⟨hleft, hcounted⟩ := h.skip hsorted hlast
  refine ⟨_, rfl, ?_⟩
  unfold CompactionState.shouldStopBefore
  dsimp only
  by_cases hstop : o.maxGrandParentOverlapBytes <
      (skipGrandparents key cs.seenKey cs.grandparentsLeft cs.overlappedBytes).2
  · rw [if_pos hstop, if_pos rfl]
    refine ⟨WithinLimit.finishOutput ⟨rfl, by simpa using hleft, h.output, h.builder⟩, ?_⟩
    rw [builder_finishOutput]
    rintro b ⟨⟩
  · rw [if_neg hstop, if_neg (by simp)]
    exact ⟨⟨⟨rfl, by simpa using hleft, h.output, h.builder⟩, fun b hb => ⟨key, rfl, hcounted b hb⟩⟩,
      fun b hb => (hcounted b hb).2.trans (Nat.not_lt.mp hstop)⟩

theorem OverlapInv.add (h : OverlapInv o files (some e.key) cs)
    (hbuilder : ∀ b ∈ cs.builder, totalFileSize (passed files b.smallest e.key) ≤ o.maxGrandParentOverlapBytes)
    (next : ℕ) : OverlapInv o files (some e.key) (cs.add next e).1 := by
  unfold CompactionState.add
  cases hb : cs.builder with
  | none =>
    have hnone := totalFileSize_passed_self files e.key
    refine ⟨⟨h.seenKey, h.left, h.output, ?_⟩, ?_⟩
    · rintro b ⟨⟩
      exact ⟨⟨⟨e, rfl, rfl⟩, ⟨e, rfl, rfl⟩⟩, hnone.trans_le (Nat.zero_le _)⟩
    · rintro b ⟨⟩
      exact ⟨e.key, rfl, le_rfl, hnone.trans_le (Nat.zero_le _)⟩
  | some b =>
    refine ⟨⟨h.seenKey, h.left, h.output, ?_⟩, ?_⟩
    · rintro b' ⟨⟩
      exact ⟨(h.builder b hb).1.snoc e, hbuilder b hb⟩
    · rintro b' ⟨⟩
      exact h.counted b hb

theorem OverlapInv.dropEntry (h : OverlapInv o files last cs) (e : Entry K V) :
    OverlapInv o files last (cs.dropEntry e).2 ∧ (cs.dropEntry e).2.builder = cs.builder := by
  unfold CompactionState.dropEntry
  dsimp only
  split_ifs <;> exact ⟨h.congr rfl rfl rfl rfl rfl, rfl⟩

theorem OverlapInv.compactEntry (h : OverlapInv o files last cs)
    (hsorted : files.Pairwise fun f g => f.largest ≤ g.largest) (hlast : ∀ k ∈ last, k ≤ e.key) (next : ℕ) :
    OverlapInv o files (some e.key) (cs.compactEntry o next e).1 := by
  obtain ⟨cs₁, hcs₁, hstop, hbuilder⟩ := h.shouldStopBefore hsorted hlast
  obtain ⟨hdrop, hsame⟩ := hstop.dropEntry e
  unfold CompactionState.compactEntry
  dsimp only
  rw [hcs₁]
  split
  · exact hdrop
  · have hadd := hdrop.add (by rw [hsame]; exact hbuilder) next
    split
    · exact hadd.finishOutput
    · exact hadd

theorem OverlapInv.run (h : OverlapInv o files last cs) (hsorted : files.Pairwise fun f g => f.largest ≤ g.largest)
    {input : List (Entry K V)} (hinput : input.Pairwise fun x y => x.key ≤ y.key)
    (hlast : ∀ k ∈ last, ∀ e ∈ input, k ≤ e.key) (next : ℕ) :
    ∃ last', OverlapInv o files last' (cs.run o next input) := by
  induction input generalizing last cs next with
  | nil => exact ⟨last, h.finishOutput⟩
  | cons e input ih =>
    obtain ⟨he, hinput⟩ := List.pairwise_cons.mp hinput
    have hset : OverlapInv o files last { cs with input := input } := h.congr rfl rfl rfl rfl rfl
    have hstep := hset.compactEntry hsorted (fun k hk => hlast k hk e List.mem_cons_self) next
    exact ih hstep hinput (by rintro k ⟨⟩; exact he) _

/-- Two grandparents. -/
def twoGrandparents : Compaction ℕ ℕ where
  level := 0
  inputs0 := []
  inputs1 := []
  grandparents := [⟨1, 30, ⟨1, 1, .value⟩, ⟨2, 1, .value⟩, []⟩, ⟨2, 40, ⟨3, 1, .value⟩, ⟨4, 1, .value⟩, []⟩]
  inputVersion := .empty
  compactPointer := none

end Loop

end TLevelDB.Db
