import TLevelDB.Lib.Cursor

/-!
# Cursors over lists in sections

A list is given in sections, some of which may be empty. A cursor over the sections and a
cursor within the section it stands on make a cursor over the whole list (`joined`).

Every move of a cursor leads to a gap in the list, and from there to the element that comes
after the gap (`ahead`) or before it (`behind`). A gap within a section is a gap in the whole
list, also if it is at an end of the section; so the element after it is found by looking
into this section and then into the ones that follow.
-/

namespace TLevelDB.Cursors

variable {σ α : Type}

/-! ### Gaps -/

/-- On the element after a gap; `b` are the elements before the gap, the nearest first. -/
def ahead (b : List α) : List α → Cursor α
  | [] => none
  | x :: a => some ⟨b, x, a⟩

/-- On the element before a gap. -/
def behind : List α → List α → Cursor α
  | [], _ => none
  | x :: b, a => some ⟨b, x, a⟩

variable {a b l : List α} {x : α}

theorem next_eq_ahead : next (some ⟨b, x, a⟩) = ahead (x :: b) a := by cases a <;> rfl

theorem prev_eq_behind : prev (some ⟨b, x, a⟩) = behind b (x :: a) := by cases b <;> rfl

theorem seekToFirst_eq_ahead : seekToFirst l = ahead [] l := by cases l <;> rfl

theorem seekToLast_eq_behind : seekToLast l = behind l.reverse [] := by
  unfold seekToLast seekBack seek
  cases l.reverse <;> rfl

section Seek

variable (p : α → Prop) [DecidablePred p]

theorem seekFrom_append (hb : ∀ x ∈ l, ¬ p x) (ha : ∀ x ∈ a.head?, p x) :
    seekFrom p b (l ++ a) = ahead (l.reverse ++ b) a := by
  induction l generalizing b with
  | nil =>
    cases a with
    | nil => rfl
    | cons x a => exact if_pos (ha x rfl)
  | cons y l ih =>
    rw [List.cons_append, seekFrom, if_neg (hb y List.mem_cons_self),
      ih fun x hx => hb x (List.mem_cons_of_mem y hx), List.reverse_cons, List.append_assoc]
    rfl

/-- What is sought comes after the elements that do not satisfy `p`. -/
theorem seek_eq_ahead (hb : ∀ x ∈ b, ¬ p x) (ha : ∀ x ∈ a.head?, p x) : seek p (b.reverse ++ a) = ahead b a := by
  rw [seek, seekFrom_append p (fun x hx => hb x (List.mem_reverse.mp hx)) ha, List.reverse_reverse, List.append_nil]

/-- The gap that a search leads to. -/
theorem exists_gap_of_seek (l : List α) : ∃ b a, b.reverse ++ a = l ∧ seek p l = ahead b a ∧
    (∀ x ∈ b, ¬ p x) ∧ ∀ x ∈ a.head?, p x := by
  cases h : seek p l with
  | none =>
    have hall := (seek_eq_none_iff p).mp h
    exact ⟨l.reverse, [], by simp, rfl, fun x hx => hall x (List.mem_reverse.mp hx), by simp⟩
  | some z =>
    obtain ⟨hl, hp, hbefore⟩ := (seek_eq_some_iff p).mp h
    exact ⟨z.before, z.cur :: z.after, hl, rfl, hbefore, by simpa using hp⟩

end Seek

/-! ### Sections -/

variable (contents : σ → List α)

/-- The elements of sections that have been passed, the nearest first. -/
def passed (bs : List σ) : List α := bs.flatMap fun s => (contents s).reverse

/-- A position among the sections, and one within a section. -/
def joined (zs : Zipper σ) (z : Zipper α) : Zipper α :=
  ⟨z.before ++ passed contents zs.before, z.cur, z.after ++ zs.after.flatMap contents⟩

variable {contents} {zs : Zipper σ} {z : Zipper α}

@[simp] theorem cur_joined : (joined contents zs z).cur = z.cur := rfl

theorem passed_cons (s : σ) (bs : List σ) : passed contents (s :: bs) = (contents s).reverse ++ passed contents bs :=
  List.flatMap_cons

theorem reverse_passed (bs : List σ) : (passed contents bs).reverse = bs.reverse.flatMap contents := by
  induction bs with
  | nil => rfl
  | cons s bs ih => rw [passed_cons, List.reverse_append, ih, List.reverse_reverse, List.reverse_cons,
      List.flatMap_append, List.flatMap_singleton]

theorem passed_reverse (l : List σ) : passed contents l.reverse = (l.flatMap contents).reverse := by
  rw [← List.reverse_reverse (passed contents l.reverse), reverse_passed, List.reverse_reverse]

theorem mem_passed {bs : List σ} {x : α} : x ∈ passed contents bs ↔ ∃ s ∈ bs, x ∈ contents s := by
  simp [passed]

theorem toList_joined (h : z.toList = contents zs.cur) : (joined contents zs z).toList = zs.toList.flatMap contents := by
  have hcur : z.before.reverse ++ z.cur :: z.after = contents zs.cur := h
  simp only [joined, Zipper.toList, List.reverse_append, reverse_passed, List.flatMap_append, List.flatMap_cons,
    ← hcur, List.append_assoc, List.cons_append]

/-- It is enough to search one section, where the marks of the sections are bounds for what
they hold and for what comes after them. -/
theorem seek_flatMap (p : α → Prop) [DecidablePred p] (q : σ → Prop) [DecidablePred q] {l : List σ}
    (hlow : ∀ s ∈ l, ¬ q s → ∀ x ∈ contents s, ¬ p x) (hhigh : l.Pairwise fun s t => q s → ∀ x ∈ contents t, p x) :
    (seek q l = none → seek p (l.flatMap contents) = none) ∧
      ∀ zs, seek q l = some zs → ∀ b a, b.reverse ++ a = contents zs.cur → (∀ x ∈ b, ¬ p x) → (∀ x ∈ a.head?, p x) →
        seek p (l.flatMap contents) = ahead (b ++ passed contents zs.before) (a ++ zs.after.flatMap contents) := by
  constructor
  · intro hq
    rw [seek_eq_none_iff] at hq ⊢
    intro x hx
    obtain ⟨s, hs, hx⟩ := List.mem_flatMap.mp hx
    exact hlow s hs (hq s hs) x hx
  · intro zs hq b a hcut hb ha
    obtain ⟨rfl, hcur, hbefore⟩ := (seek_eq_some_iff _).mp hq
    have hsplit : zs.toList.flatMap contents =
        (b ++ passed contents zs.before).reverse ++ (a ++ zs.after.flatMap contents) := by
      rw [Zipper.toList, List.flatMap_append, List.flatMap_cons, ← hcut, List.reverse_append, reverse_passed]
      simp only [List.append_assoc]
    rw [hsplit]
    refine seek_eq_ahead p (fun x hx => ?_) fun x hx => ?_
    · rcases List.mem_append.mp hx with hx | hx
      · exact hb x hx
      · obtain ⟨s, hs, hx⟩ := mem_passed.mp hx
        exact hlow s (Zipper.mem_toList.mpr (.inl hs)) (hbefore s hs) x hx
    · cases a with
      | cons y a => exact ha x hx
      | nil =>
        have hmem : x ∈ zs.after.flatMap contents := List.mem_of_mem_head? hx
        obtain ⟨t, ht, hx⟩ := List.mem_flatMap.mp hmem
        exact cur_rel_of_mem_after hhigh ht hcur x hx

end TLevelDB.Cursors
