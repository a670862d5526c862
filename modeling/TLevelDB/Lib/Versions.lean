import Mathlib.Data.Nat.Find
import Mathlib.Data.Set.Basic

/-!
# Versions of keys

Items that are versions of keys: each has a key and a sequence number. At sequence
number `s` the version that counts for a key is the newest one up to `s` (`Newest`).

Where one set of versions is for every key newer than another one (`Newer`), what is the
newest version in the first is the newest of both (`Newest.union_right`). And versions may
be dropped without a change of what is seen from `s₀` on: those that have a newer version
up to `s₀`, and deletions up to `s₀` that nothing older is left below
(`newest_iff_of_dropped`).
-/

namespace TLevelDB.Versions

variable {α κ : Type} (key : α → κ) (seq : α → ℕ)

/-- `e` is the newest version of its key at `s`. -/
structure Newest (s : ℕ) (E : Set α) (e : α) : Prop where
  mem : e ∈ E
  visible : seq e ≤ s
  newest : ∀ x ∈ E, key x = key e → seq x ≤ s → seq x ≤ seq e

/-- The versions are pairwise distinct in their key or their sequence number. -/
def Distinct (E : Set α) : Prop := ∀ e ∈ E, ∀ e' ∈ E, key e = key e' → seq e = seq e' → e = e'

/-- For every key, the versions of `A` are newer than those of `B`. -/
def Newer (A B : Set α) : Prop := ∀ a ∈ A, ∀ b ∈ B, key a = key b → seq b < seq a

variable {key seq} {s : ℕ} {E A B : Set α} {e : α}

/-- A key that has a version up to `s` has a newest one. -/
theorem exists_newest {x : α} (hx : x ∈ E) (hs : seq x ≤ s) : ∃ e, Newest key seq s E e ∧ key e = key x := by
  classical
  -- the largest sequence number up to `s` of a version of the key
  let P : ℕ → Prop := fun n => ∃ y ∈ E, key y = key x ∧ seq y = n
  have hP : P (Nat.findGreatest P s) := Nat.findGreatest_spec hs ⟨x, hx, rfl, rfl⟩
  obtain ⟨e, he, hk, hn⟩ := hP
  refine ⟨e, ⟨he, hn ▸ Nat.findGreatest_le s, fun y hy hky hys => ?_⟩, hk⟩
  rw [hn]
  exact Nat.le_findGreatest hys ⟨y, hy, hky.trans hk, rfl⟩

theorem Newest.unique (hd : Distinct key seq E) {e' : α} (h : Newest key seq s E e) (h' : Newest key seq s E e')
    (hk : key e = key e') : e = e' :=
  hd e h.mem e' h'.mem hk
    (le_antisymm (h'.newest e h.mem hk h.visible) (h.newest e' h'.mem hk.symm h'.visible))

/-- A version newer than all others is the newest of its key wherever it is seen. -/
theorem newest_insert_iff {e₀ : α} (hnew : ∀ x ∈ E, seq x < seq e₀) : Newest key seq s (insert e₀ E) e ↔
    (e = e₀ ∧ seq e₀ ≤ s) ∨ (Newest key seq s E e ∧ ¬ (key e = key e₀ ∧ seq e₀ ≤ s)) := by
  constructor
  · rintro ⟨he | he, hs, hn⟩
    · exact Or.inl ⟨he, he ▸ hs⟩
    · refine Or.inr ⟨⟨he, hs, fun x hx => hn x (Or.inr hx)⟩, fun ⟨hk, hs₀⟩ => ?_⟩
      exact absurd (hn e₀ (Or.inl rfl) hk.symm hs₀) (not_le.mpr (hnew e he))
  · rintro (⟨rfl, hs⟩ | ⟨⟨he, hs, hn⟩, hno⟩)
    · refine ⟨Or.inl rfl, hs, ?_⟩
      rintro x (rfl | hx) - -
      · exact le_rfl
      · exact (hnew x hx).le
    · refine ⟨Or.inr he, hs, ?_⟩
      rintro x (rfl | hx) hk hxs
      · exact absurd ⟨hk.symm, hxs⟩ hno
      · exact hn x hx hk hxs

/-- The newest version of a key in `A` is the newest of all if `A` is newer. -/
theorem Newest.union_right (he : Newest key seq s A e) (h : Newer key seq A B) : Newest key seq s (A ∪ B) e where
  mem := Or.inl he.mem
  visible := he.visible
  newest := by
    rintro x (hx | hx) hk hs
    · exact he.newest x hx hk hs
    · exact (h e he.mem x hx hk.symm).le

/-! ### Dropping versions -/

/-- Of the versions `I`, those in `K` are kept next to the versions `R`: a version is
dropped if a newer one of its key in `I` is up to `s₀`, and a deletion may also be
dropped if it is up to `s₀` and nothing older of its key is in `R`. -/
structure DropsOnly (key : α → κ) (seq : α → ℕ) (deletion : α → Prop) (s₀ : ℕ) (I K R : Set α) : Prop where
  subset : K ⊆ I
  hidden : ∀ x ∈ K, ∀ y ∈ I, key y = key x → seq x < seq y → ¬ seq y ≤ s₀
  dropped : ∀ x ∈ I, x ∉ K → (∃ y ∈ I, key y = key x ∧ seq x < seq y ∧ seq y ≤ s₀) ∨
    (deletion x ∧ seq x ≤ s₀ ∧ ∀ r ∈ R, key r = key x → seq x < seq r)

variable {deletion : α → Prop} {s₀ : ℕ} {I K R : Set α}

/-- Newer versions may be outside too. -/
theorem DropsOnly.union_right (h : DropsOnly key seq deletion s₀ I K R) {M : Set α}
    (hM : ∀ r ∈ M, ∀ x ∈ I, seq x < seq r) : DropsOnly key seq deletion s₀ I K (R ∪ M) where
  subset := h.subset
  hidden := h.hidden
  dropped x hx hxK := (h.dropped x hx hxK).imp_right fun ⟨hdel, hs, hR⟩ => ⟨hdel, hs, fun r hr hk =>
    hr.elim (fun hr => hR r hr hk) fun hr => hM r hr x hx⟩

/-- What is dropped and is the newest version from `s₀` on is a deletion with nothing
older left outside. -/
theorem DropsOnly.deletion_of_newest (h : DropsOnly key seq deletion s₀ I K R) (hs : s₀ ≤ s) (hI : e ∈ I)
    (hK : e ∉ K) (he : Newest key seq s (I ∪ R) e) :
    deletion e ∧ seq e ≤ s₀ ∧ ∀ r ∈ R, key r = key e → seq e < seq r := by
  rcases h.dropped e hI hK with ⟨y, hy, hk, hlt, hy₀⟩ | hdel
  · exact absurd (he.newest y (Or.inl hy) hk (hy₀.trans hs)) (not_le.mpr hlt)
  · exact hdel

/-- **Dropping changes nothing that is seen from `s₀` on.** -/
theorem newest_iff_of_dropped (h : DropsOnly key seq deletion s₀ I K R) (hs : s₀ ≤ s) (hput : ¬ deletion e) :
    Newest key seq s (K ∪ R) e ↔ Newest key seq s (I ∪ R) e := by
  constructor
  · intro he
    have hmem : e ∈ I ∪ R := he.mem.imp (fun hK => h.subset hK) id
    -- the newest version before is kept, or it is a deletion and `e` would be older
    obtain ⟨n, hn, hk⟩ : ∃ n, Newest key seq s (I ∪ R) n ∧ key n = key e := exists_newest hmem he.visible
    suffices hle : seq n ≤ seq e from
      ⟨hmem, he.visible, fun x hx hkx hxs => (hn.newest x hx (hkx.trans hk.symm) hxs).trans hle⟩
    by_cases hnK : n ∈ K ∪ R
    · exact he.newest n hnK hk hn.visible
    · have hnI : n ∈ I := hn.mem.resolve_right fun hR => hnK (Or.inr hR)
      obtain ⟨-, hn₀, hR⟩ := h.deletion_of_newest hs hnI (fun hK => hnK (Or.inl hK)) hn
      by_contra hlt
      rcases he.mem with heK | heR
      · exact h.hidden e heK n hnI hk (not_le.mp hlt) hn₀
      · exact hlt (hR e heR hk.symm).le
  · intro he
    refine ⟨?_, he.visible, fun x hx => he.newest x (hx.imp (fun hK => h.subset hK) id)⟩
    rcases he.mem with hI | hR
    · by_cases hK : e ∈ K
      · exact Or.inl hK
      · exact absurd (h.deletion_of_newest hs hI hK he).1 hput
    · exact Or.inr hR

end TLevelDB.Versions
