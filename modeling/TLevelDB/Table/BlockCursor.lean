import TLevelDB.Table.Block
import TLevelDB.Lib.Cursor

/-!
# `Block::Iter` is a cursor

A `Layout` says where the entries of a block are and which of them are restart points. Over
a block with a layout the iterator stands on entry number `i` or past the end (`Stands`),
and each operation moves it as the operation says, from wherever it stands. For `Seek` the
current position only decides where the search begins.
-/

namespace TLevelDB.Table.Block

open Coding Log Cursors

/-- Where the entries of a block are. -/
structure Layout (data : Slice) (restarts numRestarts : ℕ) (es : List (Slice × Slice)) where
  /-- The offset of an entry, and of the end. -/
  offset : ℕ → ℕ
  /-- The entry that is a restart point. -/
  restart : ℕ → ℕ
  decoded : ℕ → DecodedEntry
  offset_lt : ∀ i < es.length, offset i < offset (i + 1)
  offset_length : offset es.length = restarts
  restarts_lt : restarts < 2 ^ 32
  numRestarts_pos : 0 < numRestarts
  numRestarts_lt : numRestarts < 2 ^ 31
  restart_zero : restart 0 = 0
  restart_lt : ∀ j, j + 1 < numRestarts → restart j < restart (j + 1)
  restart_le : ∀ j < numRestarts, restart j ≤ es.length - 1
  point : ∀ j < numRestarts, (decodeFixed32 (data.drop (restarts + j * 4))).toNat = offset (restart j)
  decode : ∀ i < es.length, decodeEntry ((data.take restarts).drop (offset i)) = some (decoded i)
  key_restart : ∀ j < numRestarts, ∀ h : restart j < es.length, (decoded (restart j)).shared = 0 ∧
    (decoded (restart j)).keyDelta.take (decoded (restart j)).nonShared.toNat = es[restart j].1
  key_succ : ∀ i, ∀ h : i + 1 < es.length, (decoded (i + 1)).shared.toNat ≤ es[i].1.length ∧
    es[i].1.take (decoded (i + 1)).shared.toNat ++
      (decoded (i + 1)).keyDelta.take (decoded (i + 1)).nonShared.toNat = es[i + 1].1
  value : ∀ i, ∀ h : i < es.length,
    (data.drop (restarts - (decoded i).keyDelta.length + (decoded i).nonShared.toNat)).take
      (decoded i).valueLength.toNat = es[i].2
  offset_succ : ∀ i < es.length,
    restarts - (decoded i).keyDelta.length + (decoded i).nonShared.toNat + (decoded i).valueLength.toNat = offset (i + 1)

namespace Layout

variable {data : Slice} {restarts numRestarts : ℕ} {es : List (Slice × Slice)}
  (L : Layout data restarts numRestarts es) {it : Iter} {i j : ℕ}

/-! ### Offsets -/

theorem offset_strict (hij : i < j) (hj : j ≤ es.length) : L.offset i < L.offset j := by
  induction j with
  | zero => omega
  | succ j ih =>
    have hstep := L.offset_lt j (by omega)
    rcases Nat.lt_succ_iff_lt_or_eq.mp hij with hlt | rfl
    · exact (ih hlt (by omega)).trans hstep
    · exact hstep

theorem offset_lt_iff (hi : i ≤ es.length) (hj : j ≤ es.length) : L.offset i < L.offset j ↔ i < j := by
  constructor
  · intro h
    by_contra hji
    rcases (Nat.le_of_not_lt hji).lt_or_eq with hlt | rfl
    · exact absurd h (Nat.lt_asymm (L.offset_strict hlt hi))
    · exact absurd h (Nat.lt_irrefl _)
  · exact fun h => L.offset_strict h hj

theorem offset_le_restarts (hi : i ≤ es.length) : L.offset i ≤ restarts := by
  refine le_of_le_of_eq (Nat.le_of_not_lt fun h => ?_) L.offset_length
  have := (L.offset_lt_iff le_rfl hi).mp h
  omega

theorem offset_lt_restarts (hi : i < es.length) : L.offset i < restarts :=
  (L.offset_strict hi le_rfl).trans_eq L.offset_length

theorem le_offset (hi : i ≤ es.length) : i ≤ L.offset i := by
  induction i with
  | zero => exact Nat.zero_le _
  | succ i ih =>
    have := ih (by omega)
    have := L.offset_lt i (by omega)
    omega

include L in
theorem length_le_restarts : es.length ≤ restarts := (L.le_offset le_rfl).trans_eq L.offset_length

theorem restart_le_length (hj : j < numRestarts) : L.restart j ≤ es.length := (L.restart_le j hj).trans (Nat.sub_le _ _)

theorem le_restart (hj : j < numRestarts) : j ≤ L.restart j := by
  induction j with
  | zero => exact Nat.zero_le _
  | succ j ih =>
    have := ih (by omega)
    have := L.restart_lt j hj
    omega

/-- Only of the first restart point there need not be an entry. -/
theorem restart_lt_length (hj : j < numRestarts) (h : 0 < j ∨ es ≠ []) : L.restart j < es.length := by
  have hle := L.restart_le j hj
  have hge := L.le_restart hj
  rcases h with h | h
  · omega
  · have := List.length_pos_iff.mpr h
    omega

/-! ### Where an iterator is -/

/-- The iterator is one over this block, without an error. -/
structure Over (_ : Layout data restarts numRestarts es) (it : Iter) : Prop where
  data_eq : it.data = data
  restarts_eq : it.restarts = restarts
  numRestarts_eq : it.numRestarts = numRestarts
  status_eq : it.status = none

/-- `ParseNextKey` would get to entry `i`. -/
structure Ready (it : Iter) (i : ℕ) : Prop extends L.Over it where
  le : i ≤ es.length
  next : it.nextEntryOffset = L.offset i
  index_lt : it.restartIndex < numRestarts
  index_le : L.restart it.restartIndex ≤ i
  key : ∀ h : i < es.length, (L.decoded i).shared.toNat ≤ it.key.length ∧
    it.key.take (L.decoded i).shared.toNat ++ (L.decoded i).keyDelta.take (L.decoded i).nonShared.toNat = es[i].1

/-- The iterator is on entry `i`. -/
structure At (it : Iter) (i : ℕ) : Prop extends L.Over it where
  lt : i < es.length
  current : it.current = L.offset i
  key : it.key = es[i].1
  value : it.value = es[i].2
  next : it.nextEntryOffset = L.offset (i + 1)
  index_lt : it.restartIndex < numRestarts
  index_le : L.restart it.restartIndex ≤ i

/-- The iterator is past the end. -/
structure Past (it : Iter) : Prop extends L.Over it where
  current : it.current = restarts

/-- The iterator is on entry `i`, or past the end if there is no such entry. -/
def Stands (it : Iter) (i : ℕ) : Prop := L.At it i ∨ es.length ≤ i ∧ L.Past it

variable {L}

theorem At.ready (h : L.At it i) : L.Ready it (i + 1) where
  toOver := h.toOver
  le := h.lt
  next := h.next
  index_lt := h.index_lt
  index_le := h.index_le.trans (Nat.le_succ i)
  key hi := by
    rw [h.key]
    exact L.key_succ i hi

theorem At.valid (h : L.At it i) : it.valid = true := by
  rw [Iter.valid, h.current, h.restarts_eq]
  exact decide_eq_true (L.offset_lt_restarts h.lt)

theorem Past.valid (h : L.Past it) : it.valid = false := by
  rw [Iter.valid, h.current, h.restarts_eq]
  exact decide_eq_false (Nat.lt_irrefl _)

theorem Over.invalidate (h : L.Over it) : L.Past it.invalidate :=
  ⟨⟨h.data_eq, h.restarts_eq, h.numRestarts_eq, h.status_eq⟩, h.restarts_eq⟩

theorem Over.getRestartPoint (h : L.Over it) (hj : j < numRestarts) :
    it.getRestartPoint j = L.offset (L.restart j) := by
  rw [Iter.getRestartPoint, h.data_eq, h.restarts_eq, L.point j hj]

theorem Over.decodeAt (h : L.Over it) (hi : i < es.length) : it.decodeAt (L.offset i) = some (L.decoded i) := by
  rw [Iter.decodeAt, h.data_eq, h.restarts_eq, L.decode i hi]

theorem mod_offset (hi : i ≤ es.length) : L.offset i % 2 ^ 32 = L.offset i :=
  Nat.mod_eq_of_lt ((L.offset_le_restarts hi).trans_lt L.restarts_lt)

theorem Over.seekToRestartPoint (h : L.Over it) (hj : j < numRestarts) :
    L.Ready (it.seekToRestartPoint j) (L.restart j) where
  data_eq := h.data_eq
  restarts_eq := h.restarts_eq
  numRestarts_eq := h.numRestarts_eq
  status_eq := h.status_eq
  le := L.restart_le_length hj
  next := by
    show (it.getRestartPoint j + 0) % 2 ^ 32 = _
    rw [Nat.add_zero, h.getRestartPoint hj, mod_offset (L.restart_le_length hj)]
  index_lt := hj
  index_le := le_rfl
  key hi := by
    obtain ⟨hshared, hkey⟩ := L.key_restart j hj hi
    simp [hshared, hkey, Iter.seekToRestartPoint]

/-! ### `ParseNextKey` -/

/-- The loop stops at a restart point that is not after the current entry. -/
theorem Over.restartLoop (h : L.Over it) (hcurrent : it.current = L.offset i) (hi : i ≤ es.length) (n : ℕ) {index : ℕ}
    (hlt : index < numRestarts) (hle : L.restart index ≤ i) :
    it.restartLoop n index < numRestarts ∧ L.restart (it.restartLoop n index) ≤ i := by
  induction n generalizing index with
  | zero => exact ⟨hlt, hle⟩
  | succ n ih =>
    rw [Iter.restartLoop]
    split
    · rename_i hturn
      rw [h.numRestarts_eq, h.getRestartPoint (h.numRestarts_eq ▸ hturn.1), hcurrent] at hturn
      have hbefore := (L.offset_lt_iff (L.restart_le_length hturn.1) hi).mp hturn.2
      exact ih hturn.1 hbefore.le
    · exact ⟨hlt, hle⟩

/-- An entry is read from its offset, where the key before it is at hand. -/
theorem Over.parseCurrent (h : L.Over it) (hi : i < es.length) (hcurrent : it.current = L.offset i)
    (hlt : it.restartIndex < numRestarts) (hle : L.restart it.restartIndex ≤ i)
    (hshared : (L.decoded i).shared.toNat ≤ it.key.length)
    (hkey : it.key.take (L.decoded i).shared.toNat ++ (L.decoded i).keyDelta.take (L.decoded i).nonShared.toNat = es[i].1) :
    it.parseCurrent.2 = true ∧ L.At it.parseCurrent.1 i := by
  have hparse : it.parseCurrent = (it.setEntry (L.decoded i), true) := by
    have hend := L.offset_lt_restarts hi
    rw [Iter.parseCurrent, hcurrent, if_neg (by rw [h.restarts_eq]; omega), h.decodeAt hi]
    simp only [if_neg (Nat.not_lt.mpr hshared)]
  rw [hparse]
  obtain ⟨hlt', hle'⟩ := h.restartLoop hcurrent hi.le it.numRestarts hlt hle
  refine ⟨rfl, ⟨⟨h.data_eq, h.restarts_eq, h.numRestarts_eq, h.status_eq⟩, hi, hcurrent, hkey, ?_, ?_, hlt', hle'⟩⟩
  · simp only [Iter.value, Iter.setEntry, h.data_eq, h.restarts_eq, L.value i hi]
  · simp only [Iter.nextEntryOffset, Iter.setEntry, h.restarts_eq, L.offset_succ i hi, mod_offset hi]

/-- `ParseNextKey` gets to the entry that is next. -/
theorem Ready.parseNextKey_of_lt (h : L.Ready it i) (hi : i < es.length) :
    it.parseNextKey.2 = true ∧ L.At it.parseNextKey.1 i :=
  Over.parseCurrent ⟨h.data_eq, h.restarts_eq, h.numRestarts_eq, h.status_eq⟩ hi h.next h.index_lt h.index_le
    (h.key hi).1 (h.key hi).2

theorem Ready.parseNextKey_of_end (h : L.Ready it es.length) :
    it.parseNextKey.2 = false ∧ L.Past it.parseNextKey.1 := by
  have hover : L.Over { it with current := it.nextEntryOffset } :=
    ⟨h.data_eq, h.restarts_eq, h.numRestarts_eq, h.status_eq⟩
  rw [Iter.parseNextKey, Iter.parseCurrent, if_pos (by rw [hover.restarts_eq, h.next, L.offset_length])]
  exact ⟨rfl, hover.invalidate⟩

theorem Ready.stands (h : L.Ready it i) : L.Stands it.parseNextKey.1 i := by
  rcases h.le.lt_or_eq with hi | rfl
  · exact .inl (h.parseNextKey_of_lt hi).2
  · exact .inr ⟨le_rfl, h.parseNextKey_of_end.2⟩

/-! ### The operations -/

theorem Stands.over (h : L.Stands it i) : L.Over it := h.elim (·.toOver) (·.2.toOver)

theorem At.parseNextKey (h : L.At it i) : L.Stands it.next (i + 1) := h.ready.stands

theorem Over.seekToFirst (h : L.Over it) : L.Stands it.seekToFirst 0 := by
  have hready := h.seekToRestartPoint L.numRestarts_pos
  rw [L.restart_zero] at hready
  exact hready.stands

/-- The loop goes on up to the entry that ends at the limit. -/
theorem Ready.scanLoop (h : L.Ready it i) {last : ℕ} (hi : i ≤ last) (hlast : last < es.length) {n : ℕ}
    (hn : last < n + i) : L.At (Iter.scanLoop (L.offset (last + 1)) n it) last := by
  induction n generalizing it i with
  | zero => omega
  | succ n ih =>
    obtain ⟨hfound, hat⟩ := h.parseNextKey_of_lt (hi.trans_lt hlast)
    rw [Iter.scanLoop]
    simp only [hfound, Bool.true_and, decide_eq_true_eq, hat.next,
      L.offset_lt_iff (show i + 1 ≤ es.length by omega) (show last + 1 ≤ es.length from hlast)]
    split
    · exact ih hat.ready (by omega) (by omega)
    · obtain rfl : i = last := by omega
      exact hat

theorem Ready.scanLoop_of_end (h : L.Ready it es.length) (limit n : ℕ) : L.Past (Iter.scanLoop limit (n + 1) it) := by
  obtain ⟨hfound, hpast⟩ := h.parseNextKey_of_end
  rw [Iter.scanLoop]
  simp only [hfound, Bool.false_and, Bool.false_eq_true, if_false]
  exact hpast

theorem Over.seekToLast (h : L.Over it) : L.Stands it.seekToLast (es.length - 1) := by
  have hnum : numRestarts - 1 < numRestarts := Nat.sub_lt L.numRestarts_pos Nat.one_pos
  have hready := h.seekToRestartPoint hnum
  rw [Iter.seekToLast, h.restarts_eq, h.numRestarts_eq]
  by_cases hes : es = []
  · have hzero : L.restart (numRestarts - 1) = es.length := by
      have := L.restart_le _ hnum
      simp_all
    exact .inr ⟨by simp [hes], (hzero ▸ hready).scanLoop_of_end _ _⟩
  · have hpos := List.length_pos_iff.mpr hes
    have hfuel := L.length_le_restarts
    have hlast := hready.scanLoop (L.restart_le _ hnum) (show es.length - 1 < es.length by omega)
      (n := restarts + 1) (by omega)
    rw [show es.length - 1 + 1 = es.length by omega, L.offset_length] at hlast
    exact .inl hlast

/-- Going back ends at a restart point before the entry, if there is one. -/
theorem Over.backLoop (h : L.Over it) (hi : i ≤ es.length) {index : ℕ} (hlt : index < numRestarts) :
    (i = 0 → it.backLoop (L.offset i) index = none) ∧
      (0 < i → ∃ j, it.backLoop (L.offset i) index = some j ∧ j < numRestarts ∧ L.restart j < i) := by
  have hpoint : ∀ j < numRestarts, L.offset i ≤ it.getRestartPoint j ↔ ¬ L.restart j < i := by
    intro j hj
    rw [h.getRestartPoint hj, ← Nat.not_lt, L.offset_lt_iff (L.restart_le_length hj) hi]
  induction index with
  | zero =>
    rw [Iter.backLoop]
    simp only [hpoint 0 hlt, L.restart_zero]
    refine ⟨fun h0 => by simp [h0], fun hpos => ⟨0, ?_, hlt, by rw [L.restart_zero]; exact hpos⟩⟩
    rw [if_neg (by omega)]
  | succ index ih =>
    rw [Iter.backLoop]
    simp only [hpoint (index + 1) hlt]
    split
    · exact ih (by omega)
    · rename_i hbefore
      rw [not_not] at hbefore
      exact ⟨fun h0 => by omega, fun _ => ⟨index + 1, rfl, hlt, hbefore⟩⟩

theorem At.prev_of_pos (h : L.At it (i + 1)) : L.At it.prev i := by
  obtain ⟨-, hback⟩ := h.toOver.backLoop h.lt.le h.index_lt
  obtain ⟨j, hj, hjlt, hbefore⟩ := hback (Nat.succ_pos i)
  have hfuel := L.length_le_restarts
  have hlt := h.lt
  rw [Iter.prev, h.current, hj, h.restarts_eq]
  exact (h.toOver.seekToRestartPoint hjlt).scanLoop (by omega) (by omega) (by omega)

theorem At.prev_of_zero (h : L.At it 0) : L.Past it.prev := by
  obtain ⟨hback, -⟩ := h.toOver.backLoop h.lt.le h.index_lt
  rw [Iter.prev, h.current, hback rfl]
  exact h.toOver.invalidate

/-! ### `Seek` -/

section Seek

variable (c : Comparator) {target : Slice}

/-- The keys up to there are below the target. -/
def Below (es : List (Slice × Slice)) (target : Slice) (i : ℕ) : Prop :=
  ∀ j, ∀ h : j < es.length, j < i → c.compare es[j].1 target = .lt

/-- The first entry that is not below the target. -/
abbrev firstNotBelow (es : List (Slice × Slice)) (target : Slice) : ℕ :=
  es.findIdx fun e => decide ((c.compare e.1 target).isGE = true)

variable {c}

theorem Below.le_firstNotBelow (h : Below c es target i) (hi : i ≤ es.length) : i ≤ firstNotBelow c es target := by
  by_contra hlt
  have hlt' : firstNotBelow c es target < i := Nat.lt_of_not_le hlt
  have hfound := List.findIdx_getElem (w := hlt'.trans_le hi)
  rw [decide_eq_true_eq, h _ _ hlt'] at hfound
  cases hfound

theorem Below.firstNotBelow_eq (h : Below c es target i) (hi : i < es.length)
    (hge : (c.compare es[i].1 target).isGE = true) : firstNotBelow c es target = i := by
  refine le_antisymm (Nat.le_of_not_lt fun hlt => ?_) (h.le_firstNotBelow hi.le)
  have hnot := List.not_of_lt_findIdx hlt
  rw [hge] at hnot
  cases hnot

/-- The linear search finds the first entry that is not below the target. -/
theorem Ready.linearLoop (h : L.Ready it i) (hbelow : Below c es target i) {n : ℕ} (hn : es.length < n + i) :
    L.Stands (Iter.linearLoop c target n it) (firstNotBelow c es target) := by
  induction n generalizing it i with
  | zero =>
    have := h.le
    omega
  | succ n ih =>
    rw [Iter.linearLoop]
    rcases h.le.lt_or_eq with hi | rfl
    · obtain ⟨hfound, hat⟩ := h.parseNextKey_of_lt hi
      simp only [hfound, Bool.not_true, Bool.false_eq_true, if_false, hat.key]
      split
      · rename_i hge
        rw [hbelow.firstNotBelow_eq hi hge]
        exact .inl hat
      · rename_i hlt
        refine ih hat.ready (fun j hj hji => ?_) (by omega)
        rcases Nat.lt_succ_iff_lt_or_eq.mp hji with hji | rfl
        · exact hbelow j hj hji
        · cases hcmp : c.compare es[j].1 target <;> simp_all
    · obtain ⟨hfound, hpast⟩ := h.parseNextKey_of_end
      simp only [hfound, Bool.not_false, if_true]
      exact .inr ⟨hbelow.le_firstNotBelow le_rfl, hpast⟩

/-- The search may begin at this restart point. -/
def StartsBelow (L : Layout data restarts numRestarts es) (c : Comparator) (target : Slice) (left : ℕ) : Prop :=
  left < numRestarts ∧ (0 < left → ∀ h : L.restart left < es.length, c.compare es[L.restart left].1 target = .lt)

/-- The binary search only moves to restart points below the target. -/
theorem Over.searchLoop (h : L.Over it) {n left right : ℕ} (hleft : L.StartsBelow c target left)
    (hright : right < numRestarts) :
    ∃ left', it.searchLoop c target n left right = some left' ∧ L.StartsBelow c target left' := by
  induction n generalizing left right with
  | zero => exact ⟨left, rfl, hleft⟩
  | succ n ih =>
    rw [Iter.searchLoop]
    split
    · rename_i hlr
      have hnum := L.numRestarts_lt
      have hmid : (left + right + 1) % 2 ^ 32 / 2 = (left + right + 1) / 2 := by
        rw [Nat.mod_eq_of_lt (by omega)]
      simp only [hmid]
      have hmidlt : (left + right + 1) / 2 < numRestarts := by omega
      have hentry : L.restart ((left + right + 1) / 2) < es.length := L.restart_lt_length hmidlt (.inl (by omega))
      obtain ⟨hshared, hkey⟩ := L.key_restart _ hmidlt hentry
      rw [h.getRestartPoint hmidlt, h.decodeAt hentry]
      simp only [hshared, hkey, ne_eq, not_true_eq_false, if_false]
      split
      · rename_i hcmp
        exact ih ⟨hmidlt, fun _ _ => hcmp⟩ hright
      · exact ih hleft (by omega)
    · exact ⟨left, rfl, hleft⟩

/-- Keys before one that is below the target are below it. -/
theorem below_of_increasing (hes : c.Increasing es) (hi : i < es.length) (hlt : c.compare es[i].1 target = .lt) :
    Below c es target (i + 1) := by
  intro j hj hji
  rcases Nat.lt_succ_iff_lt_or_eq.mp hji with hji | rfl
  · exact Std.TransCmp.lt_trans (List.pairwise_iff_getElem.mp hes j i hj hi hji) hlt
  · exact hlt

theorem StartsBelow.below (hes : c.Increasing es) {left : ℕ} (h : L.StartsBelow c target left) :
    Below c es target (L.restart left) := by
  intro j hj hji
  have hleft : 0 < left := Nat.pos_of_ne_zero fun h0 => by
    subst h0
    rw [L.restart_zero] at hji
    omega
  have hentry := L.restart_lt_length h.1 (.inl hleft)
  exact below_of_increasing hes hentry (h.2 hleft hentry) j hj (by omega)

/-- `Seek` from a restart point, or from the current entry if that is below the target. -/
theorem Over.seekFrom (hes : c.Increasing es) (h : L.Over it) {left right : ℕ} {below : Bool}
    (hleft : L.StartsBelow c target left) (hright : right < numRestarts)
    (hbelow : below = true → ∃ i, L.At it i ∧ ∀ hi : i < es.length, c.compare es[i].1 target = .lt) :
    L.Stands (it.seekFrom c target left right below) (firstNotBelow c es target) := by
  obtain ⟨left', hsearch, hleft'⟩ := h.searchLoop (n := numRestarts) hleft hright
  have hfuel := L.length_le_restarts
  rw [Iter.seekFrom, h.numRestarts_eq, hsearch, h.restarts_eq]
  simp only [Bool.and_eq_true]
  split
  · rename_i hskip
    obtain ⟨i, hat, hlt⟩ := hbelow hskip.2
    exact hat.ready.linearLoop (below_of_increasing hes hat.lt (hlt hat.lt)) (by omega)
  · exact (h.seekToRestartPoint hleft'.1).linearLoop (hleft'.below hes) (by omega)

theorem Stands.seek (hes : c.Increasing es) (h : L.Stands it i) (target : Slice) :
    L.Stands (it.seek c target) (firstNotBelow c es target) := by
  have hzero : L.StartsBelow c target 0 := ⟨L.numRestarts_pos, fun h0 => absurd h0 (Nat.lt_irrefl _)⟩
  have hnum : numRestarts - 1 < numRestarts := Nat.sub_lt L.numRestarts_pos Nat.one_pos
  rcases h with hat | ⟨-, hpast⟩
  · have hi := hat.lt
    rw [Iter.seek, if_pos hat.valid, hat.key]
    cases hcmp : c.compare es[i].1 target with
    | lt =>
      refine hat.toOver.seekFrom hes ⟨hat.index_lt, fun _ hentry => ?_⟩ (hat.numRestarts_eq ▸ hnum)
        fun _ => ⟨i, hat, fun _ => hcmp⟩
      have hle := hat.index_le
      exact below_of_increasing hes hat.lt hcmp _ hentry (by omega)
    | gt => exact hat.toOver.seekFrom hes hzero hat.index_lt nofun
    | eq =>
      have hbelow : Below c es target i := fun j hj hji => Std.TransCmp.lt_of_lt_of_isLE
        (List.pairwise_iff_getElem.mp hes j i hj hi hji) (by rw [hcmp]; rfl)
      rw [hbelow.firstNotBelow_eq hi (by rw [hcmp]; rfl)]
      exact .inl hat
  · rw [Iter.seek, hpast.valid]
    exact hpast.toOver.seekFrom hes hzero (hpast.numRestarts_eq ▸ hnum) nofun

end Seek

end Layout

end TLevelDB.Table.Block
