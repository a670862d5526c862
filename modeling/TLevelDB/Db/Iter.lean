import TLevelDB.Db.Format
import TLevelDB.Lib.Sections
import Mathlib.Data.List.Perm.Basic

/-!
# The database iterator

`DBIter` shows the user's view of a sorted list of internal entries at a sequence
number: each user key once, with the value of its newest visible entry, and not at all
where that entry is a deletion. Its loops are over the operations of the internal iterator
(`InternalOps`); each is given more turns than there are entries, and has no result if it needs
more. Here the internal iterator is a cursor over the entries.

Moving forward, the internal iterator stands on the entry shown. Moving backward, the
key and the value shown are saved, and the internal iterator stands before all entries
of the key: on the last visible entry of a smaller user key. `Shown` states both; from
it, each call does to the user's view what the same call does to a cursor over it, and
`dbIter_refines` says so of every sequence of calls.
-/

namespace TLevelDB.Db

open Cursors

variable {S K V : Type}

/-! ### The iterator -/

/-- `DBIter::Direction`. -/
inductive Direction where
  | forward
  | reverse
deriving DecidableEq

/-- The operations of an internal iterator with states `S`. -/
structure InternalOps (S K V : Type) where
  /-- The entry that it stands on, if it is `Valid`. -/
  current : S → Option (Entry K V)
  seekToFirst : S → S
  seekToLast : S → S
  seek : InternalKey K → S → S
  next : S → S
  prev : S → S
  /-- The number of entries. -/
  size : ℕ

/-- A cursor over a list of entries. -/
def cursorOps [LinearOrder K] (E : List (Entry K V)) : InternalOps (Cursor (Entry K V)) K V where
  current c := c.map Zipper.cur
  seekToFirst _ := seekToFirst E
  seekToLast _ := seekToLast E
  seek key _ := seek (fun e => key ≤ e.key) E
  next := next
  prev := prev
  size := E.length

theorem isSome_current_cursorOps [LinearOrder K] (E : List (Entry K V)) (c : Cursor (Entry K V)) :
    ((cursorOps E).current c).isSome = c.isSome := Option.isSome_map

/-- The calls of an iterator. -/
inductive IterCall (K : Type) where
  | seekToFirst
  | seekToLast
  | seek (target : K)
  | next
  | prev

/-- The fields of `DBIter`, over an internal iterator with states `S`. -/
structure DBIter (S K V : Type) where
  iter : S
  savedKey : K
  savedValue : V
  direction : Direction
  valid : Bool

namespace DBIter

/-- `DBIter::DBIter`; a cleared string is the default key or value. -/
def new [Inhabited K] [Inhabited V] (iter : S) : DBIter S K V := ⟨iter, default, default, .forward, false⟩

variable (ops : InternalOps S K V)

/-- `Valid`, `key` and `value`. -/
def shows (it : DBIter S K V) : Option (Option (K × V)) :=
  if it.valid then
    some <| match it.direction with
      | .forward => (ops.current it.iter).map fun x => (x.userKey, x.value)
      | .reverse => some (it.savedKey, it.savedValue)
  else none

variable [LinearOrder K] [Inhabited K] [Inhabited V] (s : ℕ)

/-- The loop of `FindNextUserEntry`, and whether it has found an entry. -/
def findNextLoop : ℕ → Bool → K → S → Option (S × Bool)
  | 0, _, _, _ => none
  | fuel + 1, skipping, skip, iter =>
    match ops.current iter with
    | none => some (iter, false)
    | some x =>
      if x.sequence ≤ s then
        match x.key.type with
        | .deletion => findNextLoop fuel true x.userKey (ops.next iter)
        | .value =>
          if skipping = true ∧ x.userKey ≤ skip then findNextLoop fuel skipping skip (ops.next iter)
          else some (iter, true)
      else findNextLoop fuel skipping skip (ops.next iter)

/-- `FindNextUserEntry`; `*skip` is `saved_key_`. -/
def findNextUserEntry (skipping : Bool) (it : DBIter S K V) : Option (DBIter S K V) :=
  (findNextLoop ops s (ops.size + 1) skipping it.savedKey it.iter).map fun r =>
    { it with iter := r.1, valid := r.2, savedKey := default }

/-- `Next`, on a valid iterator. -/
def next (it : DBIter S K V) : Option (DBIter S K V) :=
  let it : DBIter S K V :=
    match it.direction with
    | .reverse =>
      { it with
        direction := .forward
        iter := if (ops.current it.iter).isSome then ops.next it.iter else ops.seekToFirst it.iter }
    | .forward =>
      { it with
        savedKey := (ops.current it.iter).elim it.savedKey Entry.userKey
        iter := ops.next it.iter }
  if (ops.current it.iter).isSome then findNextUserEntry ops s true it
  else some { it with valid := false, savedKey := default }

/-- What the loop of `FindPrevUserEntry` keeps. -/
structure PrevState (S K V : Type) where
  iter : S
  valueType : ValueType
  savedKey : K
  savedValue : V

/-- The loop of `FindPrevUserEntry`. -/
def findPrevLoop : ℕ → PrevState S K V → Option (PrevState S K V)
  | 0, _ => none
  | fuel + 1, r =>
    match ops.current r.iter with
    | none => some r
    | some x =>
      if x.sequence ≤ s then
        if r.valueType ≠ .deletion ∧ x.userKey < r.savedKey then some r
        else
          match x.key.type with
          | .deletion => findPrevLoop fuel ⟨ops.prev r.iter, .deletion, default, default⟩
          | .value => findPrevLoop fuel ⟨ops.prev r.iter, .value, x.userKey, x.value⟩
      else findPrevLoop fuel { r with iter := ops.prev r.iter }

def findPrevUserEntry (it : DBIter S K V) : Option (DBIter S K V) :=
  (findPrevLoop ops s (ops.size + 1) ⟨it.iter, .deletion, it.savedKey, it.savedValue⟩).map fun r =>
    if r.valueType = .deletion then
      { iter := r.iter, valid := false, savedKey := default, savedValue := default, direction := .forward }
    else { it with iter := r.iter, valid := true, savedKey := r.savedKey, savedValue := r.savedValue }

/-- The loop of `Prev` that turns back, after its first step. -/
def scanBackLoop (k : K) : ℕ → S → Option S
  | 0, _ => none
  | fuel + 1, iter =>
    match ops.current iter with
    | none => some iter
    | some x => if x.userKey < k then some iter else scanBackLoop k fuel (ops.prev iter)

/-- `Prev`, on a valid iterator. -/
def prev (it : DBIter S K V) : Option (DBIter S K V) :=
  match it.direction, ops.current it.iter with
  | .forward, none => some it
  | .forward, some x =>
    (scanBackLoop ops x.userKey (ops.size + 1) (ops.prev it.iter)).bind fun iter =>
      if (ops.current iter).isSome then
        findPrevUserEntry ops s { it with iter := iter, savedKey := x.userKey, direction := .reverse }
      else some { it with iter := iter, valid := false, savedKey := default, savedValue := default }
  | .reverse, _ => findPrevUserEntry ops s it

/-- `Seek`; `encode` is `AppendInternalKey` on a cleared string. -/
def seek (encode : InternalKey K → K) (target : K) (it : DBIter S K V) : Option (DBIter S K V) :=
  let it : DBIter S K V := { it with
    direction := .forward
    savedValue := default
    savedKey := encode (lookupKey target s)
    iter := ops.seek (lookupKey target s) it.iter }
  if (ops.current it.iter).isSome then findNextUserEntry ops s false it else some { it with valid := false }

def seekToFirst (it : DBIter S K V) : Option (DBIter S K V) :=
  let it : DBIter S K V := { it with
    direction := .forward
    savedValue := default
    iter := ops.seekToFirst it.iter }
  if (ops.current it.iter).isSome then findNextUserEntry ops s false it else some { it with valid := false }

def seekToLast (it : DBIter S K V) : Option (DBIter S K V) :=
  findPrevUserEntry ops s { it with direction := .reverse, savedValue := default, iter := ops.seekToLast it.iter }

/-- A call; `Next` and `Prev` are not made on an iterator that is not valid. -/
def call (encode : InternalKey K → K) (it : DBIter S K V) : IterCall K → Option (DBIter S K V)
  | .seekToFirst => seekToFirst ops s it
  | .seekToLast => seekToLast ops s it
  | .seek target => seek ops s encode target it
  | .next => if it.valid then next ops s it else some it
  | .prev => if it.valid then prev ops s it else some it

end DBIter

/-! ### Scanning forward -/

section Forward

open Classical in
/-- The first entry that gives its user key its value at `s`, among the user keys `P`. -/
noncomputable def firstLive (s : ℕ) (P : K → Prop) (E : List (Entry K V)) : Cursor (Entry K V) :=
  Cursors.seek (fun e => Live s (entrySet E) e ∧ P e.userKey) E

theorem firstLive_eq_some_iff {s : ℕ} {P : K → Prop} {E : List (Entry K V)} {z : Zipper (Entry K V)} :
    firstLive s P E = some z ↔ z.toList = E ∧ (Live s (entrySet E) z.cur ∧ P z.cur.userKey) ∧
      ∀ x ∈ z.before, ¬ (Live s (entrySet E) x ∧ P x.userKey) := by
  classical exact seek_eq_some_iff _

theorem firstLive_eq_none_iff {s : ℕ} {P : K → Prop} {E : List (Entry K V)} :
    firstLive s P E = none ↔ ∀ x ∈ E, ¬ (Live s (entrySet E) x ∧ P x.userKey) := by
  classical exact seek_eq_none_iff _

variable [LinearOrder K]

/-- What holds inside `FindNextUserEntry` when the user keys `P` are looked for: those
before are done with, and of the visible ones ahead exactly those are skipped that are
not looked for or whose user key has a visible entry before. -/
structure NextInv (s : ℕ) (E : List (Entry K V)) (P : K → Prop) (b rest : List (Entry K V)) (skipping : Bool)
    (skip : K) : Prop where
  split : b.reverse ++ rest = E
  passed : ∀ x ∈ b, Live s (entrySet E) x → ¬ P x.userKey
  hidden : ∀ x ∈ rest, x.sequence ≤ s → ((skipping = true ∧ x.userKey ≤ skip) ↔
    ¬ P x.userKey ∨ ∃ y ∈ b, y.sequence ≤ s ∧ y.userKey = x.userKey)
  above : skipping = true → ∀ x ∈ rest, x.sequence ≤ s → skip ≤ x.userKey

variable {s : ℕ} {E b a : List (Entry K V)} {P : K → Prop} {x : Entry K V} {skipping : Bool} {skip : K}

theorem NextInv.split' (h : NextInv s E P b (x :: a) skipping skip) : (x :: b).reverse ++ a = E := by
  simpa using h.split

theorem NextInv.invisible (h : NextInv s E P b (x :: a) skipping skip) (hx : ¬ x.sequence ≤ s) :
    NextInv s E P (x :: b) a skipping skip where
  split := h.split'
  passed y hy hl := by
    rcases List.mem_cons.mp hy with rfl | hy
    · exact absurd hl.visible hx
    · exact h.passed y hy hl
  hidden y hy hs := by
    rw [h.hidden y (List.mem_cons_of_mem _ hy) hs]
    simp [hx]
  above hsk y hy := h.above hsk y (List.mem_cons_of_mem _ hy)

/-- A deletion hides the later entries of its user key. -/
theorem NextInv.deletion (hE : SortedEntries E) (h : NextInv s E P b (x :: a) skipping skip)
    (hx : x.sequence ≤ s) (ht : x.key.type = .deletion) : NextInv s E P (x :: b) a true x.userKey where
  split := h.split'
  passed y hy hl := by
    rcases List.mem_cons.mp hy with rfl | hy
    · have hput := hl.put
      rw [ht] at hput
      cases hput
    · exact h.passed y hy hl
  hidden y hy hs := by
    have hxy : x.userKey ≤ y.userKey := hE.userKey_le h.split hy
    have hold := h.hidden y (List.mem_cons_of_mem _ hy) hs
    simp only [true_and]
    constructor
    · intro hle
      exact Or.inr ⟨x, by simp, hx, le_antisymm hxy hle⟩
    · intro hr
      -- the skipped user keys were below `x`, so nothing skipped is given up
      have hskip : skipping = true ∧ y.userKey ≤ skip ∨ x.userKey = y.userKey := by
        rw [hold]
        rcases hr with hP | ⟨w, hw, hws, hk⟩
        · exact Or.inl (Or.inl hP)
        · rcases List.mem_cons.mp hw with rfl | hw
          · exact Or.inr hk
          · exact Or.inl (Or.inr ⟨w, hw, hws, hk⟩)
      rcases hskip with ⟨hsk, hle⟩ | hk
      · exact hle.trans (h.above hsk x (by simp) hx)
      · exact hk.ge
  above _ y hy _ := hE.userKey_le h.split hy

theorem NextInv.value (hE : SortedEntries E) (h : NextInv s E P b (x :: a) skipping skip)
    (hx : x.sequence ≤ s) (hh : skipping = true ∧ x.userKey ≤ skip) : NextInv s E P (x :: b) a skipping skip where
  split := h.split'
  passed y hy hl := by
    rcases List.mem_cons.mp hy with rfl | hy
    · rcases (h.hidden y (by simp) hx).mp hh with hP | ⟨w, hw, hws, hk⟩
      · exact hP
      · exact absurd hl (hE.not_live h.split (List.mem_reverse.mpr hw) hws hk)
    · exact h.passed y hy hl
  hidden y hy hs := by
    have hold := h.hidden y (List.mem_cons_of_mem _ hy) hs
    rw [hold]
    simp only [List.mem_cons, exists_eq_or_imp]
    constructor
    · rintro (hP | hw)
      · exact Or.inl hP
      · exact Or.inr (Or.inr hw)
    · rintro (hP | ⟨-, hk⟩ | hw)
      · exact Or.inl hP
      · exact hold.mp ⟨hh.1, hk ▸ hh.2⟩
      · exact Or.inr hw
  above hsk y hy := h.above hsk y (List.mem_cons_of_mem _ hy)

/-- The loop of `FindNextUserEntry` finds the next entry to show. -/
theorem findNextLoop_eq (hE : SortedEntries E) {rest : List (Entry K V)} {fuel : ℕ}
    (h : NextInv s E P b rest skipping skip) (hfuel : rest.length < fuel) :
    DBIter.findNextLoop (cursorOps E) s fuel skipping skip (ahead b rest) =
      some (firstLive s P E, (firstLive s P E).isSome) := by
  induction rest generalizing b skipping skip fuel with
  | nil =>
    obtain ⟨fuel, rfl⟩ := Nat.exists_eq_succ_of_ne_zero hfuel.ne'
    have hnone : firstLive s P E = none := by
      rw [firstLive_eq_none_iff]
      rintro x hx ⟨hl, hP⟩
      exact h.passed x (by simpa [← h.split] using hx) hl hP
    rw [hnone]
    rfl
  | cons x a ih =>
    obtain ⟨fuel, rfl⟩ : ∃ n, fuel = n + 1 := Nat.exists_eq_succ_of_ne_zero (Nat.ne_zero_of_lt hfuel)
    have hnext : (cursorOps E).next (ahead b (x :: a)) = ahead (x :: b) a := next_eq_ahead
    have hlt : a.length < fuel := Nat.lt_of_succ_lt_succ hfuel
    rw [DBIter.findNextLoop, show (cursorOps E).current (ahead b (x :: a)) = some x from rfl, hnext]
    dsimp only
    by_cases hx : x.sequence ≤ s
    · rw [if_pos hx]
      cases ht : x.key.type with
      | deletion => exact ih (h.deletion hE hx ht) hlt
      | value =>
        dsimp only
        split_ifs with hh
        · exact ih (h.value hE hx hh) hlt
        · rw [h.hidden x (by simp) hx, not_or, not_not, not_exists] at hh
          obtain ⟨hP, hnew⟩ := hh
          have hl : Live s (entrySet E) x := hE.live h.split hx ht fun y hy hs hk =>
            hnew y ⟨List.mem_reverse.mp hy, hs, hk⟩
          have hfirst : firstLive s P E = some ⟨b, x, a⟩ :=
            firstLive_eq_some_iff.mpr ⟨h.split, ⟨hl, hP⟩, fun y hy hly => h.passed y hy hly.1 hly.2⟩
          rw [hfirst]
          rfl
    · rw [if_neg hx]
      exact ih (h.invisible hx) hlt

end Forward

/-! ### Scanning backward -/

section Backward

open Classical in
/-- The last entry that gives its user key its value at `s`, among the user keys `P`. -/
noncomputable def lastLive (s : ℕ) (P : K → Prop) (E : List (Entry K V)) : Cursor (Entry K V) :=
  seekBack (fun e => Live s (entrySet E) e ∧ P e.userKey) E

theorem lastLive_eq_some_iff {s : ℕ} {P : K → Prop} {E : List (Entry K V)} {z : Zipper (Entry K V)} :
    lastLive s P E = some z ↔ z.toList = E ∧ (Live s (entrySet E) z.cur ∧ P z.cur.userKey) ∧
      ∀ x ∈ z.after, ¬ (Live s (entrySet E) x ∧ P x.userKey) := by
  classical exact seekBack_eq_some_iff _

theorem lastLive_eq_none_iff {s : ℕ} {P : K → Prop} {E : List (Entry K V)} :
    lastLive s P E = none ↔ ∀ x ∈ E, ¬ (Live s (entrySet E) x ∧ P x.userKey) := by
  classical exact seekBack_eq_none_iff _

variable [LinearOrder K]

/-- The last visible entry of a user key below `k`. -/
def lastVisibleBelow (s : ℕ) (k : K) (E : List (Entry K V)) : Cursor (Entry K V) :=
  seekBack (fun e => e.sequence ≤ s ∧ e.userKey < k) E

/-- The entry that the scan has saved: the last visible one it has passed, a put, with
nothing to show after it. -/
structure Saved (s : ℕ) (E : List (Entry K V)) (P : K → Prop) (a : List (Entry K V)) (e : Entry K V) : Prop where
  split : ∃ mid a', a = mid ++ e :: a' ∧ (∀ y ∈ mid, ¬ y.sequence ≤ s) ∧
    ∀ y ∈ a', Live s (entrySet E) y → ¬ P y.userKey
  visible : e.sequence ≤ s
  put : e.key.type = .value
  wanted : P e.userKey

/-- What holds inside `FindPrevUserEntry` when the user keys `P` are looked for: all
entries ahead have such user keys, and behind is the one saved or nothing to show. -/
structure PrevInv (s : ℕ) (E : List (Entry K V)) (P : K → Prop) (rest a : List (Entry K V)) (t : ValueType) (k : K)
    (v : V) : Prop where
  split : rest.reverse ++ a = E
  wanted : ∀ x ∈ rest, P x.userKey
  nothing : t = .deletion → ∀ x ∈ a, Live s (entrySet E) x → ¬ P x.userKey
  saved : t = .value → ∃ e, Saved s E P a e ∧ k = e.userKey ∧ v = e.value

/-- What `FindPrevUserEntry` finds. -/
structure PrevFound (s : ℕ) (E : List (Entry K V)) (P : K → Prop) (r : DBIter.PrevState (Cursor (Entry K V)) K V) :
    Prop where
  absent : r.valueType = .deletion → lastLive s P E = none
  present : r.valueType = .value → ∃ z, lastLive s P E = some z ∧ r.savedKey = z.cur.userKey ∧
    r.savedValue = z.cur.value ∧ r.iter = lastVisibleBelow s z.cur.userKey E

variable {s : ℕ} {E rest b a : List (Entry K V)} {P : K → Prop} {x e : Entry K V} {t : ValueType} {k : K} {v : V}

/-- Where no visible entry ahead has the saved user key, the saved entry is the last to
show, and everything visible below it is ahead. -/
theorem Saved.found (hE : SortedEntries E) (h : Saved s E P a e) (hsplit : rest.reverse ++ a = E)
    (hrest : ∀ y ∈ rest, y.sequence ≤ s → y.userKey < e.userKey) :
    (∃ z, lastLive s P E = some z ∧ z.cur = e) ∧ ∀ y ∈ a, ¬ (y.sequence ≤ s ∧ y.userKey < e.userKey) := by
  obtain ⟨mid, a', rfl, hmid, ha'⟩ := h.split
  have hEe : (rest.reverse ++ mid) ++ e :: a' = E := by simpa using hsplit
  have hbefore : ∀ y ∈ rest.reverse ++ mid, y.sequence ≤ s → y.userKey ≠ e.userKey := by
    intro y hy hs
    rcases List.mem_append.mp hy with hy | hy
    · exact (hrest y (List.mem_reverse.mp hy) hs).ne
    · exact absurd hs (hmid y hy)
  have hlive : Live s (entrySet E) e := hE.live hEe h.visible h.put hbefore
  refine ⟨⟨⟨(rest.reverse ++ mid).reverse, e, a'⟩, ?_, rfl⟩, fun y hy ⟨hs, hk⟩ => ?_⟩
  · rw [lastLive_eq_some_iff]
    refine ⟨by simpa [Zipper.toList] using hsplit, ⟨hlive, h.wanted⟩, fun y hy hly => ha' y hy hly.1 hly.2⟩
  · rcases List.mem_append.mp hy with hy | hy
    · exact hmid y hy hs
    · rcases List.mem_cons.mp hy with rfl | hy
      · exact lt_irrefl _ hk
      · exact absurd (hE.userKey_le hEe hy) (not_le.mpr hk)

/-- The scan has come to the first entry. -/
theorem PrevInv.found_nil (hE : SortedEntries E) (h : PrevInv s E P [] a t k v) : PrevFound s E P ⟨none, t, k, v⟩ := by
  have ha : a = E := by simpa using h.split
  refine ⟨fun ht => ?_, fun ht => ?_⟩
  · rw [lastLive_eq_none_iff]
    rintro x hx ⟨hl, hP⟩
    exact h.nothing ht x (ha ▸ hx) hl hP
  · obtain ⟨e, hsaved, rfl, rfl⟩ := h.saved ht
    obtain ⟨⟨z, hz, rfl⟩, hbelow⟩ := hsaved.found hE h.split (by simp)
    refine ⟨z, hz, rfl, rfl, ?_⟩
    symm
    rw [lastVisibleBelow, seekBack_eq_none_iff]
    exact fun x hx => hbelow x (ha ▸ hx)

/-- The scan stops on a visible entry of a smaller user key. -/
theorem PrevInv.found_stop (hE : SortedEntries E) (h : PrevInv s E P (x :: b) a .value k v) (hx : x.sequence ≤ s)
    (hk : x.userKey < k) : PrevFound s E P ⟨some ⟨b, x, a⟩, .value, k, v⟩ := by
  refine ⟨nofun, fun _ => ?_⟩
  obtain ⟨e, hsaved, rfl, rfl⟩ := h.saved rfl
  have hsplit : b.reverse ++ x :: a = E := by simpa using h.split
  have hrest : ∀ y ∈ x :: b, y.sequence ≤ s → y.userKey < e.userKey := by
    intro y hy _
    rcases List.mem_cons.mp hy with rfl | hy
    · exact hk
    · rcases hE.before hsplit (List.mem_reverse.mpr hy) with hlt | ⟨heq, -⟩
      · exact hlt.trans hk
      · exact heq ▸ hk
  obtain ⟨⟨z, hz, rfl⟩, hbelow⟩ := hsaved.found hE h.split hrest
  refine ⟨z, hz, rfl, rfl, ?_⟩
  symm
  rw [lastVisibleBelow, seekBack_eq_some_iff]
  exact ⟨hsplit, ⟨hx, hk⟩, hbelow⟩

omit [LinearOrder K] in
theorem PrevInv.invisible (h : PrevInv s E P (x :: b) a t k v) (hx : ¬ x.sequence ≤ s) :
    PrevInv s E P b (x :: a) t k v where
  split := by simpa using h.split
  wanted y hy := h.wanted y (List.mem_cons_of_mem _ hy)
  nothing ht y hy hl := by
    rcases List.mem_cons.mp hy with rfl | hy
    · exact absurd hl.visible hx
    · exact h.nothing ht y hy hl
  saved ht := by
    obtain ⟨e, hsaved, hk, hv⟩ := h.saved ht
    obtain ⟨mid, a', rfl, hmid, ha'⟩ := hsaved.split
    refine ⟨e, { hsaved with split := ⟨x :: mid, a', rfl, ?_, ha'⟩ }, hk, hv⟩
    intro y hy
    rcases List.mem_cons.mp hy with rfl | hy
    · exact hx
    · exact hmid y hy

/-- Where the scan goes on past a visible entry, nothing behind it is to be shown: the
saved one has its user key. -/
theorem PrevInv.nothing_of_visible (hE : SortedEntries E) (h : PrevInv s E P (x :: b) a t k v) (hx : x.sequence ≤ s)
    (hk : ¬ (t ≠ .deletion ∧ x.userKey < k)) : ∀ y ∈ a, Live s (entrySet E) y → ¬ P y.userKey := by
  cases t with
  | deletion => exact h.nothing rfl
  | value =>
    obtain ⟨e, hsaved, rfl, rfl⟩ := h.saved rfl
    obtain ⟨mid, a', rfl, hmid, ha'⟩ := hsaved.split
    have hsplit : b.reverse ++ x :: (mid ++ e :: a') = E := by simpa using h.split
    have hsplit' : (b.reverse ++ x :: mid) ++ e :: a' = E := by simpa using hsplit
    have hxe : x.userKey = e.userKey :=
      le_antisymm (hE.userKey_le hsplit (by simp)) (not_lt.mp fun hlt => hk ⟨nofun, hlt⟩)
    intro y hy hl
    rcases List.mem_append.mp hy with hy | hy
    · exact absurd hl.visible (hmid y hy)
    · rcases List.mem_cons.mp hy with rfl | hy
      · exact absurd hl (hE.not_live hsplit' (by simp) hx hxe)
      · exact ha' y hy hl

theorem PrevInv.deletion (hE : SortedEntries E) (h : PrevInv s E P (x :: b) a t k v) (hx : x.sequence ≤ s)
    (ht : x.key.type = .deletion) (hk : ¬ (t ≠ .deletion ∧ x.userKey < k)) (k' : K) (v' : V) :
    PrevInv s E P b (x :: a) .deletion k' v' where
  split := by simpa using h.split
  wanted y hy := h.wanted y (List.mem_cons_of_mem _ hy)
  nothing _ y hy hl := by
    rcases List.mem_cons.mp hy with rfl | hy
    · have hput := hl.put
      rw [ht] at hput
      cases hput
    · exact h.nothing_of_visible hE hx hk y hy hl
  saved := nofun

theorem PrevInv.value (hE : SortedEntries E) (h : PrevInv s E P (x :: b) a t k v) (hx : x.sequence ≤ s)
    (ht : x.key.type = .value) (hk : ¬ (t ≠ .deletion ∧ x.userKey < k)) :
    PrevInv s E P b (x :: a) .value x.userKey x.value where
  split := by simpa using h.split
  wanted y hy := h.wanted y (List.mem_cons_of_mem _ hy)
  nothing := nofun
  saved _ := by
    have hsplit : ∃ mid a', x :: a = mid ++ x :: a' ∧ (∀ y ∈ mid, ¬ y.sequence ≤ s) ∧
        ∀ y ∈ a', Live s (entrySet E) y → ¬ P y.userKey :=
      ⟨[], a, rfl, by simp, h.nothing_of_visible hE hx hk⟩
    exact ⟨x, ⟨hsplit, hx, ht, h.wanted x (by simp)⟩, rfl, rfl⟩

/-- The loop of `FindPrevUserEntry` finds the previous entry to show. -/
theorem findPrevLoop_found [Inhabited K] [Inhabited V] (hE : SortedEntries E) (h : PrevInv s E P rest a t k v) {fuel : ℕ}
    (hfuel : rest.length < fuel) :
    ∃ r, DBIter.findPrevLoop (cursorOps E) s fuel ⟨behind rest a, t, k, v⟩ = some r ∧ PrevFound s E P r := by
  induction rest generalizing a t k v fuel with
  | nil =>
    obtain ⟨fuel, rfl⟩ := Nat.exists_eq_succ_of_ne_zero hfuel.ne'
    exact ⟨_, rfl, h.found_nil hE⟩
  | cons x b ih =>
    obtain ⟨fuel, rfl⟩ : ∃ n, fuel = n + 1 := Nat.exists_eq_succ_of_ne_zero (Nat.ne_zero_of_lt hfuel)
    have hprev : (cursorOps E).prev (behind (x :: b) a) = behind b (x :: a) := prev_eq_behind
    have hlt : b.length < fuel := Nat.lt_of_succ_lt_succ hfuel
    rw [DBIter.findPrevLoop, show (cursorOps E).current (behind (x :: b) a) = some x from rfl, hprev]
    dsimp only
    by_cases hx : x.sequence ≤ s
    · rw [if_pos hx]
      by_cases hk : t ≠ .deletion ∧ x.userKey < k
      · rw [if_pos hk]
        cases t with
        | deletion => exact absurd rfl hk.1
        | value => exact ⟨_, rfl, h.found_stop hE hx hk.2⟩
      · rw [if_neg hk]
        cases ht : x.key.type with
        | deletion => exact ih (h.deletion hE hx ht hk _ _) hlt
        | value => exact ih (h.value hE hx ht hk) hlt
    · rw [if_neg hx]
      exact ih (h.invisible hx) hlt

end Backward

/-! ### The user's view -/

/-- The user's view of the entries at `s`: the list, sorted by user key, of those `(k, v)`
for which the newest entry of `k` with a sequence number up to `s` puts `v`. -/
structure IsUserView [LinearOrder K] (s : ℕ) (E : List (Entry K V)) (L : List (K × V)) : Prop where
  sorted : L.Pairwise fun x y => x.1 < y.1
  mem : ∀ k v, (k, v) ∈ L ↔ ∃ e, Live s (entrySet E) e ∧ e.userKey = k ∧ e.value = v

/-- What is shown of an entry. -/
def shown (e : Entry K V) : K × V := (e.userKey, e.value)

open Classical in
/-- The user's view, computed from the entries. -/
noncomputable def userView (s : ℕ) (E : List (Entry K V)) : List (K × V) :=
  (E.filter fun e => Live s (entrySet E) e).map shown

open Classical in
/-- The position in the user's view of an entry that is shown. -/
noncomputable def userZipper (s : ℕ) (E : List (Entry K V)) (z : Zipper (Entry K V)) : Zipper (K × V) :=
  z.filterMap (Live s (entrySet E)) shown

section View

variable [LinearOrder K] {s : ℕ} {E : List (Entry K V)} {L : List (K × V)} {z : Zipper (Entry K V)}

theorem userView_isUserView (hE : SortedEntries E) : IsUserView s E (userView s E) where
  sorted := by
    refine List.pairwise_map.mpr ((List.pairwise_filter.mpr ?_))
    refine hE.sorted.imp_of_mem fun {x y} hx hy hlt hlx hly => ?_
    simp only [decide_eq_true_eq] at hlx hly
    refine (InternalKey.userKey_le_of_lt hlt).lt_of_ne fun hk => ?_
    have hs : x.sequence = y.sequence :=
      le_antisymm (hly.newest x hx hk hlx.visible) (hlx.newest y hy hk.symm hly.visible)
    exact absurd hlt (hE.distinct x hx y hy hk hs ▸ lt_irrefl _)
  mem k v := by
    simp only [userView, shown, List.mem_map, List.mem_filter, decide_eq_true_eq, Prod.mk.injEq]
    constructor
    · rintro ⟨e, ⟨-, hl⟩, hk, hv⟩
      exact ⟨e, hl, hk, hv⟩
    · rintro ⟨e, hl, hk, hv⟩
      exact ⟨e, ⟨hl.mem, hl⟩, hk, hv⟩

theorem IsUserView.eq_userView (hE : SortedEntries E) (h : IsUserView s E L) : L = userView s E := by
  have h' := userView_isUserView (s := s) hE
  have hnodup : ∀ {l : List (K × V)}, l.Pairwise (fun x y => x.1 < y.1) → l.Nodup := fun hl =>
    hl.imp fun hlt heq => hlt.ne (congrArg Prod.fst heq)
  have hperm : L.Perm (userView s E) := by
    rw [List.perm_ext_iff_of_nodup (hnodup h.sorted) (hnodup h'.sorted)]
    rintro ⟨k, v⟩
    rw [h.mem, h'.mem]
  exact hperm.eq_of_pairwise (fun x y _ _ hxy hyx => absurd hxy (lt_asymm hyx)) h.sorted h'.sorted

omit [LinearOrder K] in
theorem toList_userZipper (hz : z.toList = E) (hl : Live s (entrySet E) z.cur) :
    (userZipper s E z).toList = userView s E := by
  classical
  rw [userZipper, Zipper.toList_filterMap _ _ hl, hz, userView]

variable (P : K → Prop)

omit [LinearOrder K] in
theorem seek_userView [DecidablePred fun kv : K × V => P kv.1] :
    Cursors.seek (fun kv => P kv.1) (userView s E) = (firstLive s P E).map (userZipper s E) := by
  classical
  unfold userView firstLive
  rw [seek_filter_map]
  congr!

omit [LinearOrder K] in
theorem seekBack_userView [DecidablePred fun kv : K × V => P kv.1] :
    seekBack (fun kv => P kv.1) (userView s E) = (lastLive s P E).map (userZipper s E) := by
  classical
  unfold userView lastLive
  rw [seekBack_filter_map]
  congr!

end View

/-! ### The representation -/

section Simulation

/-- How an iterator over `E` represents a cursor over the user's view. -/
inductive Shown [LinearOrder K] (s : ℕ) (E : List (Entry K V)) (it : DBIter (Cursor (Entry K V)) K V) :
    Cursor (K × V) → Prop where
  /-- Nothing is shown. -/
  | invalid : it.valid = false → Shown s E it none
  /-- The internal iterator stands on the entry shown. -/
  | forward {z : Zipper (Entry K V)} : z.toList = E → Live s (entrySet E) z.cur → it.valid = true →
      it.direction = .forward → it.iter = some z → Shown s E it (some (userZipper s E z))
  /-- The entry shown is saved, and the internal iterator stands on the last visible
  entry of a smaller user key. -/
  | reverse {z : Zipper (Entry K V)} : z.toList = E → Live s (entrySet E) z.cur → it.valid = true →
      it.direction = .reverse → it.savedKey = z.cur.userKey → it.savedValue = z.cur.value →
      it.iter = lastVisibleBelow s z.cur.userKey E → Shown s E it (some (userZipper s E z))

/-- A call has a result that represents this cursor. -/
def Yields [LinearOrder K] (s : ℕ) (E : List (Entry K V)) (r : Option (DBIter (Cursor (Entry K V)) K V)) (c : Cursor (K × V)) :
    Prop :=
  ∃ it, r = some it ∧ Shown s E it c

variable [LinearOrder K] {s : ℕ} {E : List (Entry K V)} {it : DBIter (Cursor (Entry K V)) K V} {z : Zipper (Entry K V)}
  {c : Cursor (K × V)} {P : K → Prop} {k : K}

/-- A valid iterator stands where `FindNextUserEntry` may start, or nowhere with nothing
left to show. -/
theorem shown_findNext [Inhabited K] (hE : SortedEntries E) [DecidablePred fun kv : K × V => P kv.1]
    {skipping : Bool} (hd : it.direction = .forward) (hz : it.iter = some z)
    (h : NextInv s E P z.before (z.cur :: z.after) skipping it.savedKey) :
    Yields s E (it.findNextUserEntry (cursorOps E) s skipping) (Cursors.seek (fun kv => P kv.1) (userView s E)) := by
  have hfuel : (z.cur :: z.after).length < E.length + 1 := by
    rw [← h.split, List.length_append]
    omega
  rw [seek_userView, DBIter.findNextUserEntry, hz]
  refine ⟨_, congrArg _ (findNextLoop_eq hE h hfuel), ?_⟩
  cases hf : firstLive s P E with
  | none => exact .invalid rfl
  | some w =>
    obtain ⟨hw, ⟨hl, -⟩, -⟩ := firstLive_eq_some_iff.mp hf
    exact .forward hw hl rfl hd rfl

/-- Where nothing ahead is to be shown, an iterator past the end shows nothing. -/
theorem shown_end [DecidablePred fun kv : K × V => P kv.1] (hv : it.valid = false)
    (h : ∀ x ∈ E, Live s (entrySet E) x → ¬ P x.userKey) :
    Shown s E it (Cursors.seek (fun kv => P kv.1) (userView s E)) := by
  have hnone : firstLive s P E = none := by
    rw [firstLive_eq_none_iff]
    exact fun x hx hl => h x hx hl.1 hl.2
  rw [seek_userView, hnone]
  exact .invalid hv

/-- An iterator moving backward stands where `FindPrevUserEntry` may start. -/
theorem shown_findPrev [Inhabited K] [Inhabited V] (hE : SortedEntries E) [DecidablePred fun kv : K × V => P kv.1]
    (hd : it.direction = .reverse)
    (hnone : it.iter = none → ∀ x ∈ E, Live s (entrySet E) x → ¬ P x.userKey)
    (hsome : ∀ z, it.iter = some z → z.toList = E ∧ (∀ x ∈ z.cur :: z.before, P x.userKey) ∧
      ∀ x ∈ z.after, Live s (entrySet E) x → ¬ P x.userKey) :
    Yields s E (it.findPrevUserEntry (cursorOps E) s) (seekBack (fun kv => P kv.1) (userView s E)) := by
  have hstart : ∃ rest a, it.iter = behind rest a ∧ PrevInv s E P rest a .deletion it.savedKey it.savedValue := by
    cases hi : it.iter with
    | none => exact ⟨[], E, rfl, rfl, by simp, fun _ => hnone hi, by simp⟩
    | some z =>
      obtain ⟨hz, hP, hafter⟩ := hsome z hi
      exact ⟨z.cur :: z.before, z.after, rfl, by simpa [Zipper.toList] using hz, hP, fun _ => hafter, by simp⟩
  obtain ⟨rest, a, hi, hinv⟩ := hstart
  have hfuel : rest.length < E.length + 1 := by
    rw [← hinv.split, List.length_append, List.length_reverse]
    omega
  obtain ⟨r, hloop, hr⟩ := findPrevLoop_found hE hinv hfuel
  rw [seekBack_userView, DBIter.findPrevUserEntry, hi]
  refine ⟨_, congrArg _ hloop, ?_⟩
  dsimp only
  cases ht : r.valueType with
  | deletion =>
    rw [hr.absent ht]
    exact .invalid rfl
  | value =>
    obtain ⟨z, hz, hk, hv, hi⟩ := hr.present ht
    rw [hz]
    obtain ⟨hzE, ⟨hl, -⟩, -⟩ := lastLive_eq_some_iff.mp hz
    exact .reverse hzE hl rfl hd hk hv hi

/-! ### The calls -/

omit [LinearOrder K] in
theorem toList_split (hz : z.toList = E) : z.before.reverse ++ z.cur :: z.after = E := hz

/-- `FindNextUserEntry` may start without skipping where all visible entries before have
other user keys than those looked for, and all ahead have such. -/
theorem nextInv_start (k : K) (hz : z.toList = E)
    (hbefore : ∀ x ∈ z.before, x.sequence ≤ s → ¬ P x.userKey)
    (hrest : ∀ x ∈ z.cur :: z.after, x.sequence ≤ s → P x.userKey) :
    NextInv s E P z.before (z.cur :: z.after) false k where
  split := hz
  passed x hx hl := hbefore x hx hl.visible
  hidden x hx hs := by
    refine iff_of_false (by simp) ?_
    rintro (hP | ⟨y, hy, hys, hk⟩)
    · exact hP (hrest x hx hs)
    · exact hbefore y hy hys (hk ▸ hrest x hx hs)
  above := nofun

/-- `FindNextUserEntry` may start skipping a user key where the visible entries before
have user keys up to it and those ahead from it on. -/
theorem nextInv_skip (hz : z.toList = E)
    (hbefore : ∀ x ∈ z.before, x.sequence ≤ s → x.userKey ≤ k)
    (hrest : ∀ x ∈ z.cur :: z.after, x.sequence ≤ s → k ≤ x.userKey) :
    NextInv s E (k < ·) z.before (z.cur :: z.after) true k where
  split := hz
  passed x hx hl := not_lt.mpr (hbefore x hx hl.visible)
  hidden x hx hs := by
    simp only [true_and, not_lt]
    constructor
    · exact Or.inl
    · rintro (hle | ⟨y, hy, hys, hk⟩)
      · exact hle
      · exact hk ▸ hbefore y hy hys
  above _ := hrest

section Calls

variable (hE : SortedEntries E)

include hE

/-- What the calls that move by one do to the user's view. -/
theorem next_userZipper (hz : z.toList = E) (hl : Live s (entrySet E) z.cur) :
    Cursors.next (some (userZipper s E z)) = Cursors.seek (fun kv => z.cur.userKey < kv.1) (userView s E) :=
  next_eq_seek (r := fun x y : K × V => x.1 < y.1) (fun _ _ => lt_asymm) (userView_isUserView hE).sorted
    (toList_userZipper hz hl)

theorem prev_userZipper (hz : z.toList = E) (hl : Live s (entrySet E) z.cur) :
    Cursors.prev (some (userZipper s E z)) = seekBack (fun kv => kv.1 < z.cur.userKey) (userView s E) :=
  prev_eq_seekBack (r := fun x y : K × V => x.1 < y.1) (fun _ _ => lt_asymm) (userView_isUserView hE).sorted
    (toList_userZipper hz hl)

/-- The entries before a position have user keys up to its own, those after from it on. -/
theorem userKey_before (hz : z.toList = E) {x : Entry K V} (hx : x ∈ z.before) :
    x.userKey ≤ z.cur.userKey := by
  rcases hE.before (toList_split hz) (List.mem_reverse.mpr hx) with hlt | ⟨heq, -⟩
  · exact hlt.le
  · exact heq.le

variable [Inhabited K] [Inhabited V]

omit [Inhabited V] in
/-- `FindNextUserEntry` from the first entry of the user keys that are looked for. -/
theorem shown_start (it : DBIter (Cursor (Entry K V)) K V) {p : Entry K V → Prop} [DecidablePred p]
    [DecidablePred fun kv : K × V => P kv.1] (hd : it.direction = .forward) (hi : it.iter = Cursors.seek p E)
    (hP : ∀ x, p x → ∀ k, x.userKey ≤ k → P k) (hp : ∀ x, x.sequence ≤ s → P x.userKey → p x) :
    Yields s E (if ((cursorOps E).current it.iter).isSome then it.findNextUserEntry (cursorOps E) s false
        else some { it with valid := false })
      (Cursors.seek (fun kv => P kv.1) (userView s E)) := by
  cases hseek : Cursors.seek p E with
  | none =>
    rw [hi, hseek]
    refine ⟨_, rfl, shown_end rfl fun x hx hl hk => ?_⟩
    exact (seek_eq_none_iff _).mp hseek x hx (hp x hl.visible hk)
  | some z =>
    obtain ⟨hz, hcur, hbefore⟩ := (seek_eq_some_iff _).mp hseek
    rw [if_pos (by rw [hi, hseek]; rfl)]
    refine shown_findNext hE hd (hi.trans hseek) (nextInv_start _ hz (fun x hx hs hk => ?_) fun x hx _ => ?_)
    · exact hbefore x hx (hp x hs hk)
    · rcases List.mem_cons.mp hx with rfl | hx
      · exact hP _ hcur _ le_rfl
      · exact hP _ hcur _ (hE.userKey_le (toList_split hz) hx)

theorem shown_seekToFirst : Yields s E (it.seekToFirst (cursorOps E) s) (Cursors.seekToFirst (userView s E)) :=
  shown_start hE (P := fun _ => True) _ rfl rfl (fun _ _ _ _ => trivial) fun _ _ _ => trivial

theorem shown_seek (encode : InternalKey K → K) (target : K) :
    Yields s E (it.seek (cursorOps E) s encode target) (Cursors.seek (fun kv => target ≤ kv.1) (userView s E)) := by
  refine shown_start hE (P := (target ≤ ·)) _ rfl rfl (fun x hx k hk => ?_) fun x hs hk => not_lt.mp fun hlt => ?_
  · exact le_trans (InternalKey.userKey_mono hx) hk
  · rcases InternalKey.lt_lookupKey_iff.mp hlt with hlt | ⟨-, hs'⟩
    · exact absurd hk (not_le.mpr hlt)
    · exact absurd hs (not_le.mpr hs')

theorem shown_seekToLast : Yields s E (it.seekToLast (cursorOps E) s) (Cursors.seekToLast (userView s E)) := by
  unfold DBIter.seekToLast Cursors.seekToLast
  refine shown_findPrev hE (P := fun _ => True) rfl (fun hi x hx _ _ => ?_) fun z hi => ?_
  · exact (seekBack_eq_none_iff _).mp hi x hx trivial
  · obtain ⟨hz, -, hafter⟩ := (seekBack_eq_some_iff _).mp hi
    exact ⟨hz, fun _ _ => trivial, fun x hx _ _ => hafter x hx trivial⟩

section

omit [Inhabited V]

/-- From the position after one whose user key is to be skipped, `FindNextUserEntry` goes on to
the next user key. -/
theorem shown_skip (it : DBIter (Cursor (Entry K V)) K V) (hz : z.toList = E) (hd : it.direction = .forward)
    (hi : it.iter = Cursors.next (some z))
    (hbefore : ∀ x ∈ z.cur :: z.before, x.sequence ≤ s → x.userKey ≤ it.savedKey)
    (hafter : ∀ x ∈ z.after, x.sequence ≤ s → it.savedKey ≤ x.userKey) :
    Yields s E (if ((cursorOps E).current it.iter).isSome then it.findNextUserEntry (cursorOps E) s true
        else some { it with valid := false, savedKey := default })
      (Cursors.seek (fun kv => it.savedKey < kv.1) (userView s E)) := by
  obtain ⟨b, x, a⟩ := z
  cases a with
  | nil =>
    rw [hi]
    refine ⟨_, rfl, shown_end (P := (it.savedKey < ·)) rfl fun y hy hl => not_lt.mpr (hbefore y ?_ hl.visible)⟩
    simpa [Zipper.toList, ← hz, or_comm] using hy
  | cons y a =>
    rw [if_pos (by rw [hi]; rfl)]
    exact shown_findNext hE hd hi (nextInv_skip (by simpa [Zipper.toList] using hz) hbefore hafter)

/-- `Next` moving forward: the entries of the user key shown are skipped. -/
theorem shown_next_forward (hz : z.toList = E) (hl : Live s (entrySet E) z.cur)
    (hd : it.direction = .forward) (hi : it.iter = some z) :
    Yields s E (it.next (cursorOps E) s) (Cursors.next (some (userZipper s E z))) := by
  rw [next_userZipper hE hz hl]
  unfold DBIter.next
  simp only [hd, hi]
  refine shown_skip hE { it with savedKey := z.cur.userKey, iter := Cursors.next (some z), direction := .forward } hz rfl
    rfl (fun x hx _ => ?_) fun x hx _ => hE.userKey_le (toList_split hz) hx
  rcases List.mem_cons.mp hx with rfl | hx
  · exact le_rfl
  · exact userKey_before hE hz hx

/-- `Next` after moving backward: the internal iterator is taken back to the entries of
the user key shown, and these are skipped. -/
theorem shown_next_reverse (hz : z.toList = E) (hl : Live s (entrySet E) z.cur)
    (hd : it.direction = .reverse) (hk : it.savedKey = z.cur.userKey)
    (hi : it.iter = lastVisibleBelow s z.cur.userKey E) :
    Yields s E (it.next (cursorOps E) s) (Cursors.next (some (userZipper s E z))) := by
  rw [next_userZipper hE hz hl]
  unfold DBIter.next
  simp only [hd]
  rw [← hk]
  rw [← hk] at hi
  cases hb : lastVisibleBelow s it.savedKey E with
  | none =>
    have hvis : ∀ x ∈ E, x.sequence ≤ s → it.savedKey ≤ x.userKey := fun x hx hs =>
      not_lt.mp fun hlt => (seekBack_eq_none_iff _).mp hb x hx ⟨hs, hlt⟩
    simp only [isSome_current_cursorOps, hi, hb, Option.isSome_none, Bool.false_eq_true, if_false]
    cases hf : (cursorOps E).seekToFirst none with
    | none => exact absurd trivial ((seek_eq_none_iff _).mp hf z.cur (hz ▸ z.cur_mem))
    | some w =>
      obtain ⟨hw, -, hbefore⟩ := (seek_eq_some_iff _).mp hf
      simp only [Option.isSome_some, if_true]
      refine shown_findNext hE rfl rfl (nextInv_skip hw (fun x hx => absurd trivial (hbefore x hx)) fun x hx => ?_)
      exact hvis x (hw ▸ Zipper.mem_toList.mpr (Or.inr (List.mem_cons.mp hx)))
  | some w =>
    obtain ⟨hw, ⟨-, hwk⟩, hafter⟩ := (seekBack_eq_some_iff _).mp hb
    simp only [isSome_current_cursorOps E (some w), hi, hb, Option.isSome_some, if_true]
    refine shown_skip hE { it with iter := Cursors.next (some w), direction := .forward } hw rfl rfl (fun x hx _ => ?_)
      fun x hx hs => not_lt.mp fun hlt => hafter x hx ⟨hs, hlt⟩
    rcases List.mem_cons.mp hx with rfl | hx
    · exact hwk.le
    · exact (userKey_before hE hw hx).trans hwk.le

theorem shown_next (h : Shown s E it c) (hv : it.valid = true) :
    Yields s E (it.next (cursorOps E) s) (Cursors.next c) := by
  cases h with
  | invalid hinv => simp [hinv] at hv
  | forward hz hl _ hd hi => exact shown_next_forward hE hz hl hd hi
  | reverse hz hl _ hd hk _ hi => exact shown_next_reverse hE hz hl hd hk hi

end

omit hE [Inhabited K] [Inhabited V] in
/-- The loop of `Prev` finds the last entry of a smaller user key. -/
theorem scanBackLoop_eq {b a : List (Entry K V)} {fuel : ℕ} (hsplit : b.reverse ++ a = E)
    (ha : ∀ x ∈ a, ¬ x.userKey < k) (hfuel : b.length < fuel) :
    DBIter.scanBackLoop (cursorOps E) k fuel (behind b a) = some (seekBack (fun e => e.userKey < k) E) := by
  induction b generalizing a fuel with
  | nil =>
    obtain ⟨fuel, rfl⟩ := Nat.exists_eq_succ_of_ne_zero hfuel.ne'
    rw [(seekBack_eq_none_iff _).mpr (by simpa [← hsplit] using ha)]
    rfl
  | cons x b ih =>
    obtain ⟨fuel, rfl⟩ : ∃ n, fuel = n + 1 := Nat.exists_eq_succ_of_ne_zero (Nat.ne_zero_of_lt hfuel)
    have hprev : (cursorOps E).prev (behind (x :: b) a) = behind b (x :: a) := prev_eq_behind
    rw [DBIter.scanBackLoop, show (cursorOps E).current (behind (x :: b) a) = some x from rfl, hprev]
    dsimp only
    split_ifs with hx
    · rw [(seekBack_eq_some_iff _ (z := ⟨b, x, a⟩)).mpr ⟨by simpa [Zipper.toList] using hsplit, hx, ha⟩]
      rfl
    · refine ih (by simpa using hsplit) (fun y hy => ?_) (Nat.lt_of_succ_lt_succ hfuel)
      rcases List.mem_cons.mp hy with rfl | hy
      · exact hx
      · exact ha y hy

/-- `FindPrevUserEntry` from the last entry, or the last visible one, of a smaller user
key than `k`. -/
theorem shown_findPrev_below {q : Entry K V → Prop} [DecidablePred q] (hd : it.direction = .reverse)
    (hq : ∀ x, Live s (entrySet E) x → q x) (hi : it.iter = seekBack (fun e => q e ∧ e.userKey < k) E) :
    Yields s E (it.findPrevUserEntry (cursorOps E) s) (seekBack (fun kv => kv.1 < k) (userView s E)) := by
  refine shown_findPrev hE (P := (· < k)) hd (fun hnone x hx hl hk => ?_) fun w hw => ?_
  · exact (seekBack_eq_none_iff _).mp (hi ▸ hnone) x hx ⟨hq x hl, hk⟩
  · obtain ⟨hwE, ⟨-, hwk⟩, hafter⟩ := (seekBack_eq_some_iff _).mp (hi ▸ hw)
    refine ⟨hwE, fun x hx => ?_, fun x hx hl hk => hafter x hx ⟨hq x hl, hk⟩⟩
    rcases List.mem_cons.mp hx with rfl | hx
    · exact hwk
    · exact (userKey_before hE hwE hx).trans_lt hwk

theorem shown_prev (h : Shown s E it c) (hv : it.valid = true) :
    Yields s E (it.prev (cursorOps E) s) (Cursors.prev c) := by
  cases h with
  | invalid hinv => simp [hinv] at hv
  | @forward z hz hl _ hd hi =>
    rw [prev_userZipper hE hz hl]
    unfold DBIter.prev
    have hrest : ∀ x ∈ z.cur :: z.after, ¬ x.userKey < z.cur.userKey := by
      intro x hx
      rcases List.mem_cons.mp hx with rfl | hx
      · exact lt_irrefl _
      · exact not_lt.mpr (hE.userKey_le (toList_split hz) hx)
    have hfuel : z.before.length < E.length + 1 := by
      rw [← hz, Zipper.toList, List.length_append, List.length_reverse]
      omega
    have hscan : DBIter.scanBackLoop (cursorOps E) z.cur.userKey ((cursorOps E).size + 1) ((cursorOps E).prev (some z)) = _ :=
      prev_eq_behind ▸ scanBackLoop_eq (toList_split hz) hrest hfuel
    simp only [hd, hi, show (cursorOps E).current (some z) = some z.cur from rfl, hscan, Option.bind_some,
      isSome_current_cursorOps]
    cases hb : seekBack (fun e : Entry K V => e.userKey < z.cur.userKey) E with
    | none =>
      have hnone : lastLive s (· < z.cur.userKey) E = none :=
        lastLive_eq_none_iff.mpr fun x hx hl' => (seekBack_eq_none_iff _).mp hb x hx hl'.2
      rw [seekBack_userView (P := (· < z.cur.userKey)), hnone]
      exact ⟨_, rfl, .invalid rfl⟩
    | some w =>
      refine shown_findPrev_below hE (q := fun _ => True) rfl (fun _ _ => trivial) ?_
      simp only [true_and, hb]
  | @reverse z hz hl _ hd hk _ hi =>
    rw [prev_userZipper hE hz hl]
    unfold DBIter.prev
    simp only [hd]
    exact shown_findPrev_below hE hd (fun x hl' => hl'.visible) hi

end Calls

end Simulation

/-! ### Sequences of calls -/

variable [LinearOrder K]

/-- A call on a cursor over a list of user keys with their values. -/
def cursorCall (L : List (K × V)) (c : Cursor (K × V)) : IterCall K → Cursor (K × V)
  | .seekToFirst => Cursors.seekToFirst L
  | .seekToLast => Cursors.seekToLast L
  | .seek target => Cursors.seek (fun kv => target ≤ kv.1) L
  | .next => Cursors.next c
  | .prev => Cursors.prev c

variable [Inhabited K] [Inhabited V]

section Refinement

variable {s : ℕ} {E : List (Entry K V)} {it : DBIter (Cursor (Entry K V)) K V} {c : Cursor (K × V)}

omit [Inhabited K] [Inhabited V] in
theorem Shown.shows_eq (h : Shown s E it c) : it.shows (cursorOps E) = c.map fun z => some z.cur := by
  cases h with
  | invalid hv => simp [DBIter.shows, hv]
  | forward _ _ hv hd hi => simp [DBIter.shows, cursorOps, hv, hd, hi, userZipper, Zipper.filterMap, shown]
  | reverse _ _ hv hd hk hval _ => simp [DBIter.shows, hv, hd, hk, hval, userZipper, Zipper.filterMap, shown]

theorem Shown.call (hE : SortedEntries E) (encode : InternalKey K → K) (h : Shown s E it c) (call : IterCall K) :
    Yields s E (it.call (cursorOps E) s encode call) (cursorCall (userView s E) c call) := by
  have hskip (hv : ¬ it.valid = true) : c = none := by
    cases h <;> simp_all
  cases call with
  | seekToFirst => exact shown_seekToFirst hE
  | seekToLast => exact shown_seekToLast hE
  | seek target => exact shown_seek hE encode target
  | next =>
    rw [DBIter.call]
    split_ifs with hv
    · exact shown_next hE h hv
    · exact ⟨it, rfl, hskip hv ▸ .invalid (by simpa using hv)⟩
  | prev =>
    rw [DBIter.call]
    split_ifs with hv
    · exact shown_prev hE h hv
    · exact ⟨it, rfl, hskip hv ▸ .invalid (by simpa using hv)⟩

theorem Shown.calls (hE : SortedEntries E) (encode : InternalKey K → K) (h : Shown s E it c) (calls : List (IterCall K)) :
    Yields s E (calls.foldlM (DBIter.call (cursorOps E) s encode) it) (calls.foldl (cursorCall (userView s E)) c) := by
  induction calls generalizing it c with
  | nil => exact ⟨it, rfl, h⟩
  | cons call calls ih =>
    obtain ⟨it', hcall, h'⟩ := h.call hE encode call
    rw [List.foldlM_cons, hcall]
    exact ih h'

/-- A new iterator shows what a new cursor over the user's view shows. -/
theorem exists_shows (hE : SortedEntries E) (encode : InternalKey K → K) (iter : Cursor (Entry K V))
    (calls : List (IterCall K)) :
    ∃ it, calls.foldlM (DBIter.call (cursorOps E) s encode) (DBIter.new iter) = some it ∧
      it.shows (cursorOps E) = (calls.foldl (cursorCall (userView s E)) none).map fun z => some z.cur := by
  have hnew : Shown s E (DBIter.new iter) none := .invalid rfl
  obtain ⟨it, hcalls, hshown⟩ := hnew.calls hE encode calls
  exact ⟨it, hcalls, hshown.shows_eq⟩

/-- **`DBIter` is a cursor over the user's view**: after every sequence of calls it shows
what a cursor over the user's view shows after the same calls. -/
theorem dbIter_refines {encode : InternalKey K → K} (hE : SortedEntries E) {L : List (K × V)} (hL : IsUserView s E L)
    (iter : Cursor (Entry K V)) (calls : List (IterCall K)) :
    ∃ it, calls.foldlM (DBIter.call (cursorOps E) s encode) (DBIter.new iter) = some it ∧
      it.shows (cursorOps E) = (calls.foldl (cursorCall L) none).map fun z => some z.cur := by
  rw [hL.eq_userView hE]
  exact exists_shows hE encode iter calls

/-- A deleted key ahead two others. -/
def someEntries : List (Entry ℕ ℕ) :=
  [⟨⟨1, 4, .value⟩, 7⟩, ⟨⟨2, 3, .deletion⟩, 0⟩, ⟨⟨2, 1, .value⟩, 8⟩, ⟨⟨3, 2, .value⟩, 9⟩]

theorem sortedEntries_someEntries : SortedEntries someEntries := by
  refine ⟨?_, ?_⟩
  · simp [someEntries, InternalKey.lt_iff]
  · change ∀ e ∈ someEntries, ∀ e' ∈ someEntries, _
    decide

theorem isUserView_someEntries : IsUserView 5 someEntries [(1, 7), (3, 9)] := by
  refine ⟨by simp, fun k v => ⟨?_, ?_⟩⟩
  · intro h
    simp only [List.mem_cons, Prod.mk.injEq, List.not_mem_nil, or_false] at h
    rcases h with ⟨rfl, rfl⟩ | ⟨rfl, rfl⟩
    · have hnew : ∀ x ∈ someEntries, x.userKey = 1 → x.sequence ≤ 5 → x.sequence ≤ 4 := by decide
      exact ⟨⟨⟨1, 4, .value⟩, 7⟩, ⟨⟨by simp [someEntries], by decide, hnew⟩, rfl⟩, rfl, rfl⟩
    · have hnew : ∀ x ∈ someEntries, x.userKey = 3 → x.sequence ≤ 5 → x.sequence ≤ 2 := by decide
      exact ⟨⟨⟨3, 2, .value⟩, 9⟩, ⟨⟨by simp [someEntries], by decide, hnew⟩, rfl⟩, rfl, rfl⟩
  · rintro ⟨e, hl, rfl, rfl⟩
    have hnew := hl.newest ⟨⟨2, 3, .deletion⟩, 0⟩ (by simp [someEntries])
    have hmem : e ∈ someEntries := hl.mem
    have hput := hl.put
    simp only [someEntries, List.mem_cons, List.not_mem_nil, or_false] at hmem
    rcases hmem with rfl | rfl | rfl | rfl
    · simp
    · cases hput
    · exact absurd (hnew rfl (by decide)) (by decide)
    · simp

theorem dbIter_refines_someEntries :
    ∃ it, [.seekToFirst, .next, .prev, .next].foldlM (DBIter.call (cursorOps someEntries) 5 InternalKey.userKey)
        (DBIter.new none) = some it ∧
      it.shows (cursorOps someEntries) =
        ([.seekToFirst, .next, .prev, .next].foldl (cursorCall [(1, 7), (3, 9)]) none).map fun z => some z.cur :=
  dbIter_refines sortedEntries_someEntries isUserView_someEntries none _

end Refinement

end TLevelDB.Db
