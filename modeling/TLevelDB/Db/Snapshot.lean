import TLevelDB.Db.Visible

/-!
# The database iterator while the memtable grows

`DBIter` over an internal iterator whose memtable gets entries between the calls. Of two
internal iterators related by a `Simulation`, the one over all entries takes more turns than the
one over the visible entries, but stops at the same one: `DBIter` shows the same with both
(`Related`). The visible entries do not change when newer entries are inserted, and so neither
does what is shown.
-/

namespace TLevelDB.Db

open SortedSearch

variable {S S' K V : Type}

/-! ### The loops -/

section Loops

open DBIter

variable [LinearOrder K] [Inhabited K] [Inhabited V] {s : ℕ} {A : InternalOps S K V} {C : InternalOps S' K V}
  {Fwd Rev : S → S' → Prop} (sim : Simulation s A C Fwd Rev)
include sim

omit [Inhabited K] [Inhabited V] in
/-- The loop of `FindNextUserEntry` ends on the same visible entry. -/
theorem findNextLoop_sim (fuel fuel' : ℕ) {skipping : Bool} {skip skip' : K} {m : S}
    {m' : S'} (hrel : Fwd m m') (hfuel : sim.fwd.left m < fuel) (hfuel' : sim.fwd.left' m' < fuel')
    (hskip : skipping = true → skip = skip') :
    ∃ r r' found, findNextLoop A s fuel skipping skip m = some (r, found) ∧
      findNextLoop C s fuel' skipping skip' m' = some (r', found) ∧ Fwd r r' ∧
      (found = true → ∃ x, A.current r = some x ∧ x.sequence ≤ s) := by
  induction fuel generalizing fuel' skipping skip skip' m m' with
  | zero => omega
  | succ fuel ih =>
    obtain ⟨fuel', rfl⟩ : ∃ n, fuel' = n + 1 := ⟨fuel' - 1, by omega⟩
    cases hcur : A.current m with
    | none =>
      have hcur' := sim.fwd.atEnd hrel hcur
      exact ⟨m, m', false, by simp [findNextLoop, hcur], by simp [findNextLoop, hcur'], hrel, by simp⟩
    | some x =>
      have hlt := sim.fwd.left_step hrel hcur
      by_cases hs : x.sequence ≤ s
      · have hcur' := sim.fwd.visible hrel hcur hs
        have hlt' := sim.fwd.left_step' hrel hcur'
        have hnext := sim.fwd.advance hrel hcur hs
        simp only [findNextLoop, hcur, hcur', if_pos hs]
        cases x.key.type with
        | deletion => exact ih fuel' hnext (by omega) (by omega) fun _ => rfl
        | value =>
          have hsame : (skipping = true ∧ x.userKey ≤ skip') ↔ (skipping = true ∧ x.userKey ≤ skip) :=
            and_congr_right fun h => by rw [hskip h]
          simp only [hsame]
          by_cases hhide : skipping = true ∧ x.userKey ≤ skip
          · rw [if_pos hhide, if_pos hhide]
            exact ih fuel' hnext (by omega) (by omega) hskip
          · rw [if_neg hhide, if_neg hhide]
            exact ⟨m, m', true, rfl, rfl, hrel, fun _ => ⟨x, hcur, hs⟩⟩
      · have hskip' := ih (fuel' + 1) (sim.fwd.skip hrel hcur hs) (by omega) hfuel' hskip
        simpa only [findNextLoop, hcur, if_neg hs] using hskip'

/-- The loop of `FindPrevUserEntry` saves the same entry, and ends on the same visible one. -/
theorem findPrevLoop_sim (fuel fuel' : ℕ) (r : PrevState S K V) (r' : PrevState S' K V)
    (hrel : Rev r.iter r'.iter) (hfuel : sim.rev.left r.iter < fuel) (hfuel' : sim.rev.left' r'.iter < fuel')
    (htype : r.valueType = r'.valueType)
    (hsaved : r.valueType ≠ .deletion → r.savedKey = r'.savedKey ∧ r.savedValue = r'.savedValue) :
    ∃ q q', findPrevLoop A s fuel r = some q ∧ findPrevLoop C s fuel' r' = some q' ∧ Rev q.iter q'.iter ∧
      q.valueType = q'.valueType ∧
      (q.valueType ≠ .deletion → q.savedKey = q'.savedKey ∧ q.savedValue = q'.savedValue) ∧
      ∀ x, A.current q.iter = some x → x.sequence ≤ s := by
  induction fuel generalizing fuel' r r' with
  | zero => omega
  | succ fuel ih =>
    obtain ⟨fuel', rfl⟩ : ∃ n, fuel' = n + 1 := ⟨fuel' - 1, by omega⟩
    cases hcur : A.current r.iter with
    | none =>
      have hcur' := sim.rev.atEnd hrel hcur
      refine ⟨r, r', by simp [findPrevLoop, hcur], by simp [findPrevLoop, hcur'], hrel, htype, hsaved, fun x hx => ?_⟩
      rw [hcur] at hx
      cases hx
    | some x =>
      have hlt := sim.rev.left_step hrel hcur
      by_cases hs : x.sequence ≤ s
      · have hcur' := sim.rev.visible hrel hcur hs
        have hlt' := sim.rev.left_step' hrel hcur'
        have hprev := sim.rev.advance hrel hcur hs
        have hstop : (r'.valueType ≠ .deletion ∧ x.userKey < r'.savedKey) ↔
            (r.valueType ≠ .deletion ∧ x.userKey < r.savedKey) := by
          rw [htype]
          refine and_congr_right fun hne => ?_
          rw [(hsaved (htype ▸ hne)).1]
        simp only [findPrevLoop, hcur, hcur', if_pos hs, hstop]
        by_cases hend : r.valueType ≠ .deletion ∧ x.userKey < r.savedKey
        · rw [if_pos hend, if_pos hend]
          refine ⟨r, r', rfl, rfl, hrel, htype, hsaved, fun y hy => ?_⟩
          cases hcur.symm.trans hy
          exact hs
        · rw [if_neg hend, if_neg hend]
          cases x.key.type with
          | deletion => exact ih fuel' _ _ hprev (by simpa using by omega) (by simpa using by omega) rfl fun h => absurd rfl h
          | value => exact ih fuel' _ _ hprev (by simpa using by omega) (by simpa using by omega) rfl fun _ => ⟨rfl, rfl⟩
      · have hskip := ih (fuel' + 1) { r with iter := A.prev r.iter } r' (sim.rev.skip hrel hcur hs) (by simpa using by omega)
          hfuel' htype hsaved
        simpa only [findPrevLoop, hcur, if_neg hs] using hskip

omit [Inhabited K] [Inhabited V] in
/-- The loop of `Prev` comes to entries of smaller user keys, or to none. -/
theorem scanBackLoop_sim (fuel fuel' : ℕ) (k : K) {m : S} {m' : S'} (hrel : Rev m m')
    (hfuel : sim.rev.left m < fuel) (hfuel' : sim.rev.left' m' < fuel') :
    ∃ r r', scanBackLoop A k fuel m = some r ∧ scanBackLoop C k fuel' m' = some r' ∧ Rev r r' := by
  induction fuel generalizing fuel' m m' with
  | zero => omega
  | succ fuel ih =>
    obtain ⟨fuel', rfl⟩ : ∃ n, fuel' = n + 1 := ⟨fuel' - 1, by omega⟩
    cases hcur : A.current m with
    | none =>
      have hcur' := sim.rev.atEnd hrel hcur
      exact ⟨m, m', by simp [scanBackLoop, hcur], by simp [scanBackLoop, hcur'], hrel⟩
    | some x =>
      have hlt := sim.rev.left_step hrel hcur
      by_cases hk : x.userKey < k
      · refine ⟨m, m', by simp [scanBackLoop, hcur, hk], ?_, hrel⟩
        cases hcur' : C.current m' with
        | none => simp [scanBackLoop, hcur']
        | some y =>
          have hy : y.userKey < k := (InternalKey.userKey_mono (sim.rev_le hrel hcur hcur')).trans_lt hk
          simp [scanBackLoop, hcur', hy]
      · by_cases hs : x.sequence ≤ s
        · have hcur' := sim.rev.visible hrel hcur hs
          have hlt' := sim.rev.left_step' hrel hcur'
          simp only [scanBackLoop, hcur, hcur', if_neg hk]
          exact ih fuel' (sim.rev.advance hrel hcur hs) (by omega) (by omega)
        · have hskip := ih (fuel' + 1) (sim.rev.skip hrel hcur hs) (by omega) hfuel'
          simpa only [scanBackLoop, hcur, if_neg hk] using hskip

end Loops

/-! ### The calls -/

section Calls

open DBIter

variable [LinearOrder K] {s : ℕ} {A : InternalOps S K V} {C : InternalOps S' K V} {Fwd Rev : S → S' → Prop}

/-- Two iterators show the same, and go on so. Nothing is said of iterators that are not
valid, as these are moved only by a seek. -/
inductive Related (s : ℕ) (current : S → Option (Entry K V)) (Fwd Rev : S → S' → Prop) (it : DBIter S K V)
    (it' : DBIter S' K V) : Prop
  | invalid : it.valid = false → it'.valid = false → Related s current Fwd Rev it it'
  /-- Both internal iterators stand on the entry shown. -/
  | forward {x : Entry K V} : it.valid = true → it'.valid = true → it.direction = .forward → it'.direction = .forward →
      Fwd it.iter it'.iter → current it.iter = some x → x.sequence ≤ s → Related s current Fwd Rev it it'
  /-- The entry shown is saved. -/
  | reverse : it.valid = true → it'.valid = true → it.direction = .reverse → it'.direction = .reverse →
      it.savedKey = it'.savedKey → it.savedValue = it'.savedValue → Rev it.iter it'.iter →
      (∀ x, current it.iter = some x → x.sequence ≤ s) → Related s current Fwd Rev it it'

/-- Two calls end, with iterators that are related. -/
def Alike (s : ℕ) (current : S → Option (Entry K V)) (Fwd Rev : S → S' → Prop) (r : Option (DBIter S K V))
    (r' : Option (DBIter S' K V)) : Prop := ∃ it it', r = some it ∧ r' = some it' ∧ Related s current Fwd Rev it it'

variable {it : DBIter S K V} {it' : DBIter S' K V}

theorem Related.shows_eq (sim : Simulation s A C Fwd Rev) (h : Related s A.current Fwd Rev it it') :
    it.shows A = it'.shows C := by
  cases h with
  | invalid hv hv' => simp [shows, hv, hv']
  | forward hv hv' hd hd' hrel hcur hs => simp [shows, hv, hv', hd, hd', hcur, sim.fwd.visible hrel hcur hs]
  | reverse hv hv' hd hd' hk hval => simp [shows, hv, hv', hd, hd', hk, hval]

omit [LinearOrder K] in
theorem Related.valid_eq (h : Related s A.current Fwd Rev it it') : it.valid = it'.valid := by
  cases h <;> simp_all

omit [LinearOrder K] in
theorem Related.mono {current : S → Option (Entry K V)} {Fwd' Rev' : S → S' → Prop} (h : Related s current Fwd Rev it it')
    (hfwd : ∀ m m', Fwd m m' → Fwd' m m') (hrev : ∀ m m', Rev m m' → Rev' m m') :
    Related s current Fwd' Rev' it it' := by
  cases h with
  | invalid hv hv' => exact .invalid hv hv'
  | forward hv hv' hd hd' hrel hcur hs => exact .forward hv hv' hd hd' (hfwd _ _ hrel) hcur hs
  | reverse hv hv' hd hd' hk hval hrel hvis => exact .reverse hv hv' hd hd' hk hval (hrev _ _ hrel) hvis

omit [LinearOrder K] in
/-- A call that is made only on a valid iterator. -/
theorem Related.guarded (h : Related s A.current Fwd Rev it it') {r : Option (DBIter S K V)} {r' : Option (DBIter S' K V)}
    (hcall : it.valid = true → Alike s A.current Fwd Rev r r') :
    Alike s A.current Fwd Rev (if it.valid then r else some it) (if it'.valid then r' else some it') := by
  rw [← h.valid_eq]
  split
  next hv => exact hcall hv
  next => exact ⟨it, it', rfl, rfl, h⟩

variable [Inhabited K] [Inhabited V] (sim : Simulation s A C Fwd Rev)
include sim

omit [Inhabited V] in
theorem findNextUserEntry_sim {skipping : Bool} (hd : it.direction = .forward)
    (hd' : it'.direction = .forward) (hrel : Fwd it.iter it'.iter) (hskip : skipping = true → it.savedKey = it'.savedKey) :
    Alike s A.current Fwd Rev (findNextUserEntry A s skipping it) (findNextUserEntry C s skipping it') := by
  obtain ⟨hle, hle'⟩ := sim.fwd.left_le hrel
  obtain ⟨m, m', found, hm, hm', hrel', hfound⟩ := findNextLoop_sim sim (A.size + 1) (C.size + 1) hrel
    (by omega) (by omega) hskip
  refine ⟨_, _, by rw [findNextUserEntry, hm]; rfl, by rw [findNextUserEntry, hm']; rfl, ?_⟩
  cases found with
  | false => exact .invalid rfl rfl
  | true =>
    obtain ⟨x, hx, hs⟩ := hfound rfl
    exact .forward rfl rfl hd hd' hrel' hx hs

theorem findPrevUserEntry_sim (it : DBIter S K V) (it' : DBIter S' K V) (hd : it.direction = .reverse)
    (hd' : it'.direction = .reverse) (hrel : Rev it.iter it'.iter) :
    ∃ r r', findPrevUserEntry A s it = some r ∧ findPrevUserEntry C s it' = some r' ∧
      Related s A.current Fwd Rev r r' ∧ (C.current it'.iter = none → r.valid = false) := by
  obtain ⟨hle, hle'⟩ := sim.rev.left_le hrel
  obtain ⟨q, q', hq, hq', hrel', htype, hsaved, hcur⟩ := findPrevLoop_sim sim (A.size + 1) (C.size + 1)
    ⟨it.iter, .deletion, it.savedKey, it.savedValue⟩ ⟨it'.iter, .deletion, it'.savedKey, it'.savedValue⟩ hrel
    (Nat.lt_succ_of_le hle) (Nat.lt_succ_of_le hle') rfl fun h => absurd rfl h
  refine ⟨_, _, by rw [findPrevUserEntry, hq]; rfl, by rw [findPrevUserEntry, hq']; rfl, ?_, fun hnone => ?_⟩
  · dsimp only
    by_cases ht : q.valueType = .deletion
    · rw [if_pos ht, if_pos (htype ▸ ht)]
      exact .invalid rfl rfl
    · rw [if_neg ht, if_neg (htype ▸ ht)]
      exact .reverse rfl rfl hd hd' (hsaved ht).1 (hsaved ht).2 hrel' hcur
  · have heq : q' = ⟨it'.iter, .deletion, it'.savedKey, it'.savedValue⟩ := by
      simpa [findPrevLoop, hnone] using hq'.symm
    dsimp only
    rw [if_pos (by rw [htype, heq])]

omit [Inhabited V] in
/-- The internal iterator has been moved forward, and may be at the end. -/
theorem afterMove_sim (it : DBIter S K V) (it' : DBIter S' K V) {skipping : Bool} (hd : it.direction = .forward)
    (hd' : it'.direction = .forward) (hrel : Fwd it.iter it'.iter) (hskip : skipping = true → it.savedKey = it'.savedKey)
    {stop : DBIter S K V} {stop' : DBIter S' K V} (hstop : stop.valid = false) (hstop' : stop'.valid = false) :
    Alike s A.current Fwd Rev (if (A.current it.iter).isSome then findNextUserEntry A s skipping it else some stop)
      (if (C.current it'.iter).isSome then findNextUserEntry C s skipping it' else some stop') := by
  obtain ⟨r, r', hr, hr', hrelated⟩ := findNextUserEntry_sim sim hd hd' hrel hskip
  cases hcur : A.current it.iter with
  | none =>
    have hcur' := sim.fwd.atEnd hrel hcur
    exact ⟨stop, stop', by simp, by simp [hcur'], .invalid hstop hstop'⟩
  | some x =>
    cases hcur' : C.current it'.iter with
    | none =>
      -- the one over all entries still looks through entries that are not visible
      refine ⟨r, stop', by simpa using hr, by simp, .invalid ?_ hstop'⟩
      have hfalse : r'.valid = false := by
        have : findNextUserEntry C s skipping it' = some { it' with iter := it'.iter, valid := false, savedKey := default } := by
          simp [findNextUserEntry, findNextLoop, hcur']
        cases hr'.symm.trans this
        rfl
      rw [hrelated.valid_eq, hfalse]
    | some y => exact ⟨r, r', by simpa using hr, by simpa using hr', hrelated⟩

omit [Inhabited V] in
theorem next_sim (h : Related s A.current Fwd Rev it it') (hv : it.valid = true) :
    Alike s A.current Fwd Rev (next A s it) (next C s it') := by
  cases h with
  | invalid hinv => simp [hinv] at hv
  | @forward x _ _ hd hd' hrel hcur hs =>
    have hcur' := sim.fwd.visible hrel hcur hs
    simp only [next, hd, hd']
    exact afterMove_sim sim ⟨A.next it.iter, (A.current it.iter).elim it.savedKey Entry.userKey, it.savedValue, .forward, it.valid⟩
      ⟨C.next it'.iter, (C.current it'.iter).elim it'.savedKey Entry.userKey, it'.savedValue, .forward, it'.valid⟩ rfl rfl
      (sim.fwd.advance hrel hcur hs) (fun _ => by simp [hcur, hcur']) rfl rfl
  | reverse _ _ hd hd' hk _ hrel hvis =>
    simp only [next, hd, hd']
    refine afterMove_sim sim
      ⟨if (A.current it.iter).isSome then A.next it.iter else A.seekToFirst it.iter, it.savedKey, it.savedValue, .forward, it.valid⟩
      ⟨if (C.current it'.iter).isSome then C.next it'.iter else C.seekToFirst it'.iter, it'.savedKey, it'.savedValue, .forward,
        it'.valid⟩ rfl rfl ?_ (fun _ => hk) rfl rfl
    dsimp only
    cases hcur : A.current it.iter with
    | none =>
      rw [sim.rev.atEnd hrel hcur]
      exact sim.seekToFirst _ _
    | some x =>
      rw [sim.rev.visible hrel hcur (hvis x hcur)]
      exact sim.turnForward hrel hcur (hvis x hcur)

theorem prev_sim (h : Related s A.current Fwd Rev it it') (hv : it.valid = true) :
    Alike s A.current Fwd Rev (prev A s it) (prev C s it') := by
  cases h with
  | invalid hinv => simp [hinv] at hv
  | @forward x _ _ hd hd' hrel hcur hs =>
    have hcur' := sim.fwd.visible hrel hcur hs
    have hturn := sim.turnBack hrel hcur hs
    obtain ⟨hle, hle'⟩ := sim.rev.left_le hturn
    obtain ⟨m, m', hm, hm', hrel'⟩ := scanBackLoop_sim sim (A.size + 1) (C.size + 1) x.userKey hturn
      (by omega) (by omega)
    simp only [prev, hd, hd', hcur, hcur', hm, hm', Option.bind_some]
    cases hat : A.current m with
    | none =>
      rw [sim.rev.atEnd hrel' hat]
      exact ⟨_, _, rfl, rfl, .invalid rfl rfl⟩
    | some y =>
      obtain ⟨r, r', hr, hr', hrelated, hnone⟩ := findPrevUserEntry_sim sim
        { it with iter := m, savedKey := x.userKey, direction := .reverse }
        { it' with iter := m', savedKey := x.userKey, direction := .reverse } rfl rfl hrel'
      cases hat' : C.current m' with
      | none => exact ⟨r, _, by simpa using hr, rfl, .invalid (hnone hat') rfl⟩
      | some z => exact ⟨r, r', by simpa using hr, by simpa using hr', hrelated⟩
  | reverse _ _ hd hd' _ _ hrel _ =>
    obtain ⟨r, r', hr, hr', hrelated, -⟩ := findPrevUserEntry_sim sim it it' hd hd' hrel
    exact ⟨r, r', by simpa [prev, hd] using hr, by simpa [prev, hd'] using hr', hrelated⟩

/-- **Each call** keeps the iterators related, and ends. -/
theorem Related.call (encode : InternalKey K → K) (h : Related s A.current Fwd Rev it it') (c : IterCall K) :
    Alike s A.current Fwd Rev (call A s encode it c) (call C s encode it' c) := by
  cases c with
  | seekToFirst =>
    exact afterMove_sim sim _ _ rfl rfl (sim.seekToFirst it.iter it'.iter) (fun h => absurd h (by simp)) rfl rfl
  | seekToLast =>
    obtain ⟨r, r', hr, hr', hrelated, -⟩ := findPrevUserEntry_sim sim
      { it with direction := .reverse, savedValue := default, iter := A.seekToLast it.iter }
      { it' with direction := .reverse, savedValue := default, iter := C.seekToLast it'.iter } rfl rfl
      (sim.seekToLast _ _)
    exact ⟨r, r', hr, hr', hrelated⟩
  | seek target =>
    exact afterMove_sim sim _ _ rfl rfl (sim.seek (lookupKey target s) it.iter it'.iter) (fun h => absurd h (by simp)) rfl rfl
  | next => exact h.guarded (next_sim sim h)
  | prev => exact h.guarded (prev_sim sim h)

end Calls

/-! ### Runs -/

/-- What happens to an iterator: it is called, or the memtable gets an entry. -/
inductive IterEvent (K V : Type) where
  | call (c : IterCall K)
  | insert (e : Entry K V)

def IterEvent.isCall : IterEvent K V → Bool
  | .call _ => true
  | .insert _ => false

section Runs

variable [LinearOrder K] {s n : ℕ} {live : Fin n} {contents : Fin n → List (Entry K V)}

/-- The insertions are of newer entries, and keep the precondition of `SkipList::Insert`:
nothing that compares equal is in the list. -/
def Insertable (s : ℕ) : List (Entry K V) → List (IterEvent K V) → Prop
  | _, [] => True
  | M, .call _ :: events => Insertable s M events
  | M, .insert e :: events => s < e.sequence ∧ (∀ x ∈ M, x.key ≠ e.key) ∧ Insertable s (insertSorted Entry.key e M) events

theorem insertable_filter (M : List (Entry K V)) (events : List (IterEvent K V)) :
    Insertable s M (events.filter IterEvent.isCall) := by
  induction events generalizing M with
  | nil => trivial
  | cons event events ih =>
    cases event with
    | call c => exact ih M
    | insert e => exact ih M

theorem current_insertEntry (e : Entry K V) : ∀ {n : ℕ} (live : Fin n) (contents : Fin n → List (Entry K V)),
    (internalOps (insertEntry live e contents)).current = (internalOps contents).current
  | 0, _, _ => rfl
  | 1, _, _ => rfl
  | _ + 2, _, _ => rfl

variable [Inhabited K] [Inhabited V]

/-- What the iterator shows after each of the calls; the lists are those of the children,
`live` is the child for the memtable. -/
def showAfterCalls (encode : InternalKey K → K) (s : ℕ) (live : Fin n) (contents : Fin n → List (Entry K V))
    (it : DBIter (InternalIterator K V n) K V) : List (IterEvent K V) → Option (List (Option (Option (K × V))))
  | [] => some []
  | .call c :: events =>
    (it.call (internalOps contents) s encode c).bind fun it =>
      (showAfterCalls encode s live contents it events).map (it.shows (internalOps contents) :: ·)
  | .insert e :: events => showAfterCalls encode s live (insertEntry live e contents) it events

/-- The iterator shows what the one over the visible entries shows, without the insertions. -/
theorem showAfterCalls_visible (encode : InternalKey K → K) (live : Fin n) (contents : Fin n → List (Entry K V))
    {events : List (IterEvent K V)} (hL : ∀ i, Ordered (contents i)) (hins : Insertable s (contents live) events)
    (it it' : DBIter (InternalIterator K V n) K V)
    (h : Related s (internalOps contents).current (InternalFwd s contents) (InternalRev s contents) it it') :
    ∃ shown, showAfterCalls encode s live contents it events = some shown ∧
      showAfterCalls encode s live (fun i => visibleEntries s (contents i)) it' (events.filter IterEvent.isCall) = some shown := by
  induction events generalizing contents it it' with
  | nil => exact ⟨[], rfl, rfl⟩
  | cons event events ih =>
    cases event with
    | call c =>
      obtain ⟨r, r', hr, hr', hrelated⟩ := h.call (internalSimulation hL) encode c
      obtain ⟨shown, hshown, hshown'⟩ := ih contents hL hins r r' hrelated
      refine ⟨r.shows (internalOps contents) :: shown, by simp [showAfterCalls, hr, hshown], ?_⟩
      rw [hrelated.shows_eq (internalSimulation hL), List.filter_cons_of_pos rfl]
      simp [showAfterCalls, hr', hshown']
    | insert e =>
      obtain ⟨he, hnew, hins⟩ := hins
      have hlive : insertEntry live e contents live = insertSorted Entry.key e (contents live) := Function.update_self ..
      have hrelated : Related s (internalOps (insertEntry live e contents)).current
          (InternalFwd s (insertEntry live e contents)) (InternalRev s (insertEntry live e contents)) it it' := by
        rw [current_insertEntry]
        exact h.mono (fun _ _ h => h.insert he) fun _ _ h => h.insert he
      obtain ⟨shown, hshown, hshown'⟩ := ih (insertEntry live e contents) (ordered_insertEntry hL hnew)
        (hlive ▸ hins) it it' hrelated
      simp only [visibleEntries_insertEntry he] at hshown'
      exact ⟨shown, hshown, hshown'⟩

/-- **Later writes do not change what an iterator shows**: every call gives the same as in the
run without the insertions. -/
theorem showAfterCalls_insertions (encode : InternalKey K → K) (hL : ∀ i, Ordered (contents i)) {events : List (IterEvent K V)}
    (hins : Insertable s (contents live) events) :
    ∃ shown, showAfterCalls encode s live contents (.new (newMergingIterator n)) events = some shown ∧
      showAfterCalls encode s live contents (.new (newMergingIterator n)) (events.filter IterEvent.isCall) = some shown := by
  have hnew : Related s (internalOps contents).current (InternalFwd s contents) (InternalRev s contents)
      (DBIter.new (newMergingIterator n)) (DBIter.new (newMergingIterator n)) := .invalid rfl rfl
  obtain ⟨shown, hshown, hvisible⟩ := showAfterCalls_visible encode live contents hL hins _ _ hnew
  obtain ⟨shown', hshown', hvisible'⟩ := showAfterCalls_visible encode live contents hL
    (insertable_filter (contents live) events) _ _ hnew
  rw [List.filter_filter] at hvisible'
  simp only [Bool.and_self] at hvisible'
  cases hvisible.symm.trans hvisible'
  exact ⟨shown, hshown, hshown'⟩

/-- A memtable and a table. -/
def twoLists : Fin 2 → List (Entry ℕ ℕ)
  | 0 => [⟨⟨1, 2, .value⟩, 10⟩]
  | 1 => [⟨⟨0, 1, .value⟩, 20⟩, ⟨⟨3, 4, .value⟩, 30⟩]

/-- Calls that go on and back around two insertions. -/
def callsAroundInsertions : List (IterEvent ℕ ℕ) :=
  [.call .seekToFirst, .insert ⟨⟨1, 7, .deletion⟩, 0⟩, .call .next, .insert ⟨⟨2, 8, .value⟩, 40⟩, .call .next, .call .prev]

theorem showAfterCalls_insertions_two :
    ∃ shown, showAfterCalls InternalKey.userKey 5 0 twoLists (.new (newMergingIterator 2)) callsAroundInsertions = some shown ∧
      showAfterCalls InternalKey.userKey 5 0 twoLists (.new (newMergingIterator 2))
        [.call .seekToFirst, .call .next, .call .next, .call .prev] = some shown :=
  have hsorted : ∀ i, Ordered (twoLists i) := by decide
  have hins : Insertable 5 (twoLists 0) callsAroundInsertions :=
    ⟨by decide, by decide, by decide, by decide, trivial⟩
  showAfterCalls_insertions InternalKey.userKey hsorted hins

end Runs

end TLevelDB.Db
