import TLevelDB.Table.Iterator
import TLevelDB.Lib.Sections

/-!
# `TwoLevelIterator` in all directions

The operations that going through a table once does not need: `SeekToLast`, `Seek` and
`Prev`. An iterator implements a cursor over a list if every call that is allowed does to it
what the call does to the cursor (`CursorOps.Implements`). If the index is a cursor over
separators with handles, and a handle leads to a cursor over the entries of a block, then
the two levels are a cursor over the entries of all blocks (`Parts.implements`). Blocks may be
empty; then the loops go over them.

`InitDataBlock` keeps the data iterator if it is one of the right block. What an iterator
shows does not depend on that: it is the same with one that makes a new data iterator every
time (`initDataBlockAnew`).
-/

namespace TLevelDB.Table

open Cursors

/-! ### The interface -/

/-- All that an iterator can do. -/
structure CursorOps (ρ ι κ ν : Type) extends IteratorOps ρ ι κ ν where
  seekToLast : ρ × ι → ρ × ι
  seek : κ → ρ × ι → ρ × ι
  prev : ρ × ι → ρ × ι

/-- The calls of an iterator that move it. -/
inductive IteratorCall (κ : Type) where
  | seekToFirst
  | seekToLast
  | seek (target : κ)
  | next
  | prev

section Interface

variable {ρ ι κ ν : Type}

def CursorOps.call (ops : CursorOps ρ ι κ ν) (s : ρ × ι) : IteratorCall κ → ρ × ι
  | .seekToFirst => ops.seekToFirst s
  | .seekToLast => ops.seekToLast s
  | .seek target => ops.seek target s
  | .next => ops.next s
  | .prev => ops.prev s

/-- `Next` and `Prev` require a valid iterator. -/
def IteratorCall.Legal (valid : Bool) : IteratorCall κ → Prop
  | .next | .prev => valid = true
  | _ => True

/-- Each call is allowed when it is made. -/
def CursorOps.LegalCalls (ops : CursorOps ρ ι κ ν) : ρ × ι → List (IteratorCall κ) → Prop
  | _, [] => True
  | s, call :: calls => call.Legal (ops.current s.2).isSome ∧ ops.LegalCalls (ops.call s call) calls

instance : (valid : Bool) → (call : IteratorCall κ) → Decidable (call.Legal valid)
  | _, .next | _, .prev => inferInstanceAs (Decidable (_ = true))
  | _, .seekToFirst | _, .seekToLast | _, .seek _ => inferInstanceAs (Decidable True)

instance CursorOps.decidableLegalCalls (ops : CursorOps ρ ι κ ν) :
    (s : ρ × ι) → (calls : List (IteratorCall κ)) → Decidable (ops.LegalCalls s calls)
  | _, [] => inferInstanceAs (Decidable True)
  | s, call :: calls =>
    have := ops.decidableLegalCalls (ops.call s call) calls
    inferInstanceAs (Decidable (_ ∧ _))

variable (notBelow : κ → κ → Prop) [DecidableRel notBelow]

/-- A call on a cursor over a list; `notBelow` compares a key with what is sought. -/
def listCall (L : List (κ × ν)) (c : Cursor (κ × ν)) : IteratorCall κ → Cursor (κ × ν)
  | .seekToFirst => Cursors.seekToFirst L
  | .seekToLast => Cursors.seekToLast L
  | .seek target => Cursors.seek (fun e => notBelow e.1 target) L
  | .next => Cursors.next c
  | .prev => Cursors.prev c

/-- The iterator is a cursor over the list, where `S` says which cursor it is. -/
structure CursorOps.Implements (ops : CursorOps ρ ι κ ν) (Inv : ρ → Prop) (L : List (κ × ν))
    (S : ι → Cursor (κ × ν) → Prop) : Prop where
  toList : ∀ {it z}, S it (some z) → z.toList = L
  current : ∀ {it c}, S it c → ops.current it = c.map Zipper.cur
  status : ∀ {it c}, S it c → ops.status it = none
  call : ∀ {r it c}, Inv r → S it c → ∀ call : IteratorCall κ, call.Legal c.isSome →
    Inv (ops.call (r, it) call).1 ∧ S (ops.call (r, it) call).2 (listCall notBelow L c call)

variable {notBelow} {ops : CursorOps ρ ι κ ν} {Inv : ρ → Prop} {L : List (κ × ν)} {S : ι → Cursor (κ × ν) → Prop}

section Calls

variable (h : ops.Implements notBelow Inv L S) {r : ρ} {it : ι} {c : Cursor (κ × ν)} {z : Zipper (κ × ν)}
include h

theorem CursorOps.Implements.seekToFirst (hr : Inv r) (hs : S it c) :
    Inv (ops.seekToFirst (r, it)).1 ∧ S (ops.seekToFirst (r, it)).2 (Cursors.seekToFirst L) :=
  h.call hr hs .seekToFirst trivial

theorem CursorOps.Implements.seekToLast (hr : Inv r) (hs : S it c) :
    Inv (ops.seekToLast (r, it)).1 ∧ S (ops.seekToLast (r, it)).2 (Cursors.seekToLast L) :=
  h.call hr hs .seekToLast trivial

theorem CursorOps.Implements.seek (target : κ) (hr : Inv r) (hs : S it c) : Inv (ops.seek target (r, it)).1 ∧
    S (ops.seek target (r, it)).2 (Cursors.seek (fun e => notBelow e.1 target) L) :=
  h.call hr hs (.seek target) trivial

theorem CursorOps.Implements.next (hr : Inv r) (hs : S it (some z)) :
    Inv (ops.next (r, it)).1 ∧ S (ops.next (r, it)).2 (Cursors.next (some z)) :=
  h.call hr hs .next rfl

theorem CursorOps.Implements.prev (hr : Inv r) (hs : S it (some z)) :
    Inv (ops.prev (r, it)).1 ∧ S (ops.prev (r, it)).2 (Cursors.prev (some z)) :=
  h.call hr hs .prev rfl

end Calls

/-- Every sequence of calls does to the iterator what it does to the cursor. -/
theorem CursorOps.Implements.calls (h : ops.Implements notBelow Inv L S) {r : ρ} {it : ι} {c : Cursor (κ × ν)}
    (hr : Inv r) (hs : S it c) {calls : List (IteratorCall κ)} (hlegal : ops.LegalCalls (r, it) calls) :
    S (calls.foldl ops.call (r, it)).2 (calls.foldl (listCall notBelow L) c) := by
  induction calls generalizing r it c with
  | nil => exact hs
  | cons call calls ih =>
    have hvalid : (ops.current it).isSome = c.isSome := by rw [h.current hs, Option.isSome_map]
    have hstep := h.call hr hs call (hvalid ▸ hlegal.1)
    exact ih hstep.1 hstep.2 hlegal.2

/-- Two iterators over the same list show the same after every sequence of calls that one of
them allows. -/
theorem CursorOps.Implements.current_eq {ρ' ι' : Type} {ops' : CursorOps ρ' ι' κ ν} {Inv' : ρ' → Prop}
    {S' : ι' → Cursor (κ × ν) → Prop} (h : ops.Implements notBelow Inv L S) (h' : ops'.Implements notBelow Inv' L S')
    {r : ρ} {it : ι} {r' : ρ'} {it' : ι'} {c : Cursor (κ × ν)} (hr : Inv r) (hs : S it c) (hr' : Inv' r') (hs' : S' it' c)
    {calls : List (IteratorCall κ)} (hlegal : ops.LegalCalls (r, it) calls) :
    ops'.current (calls.foldl ops'.call (r', it')).2 = ops.current (calls.foldl ops.call (r, it)).2 := by
  induction calls generalizing r it r' it' c with
  | nil => rw [List.foldl_nil, List.foldl_nil, h.current hs, h'.current hs']
  | cons call calls ih =>
    have hvalid : (ops.current it).isSome = c.isSome := by rw [h.current hs, Option.isSome_map]
    have hstep := h.call hr hs call (hvalid ▸ hlegal.1)
    have hstep' := h'.call hr' hs' call (hvalid ▸ hlegal.1)
    exact ih hstep.1 hstep.2 hstep'.1 hstep'.2 hlegal.2

variable (notBelow)

/-- An iterator that is the cursor itself; the state of the rest of the system plays no role. -/
def CursorOps.ofList (ρ : Type) (L : List (κ × ν)) : CursorOps ρ (Cursor (κ × ν)) κ ν where
  current c := c.map Zipper.cur
  status _ := none
  seekToFirst s := (s.1, Cursors.seekToFirst L)
  seekToLast s := (s.1, Cursors.seekToLast L)
  seek target s := (s.1, Cursors.seek (fun e => notBelow e.1 target) L)
  next s := (s.1, Cursors.next s.2)
  prev s := (s.1, Cursors.prev s.2)

theorem CursorOps.implements_ofList (Inv : ρ → Prop) (L : List (κ × ν)) :
    (CursorOps.ofList notBelow ρ L).Implements notBelow Inv L fun it c => it = c ∧ ∀ z, c = some z → z.toList = L where
  toList h := h.2 _ rfl
  current h := h.1 ▸ rfl
  status _ := rfl
  call {r it c} hr h call hlegal := by
    obtain ⟨rfl, htoList⟩ := h
    refine ⟨?_, ?_, fun z hz => ?_⟩
    · cases call <;> exact hr
    · cases call <;> rfl
    · cases call with
      | seekToFirst => exact ((seek_eq_some_iff _).mp hz).1
      | seekToLast => exact ((seekBack_eq_some_iff _).mp hz).1
      | seek target => exact ((seek_eq_some_iff _).mp hz).1
      | next =>
        obtain ⟨w, rfl⟩ := Option.isSome_iff_exists.mp hlegal
        exact (toList_of_next hz).trans (htoList w rfl)
      | prev =>
        obtain ⟨w, rfl⟩ := Option.isSome_iff_exists.mp hlegal
        exact (toList_of_prev hz).trans (htoList w rfl)

/-- Iterators over the lists that handles stand for, each with its handle. -/
def CursorOps.ofLists {H : Type} (ρ : Type) (contents : H → List (κ × ν)) : CursorOps ρ (H × Cursor (κ × ν)) κ ν where
  current it := it.2.map Zipper.cur
  status _ := none
  seekToFirst s := (s.1, s.2.1, Cursors.seekToFirst (contents s.2.1))
  seekToLast s := (s.1, s.2.1, Cursors.seekToLast (contents s.2.1))
  seek target s := (s.1, s.2.1, Cursors.seek (fun e => notBelow e.1 target) (contents s.2.1))
  next s := (s.1, s.2.1, Cursors.next s.2.2)
  prev s := (s.1, s.2.1, Cursors.prev s.2.2)

theorem CursorOps.implements_ofLists {H : Type} (Inv : ρ → Prop) (contents : H → List (κ × ν)) (h : H) :
    (CursorOps.ofLists notBelow ρ contents).Implements notBelow Inv (contents h)
      fun it c => it = (h, c) ∧ ∀ z, c = some z → z.toList = contents h where
  toList hit := hit.2 _ rfl
  current hit := hit.1 ▸ rfl
  status _ := rfl
  call {r it c} hr hit call hlegal := by
    obtain ⟨rfl, htoList⟩ := hit
    -- the cursor moves as that of one list does
    have hlist := (CursorOps.implements_ofList notBelow Inv (contents h)).call hr ⟨rfl, htoList⟩ call hlegal
    cases call <;> exact ⟨hr, rfl, hlist.2.2⟩

end Interface

/-! ### The two levels -/

namespace TwoLevelIterator

variable {ρ I D H κ ν : Type}

section Model

variable [DecidableEq H] (index : CursorOps ρ I κ H) (data : CursorOps ρ D κ ν) (blockFunction : ρ → H → ρ × D)
  (init : ρ × TwoLevelIterator I D H → ρ × TwoLevelIterator I D H) (left right : I → ℕ)

section

omit [DecidableEq H]

def skipEmptyDataBlocksBackward (s : ρ × TwoLevelIterator I D H) : ρ × TwoLevelIterator I D H :=
  skipLoop index.toIteratorOps data.toIteratorOps init index.prev data.seekToLast (right s.2.indexIter + 1) s

/-- The operations with this `InitDataBlock`; `left` and `right` bound how many entries the index
iterator has ahead of it and behind it. -/
def cursorOpsWith : CursorOps ρ (TwoLevelIterator I D H) κ ν where
  toIteratorOps := ops index.toIteratorOps data.toIteratorOps init left
  seekToLast s := skipEmptyDataBlocksBackward index data init right
    (onData data.seekToLast (init (onIndex index.seekToLast s)))
  seek target s := skipEmptyDataBlocksForward index.toIteratorOps data.toIteratorOps init left
    (onData (data.seek target) (init (onIndex (index.seek target) s)))
  prev s := skipEmptyDataBlocksBackward index data init right (onData data.prev s)

end

def cursorOps : CursorOps ρ (TwoLevelIterator I D H) κ ν :=
  cursorOpsWith index data (initDataBlock index.toIteratorOps data.toIteratorOps blockFunction) left right

omit [DecidableEq H] in
/-- `InitDataBlock` without the test whether the data iterator is already one of this block. -/
def initDataBlockAnew (s : ρ × TwoLevelIterator I D H) : ρ × TwoLevelIterator I D H :=
  match index.current s.2.indexIter with
  | none => (s.1, s.2.setDataIterator data.toIteratorOps none)
  | some (_, handle) =>
    let r := blockFunction s.1 handle
    (r.1, { s.2.setDataIterator data.toIteratorOps (some r.2) with dataBlockHandle := some handle })

end Model

/-! ### Where the two iterators are -/

section Correct

variable (SI : I → Cursor (κ × H) → Prop) (SD : H → D → Cursor (κ × ν) → Prop) (contents : H → List (κ × ν))

/-- The index is on an entry, and the data iterator is one of its block. -/
structure OnBlock (it : TwoLevelIterator I D H) (zs : Zipper (κ × H)) (c : Cursor (κ × ν)) : Prop where
  index : SI it.indexIter (some zs)
  handle : it.dataBlockHandle = some zs.cur.2
  data : ∃ d, it.dataIter = some d ∧ SD zs.cur.2 d c
  saved : it.saved = none

/-- Both are nowhere. -/
structure Nowhere (it : TwoLevelIterator I D H) : Prop where
  index : SI it.indexIter none
  data : it.dataIter = none
  saved : it.saved = none

/-- The index has moved, the data iterator has not. -/
structure Moved (it : TwoLevelIterator I D H) (c : Cursor (κ × H)) : Prop where
  index : SI it.indexIter c
  data : ∀ d, it.dataIter = some d → ∃ h c, it.dataBlockHandle = some h ∧ SD h d c
  saved : it.saved = none

/-- The position of the two levels. -/
inductive Stands (it : TwoLevelIterator I D H) : Cursor (κ × ν) → Prop where
  | nowhere {c} : Moved SI SD it c → it.dataIter = none → Stands it none
  | on {zs z} : OnBlock SI SD it zs (some z) → Stands it (some (joined (fun s => contents s.2) zs z))

variable {index : CursorOps ρ I κ H} {data : CursorOps ρ D κ ν} {blockFunction : ρ → H → ρ × D}
  {init : ρ × TwoLevelIterator I D H → ρ × TwoLevelIterator I D H} {left right : I → ℕ} {SI SD contents}
  {notBelow : κ → κ → Prop} [DecidableRel notBelow] {Inv : ρ → Prop} {idx : List (κ × H)}
  {it : TwoLevelIterator I D H} {s : ρ × TwoLevelIterator I D H} {zs : Zipper (κ × H)} {a b : List (κ × ν)}
  {c : Cursor (κ × ν)}

theorem OnBlock.moved (h : OnBlock SI SD it zs c) : Moved SI SD it (some zs) := by
  obtain ⟨d, hd, hsd⟩ := h.data
  refine ⟨h.index, fun d' hd' => ?_, h.saved⟩
  obtain rfl : d = d' := by simpa [hd] using hd'
  exact ⟨_, _, h.handle, hsd⟩

theorem Nowhere.moved (h : Nowhere SI it) : Moved SI SD it none := ⟨h.index, by simp [h.data], h.saved⟩

theorem Stands.moved (h : Stands SI SD contents it c) : ∃ c', Moved SI SD it c' := by
  cases h with
  | nowhere h => exact ⟨_, h⟩
  | on h => exact ⟨_, h.moved⟩

theorem Nowhere.stands (h : Nowhere SI it) : Stands SI SD contents it none := .nowhere h.moved h.data

/-- What the parts of a table have to be for the whole to be a cursor. -/
structure Parts (index : CursorOps ρ I κ H) (data : CursorOps ρ D κ ν) (blockFunction : ρ → H → ρ × D)
    (left right : I → ℕ) (notBelow : κ → κ → Prop) [DecidableRel notBelow] (Inv : ρ → Prop) (idx : List (κ × H))
    (contents : H → List (κ × ν)) (SI : I → Cursor (κ × H) → Prop) (SD : H → D → Cursor (κ × ν) → Prop) : Prop where
  index : index.Implements notBelow Inv idx SI
  data : ∀ h, data.Implements notBelow Inv (contents h) (SD h)
  block : ∀ {r s}, Inv r → s ∈ idx → Inv (blockFunction r s.2).1 ∧ SD s.2 (blockFunction r s.2).2 none
  left : ∀ {i zs}, SI i (some zs) → zs.after.length ≤ left i
  right : ∀ {i zs}, SI i (some zs) → zs.before.length ≤ right i
  /-- A separator is not below the keys of its block. -/
  low : ∀ s ∈ idx, ∀ target, ¬ notBelow s.1 target → ∀ e ∈ contents s.2, ¬ notBelow e.1 target
  /-- The keys of later blocks are not below a separator. -/
  high : idx.Pairwise fun s t => ∀ target, notBelow s.1 target → ∀ e ∈ contents t.2, notBelow e.1 target

/-- What `InitDataBlock` has to do: to get a data iterator of the block of the index entry, at
whatever position. -/
def Inits (Inv : ρ → Prop) (SI : I → Cursor (κ × H) → Prop) (SD : H → D → Cursor (κ × ν) → Prop)
    (init : ρ × TwoLevelIterator I D H → ρ × TwoLevelIterator I D H) : Prop :=
  ∀ {s c}, Inv s.1 → Moved SI SD s.2 c →
    Inv (init s).1 ∧ c.elim (Nowhere SI (init s).2) fun zs => ∃ cd, OnBlock SI SD (init s).2 zs cd

section Init

variable (P : Parts index data blockFunction left right notBelow Inv idx contents SI SD)
include P

theorem Parts.mem {i : I} {zs : Zipper (κ × H)} (h : SI i (some zs)) : zs.cur ∈ idx := by
  rw [← P.index.toList h]
  exact zs.cur_mem

/-- No error is saved with the data iterator that goes. -/
theorem Parts.saved {c : Cursor (κ × H)} (h : Moved SI SD it c) :
    it.saved.or (it.dataIter.bind data.status) = none := by
  rw [h.saved, Option.none_or]
  cases hd : it.dataIter with
  | none => rfl
  | some d =>
    obtain ⟨h', c', -, hsd⟩ := h.data d hd
    exact (P.data h').status hsd

theorem Parts.inits_anew : Inits Inv SI SD (initDataBlockAnew index data blockFunction) := by
  intro s c hr h
  have hcurrent := P.index.current h.index
  rw [initDataBlockAnew]
  cases c with
  | none =>
    simp only [hcurrent, Option.map_none]
    exact ⟨hr, h.index, rfl, P.saved h⟩
  | some zs =>
    simp only [hcurrent, Option.map_some]
    obtain ⟨hr', hsd⟩ := P.block hr (P.mem h.index)
    exact ⟨hr', none, h.index, rfl, ⟨_, rfl, hsd⟩, P.saved h⟩

/-- The data iterator is replaced only if the block is another one. -/
theorem Parts.inits [DecidableEq H] : Inits Inv SI SD (initDataBlock index.toIteratorOps data.toIteratorOps blockFunction) := by
  intro s c hr h
  have hanew := P.inits_anew hr h
  have hcurrent := P.index.current h.index
  rw [initDataBlockAnew] at hanew
  rw [initDataBlock]
  cases c with
  | none =>
    simp only [hcurrent, Option.map_none] at hanew ⊢
    exact hanew
  | some zs =>
    simp only [hcurrent, Option.map_some] at hanew ⊢
    split
    · rename_i hsame
      simp only [Bool.and_eq_true, Option.isSome_iff_exists, beq_iff_eq] at hsame
      obtain ⟨⟨d, hd⟩, hhandle⟩ := hsame
      obtain ⟨h', c', hh', hsd⟩ := h.data d hd
      obtain rfl : h' = zs.cur.2 := by simpa [hh'] using hhandle
      exact ⟨hr, c', h.index, hhandle, ⟨d, hd, hsd⟩, h.saved⟩
    · exact hanew

end Init

theorem OnBlock.onData {c' : Cursor (κ × ν)} (h : OnBlock SI SD s.2 zs c) {f : ρ × D → ρ × D}
    (hf : ∀ d, SD zs.cur.2 d c → Inv (f (s.1, d)).1 ∧ SD zs.cur.2 (f (s.1, d)).2 c') :
    Inv (TwoLevelIterator.onData f s).1 ∧ OnBlock SI SD (TwoLevelIterator.onData f s).2 zs c' := by
  obtain ⟨d, hd, hsd⟩ := h.data
  obtain ⟨hr, hsd'⟩ := hf d hsd
  rw [TwoLevelIterator.onData]
  simp only [hd]
  exact ⟨hr, h.index, h.handle, ⟨_, rfl, hsd'⟩, h.saved⟩

/-- The index moves, and the data iterator goes to a place in the new block. -/
theorem Inits.enter (hinit : Inits Inv SI SD init) {c c' : Cursor (κ × H)} (h : Moved SI SD s.2 c)
    {move : ρ × I → ρ × I} {f : ρ × D → ρ × D}
    (hmove : Inv (move (s.1, s.2.indexIter)).1 ∧ SI (move (s.1, s.2.indexIter)).2 c') {g : H → Cursor (κ × ν)}
    (hf : ∀ {r h d cd}, Inv r → SD h d cd → Inv (f (r, d)).1 ∧ SD h (f (r, d)).2 (g h)) :
    let s' := TwoLevelIterator.onData f (init (onIndex move s))
    Inv s'.1 ∧ c'.elim (Nowhere SI s'.2) fun zs => OnBlock SI SD s'.2 zs (g zs.cur.2) := by
  have hmoved : Moved SI SD (onIndex move s).2 c' := ⟨hmove.2, h.data, h.saved⟩
  obtain ⟨hr, hplaced⟩ := hinit (s := onIndex move s) hmove.1 hmoved
  generalize init (onIndex move s) = t at hr hplaced ⊢
  cases c' with
  | none =>
    have hdata : t.2.dataIter = none := hplaced.data
    have hnone : TwoLevelIterator.onData f t = t := by rw [TwoLevelIterator.onData, hdata]
    dsimp only
    rw [hnone]
    exact ⟨hr, hplaced⟩
  | some zs =>
    obtain ⟨cd, hon⟩ := hplaced
    exact hon.onData fun d hsd => hf hr hsd

/-! ### Skipping blocks -/

section Skip

variable (P : Parts index data blockFunction left right notBelow Inv idx contents SI SD)
  {move : ρ × I → ρ × I} {enter : ρ × D → ρ × D}
include P

/-- The loop ends where there is an entry. -/
theorem Parts.skipLoop_of_some {z : Zipper (κ × ν)} (h : OnBlock SI SD s.2 zs (some z)) (n : ℕ) :
    skipLoop index.toIteratorOps data.toIteratorOps init move enter n s = s := by
  obtain ⟨d, hd, hsd⟩ := h.data
  have hvalid := (P.data _).current hsd
  cases n with
  | zero => rfl
  | succ n =>
    rw [skipLoop, if_pos]
    simp [TwoLevelIterator.current, hd, hvalid]

theorem Parts.skipLoop_of_nowhere (hr : Inv s.1) (h : Nowhere SI s.2) (n : ℕ) :
    let s' := skipLoop index.toIteratorOps data.toIteratorOps init move enter n s
    Inv s'.1 ∧ Nowhere SI s'.2 := by
  have hcurrent := P.index.current h.index
  cases n with
  | zero => exact ⟨hr, h⟩
  | succ n =>
    rw [skipLoop, if_neg (by simp [TwoLevelIterator.current, h.data]), if_pos (by simp [hcurrent])]
    exact ⟨hr, h.index, rfl, by simp [setDataIterator, h.data, h.saved]⟩

theorem Parts.skipLoop_of_none (h : OnBlock SI SD s.2 zs none) (n : ℕ) :
    skipLoop index.toIteratorOps data.toIteratorOps init move enter (n + 1) s =
      skipLoop index.toIteratorOps data.toIteratorOps init move enter n (onData enter (init (onIndex move s))) := by
  obtain ⟨d, hd, hsd⟩ := h.data
  have hvalid := (P.data _).current hsd
  have hcurrent := P.index.current h.index
  rw [skipLoop, if_neg (by simp [TwoLevelIterator.current, hd, hvalid]), if_neg (by simp [hcurrent])]

variable (hinit : Inits Inv SI SD init) {step : Cursor (κ × H) → Cursor (κ × H)} {first : H → Cursor (κ × ν)}
include hinit

/-- Where a block has nothing, the loop finds what is in the blocks that it goes to; `goal`
says what that is. -/
theorem Parts.skipLoop_stands (size : Zipper (κ × H) → ℕ) (goal : Zipper (κ × H) → Cursor (κ × ν))
    (hmove : ∀ {r i zs}, Inv r → SI i (some zs) → Inv (move (r, i)).1 ∧ SI (move (r, i)).2 (step (some zs)))
    (henter : ∀ {r h d cd}, Inv r → SD h d cd → Inv (enter (r, d)).1 ∧ SD h (enter (r, d)).2 (first h))
    (hend : ∀ zs, step (some zs) = none → goal zs = none)
    (hstep : ∀ zs zs', step (some zs) = some zs' → size zs' < size zs ∧
      goal zs = (first zs'.cur.2).elim (goal zs') fun z => some (joined (fun t => contents t.2) zs' z))
    (hr : Inv s.1) (h : OnBlock SI SD s.2 zs c) {n : ℕ} (hn : size zs < n) :
    Inv (skipLoop index.toIteratorOps data.toIteratorOps init move enter n s).1 ∧
      Stands SI SD contents (skipLoop index.toIteratorOps data.toIteratorOps init move enter n s).2
        (c.elim (goal zs) fun z => some (joined (fun t => contents t.2) zs z)) := by
  induction n generalizing s zs c with
  | zero => cases hn
  | succ n ih =>
    cases c with
    | some z =>
      rw [P.skipLoop_of_some h]
      exact ⟨hr, .on h⟩
    | none =>
      obtain ⟨hr', hplaced⟩ := hinit.enter h.moved (hmove hr h.index) henter
      rw [P.skipLoop_of_none h]
      cases hnext : step (some zs) with
      | none =>
        rw [hnext] at hplaced
        obtain ⟨hr'', hnowhere⟩ := P.skipLoop_of_nowhere hr' hplaced n
        rw [Option.elim_none, hend zs hnext]
        exact ⟨hr'', hnowhere.stands⟩
      | some zs' =>
        rw [hnext] at hplaced
        obtain ⟨hlt, hgoal⟩ := hstep zs zs' hnext
        rw [Option.elim_none, hgoal]
        exact ih hr' hplaced (by omega)

/-- Forward it gets to what comes after the gap at which the data iterator is. -/
theorem Parts.skipForward (hr : Inv s.1) (h : OnBlock SI SD s.2 zs (ahead b a)) (hcut : b.reverse ++ a = contents zs.cur.2) :
    let s' := skipLoop index.toIteratorOps data.toIteratorOps init index.next data.seekToFirst (left s.2.indexIter + 1) s
    Inv s'.1 ∧ Stands SI SD contents s'.2
      (ahead (b ++ passed (fun t => contents t.2) zs.before) (a ++ zs.after.flatMap fun t => contents t.2)) := by
  have hskip := P.skipLoop_stands hinit (fun zs => zs.after.length)
    (fun zs => ahead (passed (fun t => contents t.2) (zs.cur :: zs.before)) (zs.after.flatMap fun t => contents t.2))
    P.index.next (P.data _).seekToFirst ?_ ?_ hr h (Nat.lt_succ_of_le (P.left h.index))
  · cases a with
    | cons x a => exact hskip
    | nil =>
      rw [List.append_nil] at hcut
      rw [ahead, Option.elim_none, passed_cons, ← hcut, List.reverse_reverse] at hskip
      exact hskip
  · rintro ⟨bs, t, as⟩ hend
    cases as with
    | nil => rfl
    | cons t' as => cases hend
  · rintro ⟨bs, t, as⟩ zs' hstep
    cases as with
    | nil => cases hstep
    | cons t' as =>
      cases hstep
      refine ⟨Nat.lt_succ_self _, ?_⟩
      rw [seekToFirst_eq_ahead, List.flatMap_cons, passed_cons (s := t')]
      cases contents t'.2 <;> rfl

/-- Backward it gets to what comes before the gap. -/
theorem Parts.skipBackward (hr : Inv s.1) (h : OnBlock SI SD s.2 zs (behind b a)) (hcut : b.reverse ++ a = contents zs.cur.2) :
    let s' := skipEmptyDataBlocksBackward index data init right s
    Inv s'.1 ∧ Stands SI SD contents s'.2
      (behind (b ++ passed (fun t => contents t.2) zs.before) (a ++ zs.after.flatMap fun t => contents t.2)) := by
  have hskip := P.skipLoop_stands hinit (fun zs => zs.before.length)
    (fun zs => behind (passed (fun t => contents t.2) zs.before) ((zs.cur :: zs.after).flatMap fun t => contents t.2))
    P.index.prev (P.data _).seekToLast ?_ ?_ hr h (Nat.lt_succ_of_le (P.right h.index))
  · cases b with
    | cons x b => exact hskip
    | nil =>
      rw [List.reverse_nil, List.nil_append] at hcut
      rw [behind, Option.elim_none, List.flatMap_cons, ← hcut] at hskip
      exact hskip
  · rintro ⟨bs, t, as⟩ hend
    cases bs with
    | nil => rfl
    | cons t' bs => cases hend
  · rintro ⟨bs, t, as⟩ zs' hstep
    cases bs with
    | nil => cases hstep
    | cons t' bs =>
      cases hstep
      refine ⟨Nat.lt_succ_self _, ?_⟩
      rw [seekToLast_eq_behind, passed_cons, List.flatMap_cons (x := t')]
      rcases List.eq_nil_or_concat' (contents t'.2) with hnil | ⟨xs, x, hx⟩
      · rw [hnil]
        rfl
      · rw [hx, List.reverse_append]
        rfl

end Skip

/-! ### The whole -/

/-- **Two levels of cursors are a cursor** over the entries of all blocks. -/
theorem Parts.implements (P : Parts index data blockFunction left right notBelow Inv idx contents SI SD)
    (hinit : Inits Inv SI SD init) : (cursorOpsWith index data init left right).Implements notBelow Inv
      (idx.flatMap fun t => contents t.2) (Stands SI SD contents) where
  toList {it z} h := by
    cases h with
    | on h =>
      obtain ⟨d, -, hsd⟩ := h.data
      rw [← P.index.toList h.index]
      exact toList_joined ((P.data _).toList hsd)
  current {it c} h := by
    cases h with
    | nowhere h hdata => simp [cursorOpsWith, ops, TwoLevelIterator.current, hdata]
    | on h =>
      obtain ⟨d, hd, hsd⟩ := h.data
      simp [cursorOpsWith, ops, TwoLevelIterator.current, hd, (P.data _).current hsd]
  status {it c} h := by
    rw [cursorOpsWith, ops, status_eq_none_iff]
    cases h with
    | nowhere h hdata => exact ⟨P.index.status h.index, by simp [hdata], h.saved⟩
    | on h =>
      obtain ⟨d, hd, hsd⟩ := h.data
      exact ⟨P.index.status h.index, by simp [hd, (P.data _).status hsd], h.saved⟩
  call {r it c} hr h call hlegal := by
    obtain ⟨c', hmoved⟩ := h.moved
    cases call with
    | seekToFirst =>
      obtain ⟨hr', hplaced⟩ := hinit.enter (s := (r, it)) hmoved (P.index.seekToFirst hr hmoved.index)
        (P.data _).seekToFirst
      rw [listCall, seekToFirst_eq_ahead]
      cases idx with
      | nil =>
        obtain ⟨hr'', hnowhere⟩ := P.skipLoop_of_nowhere hr' hplaced _
        exact ⟨hr'', hnowhere.stands⟩
      | cons t as =>
        have hon : OnBlock SI SD _ ⟨[], t, as⟩ (Cursors.seekToFirst (contents t.2)) := hplaced
        rw [seekToFirst_eq_ahead] at hon
        exact P.skipForward hinit hr' hon rfl
    | seekToLast =>
      obtain ⟨hr', hplaced⟩ := hinit.enter (s := (r, it)) hmoved (P.index.seekToLast hr hmoved.index)
        (P.data _).seekToLast
      rw [listCall, seekToLast_eq_behind, ← passed_reverse]
      rw [seekToLast_eq_behind] at hplaced
      cases hrev : idx.reverse with
      | nil =>
        rw [hrev] at hplaced
        obtain ⟨hr'', hnowhere⟩ := P.skipLoop_of_nowhere hr' hplaced _
        exact ⟨hr'', hnowhere.stands⟩
      | cons t bs =>
        rw [hrev] at hplaced
        have hon : OnBlock SI SD _ ⟨bs, t, []⟩ (Cursors.seekToLast (contents t.2)) := hplaced
        rw [seekToLast_eq_behind] at hon
        rw [passed_cons]
        exact P.skipBackward hinit hr' hon (by simp)
    | seek target =>
      obtain ⟨hr', hplaced⟩ := hinit.enter (s := (r, it)) hmoved (P.index.seek target hr hmoved.index)
        ((P.data _).seek target)
      obtain ⟨hnone, hsome⟩ := seek_flatMap (fun e : κ × ν => notBelow e.1 target) (fun t => notBelow t.1 target)
        (fun t ht => P.low t ht target) (P.high.imp fun h => h target)
      rw [listCall]
      cases hq : Cursors.seek (fun t => notBelow t.1 target) idx with
      | none =>
        rw [hq] at hplaced
        obtain ⟨hr'', hnowhere⟩ := P.skipLoop_of_nowhere hr' hplaced _
        rw [hnone hq]
        exact ⟨hr'', hnowhere.stands⟩
      | some zs =>
        obtain ⟨b, a, hcut, hseek, hb, ha⟩ := exists_gap_of_seek (fun e : κ × ν => notBelow e.1 target)
          (contents zs.cur.2)
        rw [hq] at hplaced
        have hon : OnBlock SI SD _ zs (Cursors.seek (fun e => notBelow e.1 target) (contents zs.cur.2)) := hplaced
        rw [hseek] at hon
        rw [hsome zs hq b a hcut hb ha]
        exact P.skipForward hinit hr' hon hcut
    | next =>
      cases h with
      | nowhere => cases hlegal
      | @on zs z h =>
        obtain ⟨d, -, hsd⟩ := h.data
        obtain ⟨hr', hon⟩ := h.onData (s := (r, it)) fun d hd => (P.data _).next hr hd
        rw [listCall, joined, next_eq_ahead]
        rw [next_eq_ahead] at hon
        exact P.skipForward hinit hr' hon (by simpa [Zipper.toList] using (P.data _).toList hsd)
    | prev =>
      cases h with
      | nowhere => cases hlegal
      | @on zs z h =>
        obtain ⟨d, -, hsd⟩ := h.data
        obtain ⟨hr', hon⟩ := h.onData (s := (r, it)) fun d hd => (P.data _).prev hr hd
        rw [listCall, joined, prev_eq_behind]
        rw [prev_eq_behind] at hon
        exact P.skipBackward hinit hr' hon ((P.data _).toList hsd)

/-! ### Concatenation -/

section Concatenation

variable {cmp : κ → κ → Ordering} [Std.TransCmp cmp]

/-- What is not above a key below the target is below it, too. -/
theorem not_isGE_of_isLE {k s target : κ} (h : (cmp k s).isLE) (hs : ¬ (cmp s target).isGE = true) :
    ¬ (cmp k target).isGE = true := by
  rw [Bool.not_eq_true, Ordering.isGE_eq_false] at hs ⊢
  exact Std.TransCmp.lt_of_isLE_of_lt h hs

/-- What is above a key not below the target is not below it either. -/
theorem isGE_of_lt {k s target : κ} (h : cmp s k = .lt) (hs : (cmp s target).isGE = true) :
    (cmp k target).isGE = true :=
  Std.TransCmp.isGE_trans (Ordering.isGE_of_eq_gt (Std.OrientedCmp.gt_of_lt h)) hs

/-- Keys above the separator before them are above all separators before them. -/
theorem pairwise_of_chain (hincreasing : idx.Pairwise fun s t => cmp s.1 t.1 = .lt)
    (hprevious : idx.IsChain fun s t => ∀ e ∈ contents t.2, cmp s.1 e.1 = .lt) :
    idx.Pairwise fun s t => ∀ e ∈ contents t.2, cmp s.1 e.1 = .lt := by
  induction idx with
  | nil => exact .nil
  | cons s l ih =>
    have hrest := ih hincreasing.of_cons hprevious.tail
    refine List.pairwise_cons.mpr ⟨fun t ht e he => ?_, hrest⟩
    cases l with
    | nil => cases ht
    | cons s' l =>
      rcases List.mem_cons.mp ht with rfl | ht
      · exact (List.isChain_cons_cons.mp hprevious).1 e he
      · exact Std.TransCmp.lt_trans ((List.pairwise_cons.mp hincreasing).1 s' List.mem_cons_self)
          ((List.pairwise_cons.mp hrest).1 t ht e he)

variable [DecidableEq H]

/-- **A two-level iterator is a cursor over the concatenation of its blocks**, from the
beginning on and for every sequence of calls that is allowed; and it shows what it would show
if it made a new data iterator each time. -/
theorem cursorOps_concatenation
    (hindex : index.Implements (fun k target => (cmp k target).isGE = true) Inv idx SI)
    (hdata : ∀ h, data.Implements (fun k target => (cmp k target).isGE = true) Inv (contents h) (SD h))
    (hblock : ∀ {r s}, Inv r → s ∈ idx → Inv (blockFunction r s.2).1 ∧ SD s.2 (blockFunction r s.2).2 none)
    (hleft : ∀ {i zs}, SI i (some zs) → zs.after.length ≤ left i)
    (hright : ∀ {i zs}, SI i (some zs) → zs.before.length ≤ right i)
    (hincreasing : idx.Pairwise fun s t => cmp s.1 t.1 = .lt)
    (hle : ∀ s ∈ idx, ∀ e ∈ contents s.2, (cmp e.1 s.1).isLE)
    (hprevious : idx.IsChain fun s t => ∀ e ∈ contents t.2, cmp s.1 e.1 = .lt)
    {r : ρ} {i : I} {c : Cursor (κ × H)} (hr : Inv r) (hi : SI i c) {calls : List (IteratorCall κ)}
    (hlegal : (cursorOps index data blockFunction left right).LegalCalls (r, new i) calls) :
    let ops := cursorOps index data blockFunction left right
    let anew := cursorOpsWith index data (initDataBlockAnew index data blockFunction) left right
    let it := (calls.foldl ops.call (r, new i)).2
    ops.current it = (calls.foldl (listCall (fun k target => (cmp k target).isGE = true)
        (idx.flatMap fun t => contents t.2)) none).map Zipper.cur ∧
      ops.status it = none ∧ anew.current (calls.foldl anew.call (r, new i)).2 = ops.current it := by
  have hlow : ∀ s ∈ idx, ∀ target, ¬ (cmp s.1 target).isGE = true → ∀ e ∈ contents s.2, ¬ (cmp e.1 target).isGE = true := by
    intro s hs target hbelow e he
    exact not_isGE_of_isLE (hle s hs e he) hbelow
  have hhigh : idx.Pairwise fun s t => ∀ target, (cmp s.1 target).isGE = true → ∀ e ∈ contents t.2,
      (cmp e.1 target).isGE = true := by
    refine (pairwise_of_chain hincreasing hprevious).imp fun {s t} h target hge e he => ?_
    exact isGE_of_lt (h e he) hge
  have P : Parts index data blockFunction left right _ Inv idx contents SI SD :=
    ⟨hindex, hdata, hblock, hleft, hright, hlow, hhigh⟩
  have hnew : Stands SI SD contents (new i) none := .nowhere ⟨hi, by simp [new], rfl⟩ rfl
  dsimp only
  rw [cursorOps] at hlegal ⊢
  have hstands := (P.implements P.inits).calls hr hnew hlegal
  exact ⟨(P.implements P.inits).current hstands, (P.implements P.inits).status hstands,
    (P.implements P.inits).current_eq (P.implements P.inits_anew) hr hnew hr hnew hlegal⟩

/-- Three blocks, of which the second one is empty. -/
def threeBlocks (h : ℕ) : List (ℕ × String) := if h = 0 then [(5, "a")] else if h = 1 then [] else [(25, "b"), (30, "c")]

/-- `Seek` goes over the empty block, and `Prev` goes back over it. -/
theorem cursorOps_concatenation_three :
    let index := CursorOps.ofList (fun k target : ℕ => (compare k target).isGE = true) Unit [(10, 0), (20, 1), (30, 2)]
    let data := CursorOps.ofLists (fun k target : ℕ => (compare k target).isGE = true) Unit threeBlocks
    let ops := cursorOps index data (fun r h => (r, h, none)) (fun _ => 3) fun _ => 3
    ops.current ([.seek 6, .next, .prev, .prev].foldl ops.call ((), new none)).2 = some (5, "a") := by
  have hindex := CursorOps.implements_ofList (fun k target : ℕ => (compare k target).isGE = true) (fun _ : Unit => True)
    [(10, 0), (20, 1), (30, 2)]
  have hdata := CursorOps.implements_ofLists (fun k target : ℕ => (compare k target).isGE = true) (fun _ : Unit => True)
    threeBlocks
  have hlength : ∀ {i : Cursor (ℕ × ℕ)} {zs : Zipper (ℕ × ℕ)},
      (i = some zs ∧ ∀ z, some zs = some z → z.toList = [(10, 0), (20, 1), (30, 2)]) →
        zs.after.length ≤ 3 ∧ zs.before.length ≤ 3 := by
    intro i zs hi
    have hlen := congrArg List.length (hi.2 zs rfl)
    simp only [Zipper.toList, List.length_append, List.length_reverse, List.length_cons, List.length_nil] at hlen
    omega
  have hlegal : (cursorOps (CursorOps.ofList (fun k target : ℕ => (compare k target).isGE = true) Unit
        [(10, 0), (20, 1), (30, 2)])
      (CursorOps.ofLists (fun k target : ℕ => (compare k target).isGE = true) Unit threeBlocks)
      (fun r h => (r, h, none)) (fun _ => 3) fun _ => 3).LegalCalls ((), new none) [.seek 6, .next, .prev, .prev] :=
    by decide
  exact (cursorOps_concatenation hindex hdata (fun _ _ => ⟨trivial, rfl, by simp⟩) (fun hi => (hlength hi).1)
    (fun hi => (hlength hi).2) (by decide) (by decide) (by decide) trivial ⟨rfl, by simp⟩ hlegal).1

end Concatenation

end Correct

end TwoLevelIterator

end TLevelDB.Table
