import TLevelDB.Table.BlockRoundTrip
import TLevelDB.Table.TwoLevel

/-!
# Iterators over blocks

`Block::NewIterator` and the operations of what it returns: a `Block::Iter`, or an
`EmptyIterator` if there is nothing to iterate over.

Over a block with a layout the operations are those of a cursor over the entries
(`implements_ops`), whatever position a call begins at. So building a block and iterating
over it is a round trip (`roundTrip`).
-/

namespace TLevelDB.Table

open Coding Log Cursors

namespace Block

/-- What `NewIterator` returns. -/
inductive BlockIterator where
  /-- An `EmptyIterator` with this status. -/
  | empty (status : Status)
  | iter (it : Iter)

/-- `Block::NewIterator`; the comparator is a parameter of `Seek`. -/
def newIterator (b : Block) : BlockIterator :=
  if b.size < 4 then .empty (some (.corruption "bad block contents"))
  else if b.numRestarts = 0 then .empty none
  else .iter (.new b.data b.restartOffset b.numRestarts)

namespace BlockIterator

variable {ρ : Type} (c : Comparator)

/-- An operation of `Block::Iter`; there is nothing to do in an `EmptyIterator`. -/
def onIter (f : Iter → Iter) : BlockIterator → BlockIterator
  | .empty status => .empty status
  | .iter it => .iter (f it)

/-- The operations, which read from nothing but the block. -/
def ops : CursorOps ρ BlockIterator Slice Slice where
  current
    | .empty _ => none
    | .iter it => if it.valid then some (it.key, it.value) else none
  status
    | .empty status => status
    | .iter it => it.status
  seekToFirst s := (s.1, s.2.onIter Iter.seekToFirst)
  next s := (s.1, s.2.onIter Iter.next)
  seekToLast s := (s.1, s.2.onIter Iter.seekToLast)
  seek target s := (s.1, s.2.onIter fun it => it.seek c target)
  prev s := (s.1, s.2.onIter Iter.prev)

/-! ### Over a block with a layout -/

variable {c} {data : Slice} {restarts numRestarts : ℕ} {es : List (Slice × Slice)}
  (L : Layout data restarts numRestarts es) {it : Iter} {i : ℕ}

/-- The iterator is where the cursor is. -/
def Stands (b : BlockIterator) (cur : Cursor (Slice × Slice)) : Prop :=
  ∃ it i, b = .iter it ∧ L.Stands it i ∧ cur = atIndex es i

variable {L}

theorem stands_iter (h : L.Stands it i) : Stands L (.iter it) (atIndex es i) := ⟨it, i, rfl, h, rfl⟩

theorem stands_past (h : L.Past it) : Stands L (.iter it) none :=
  ⟨it, es.length, rfl, .inr ⟨le_rfl, h⟩, (atIndex_of_le le_rfl).symm⟩

/-- **An iterator over a block is a cursor** over its entries. -/
theorem implements_ops (hes : c.Increasing es) (Inv : ρ → Prop) :
    (ops c : CursorOps ρ _ _ _).Implements (fun key target => (c.compare key target).isGE = true) Inv es (Stands L) where
  toList {b z} h := by
    obtain ⟨it, i, -, -, hz⟩ := h
    exact toList_atIndex hz.symm
  current {b cur} h := by
    obtain ⟨it, i, rfl, hit, rfl⟩ := h
    rw [map_cur_atIndex]
    rcases hit with hat | ⟨hle, hpast⟩
    · rw [List.getElem?_eq_getElem hat.lt]
      simp [ops, hat.valid, hat.key, hat.value]
    · rw [List.getElem?_eq_none hle]
      simp [ops, hpast.valid]
  status {b cur} h := by
    obtain ⟨it, i, rfl, hit, -⟩ := h
    exact hit.over.status_eq
  call {r b cur} hr h call hlegal := by
    obtain ⟨it, i, rfl, hit, rfl⟩ := h
    have hover := hit.over
    cases call with
    | seekToFirst =>
      rw [listCall, seekToFirst_eq_atIndex]
      exact ⟨hr, stands_iter hover.seekToFirst⟩
    | seekToLast =>
      rw [listCall, seekToLast_eq_atIndex]
      exact ⟨hr, stands_iter hover.seekToLast⟩
    | seek target =>
      rw [listCall, seek_eq_atIndex]
      exact ⟨hr, stands_iter (hit.seek hes target)⟩
    | next =>
      rcases hit with hat | ⟨hle, -⟩
      · rw [listCall, next_atIndex]
        exact ⟨hr, stands_iter hat.parseNextKey⟩
      · rw [atIndex_of_le hle] at hlegal
        cases hlegal
    | prev =>
      rcases hit with hat | ⟨hle, -⟩
      · rw [listCall]
        cases i with
        | zero =>
          rw [prev_atIndex_zero]
          exact ⟨hr, stands_past hat.prev_of_zero⟩
        | succ i =>
          rw [prev_atIndex_succ hat.lt]
          exact ⟨hr, stands_iter (.inl hat.prev_of_pos)⟩
      · rw [atIndex_of_le hle] at hlegal
        cases hlegal

end BlockIterator

end Block

/-! ### Building and reading -/

open Block

variable {interval : ℕ} {es : List (Slice × Slice)}

/-- A new iterator over what was built is past the end. -/
theorem BlockBuilder.stands_newIterator (hpos : 0 < interval) (hsize : (addAll interval es).finish.length < 2 ^ 32) :
    (BlockIterator.Stands (layout hpos hsize)) (Block.new (addAll interval es).finish).newIterator none := by
  obtain ⟨hnew, hnum⟩ := new_finish hsize
  have hlen := length_finish (addAll interval es)
  have hrestarts := (layout hpos hsize).numRestarts_pos
  have hiter : (Block.new (addAll interval es).finish).newIterator = .iter (.new (addAll interval es).finish
      (addAll interval es).buffer.length (addAll interval es).restarts.length) := by
    rw [newIterator, hnum, if_neg, if_neg (by omega), hnew]
    rw [hnew]
    dsimp only
    omega
  rw [hiter]
  exact BlockIterator.stands_past ⟨⟨rfl, rfl, rfl, rfl⟩, rfl⟩

/-- **Building a block and iterating over it is a round trip**: after every sequence of calls
that is allowed the iterator shows what a cursor over the entries shows. -/
theorem BlockBuilder.roundTrip (c : Comparator) (interval : ℕ) (hpos : 1 ≤ interval) (es : List (Slice × Slice))
    (hes : c.Increasing es) (hsize : (addAll interval es).finish.length < 2 ^ 32) (calls : List (IteratorCall Slice))
    (hlegal : (BlockIterator.ops c : CursorOps Unit _ _ _).LegalCalls
      ((), (Block.new (addAll interval es).finish).newIterator) calls) :
    let ops : CursorOps Unit _ _ _ := BlockIterator.ops c
    let it := (calls.foldl ops.call ((), (Block.new (addAll interval es).finish).newIterator)).2
    ops.current it = (calls.foldl (listCall (fun key target => (c.compare key target).isGE = true) es) none).map
      Zipper.cur ∧ ops.status it = none := by
  have himplements := BlockIterator.implements_ops (L := layout hpos hsize) hes (fun _ : Unit => True)
  have hstands := himplements.calls trivial (stands_newIterator hpos hsize) hlegal
  exact ⟨himplements.current hstands, himplements.status hstands⟩

/-- `Seek` from the last entry, which is in another restart block, and back. -/
theorem BlockBuilder.roundTrip_three :
    let ops : CursorOps Unit _ _ _ := BlockIterator.ops bytewiseComparator
    let it := ([.seekToLast, .seek [1, 1], .prev].foldl ops.call
      ((), (Block.new (addAll 2 [([1], [10]), ([1, 2], [20]), ([3], [])]).finish).newIterator)).2
    ops.current it = some ([1], [10]) :=
  (roundTrip bytewiseComparator 2 (by decide) [([1], [10]), ([1, 2], [20]), ([3], [])] (by decide) (by decide)
    [.seekToLast, .seek [1, 1], .prev] (by decide +kernel)).1

end TLevelDB.Table
