import TLevelDB.Table.BlockIterator

/-!
# Entries and the end of the block

`DecodeEntry` is given the end of the entries, and is to accept no entry that goes on beyond
it. It adds the two lengths as `uint32_t`, so an entry with lengths that add up to more than
that passes the check if their sum without the carry does.

Where the lengths that are stored in a block add up (`LengthsAddUp`), and nowhere else, the
entries that are accepted end where they should (`entryFits_iff`). Then all that an iterator
over the block shows is in the entries (`Iter.Inside`), whatever bytes the block is made of.
-/

namespace TLevelDB.Table

open Coding Log

namespace Block

/-- The entries from an offset up to the restart array. -/
def entriesFrom (b : Block) (p : ℕ) : Slice := (b.data.take b.restartOffset).drop p

/-- Where the entry ends, if the entries end at `restarts`. -/
def DecodedEntry.endOffset (e : DecodedEntry) (restarts : ℕ) : ℕ :=
  restarts - e.keyDelta.length + e.nonShared.toNat + e.valueLength.toNat

/-- What `DecodeEntry` accepts at the offset ends before the restart array. -/
def EntryFits (b : Block) (p : ℕ) : Prop :=
  ∀ e, decodeEntry (b.entriesFrom p) = some e → e.endOffset b.restartOffset ≤ b.restartOffset

/-- The two lengths stored at the offset add up in 32 bits, or to so much that there are not
enough bytes even for the sum without its carry. -/
def LengthsAddUp (b : Block) (p : ℕ) : Prop :=
  ∀ e, decodeLengths (b.entriesFrom p) = some e → e.nonShared.toNat + e.valueLength.toNat < 2 ^ 32 ∨
    e.keyDelta.length + 2 ^ 32 < e.nonShared.toNat + e.valueLength.toNat

/-! ### What is read is at the front -/

theorem suffix_of_decodeLengths {p : Slice} {e : DecodedEntry} (h : decodeLengths p = some e) :
    e.keyDelta <:+ p ∧ e.keyDelta.length + 3 ≤ p.length := by
  simp only [decodeLengths, Option.bind_eq_bind, Option.bind_eq_some_iff, Option.some.injEq] at h
  obtain ⟨⟨_, p₁⟩, h₁, ⟨_, p₂⟩, h₂, ⟨_, p₃⟩, h₃, rfl⟩ := h
  obtain ⟨hs₁, hl₁⟩ := suffix_of_getVarint32Ptr h₁
  obtain ⟨hs₂, hl₂⟩ := suffix_of_getVarint32Ptr h₂
  obtain ⟨hs₃, hl₃⟩ := suffix_of_getVarint32Ptr h₃
  dsimp only at *
  exact ⟨hs₃.trans (hs₂.trans hs₁), by omega⟩

/-- An entry is accepted if it passes the check. -/
theorem decodeEntry_eq_some_iff {p : Slice} {e : DecodedEntry} : decodeEntry p = some e ↔
    decodeLengths p = some e ∧ (e.nonShared.toNat + e.valueLength.toNat) % 2 ^ 32 ≤ e.keyDelta.length % 2 ^ 32 := by
  have hcheck : ∀ e' : DecodedEntry, e'.check = some e ↔
      e' = e ∧ (e.nonShared.toNat + e.valueLength.toNat) % 2 ^ 32 ≤ e.keyDelta.length % 2 ^ 32 := by
    intro e'
    rw [DecodedEntry.check, UInt32.toNat_add]
    split
    · rename_i hshort
      constructor
      · exact fun h => by cases h
      · rintro ⟨rfl, hle⟩
        omega
    · rename_i hlong
      rw [Option.some.injEq]
      constructor
      · rintro rfl
        exact ⟨rfl, by omega⟩
      · exact fun h => h.1
  rcases lt_or_ge p.length 3 with hlt | hge
  · have hnone : decodeEntry p = none := by
      rcases p with _ | ⟨_, _ | ⟨_, _ | ⟨_, _⟩⟩⟩
      · rfl
      · rfl
      · rfl
      · simp only [List.length_cons] at hlt
        omega
    rw [hnone]
    constructor
    · exact fun h => by cases h
    · rintro ⟨hlengths, -⟩
      have := (suffix_of_decodeLengths hlengths).2
      omega
  · rw [decodeEntry_eq hge, Option.bind_eq_some_iff]
    constructor
    · rintro ⟨e', hlengths, hpass⟩
      obtain ⟨rfl, hle⟩ := (hcheck e').mp hpass
      exact ⟨hlengths, hle⟩
    · rintro ⟨hlengths, hle⟩
      exact ⟨e, hlengths, (hcheck e).mpr ⟨rfl, hle⟩⟩

variable {b : Block} {p : ℕ}

theorem restartOffset_new_lt (contents : Slice) : (Block.new contents).restartOffset < 2 ^ 32 := by
  simp only [Block.new]
  split_ifs
  · exact Nat.two_pow_pos 32
  · exact Nat.two_pow_pos 32
  · exact Nat.mod_lt _ (Nat.two_pow_pos 32)

theorem restartOffset_new_le (contents : Slice) :
    (Block.new contents).restartOffset ≤ (Block.new contents).data.length := by
  simp only [Block.new]
  split_ifs
  · exact Nat.zero_le _
  · exact Nat.zero_le _
  · exact (Nat.mod_le _ _).trans (Nat.sub_le _ _)

theorem length_entriesFrom_le (b : Block) (p : ℕ) : (b.entriesFrom p).length ≤ b.restartOffset := by
  simp only [entriesFrom, List.length_drop, List.length_take]
  omega

/-- **An accepted entry ends in time just where its lengths add up.** -/
theorem entryFits_iff (hlt : b.restartOffset < 2 ^ 32) : b.EntryFits p ↔ b.LengthsAddUp p := by
  have hrest : ∀ {e}, decodeLengths (b.entriesFrom p) = some e → e.keyDelta.length ≤ b.restartOffset := by
    intro e he
    have := (suffix_of_decodeLengths he).2
    have := b.length_entriesFrom_le p
    omega
  constructor
  · intro hfits e he
    have hle := hrest he
    by_contra! hcarry
    -- the sum without the carry is small enough to be accepted
    have haccept : decodeEntry (b.entriesFrom p) = some e := by
      rw [decodeEntry_eq_some_iff]
      have := e.nonShared.toNat_lt
      have := e.valueLength.toNat_lt
      exact ⟨he, by omega⟩
    have hend := hfits e haccept
    rw [DecodedEntry.endOffset] at hend
    omega
  · intro hadd e he
    obtain ⟨hlengths, hle⟩ := decodeEntry_eq_some_iff.mp he
    have := hrest hlengths
    have := e.nonShared.toNat_lt
    have := e.valueLength.toNat_lt
    rw [DecodedEntry.endOffset]
    rcases hadd e hlengths with hsum | hsum
    · omega
    · omega

/-! ### What an iterator shows -/

namespace Iter

/-- The slice is made of so many bytes of the entries, one after the other. -/
def FromEntries (it : Iter) (s : Slice) (size : ℕ) : Prop :=
  ∃ start, start + size ≤ it.restarts ∧ s.length = size ∧ s = ((it.data.take it.restarts).drop start).take size

/-- The value, and what the key does not share with the key before, are in the entries. -/
structure Inside (it : Iter) : Prop where
  value : it.FromEntries it.value it.valueSize
  keyDelta : ∃ e, it.decodeAt it.current = some e ∧ it.FromEntries (it.key.drop e.shared.toNat) e.nonShared.toNat

/-- The iterator is one over this block. -/
structure Over (b : Block) (it : Iter) : Prop where
  data : it.data = b.data
  restarts : it.restarts = b.restartOffset

/-- If there is a current entry, then what the iterator shows is in the entries. -/
structure Shows (b : Block) (it : Iter) : Prop extends Over b it where
  inside : it.valid = true → it.Inside

variable {it : Iter}

theorem Over.invalidate (h : Over b it) : Shows b it.invalidate :=
  ⟨⟨h.data, h.restarts⟩, fun hvalid => by simp [valid, Iter.invalidate] at hvalid⟩

theorem Over.corruptionError (h : Over b it) : Shows b it.corruptionError :=
  ⟨⟨h.data, h.restarts⟩, fun hvalid => by simp [valid, Iter.corruptionError, Iter.invalidate] at hvalid⟩

theorem Over.seekToRestartPoint (h : Over b it) (index : ℕ) : Over b (it.seekToRestartPoint index) :=
  ⟨h.data, h.restarts⟩

/-- The bytes from a place up to a place before the end of the entries. -/
theorem fromEntries_of_le {start size : ℕ} (hlen : it.restarts ≤ it.data.length) (hle : start + size ≤ it.restarts) :
    it.FromEntries ((it.data.drop start).take size) size := by
  refine ⟨start, hle, ?_, ?_⟩
  · rw [List.length_take, List.length_drop]
    omega
  · rw [List.drop_take, List.take_take, min_eq_left (by omega)]

theorem Over.setEntry (h : Over b it) (hlen : b.restartOffset ≤ b.data.length) {e : DecodedEntry}
    (he : it.decodeAt it.current = some e) (hend : e.endOffset b.restartOffset ≤ b.restartOffset)
    (hshared : e.shared.toNat ≤ it.key.length) : Shows b (it.setEntry e) := by
  have hsuffix := (suffix_of_decodeLengths (decodeEntry_eq_some_iff.mp he).1).1.trans (List.drop_suffix _ _)
  have hdrop := List.suffix_iff_eq_drop.mp hsuffix
  have hle := hsuffix.length_le
  rw [← h.restarts, ← h.data] at hlen
  rw [List.length_take, min_eq_left hlen] at hdrop hle
  rw [← h.restarts, DecodedEntry.endOffset] at hend
  refine ⟨⟨h.data, h.restarts⟩, fun _ => ⟨fromEntries_of_le hlen ?_, e, he, ?_⟩⟩
  · exact hend
  · have hkey : (it.setEntry e).key.drop e.shared.toNat = e.keyDelta.take e.nonShared.toNat := by
      rw [Iter.setEntry, List.drop_append_of_le_length (by rw [List.length_take, min_eq_left hshared]),
        List.drop_eq_nil_of_le (by rw [List.length_take]; exact min_le_left _ _), List.nil_append]
    refine ⟨it.restarts - e.keyDelta.length, ?_, ?_, ?_⟩
    · change it.restarts - e.keyDelta.length + e.nonShared.toNat ≤ it.restarts
      omega
    · rw [hkey, List.length_take]
      omega
    · rw [hkey]
      exact congrArg (List.take e.nonShared.toNat) hdrop

variable (hlen : b.restartOffset ≤ b.data.length) (hfits : ∀ p < b.restartOffset, b.EntryFits p)
include hlen hfits

theorem Over.parseNextKey (h : Over b it) : Shows b it.parseNextKey.1 := by
  have hcurrent : Over b { it with current := it.nextEntryOffset } := ⟨h.data, h.restarts⟩
  generalize hit : ({ it with current := it.nextEntryOffset } : Iter) = it' at hcurrent
  rw [Iter.parseNextKey, hit, parseCurrent]
  split
  · exact hcurrent.invalidate
  · rename_i hlt
    split
    · exact hcurrent.corruptionError
    · rename_i e he
      split
      · exact hcurrent.corruptionError
      · rename_i hshared
        have hend : e.endOffset b.restartOffset ≤ b.restartOffset := by
          refine hfits it'.current (hcurrent.restarts ▸ not_le.mp hlt) e ?_
          rw [entriesFrom, ← hcurrent.data, ← hcurrent.restarts]
          exact he
        exact hcurrent.setEntry hlen he hend (not_lt.mp hshared)

theorem Over.scanLoop (limit n : ℕ) (h : Over b it) : Shows b (Iter.scanLoop limit (n + 1) it) := by
  induction n generalizing it with
  | zero =>
    rw [Iter.scanLoop]
    dsimp only
    split
    · exact h.parseNextKey hlen hfits
    · exact h.parseNextKey hlen hfits
  | succ n ih =>
    rw [Iter.scanLoop]
    dsimp only
    split
    · exact ih (h.parseNextKey hlen hfits).toOver
    · exact h.parseNextKey hlen hfits

theorem Over.linearLoop (c : Comparator) (target : Slice) (n : ℕ) (h : Over b it) :
    Shows b (Iter.linearLoop c target (n + 1) it) := by
  induction n generalizing it with
  | zero =>
    rw [Iter.linearLoop]
    dsimp only
    split_ifs
    all_goals exact h.parseNextKey hlen hfits
  | succ n ih =>
    rw [Iter.linearLoop]
    dsimp only
    split_ifs
    · exact h.parseNextKey hlen hfits
    · exact h.parseNextKey hlen hfits
    · exact ih (h.parseNextKey hlen hfits).toOver

theorem Over.seekFrom (c : Comparator) (target : Slice) (left right : ℕ) (below : Bool) (h : Over b it) :
    Shows b (it.seekFrom c target left right below) := by
  rw [Iter.seekFrom]
  split
  · exact h.corruptionError
  · dsimp only
    refine Over.linearLoop hlen hfits c target it.restarts ?_
    split
    · exact h
    · exact h.seekToRestartPoint _

theorem Shows.seek (c : Comparator) (target : Slice) (h : Shows b it) : Shows b (it.seek c target) := by
  rw [Iter.seek]
  split
  · split
    · exact h.toOver.seekFrom hlen hfits c target _ _ _
    · exact h.toOver.seekFrom hlen hfits c target _ _ _
    · exact h
  · exact h.toOver.seekFrom hlen hfits c target _ _ _

theorem Over.prev (h : Over b it) : Shows b it.prev := by
  rw [Iter.prev]
  split
  · exact h.invalidate
  · exact (h.seekToRestartPoint _).scanLoop hlen hfits _ _

end Iter

namespace BlockIterator

variable {ρ : Type}

/-- A `Block::Iter` over the block that shows nothing but entries, or no iterator at all. -/
def Shows (b : Block) : BlockIterator → Prop
  | .empty _ => True
  | .iter it => Iter.Shows b it

theorem shows_newIterator (b : Block) : Shows b b.newIterator := by
  rw [newIterator]
  split_ifs
  · trivial
  · trivial
  · exact ⟨⟨rfl, rfl⟩, fun hvalid => by simp [Iter.new, Iter.valid] at hvalid⟩

theorem Shows.onIter {it : BlockIterator} {f : Iter → Iter} (h : Shows b it)
    (hf : ∀ {it}, Iter.Shows b it → Iter.Shows b (f it)) : Shows b (it.onIter f) := by
  cases it with
  | empty status => trivial
  | iter it => exact hf h

variable (hlen : b.restartOffset ≤ b.data.length) (hfits : ∀ p < b.restartOffset, b.EntryFits p)
include hlen hfits

theorem Shows.call (c : Comparator) {s : ρ × BlockIterator} (h : Shows b s.2) (call : IteratorCall Slice) :
    Shows b ((ops c).call s call).2 := by
  cases call with
  | seekToFirst => exact h.onIter fun hit => (hit.toOver.seekToRestartPoint 0).parseNextKey hlen hfits
  | seekToLast => exact h.onIter fun hit => (hit.toOver.seekToRestartPoint _).scanLoop hlen hfits _ _
  | seek target => exact h.onIter fun hit => hit.seek hlen hfits c target
  | next => exact h.onIter fun hit => hit.toOver.parseNextKey hlen hfits
  | prev => exact h.onIter fun hit => hit.toOver.prev hlen hfits

theorem Shows.calls (c : Comparator) {s : ρ × BlockIterator} (h : Shows b s.2) (calls : List (IteratorCall Slice)) :
    Shows b (calls.foldl (ops c).call s).2 := by
  induction calls generalizing s with
  | nil => exact h
  | cons call calls ih => exact ih (h.call hlen hfits c call)

end BlockIterator

/-- **Which entries are accepted only if they fit.** For every block and every offset below the
restart array, an accepted entry ends at or before the restart array if, and only if, the
lengths stored there add up. If they do at every offset, then after every sequence of calls what
the iterator shows of the current entry is in the entries of the block. -/
theorem decodeEntry_fits_iff (contents : Slice) :
    (∀ p < (Block.new contents).restartOffset, (Block.new contents).EntryFits p ↔ (Block.new contents).LengthsAddUp p) ∧
      ((∀ p < (Block.new contents).restartOffset, (Block.new contents).LengthsAddUp p) →
        ∀ (c : Comparator) (calls : List (IteratorCall Slice)) (it : Iter),
          (calls.foldl (BlockIterator.ops c).call ((), (Block.new contents).newIterator)).2 = .iter it →
          it.valid = true → it.Inside) := by
  have hiff : ∀ p, (Block.new contents).EntryFits p ↔ (Block.new contents).LengthsAddUp p :=
    fun p => entryFits_iff (restartOffset_new_lt contents)
  refine ⟨fun p _ => hiff p, fun hadd c calls it hit hvalid => ?_⟩
  have hstart : BlockIterator.Shows (Block.new contents) ((), (Block.new contents).newIterator).2 :=
    BlockIterator.shows_newIterator _
  have hshows := hstart.calls (restartOffset_new_le contents) (fun p hp => (hiff p).mpr (hadd p hp)) c calls
  rw [hit] at hshows
  exact hshows.inside hvalid

/-- An entry that says it has `2 ^ 32 - 1` bytes of key and one byte of value, and has none. -/
def wrappingBlock : Slice := [0, 255, 255, 255, 255, 15, 1] ++ (encodeFixed32 0 ++ encodeFixed32 1)

/-- The entry of `wrappingBlock` is accepted, and the iterator is valid at it with a value that
begins far beyond the block. -/
theorem wrappingBlock_not_fits : 0 < (Block.new wrappingBlock).restartOffset ∧
    ¬ (Block.new wrappingBlock).EntryFits 0 ∧
    ∃ it, (Block.new wrappingBlock).newIterator.onIter Iter.seekToFirst = .iter it ∧ it.valid = true ∧
      wrappingBlock.length < it.valueStart := by
  refine ⟨by decide, ?_, (Iter.new wrappingBlock 7 1).seekToFirst, rfl, by decide, by decide⟩
  intro hfits
  exact absurd (hfits ⟨0, 4294967295, 1, []⟩ (by decide)) (by decide)

end Block

end TLevelDB.Table
