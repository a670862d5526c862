import Mathlib.Data.List.Basic
import Mathlib.Data.Prod.Lex
import Mathlib.Logic.Hydra
import Mathlib.Order.WithBot
import Mathlib.Tactic.Abel
import Mathlib.Tactic.Common

/-!
# Iterators that read files

An iterator over a table reads blocks while it moves, and reading may fail. It then goes on
with what comes after, and keeps the error in its status. The iterators of a table, of the
files of a level and of the inputs of a compaction are built on each other, and each keeps
the errors of those below it: `Block::Iter`, `TwoLevelIterator` and `MergingIterator`, as
far as they are used to go through all entries once.

An operation is a function of what is read from and of the iterator. It is `Sticky` if a
status that is OK after it says that the status was OK before it and that no error was met.

What a read of a file yields is arbitrary. A block is given by its entries; it may break off
with an entry that cannot be decoded.
-/

namespace TLevelDB.Table

/-- A `Status` that is not OK. -/
inductive Error where
  | corruption (msg : String)
  | ioError (msg : String)
deriving DecidableEq

/-- `Status`, where none is OK. -/
abbrev Status := Option Error

/-! ### The interface -/

section Interface

variable {ρ ι κ ν : Type}

/-- What an iterator can do; `ρ` is what its operations read from. -/
structure IteratorOps (ρ ι κ ν : Type) where
  /-- `key()` and `value()`, if it is `Valid()`. -/
  current : ι → Option (κ × ν)
  status : ι → Status
  seekToFirst : ρ × ι → ρ × ι
  next : ρ × ι → ρ × ι

/-- An operation keeps errors, those that it meets included. -/
def Sticky (status : ι → Status) (errors : ρ → List Error) (f : ρ × ι → ρ × ι) : Prop :=
  ∀ s, status (f s).2 = none → status s.2 = none ∧ errors (f s).1 = errors s.1

variable {status : ι → Status} {errors : ρ → List Error} {f g : ρ × ι → ρ × ι}

theorem Sticky.id : Sticky status errors (fun s : ρ × ι => s) := fun _ h => ⟨h, rfl⟩

theorem Sticky.comp (hg : Sticky status errors g) (hf : Sticky status errors f) :
    Sticky status errors fun s => g (f s) := by
  intro s h
  obtain ⟨hstatus, herrors⟩ := hg (f s) h
  obtain ⟨hstatus', herrors'⟩ := hf s hstatus
  exact ⟨hstatus', herrors.trans herrors'⟩

/-- Which operation is done may depend on the iterator. -/
theorem Sticky.ite {c : ρ × ι → Prop} [DecidablePred c] (hg : Sticky status errors g) (hf : Sticky status errors f) :
    Sticky status errors fun s => if c s then g s else f s := by
  intro s h
  by_cases hc : c s
  · simp only [if_pos hc] at h ⊢
    exact hg s h
  · simp only [if_neg hc] at h ⊢
    exact hf s h

/-- All operations of an iterator keep errors. -/
structure IteratorOps.Sound (ops : IteratorOps ρ ι κ ν) (errors : ρ → List Error) : Prop where
  seekToFirst : Sticky ops.status errors ops.seekToFirst
  next : Sticky ops.status errors ops.next

/-- Going on uses an iterator up. -/
def IteratorOps.Progress {δ : Type} (lt : δ → δ → Prop) (ops : IteratorOps ρ ι κ ν) (rank : ι → δ) : Prop :=
  ∀ s, (ops.current s.2).isSome → lt (rank (ops.next s).2) (rank s.2)

/-- An iterator of one kind or of another. -/
def IteratorOps.sum {ι' : Type} (a : IteratorOps ρ ι κ ν) (b : IteratorOps ρ ι' κ ν) : IteratorOps ρ (ι ⊕ ι') κ ν where
  current := Sum.elim a.current b.current
  status := Sum.elim a.status b.status
  seekToFirst
    | (r, .inl it) => (a.seekToFirst (r, it)).map id .inl
    | (r, .inr it) => (b.seekToFirst (r, it)).map id .inr
  next
    | (r, .inl it) => (a.next (r, it)).map id .inl
    | (r, .inr it) => (b.next (r, it)).map id .inr

theorem IteratorOps.Sound.sum {ι' : Type} {a : IteratorOps ρ ι κ ν} {b : IteratorOps ρ ι' κ ν} (ha : a.Sound errors)
    (hb : b.Sound errors) : (a.sum b).Sound errors := by
  constructor
  · rintro ⟨r, it | it⟩ h
    · exact ha.seekToFirst (r, it) h
    · exact hb.seekToFirst (r, it) h
  · rintro ⟨r, it | it⟩ h
    · exact ha.next (r, it) h
    · exact hb.next (r, it) h

theorem IteratorOps.Progress.sum {ι' δ : Type} {lt : δ → δ → Prop} {a : IteratorOps ρ ι κ ν}
    {b : IteratorOps ρ ι' κ ν} {f : ι → δ} {g : ι' → δ} (ha : a.Progress lt f) (hb : b.Progress lt g) :
    (a.sum b).Progress lt (Sum.elim f g) := by
  rintro ⟨r, it | it⟩ h
  · exact ha (r, it) h
  · exact hb (r, it) h

/-- The rank may be counted in another way. -/
theorem IteratorOps.Progress.map {δ δ' : Type} {lt : δ → δ → Prop} {lt' : δ' → δ' → Prop}
    {ops : IteratorOps ρ ι κ ν} {rank : ι → δ} (h : ops.Progress lt rank) {f : δ → δ'}
    (hf : ∀ x y, lt x y → lt' (f x) (f y)) : ops.Progress lt' fun it => f (rank it) :=
  fun s hs => hf _ _ (h s hs)

end Interface

/-! ### Reading -/

/-- A block. -/
inductive Contents (κ ν : Type) where
  /-- It is too small for what it says about itself. -/
  | bad
  /-- It has no restart points. -/
  | empty
  /-- These entries; `corrupt` if after them there is one that cannot be decoded. -/
  | entries (es : List (κ × ν)) (corrupt : Bool)

/-- What the reads yield one after the other, how many there were, and the errors they have
led to. The value of an index entry is a block handle, if it can be decoded. -/
structure Reads (κ V : Type) where
  /-- `TableCache::FindTable`: the index block of a table. -/
  tables : ℕ → Except Error (Contents κ (Option ℕ))
  /-- `ReadBlock`. -/
  blocks : ℕ → Except Error (Contents κ V)
  count : ℕ
  errors : List Error

namespace Reads

variable {κ V : Type}

/-- One read more. -/
def read (r : Reads κ V) : Reads κ V := { r with count := r.count + 1 }

/-- One error more. -/
def fail (r : Reads κ V) (e : Error) : Reads κ V := { r with errors := r.errors ++ [e] }

end Reads

/-! ### `Block::Iter` -/

section Block

variable {κ V ν : Type}

/-- `Block::Iter`, and the iterators of `NewEmptyIterator` and `NewErrorIterator`. -/
structure BlockIter (κ ν : Type) where
  entries : List (κ × ν)
  corrupt : Bool
  /-- The entries from the current one on. -/
  rest : List (κ × ν)
  status : Status

/-- `NewEmptyIterator` and `NewErrorIterator`. -/
def emptyIterator (status : Status) : BlockIter κ ν := ⟨[], false, [], status⟩

def badBlockContents : Error := .corruption "bad block contents"

def badEntry : Error := .corruption "bad entry in block"

/-- `Block::NewIterator`. -/
def Contents.newIterator (r : Reads κ V) : Contents κ ν → Reads κ V × BlockIter κ ν
  | .bad => (r.fail badBlockContents, emptyIterator (some badBlockContents))
  | .empty => (r, emptyIterator none)
  | .entries es corrupt => (r, ⟨es, corrupt, [], none⟩)

/-- `ParseNextKey`, where these entries are next. -/
def BlockIter.parseNextKey (rest : List (κ × ν)) (s : Reads κ V × BlockIter κ ν) : Reads κ V × BlockIter κ ν :=
  if rest.isEmpty && s.2.corrupt then
    (s.1.fail badEntry, { s.2 with rest := [], status := some badEntry })
  else (s.1, { s.2 with rest := rest })

def blockOps : IteratorOps (Reads κ V) (BlockIter κ ν) κ ν where
  current it := it.rest.head?
  status := BlockIter.status
  seekToFirst s := BlockIter.parseNextKey s.2.entries s
  next s := BlockIter.parseNextKey s.2.rest.tail s

theorem BlockIter.sticky_parseNextKey (rest : BlockIter κ ν → List (κ × ν)) :
    Sticky BlockIter.status (Reads.errors (κ := κ) (V := V)) fun s => BlockIter.parseNextKey (rest s.2) s := by
  intro s h
  simp only [BlockIter.parseNextKey] at h ⊢
  split at h
  · cases h
  · rename_i hc
    rw [if_neg hc]
    exact ⟨h, rfl⟩

theorem sound_blockOps : (blockOps : IteratorOps (Reads κ V) (BlockIter κ ν) κ ν).Sound Reads.errors where
  seekToFirst := BlockIter.sticky_parseNextKey BlockIter.entries
  next := BlockIter.sticky_parseNextKey fun it => it.rest.tail

theorem progress_blockOps :
    (blockOps : IteratorOps (Reads κ V) (BlockIter κ ν) κ ν).Progress (· < ·) fun it => it.rest.length := by
  intro s h
  obtain ⟨r, it⟩ := s
  cases hrest : it.rest with
  | nil => simp [blockOps, hrest] at h
  | cons e rest =>
    simp only [blockOps, BlockIter.parseNextKey, hrest, List.tail_cons, List.length_cons]
    split <;> simp

theorem errors_newIterator (r : Reads κ V) (c : Contents κ ν) (h : (c.newIterator r).2.status = none) :
    (c.newIterator r).1.errors = r.errors := by
  cases c with
  | bad => cases h
  | empty | entries => rfl

end Block

/-! ### `TwoLevelIterator` -/

/-- An iterator over blocks (or tables), which an index names. -/
structure TwoLevelIterator (I D H : Type) where
  indexIter : I
  dataIter : Option D
  /-- The index value that `dataIter` was made from. -/
  dataBlockHandle : Option H
  /-- `status_`: the first error of a data iterator that is gone. -/
  saved : Status

namespace TwoLevelIterator

variable {ρ I D H κ ν : Type} [DecidableEq H] (index : IteratorOps ρ I κ H) (data : IteratorOps ρ D κ ν)
  (blockFunction : ρ → H → ρ × D) (init : ρ × TwoLevelIterator I D H → ρ × TwoLevelIterator I D H) (left : I → ℕ)

section

omit [DecidableEq H]

def new (indexIter : I) : TwoLevelIterator I D H := ⟨indexIter, none, none, none⟩

def current (it : TwoLevelIterator I D H) : Option (κ × ν) := it.dataIter.bind data.current

/-- `status()`: the first error of the index iterator, the data iterator and `status_`. -/
def status (it : TwoLevelIterator I D H) : Status :=
  (index.status it.indexIter).or ((it.dataIter.bind data.status).or it.saved)

/-- `SetDataIterator`, with `SaveError`. -/
def setDataIterator (dataIter : Option D) (it : TwoLevelIterator I D H) : TwoLevelIterator I D H :=
  { it with saved := it.saved.or (it.dataIter.bind data.status), dataIter := dataIter }

end

def initDataBlock (s : ρ × TwoLevelIterator I D H) : ρ × TwoLevelIterator I D H :=
  match index.current s.2.indexIter with
  | none => (s.1, s.2.setDataIterator data none)
  | some (_, handle) =>
    if s.2.dataIter.isSome && s.2.dataBlockHandle == some handle then s
    else
      let r := blockFunction s.1 handle
      (r.1, { s.2.setDataIterator data (some r.2) with dataBlockHandle := some handle })

omit [DecidableEq H] in
/-- An operation of the data iterator, if there is one. -/
def onData (f : ρ × D → ρ × D) (s : ρ × TwoLevelIterator I D H) : ρ × TwoLevelIterator I D H :=
  match s.2.dataIter with
  | none => s
  | some d =>
    let r := f (s.1, d)
    (r.1, { s.2 with dataIter := some r.2 })

omit [DecidableEq H] in
/-- An operation of the index iterator. -/
def onIndex (f : ρ × I → ρ × I) (s : ρ × TwoLevelIterator I D H) : ρ × TwoLevelIterator I D H :=
  let r := f (s.1, s.2.indexIter)
  (r.1, { s.2 with indexIter := r.2 })

section

omit [DecidableEq H]

/-- The loops of `SkipEmptyDataBlocksForward` and `SkipEmptyDataBlocksBackward`: `move` goes to
another block, and `enter` to its first or last entry; `init` is `InitDataBlock`. Each turn uses
up an entry of the index. -/
def skipLoop (move : ρ × I → ρ × I) (enter : ρ × D → ρ × D) :
    ℕ → ρ × TwoLevelIterator I D H → ρ × TwoLevelIterator I D H
  | 0, s => s
  | n + 1, s =>
    if (s.2.current data).isSome then s
    else if (index.current s.2.indexIter).isNone then (s.1, s.2.setDataIterator data none)
    else skipLoop move enter n (onData enter (init (onIndex move s)))

def skipEmptyDataBlocksForward (s : ρ × TwoLevelIterator I D H) : ρ × TwoLevelIterator I D H :=
  skipLoop index data init index.next data.seekToFirst (left s.2.indexIter + 1) s

/-- The operations; `left` bounds how many entries the index iterator has left. -/
def ops : IteratorOps ρ (TwoLevelIterator I D H) κ ν where
  current := current data
  status := status index data
  seekToFirst s := skipEmptyDataBlocksForward index data init left
    (onData data.seekToFirst (init (onIndex index.seekToFirst s)))
  next s := skipEmptyDataBlocksForward index data init left (onData data.next s)

end

section Laws

variable {index data blockFunction init left} {errors : ρ → List Error}

omit [DecidableEq H] in
theorem status_eq_none_iff {it : TwoLevelIterator I D H} : status index data it = none ↔
    index.status it.indexIter = none ∧ it.dataIter.bind data.status = none ∧ it.saved = none := by
  simp [status, Option.or_eq_none_iff]

omit [DecidableEq H] in
theorem sticky_setDataIterator : Sticky (status index data) errors
    fun s : ρ × TwoLevelIterator I D H => (s.1, s.2.setDataIterator data none) := by
  intro s h
  refine ⟨?_, rfl⟩
  rw [status_eq_none_iff] at h ⊢
  simp only [setDataIterator, Option.or_eq_none_iff] at h
  exact ⟨h.1, h.2.2.2, h.2.2.1⟩

/-- The error of a data iterator that is replaced is saved. -/
theorem sticky_initDataBlock (hblock : ∀ r handle, data.status (blockFunction r handle).2 = none →
    errors (blockFunction r handle).1 = errors r) :
    Sticky (status index data) errors (initDataBlock index data blockFunction) := by
  intro s h
  unfold initDataBlock at h ⊢
  split at h
  · exact sticky_setDataIterator s h
  · rename_i k handle _
    split at h
    · rename_i hc
      rw [if_pos hc]
      exact ⟨h, rfl⟩
    · rename_i hc
      rw [if_neg hc]
      rw [status_eq_none_iff] at h ⊢
      simp only [setDataIterator, Option.or_eq_none_iff, Option.bind_some] at h
      exact ⟨⟨h.1, h.2.2.2, h.2.2.1⟩, hblock s.1 handle h.2.1⟩

omit [DecidableEq H] in
theorem sticky_onData {f : ρ × D → ρ × D} (hf : Sticky data.status errors f) :
    Sticky (status index data) errors (onData (I := I) (H := H) f) := by
  intro s h
  unfold onData at h ⊢
  split at h
  · exact ⟨h, rfl⟩
  · rename_i d hd
    rw [status_eq_none_iff] at h ⊢
    obtain ⟨hindex, hdata, hsaved⟩ := h
    obtain ⟨hstatus, herrors⟩ := hf (s.1, d) hdata
    exact ⟨⟨hindex, by rw [hd]; exact hstatus, hsaved⟩, herrors⟩

omit [DecidableEq H] in
theorem sticky_onIndex {f : ρ × I → ρ × I} (hf : Sticky index.status errors f) :
    Sticky (status index data) errors (onIndex (D := D) (H := H) f) := by
  intro s h
  rw [status_eq_none_iff] at h ⊢
  obtain ⟨hstatus, herrors⟩ := hf (s.1, s.2.indexIter) h.1
  exact ⟨⟨hstatus, h.2⟩, herrors⟩

section

omit [DecidableEq H]

theorem sticky_skipLoop {move : ρ × I → ρ × I} {enter : ρ × D → ρ × D} (hmove : Sticky index.status errors move)
    (henter : Sticky data.status errors enter) (hinit : Sticky (status index data) errors init) (n : ℕ) :
    Sticky (status index data) errors (skipLoop index data init move enter n) := by
  induction n with
  | zero => exact Sticky.id
  | succ n ih =>
    have hturn := ih.comp ((sticky_onData henter).comp (hinit.comp (sticky_onIndex hmove)))
    exact Sticky.id.ite (sticky_setDataIterator.ite hturn)

/-- Errors of the index and of the blocks stay in the status. -/
theorem sound_ops (hindex : index.Sound errors) (hdata : data.Sound errors)
    (hinit : Sticky (status index data) errors init) : (ops index data init left).Sound errors := by
  have hskip : Sticky (status index data) errors (skipEmptyDataBlocksForward index data init left) :=
    fun s => sticky_skipLoop hindex.next hdata.seekToFirst hinit _ s
  exact ⟨hskip.comp ((sticky_onData hdata.seekToFirst).comp (hinit.comp (sticky_onIndex hindex.seekToFirst))),
    hskip.comp (sticky_onData hdata.next)⟩

end

theorem indexIter_initDataBlock (s : ρ × TwoLevelIterator I D H) :
    (initDataBlock index data blockFunction s).2.indexIter = s.2.indexIter := by
  unfold initDataBlock
  split
  · rfl
  · split <;> rfl

omit [DecidableEq H] in
theorem indexIter_onData (f : ρ × D → ρ × D) (s : ρ × TwoLevelIterator I D H) :
    (onData f s).2.indexIter = s.2.indexIter := by
  unfold onData
  split <;> rfl

section Rank

omit [DecidableEq H]

variable {δ : Type} [Preorder δ] {dataRank : D → δ} (hinit : ∀ s, (init s).2.indexIter = s.2.indexIter)

/-- What is left of the index, and then of the data iterator. -/
def rank (left : I → ℕ) (dataRank : D → δ) (it : TwoLevelIterator I D H) : ℕ ×ₗ WithBot δ :=
  toLex (left it.indexIter, it.dataIter.map dataRank)

include hinit

theorem rank_skipLoop_le (hindex : index.Progress (· < ·) left) (n : ℕ) (s : ρ × TwoLevelIterator I D H) :
    rank left dataRank (skipLoop index data init index.next data.seekToFirst n s).2 ≤ rank left dataRank s.2 := by
  induction n generalizing s with
  | zero => exact le_rfl
  | succ n ih =>
    rw [skipLoop]
    split_ifs with hvalid hend
    · exact le_rfl
    · exact Prod.Lex.toLex_le_toLex.mpr (.inr ⟨rfl, bot_le⟩)
    · -- the turn uses up an entry of the index
      have hlt : left (onData data.seekToFirst (init (onIndex index.next s))).2.indexIter < left s.2.indexIter := by
        rw [indexIter_onData, hinit]
        exact hindex (s.1, s.2.indexIter) (by simpa [Option.isSome_iff_ne_none] using hend)
      exact (ih _).trans (Prod.Lex.toLex_lt_toLex.mpr (.inl hlt)).le

/-- Going on uses up the data iterator, or the index. -/
theorem progress_ops (hindex : index.Progress (· < ·) left) (hdata : data.Progress (· < ·) dataRank) :
    (ops index data init left).Progress (· < ·) (rank left dataRank) := by
  intro s h
  refine (rank_skipLoop_le hinit hindex _ _).trans_lt ?_
  obtain ⟨r, it⟩ := s
  cases hd : it.dataIter with
  | none => simp [ops, current, hd] at h
  | some d =>
    have hcurrent : (data.current d).isSome := by simpa [ops, current, hd] using h
    have hlt := hdata (r, d) hcurrent
    refine Prod.Lex.toLex_lt_toLex.mpr (.inr ⟨?_, ?_⟩)
    · rw [indexIter_onData]
    · simp only [onData, hd]
      exact WithBot.coe_lt_coe.mpr hlt

end Rank

end Laws

end TwoLevelIterator

/-! ### Tables and levels -/

section Table

variable {κ V : Type}

def badBlockHandle : Error := .corruption "bad block handle"

/-- `Table::BlockReader`. -/
def blockReader (r : Reads κ V) (handle : Option ℕ) : Reads κ V × BlockIter κ V :=
  match handle with
  | none => (r.fail badBlockHandle, emptyIterator (some badBlockHandle))
  | some _ =>
    match r.blocks r.count with
    | .error e => (r.read.fail e, emptyIterator (some e))
    | .ok contents => contents.newIterator r.read

/-- What `TableCache::NewIterator` makes: an error, or the iterator of `Table::NewIterator`. -/
abbrev TableIter (κ V : Type) :=
  BlockIter κ V ⊕ TwoLevelIterator (BlockIter κ (Option ℕ)) (BlockIter κ V) (Option ℕ)

def tableOps : IteratorOps (Reads κ V) (TableIter κ V) κ V :=
  blockOps.sum (TwoLevelIterator.ops blockOps blockOps (TwoLevelIterator.initDataBlock blockOps blockOps blockReader)
    fun it => it.rest.length)

/-- `TableCache::NewIterator`. -/
def newTableIterator (r : Reads κ V) : Reads κ V × TableIter κ V :=
  match r.tables r.count with
  | .error e => (r.read.fail e, .inl (emptyIterator (some e)))
  | .ok contents =>
    let s := contents.newIterator r.read
    (s.1, .inr (.new s.2))

/-- `Version::LevelFileNumIterator`: the largest keys of files, with their numbers and sizes. -/
structure LevelFileNumIterator (κ : Type) where
  files : List (κ × ℕ × ℕ)
  /-- The files from the current one on. -/
  rest : List (κ × ℕ × ℕ)

def levelFileNumOps : IteratorOps (Reads κ V) (LevelFileNumIterator κ) κ (ℕ × ℕ) where
  current it := it.rest.head?
  status _ := none
  seekToFirst s := (s.1, { s.2 with rest := s.2.files })
  next s := (s.1, { s.2 with rest := s.2.rest.tail })

def getFileIterator (r : Reads κ V) (_file : ℕ × ℕ) : Reads κ V × TableIter κ V := newTableIterator r

/-- The iterator over the files of a level. -/
abbrev LevelIter (κ V : Type) := TwoLevelIterator (LevelFileNumIterator κ) (TableIter κ V) (ℕ × ℕ)

def levelOps : IteratorOps (Reads κ V) (LevelIter κ V) κ V :=
  TwoLevelIterator.ops levelFileNumOps tableOps
    (TwoLevelIterator.initDataBlock levelFileNumOps tableOps getFileIterator) fun it => it.rest.length

theorem errors_blockReader (r : Reads κ V) (handle : Option ℕ)
    (h : (blockOps (κ := κ) (V := V)).status (blockReader r handle).2 = none) :
    (blockReader r handle).1.errors = r.errors := by
  unfold blockReader at h ⊢
  split at h
  · cases h
  · split at h
    · cases h
    · exact errors_newIterator _ _ h

theorem sound_tableOps : (tableOps : IteratorOps (Reads κ V) (TableIter κ V) κ V).Sound Reads.errors :=
  sound_blockOps.sum (TwoLevelIterator.sound_ops sound_blockOps sound_blockOps
    (TwoLevelIterator.sticky_initDataBlock errors_blockReader))

theorem errors_newTableIterator (r : Reads κ V) (h : tableOps.status (newTableIterator r).2 = none) :
    (newTableIterator r).1.errors = r.errors := by
  unfold newTableIterator at h ⊢
  split at h
  · cases h
  · exact errors_newIterator _ _ (TwoLevelIterator.status_eq_none_iff.mp h).1

theorem sound_levelFileNumOps :
    (levelFileNumOps : IteratorOps (Reads κ V) (LevelFileNumIterator κ) κ (ℕ × ℕ)).Sound Reads.errors :=
  ⟨fun _ _ => ⟨rfl, rfl⟩, fun _ _ => ⟨rfl, rfl⟩⟩

theorem sound_levelOps : (levelOps : IteratorOps (Reads κ V) (LevelIter κ V) κ V).Sound Reads.errors :=
  TwoLevelIterator.sound_ops sound_levelFileNumOps sound_tableOps
    (TwoLevelIterator.sticky_initDataBlock fun r _ => errors_newTableIterator r)

/-- What is left of a table. -/
def tableRank : TableIter κ V → ℕ ×ₗ WithBot ℕ :=
  Sum.elim (fun it => toLex (0, it.rest.length))
    (TwoLevelIterator.rank (fun it => it.rest.length) fun it => it.rest.length)

theorem progress_tableOps : (tableOps : IteratorOps (Reads κ V) (TableIter κ V) κ V).Progress (· < ·) tableRank := by
  refine IteratorOps.Progress.sum ?_ (TwoLevelIterator.progress_ops
    TwoLevelIterator.indexIter_initDataBlock progress_blockOps progress_blockOps)
  exact progress_blockOps.map (f := fun n => toLex (0, (n : WithBot ℕ))) fun m n hlt =>
    Prod.Lex.toLex_lt_toLex.mpr (.inr ⟨rfl, WithBot.coe_lt_coe.mpr hlt⟩)

theorem progress_levelFileNumOps :
    (levelFileNumOps : IteratorOps (Reads κ V) (LevelFileNumIterator κ) κ (ℕ × ℕ)).Progress (· < ·)
      fun it => it.rest.length := by
  intro s h
  cases hrest : s.2.rest with
  | nil => simp [levelFileNumOps, hrest] at h
  | cons f rest => simp [levelFileNumOps, hrest]

/-- What is left of a level. -/
def levelRank : LevelIter κ V → ℕ ×ₗ WithBot (ℕ ×ₗ WithBot ℕ) :=
  TwoLevelIterator.rank (fun it => it.rest.length) tableRank

theorem progress_levelOps : (levelOps : IteratorOps (Reads κ V) (LevelIter κ V) κ V).Progress (· < ·) levelRank :=
  TwoLevelIterator.progress_ops TwoLevelIterator.indexIter_initDataBlock progress_levelFileNumOps progress_tableOps

end Table

/-! ### `MergingIterator` -/

/-- `MergingIterator`, going forward. -/
structure MergingIterator (ι : Type) where
  children : List ι
  /-- Which child is `current_`. -/
  smallest : Option ℕ

namespace MergingIterator

variable {ρ ι κ ν : Type} [LinearOrder κ] (child : IteratorOps ρ ι κ ν)

/-- The loop of `FindSmallest`, with the smallest key so far and its place. -/
def findSmallestLoop : Option (κ × ℕ) → ℕ → List ι → Option (κ × ℕ)
  | best, _, [] => best
  | best, i, c :: cs =>
    match child.current c, best with
    | none, _ => findSmallestLoop best (i + 1) cs
    | some e, none => findSmallestLoop (some (e.1, i)) (i + 1) cs
    | some e, some b => findSmallestLoop (if e.1 < b.1 then some (e.1, i) else some b) (i + 1) cs

def findSmallest (it : MergingIterator ι) : MergingIterator ι :=
  { it with smallest := (findSmallestLoop child none 0 it.children).map Prod.snd }

section

omit [LinearOrder κ]

/-- An operation of all children. -/
def onChildren (f : ρ × ι → ρ × ι) : ρ → List ι → ρ × List ι
  | r, [] => (r, [])
  | r, c :: cs =>
    let s := f (r, c)
    let t := onChildren f s.1 cs
    (t.1, s.2 :: t.2)

def current (it : MergingIterator ι) : Option (κ × ν) := (it.smallest.bind fun i => it.children[i]?).bind child.current

/-- `status()`: the first error of a child. -/
def status (it : MergingIterator ι) : Status := it.children.findSome? child.status

end

def next (s : ρ × MergingIterator ι) : ρ × MergingIterator ι :=
  match s.2.smallest with
  | none => s
  | some i =>
    match s.2.children[i]? with
    | none => s
    | some c =>
      let t := child.next (s.1, c)
      (t.1, findSmallest child { s.2 with children := s.2.children.set i t.2 })

def ops : IteratorOps ρ (MergingIterator ι) κ ν where
  current := current child
  status := status child
  seekToFirst s :=
    let t := onChildren child.seekToFirst s.1 s.2.children
    (t.1, findSmallest child { s.2 with children := t.2 })
  next := next child

variable {child} {errors : ρ → List Error}

section

omit [LinearOrder κ]

theorem status_eq_none_iff {it : MergingIterator ι} : status child it = none ↔ ∀ c ∈ it.children, child.status c = none := by
  simp [status]

theorem sticky_onChildren {f : ρ × ι → ρ × ι} (hf : Sticky child.status errors f) (r : ρ) (cs : List ι)
    (h : ∀ c ∈ (onChildren f r cs).2, child.status c = none) :
    (∀ c ∈ cs, child.status c = none) ∧ errors (onChildren f r cs).1 = errors r := by
  induction cs generalizing r with
  | nil => exact ⟨by simp, rfl⟩
  | cons c cs ih =>
    simp only [onChildren, List.mem_cons, forall_eq_or_imp] at h
    obtain ⟨hstatus, herrors⟩ := hf (r, c) h.1
    obtain ⟨hrest, hrest'⟩ := ih _ h.2
    exact ⟨List.forall_mem_cons.mpr ⟨hstatus, hrest⟩, hrest'.trans herrors⟩

/-- A child and what stands around it, before and after it is replaced. -/
theorem split_children {cs : List ι} {i : ℕ} {c : ι} (h : cs[i]? = some c) (c' : ι) :
    cs = cs.take i ++ c :: cs.drop (i + 1) ∧ cs.set i c' = cs.take i ++ c' :: cs.drop (i + 1) := by
  obtain ⟨hlt, rfl⟩ := List.getElem?_eq_some_iff.mp h
  constructor
  · rw [← List.drop_eq_getElem_cons hlt, List.take_append_drop]
  · rw [List.set_eq_take_append_cons_drop, if_pos hlt]

end

theorem sound_ops (hchild : child.Sound errors) : (ops child).Sound errors := by
  constructor
  · intro s h
    obtain ⟨hstatus, herrors⟩ := sticky_onChildren hchild.seekToFirst s.1 s.2.children (status_eq_none_iff.mp h)
    exact ⟨status_eq_none_iff.mpr hstatus, herrors⟩
  · intro s h
    simp only [ops, next] at h ⊢
    split at h
    · exact ⟨h, rfl⟩
    split at h
    · exact ⟨h, rfl⟩
    · rename_i c hc
      obtain ⟨hbefore, hafter⟩ := split_children hc (child.next (s.1, c)).2
      have hall := status_eq_none_iff.mp h
      simp only [findSmallest, hafter, List.forall_mem_append, List.forall_mem_cons] at hall
      obtain ⟨hstatus, herrors⟩ := hchild.next (s.1, c) hall.2.1
      refine ⟨status_eq_none_iff.mpr ?_, herrors⟩
      rw [hbefore, List.forall_mem_append, List.forall_mem_cons]
      exact ⟨hall.1, hstatus, hall.2.2⟩

section Rank

variable {δ : Type} {lt : δ → δ → Prop} {childRank : ι → δ}

omit [LinearOrder κ] in
/-- What is left of the children. -/
def rank (childRank : ι → δ) (it : MergingIterator ι) : Multiset δ := it.children.map childRank

theorem progress_ops (hchild : child.Progress lt childRank) :
    (ops child).Progress (Relation.CutExpand lt) (rank childRank) := by
  intro s h
  obtain ⟨e, he⟩ := Option.isSome_iff_exists.mp h
  obtain ⟨c, hc, he⟩ := Option.bind_eq_some_iff.mp he
  obtain ⟨i, hi, hc⟩ := Option.bind_eq_some_iff.mp hc
  have hlt := hchild (s.1, c) (Option.isSome_iff_exists.mpr ⟨e, he⟩)
  obtain ⟨hbefore, hafter⟩ := split_children hc (child.next (s.1, c)).2
  refine ⟨{childRank (child.next (s.1, c)).2}, childRank c, by simpa using hlt, ?_⟩
  simp only [ops, next, hi, hc, rank, findSmallest, hafter]
  conv_rhs => rw [hbefore]
  simp only [List.map_append, List.map_cons, ← Multiset.coe_add, ← Multiset.cons_coe, ← Multiset.singleton_add]
  abel

end Rank

end MergingIterator

/-! ### `NewMergingIterator` -/

section NewMerging

variable {ρ ι κ V : Type} [LinearOrder κ]

/-- What `NewMergingIterator` makes: no iterator to merge, only one, or more. -/
abbrev MergedIter (ι κ V : Type) := BlockIter κ V ⊕ ι ⊕ MergingIterator ι

omit [LinearOrder κ] in
def newMergingIterator : List ι → MergedIter ι κ V
  | [] => .inl (emptyIterator none)
  | [c] => .inr (.inl c)
  | c :: d :: cs => .inr (.inr ⟨c :: d :: cs, none⟩)

def mergedOps (child : IteratorOps (Reads κ V) ι κ V) : IteratorOps (Reads κ V) (MergedIter ι κ V) κ V :=
  blockOps.sum (child.sum (MergingIterator.ops child))

variable {child : IteratorOps (Reads κ V) ι κ V}

theorem sound_mergedOps (h : child.Sound Reads.errors) : (mergedOps child).Sound Reads.errors :=
  sound_blockOps.sum (h.sum (MergingIterator.sound_ops h))

/-- It has an error only if one of the children has. -/
theorem status_newMergingIterator {cs : List ι} :
    (mergedOps child).status (newMergingIterator cs) = none ↔ ∀ c ∈ cs, child.status c = none := by
  match cs with
  | [] => simp [mergedOps, newMergingIterator, IteratorOps.sum, blockOps, emptyIterator]
  | [c] => simp [mergedOps, newMergingIterator, IteratorOps.sum]
  | c :: d :: cs => exact MergingIterator.status_eq_none_iff

section Rank

variable {δ : Type} [Preorder δ] (childRank : ι → δ) (ofNat : ℕ → δ)

omit [LinearOrder κ] in
/-- What is left of the iterators that are merged. -/
def mergedRank : MergedIter ι κ V → Multiset δ :=
  Sum.elim (fun it => {ofNat it.rest.length})
    (Sum.elim (fun it => {childRank it}) (MergingIterator.rank childRank))

variable {childRank ofNat}

theorem progress_mergedOps (h : child.Progress (· < ·) childRank) (hof : StrictMono ofNat) :
    (mergedOps child).Progress (Relation.CutExpand (· < ·)) (mergedRank childRank ofNat) := by
  have hone : ∀ x y : δ, x < y → Relation.CutExpand (· < ·) {x} {y} :=
    fun x y hlt => ⟨{x}, y, by simpa using hlt, add_comm _ _⟩
  refine IteratorOps.Progress.sum ?_ (IteratorOps.Progress.sum (h.map hone) (MergingIterator.progress_ops h))
  exact progress_blockOps.map fun m n hlt => hone _ _ (hof hlt)

end Rank

end NewMerging

end TLevelDB.Table
