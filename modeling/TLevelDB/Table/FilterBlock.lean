import TLevelDB.Table.BlockRoundTrip

/-!
# Filter blocks

A table may have a block of filters. The file is divided into windows of `kFilterBase`
bytes, and there is a filter for the keys of all blocks that begin in a window
(`FilterBlockBuilder`). `FilterBlockReader` asks the filter of the window in which a block
begins whether a key may be in it.

What matters about a filter block is that the keys for which a filter was made match it
(`FilterBlockBuilder.keyMayMatch_finish`).
-/

namespace TLevelDB.Table

open Coding Log

/-- `FilterPolicy`, whose filters match the keys that they were made for. -/
structure FilterPolicy where
  name : Slice
  /-- What `CreateFilter` appends. -/
  createFilter : List Slice → Slice
  keyMayMatch : Slice → Slice → Bool
  noFalseNegatives : ∀ keys, ∀ key ∈ keys, keyMayMatch key (createFilter keys) = true

def kFilterBaseLg : ℕ := 11

def kFilterBase : ℕ := 2 ^ kFilterBaseLg

/-! ### `FilterBlockBuilder` -/

structure FilterBlockBuilder where
  /-- Flattened key contents. -/
  keys : Slice := []
  /-- Starting index in `keys` of each key. -/
  start : List ℕ := []
  /-- Filter data computed so far. -/
  result : Slice := []
  filterOffsets : List UInt32 := []
deriving DecidableEq

namespace FilterBlockBuilder

variable (policy : FilterPolicy)

/-- The list of keys from the flattened key structure. -/
def tmpKeys (b : FilterBlockBuilder) : List Slice :=
  List.zipWith (fun base limit => (b.keys.drop base).take (limit - base)) b.start (b.start.tail ++ [b.keys.length])

def generateFilter (b : FilterBlockBuilder) : FilterBlockBuilder :=
  let filterOffsets := b.filterOffsets ++ [UInt32.ofNat b.result.length]
  if b.start.isEmpty then { b with filterOffsets := filterOffsets }
  else ⟨[], [], b.result ++ policy.createFilter b.tmpKeys, filterOffsets⟩

/-- The loop of `StartBlock`. -/
def startBlockLoop (filterIndex : ℕ) : ℕ → FilterBlockBuilder → FilterBlockBuilder
  | 0, b => b
  | n + 1, b => if b.filterOffsets.length < filterIndex then startBlockLoop filterIndex n (b.generateFilter policy) else b

def startBlock (b : FilterBlockBuilder) (blockOffset : UInt64) : FilterBlockBuilder :=
  let filterIndex := blockOffset.toNat / kFilterBase
  startBlockLoop policy filterIndex filterIndex b

def addKey (b : FilterBlockBuilder) (key : Slice) : FilterBlockBuilder :=
  { b with start := b.start ++ [b.keys.length], keys := b.keys ++ key }

def finish (b : FilterBlockBuilder) : Slice :=
  let b := if b.start.isEmpty then b else b.generateFilter policy
  b.result ++ (b.filterOffsets.flatMap encodeFixed32 ++
    (encodeFixed32 (UInt32.ofNat b.result.length) ++ [UInt8.ofNat kFilterBaseLg]))

end FilterBlockBuilder

/-! ### `FilterBlockReader` -/

structure FilterBlockReader where
  data : Slice := []
  /-- `offset_ - data_`: the beginning of the offset array. -/
  offset : ℕ := 0
  /-- Number of entries in the offset array. -/
  num : ℕ := 0
  baseLg : ℕ := 0
deriving DecidableEq

namespace FilterBlockReader

def new (contents : Slice) : FilterBlockReader :=
  let n := contents.length
  if n < 5 then {}
  else
    let baseLg := (contents.getD (n - 1) 0).toNat
    let lastWord := (decodeFixed32 (contents.drop (n - 5))).toNat
    if n - 5 < lastWord then { baseLg := baseLg } else ⟨contents, lastWord, (n - 5 - lastWord) / 4, baseLg⟩

def keyMayMatch (policy : FilterPolicy) (r : FilterBlockReader) (blockOffset : UInt64) (key : Slice) : Bool :=
  let index := blockOffset.toNat / 2 ^ r.baseLg
  if index < r.num then
    let start := (decodeFixed32 (r.data.drop (r.offset + index * 4))).toNat
    let limit := (decodeFixed32 (r.data.drop (r.offset + index * 4 + 4))).toNat
    if start ≤ limit ∧ limit ≤ r.offset then policy.keyMayMatch key ((r.data.drop start).take (limit - start))
    -- empty filters do not match any keys
    else if start = limit then false
    else true
  -- errors are treated as potential matches
  else true

end FilterBlockReader

/-! ### What a filter block holds -/

namespace FilterBlockBuilder

/-- Where each of these strings begins, from an offset on. -/
def starts : ℕ → List Slice → List ℕ
  | _, [] => []
  | n, s :: ss => n :: starts (n + s.length) ss

theorem starts_append (n : ℕ) (ss : List Slice) (s : Slice) :
    starts n (ss ++ [s]) = starts n ss ++ [n + ss.flatten.length] := by
  induction ss generalizing n with
  | nil => simp [starts]
  | cons t ss ih => simp [starts, ih, Nat.add_assoc]

@[simp] theorem length_starts (n : ℕ) (ss : List Slice) : (starts n ss).length = ss.length := by
  induction ss generalizing n with
  | nil => rfl
  | cons s ss ih => simp [starts, ih]

/-- Strings are found again in their concatenation. -/
theorem zipWith_starts (before : Slice) (ss : List Slice) :
    List.zipWith (fun base limit => ((before ++ ss.flatten).drop base).take (limit - base)) (starts before.length ss)
      ((starts before.length ss).tail ++ [(before ++ ss.flatten).length]) = ss := by
  induction ss generalizing before with
  | nil => rfl
  | cons s ss ih =>
    have hrest := ih (before ++ s)
    rw [List.append_assoc, ← List.flatten_cons, List.length_append] at hrest
    have hfirst : ((before ++ (s :: ss).flatten).drop before.length).take (before.length + s.length - before.length) = s := by
      rw [List.drop_left, List.flatten_cons, Nat.add_sub_cancel_left, List.take_left]
    cases ss with
    | nil =>
      simp only [starts, List.tail_cons, List.nil_append, List.zipWith_cons_cons, List.zipWith_nil_left, List.length_append]
      simp
    | cons t ss =>
      simp only [starts, List.tail_cons, List.cons_append, List.zipWith_cons_cons] at hrest ⊢
      rw [hfirst, hrest]

variable (policy : FilterPolicy)

/-- The filter for some keys; nothing if there are none. -/
def filterOf (keys : List Slice) : Slice := if keys.isEmpty then [] else policy.createFilter keys

/-- The builder has made filters for these groups of keys, and has these keys for the next. -/
structure Holds (b : FilterBlockBuilder) (groups : List (List Slice)) (pending : List Slice) : Prop where
  keys : b.keys = pending.flatten
  start : b.start = starts 0 pending
  result : b.result = (groups.map (filterOf policy)).flatten
  filterOffsets : b.filterOffsets = (starts 0 (groups.map (filterOf policy))).map UInt32.ofNat

variable {policy} {b : FilterBlockBuilder} {groups : List (List Slice)} {pending : List Slice}

theorem Holds.isEmpty_start (h : Holds policy b groups pending) : b.start.isEmpty = pending.isEmpty := by
  rw [h.start]
  cases pending <;> rfl

theorem holds_empty : Holds policy {} [] [] := ⟨rfl, rfl, rfl, rfl⟩

theorem Holds.addKey (h : Holds policy b groups pending) (key : Slice) : Holds policy (b.addKey key) groups (pending ++ [key]) := by
  refine ⟨?_, ?_, h.result, h.filterOffsets⟩
  · simp [FilterBlockBuilder.addKey, h.keys]
  · rw [FilterBlockBuilder.addKey, starts_append, ← h.start, h.keys, Nat.zero_add]

theorem Holds.length_filterOffsets (h : Holds policy b groups pending) : b.filterOffsets.length = groups.length := by
  rw [h.filterOffsets, List.length_map, length_starts, List.length_map]

theorem Holds.generateFilter (h : Holds policy b groups pending) :
    Holds policy (b.generateFilter policy) (groups ++ [pending]) [] := by
  have hoffsets : b.filterOffsets ++ [UInt32.ofNat b.result.length] =
      (starts 0 ((groups ++ [pending]).map (filterOf policy))).map UInt32.ofNat := by
    rw [List.map_append, List.map_singleton, starts_append, List.map_append, ← h.filterOffsets, ← h.result, Nat.zero_add]
    rfl
  have htmp : b.tmpKeys = pending := by
    have hzip := zipWith_starts [] pending
    rw [tmpKeys, h.keys, h.start]
    exact hzip
  unfold FilterBlockBuilder.generateFilter
  split
  · rename_i hempty
    rw [h.isEmpty_start, List.isEmpty_iff] at hempty
    subst hempty
    exact ⟨h.keys, h.start, by simpa [filterOf] using h.result, hoffsets⟩
  · rename_i hempty
    rw [h.isEmpty_start] at hempty
    exact ⟨rfl, rfl, by simp [h.result, htmp, filterOf, hempty], hoffsets⟩

variable {blockOffset : UInt64} {i : ℕ}

/-- `StartBlock` does nothing if there are enough filters. -/
theorem Holds.startBlock_of_le (h : Holds policy b groups pending)
    (hle : blockOffset.toNat / kFilterBase ≤ groups.length) : b.startBlock policy blockOffset = b := by
  unfold FilterBlockBuilder.startBlock
  simp only
  generalize blockOffset.toNat / kFilterBase = index at hle ⊢
  cases index with
  | zero => rfl
  | succ index => rw [startBlockLoop, h.length_filterOffsets, if_neg (Nat.not_lt.mpr hle)]

theorem Holds.startBlockLoop (h : Holds policy b groups pending) {index n : ℕ} (hlt : groups.length < index)
    (hn : index ≤ n + groups.length) : ∃ more,
      Holds policy (startBlockLoop policy index n b) (groups ++ pending :: more) [] ∧
        (groups ++ pending :: more).length = index := by
  induction n generalizing b groups pending with
  | zero => omega
  | succ n ih =>
    have hnext := h.generateFilter
    have hlen : (groups ++ [pending]).length = groups.length + 1 := by simp
    rw [FilterBlockBuilder.startBlockLoop, h.length_filterOffsets, if_pos hlt]
    rcases (show groups.length + 1 ≤ index from hlt).lt_or_eq with hlt' | heq
    · obtain ⟨more, hmore, hlength⟩ := ih hnext (by omega) (by omega)
      refine ⟨[] :: more, ?_, ?_⟩
      · simpa using hmore
      · simpa using hlength
    · refine ⟨[], ?_, by rw [hlen, heq]⟩
      cases n with
      | zero => exact hnext
      | succ n => rwa [FilterBlockBuilder.startBlockLoop, hnext.length_filterOffsets, if_neg (by omega)]

/-- `StartBlock` makes filters up to the window of the offset; the keys at hand go into the
first of them. -/
theorem Holds.startBlock_of_lt (h : Holds policy b groups pending)
    (hlt : groups.length < blockOffset.toNat / kFilterBase) : ∃ more,
      Holds policy (b.startBlock policy blockOffset) (groups ++ pending :: more) [] ∧
        (groups ++ pending :: more).length = blockOffset.toNat / kFilterBase :=
  h.startBlockLoop hlt (Nat.le_add_right _ _)

/-! ### What the reader finds -/

theorem getElem_starts_append (n : ℕ) (ss : List Slice) (hi : i < (starts n ss ++ [n + ss.flatten.length]).length) :
    (starts n ss ++ [n + ss.flatten.length])[i] = n + (ss.take i).flatten.length := by
  induction ss generalizing n i with
  | nil =>
    have h0 : i = 0 := by simpa [starts] using hi
    subst h0
    simp [starts]
  | cons s ss ih =>
    cases i with
    | zero => simp [starts]
    | succ i =>
      have hrest := ih (n + s.length) (i := i) (by simpa [starts] using hi)
      simpa [starts, Nat.add_assoc] using hrest

/-- The groups of keys that a finished block has filters for. -/
def allGroups (groups : List (List Slice)) (pending : List Slice) : List (List Slice) :=
  if pending.isEmpty then groups else groups ++ [pending]

theorem Holds.finish (h : Holds policy b groups pending) :
    let filters := (allGroups groups pending).map (filterOf policy)
    b.finish policy = filters.flatten ++ (((starts 0 filters ++ [filters.flatten.length]).map UInt32.ofNat).flatMap
      encodeFixed32 ++ [UInt8.ofNat kFilterBaseLg]) := by
  unfold FilterBlockBuilder.finish allGroups
  rw [h.isEmpty_start]
  split
  · simp [h.result, h.filterOffsets, List.flatMap_append]
  · have hnext := h.generateFilter
    simp [hnext.result, hnext.filterOffsets, List.flatMap_append]

/-- Where the filters begin, and where the last one ends. -/
abbrev words (filters : List Slice) : List UInt32 := (starts 0 filters ++ [filters.flatten.length]).map UInt32.ofNat

/-- A filter block with these filters. -/
abbrev contentsOf (filters : List Slice) : Slice :=
  filters.flatten ++ ((words filters).flatMap encodeFixed32 ++ [UInt8.ofNat kFilterBaseLg])

variable {filters : List Slice}

theorem length_contentsOf : (contentsOf filters).length = filters.flatten.length + filters.length * 4 + 5 := by
  simp only [contentsOf, words, List.length_append, length_flatMap_encodeFixed32, List.length_map, length_starts,
    List.length_singleton]
  omega

/-- A word of the array of offsets. -/
theorem decodeFixed32_contentsOf (hsize : (contentsOf filters).length < 2 ^ 32) (hi : i ≤ filters.length) :
    (decodeFixed32 ((contentsOf filters).drop (filters.flatten.length + i * 4))).toNat =
      (filters.take i).flatten.length := by
  have hle : (filters.take i).flatten.length ≤ filters.flatten.length := by
    conv_rhs => rw [← List.take_append_drop i filters, List.flatten_append, List.length_append]
    exact Nat.le_add_right _ _
  have hword : i < (words filters).length := by
    simp only [words, List.length_map, List.length_append, length_starts, List.length_singleton]
    omega
  have hget : (words filters)[i] = UInt32.ofNat (filters.take i).flatten.length := by
    have hstart := getElem_starts_append 0 filters (i := i) (by simpa [words] using hword)
    simp only [Nat.zero_add] at hstart
    rw [List.getElem_map, hstart]
  rw [length_contentsOf] at hsize
  rw [contentsOf, ← List.drop_drop, List.drop_left, decodeFixed32_drop_flatMap hword, hget, UInt32.toNat_ofNat',
    Nat.mod_eq_of_lt (by omega)]

theorem new_contentsOf (hsize : (contentsOf filters).length < 2 ^ 32) : FilterBlockReader.new (contentsOf filters) =
    ⟨contentsOf filters, filters.flatten.length, filters.length, kFilterBaseLg⟩ := by
  have hlen := @length_contentsOf filters
  have hlast : (contentsOf filters).getD ((contentsOf filters).length - 1) 0 = UInt8.ofNat kFilterBaseLg := by
    have happ : contentsOf filters = (filters.flatten ++ (words filters).flatMap encodeFixed32) ++
        [UInt8.ofNat kFilterBaseLg] := (List.append_assoc ..).symm
    rw [happ, List.length_append, List.length_singleton, Nat.add_sub_cancel, List.getD_append_right _ _ _ _ le_rfl,
      Nat.sub_self]
    rfl
  have hword : (decodeFixed32 ((contentsOf filters).drop ((contentsOf filters).length - 5))).toNat =
      filters.flatten.length := by
    rw [hlen, Nat.add_sub_cancel, decodeFixed32_contentsOf hsize le_rfl, List.take_length]
  rw [FilterBlockReader.new]
  simp only [hlast, hword]
  rw [if_neg (by omega), if_neg (by omega), hlen]
  congr 1
  omega

/-- The reader asks the filter of the window. -/
theorem keyMayMatch_contentsOf (hsize : (contentsOf filters).length < 2 ^ 32)
    (hoffset : blockOffset.toNat / kFilterBase = i) (hi : i < filters.length) (key : Slice) :
    (FilterBlockReader.new (contentsOf filters)).keyMayMatch policy blockOffset key =
      policy.keyMayMatch key filters[i] := by
  have hsplit : filters.flatten = (filters.take i).flatten ++ (filters[i] ++ (filters.drop (i + 1)).flatten) := by
    conv_lhs => rw [← List.take_append_drop i filters, List.drop_eq_getElem_cons hi, List.flatten_append, List.flatten_cons]
  have hsucc : (filters.take (i + 1)).flatten.length = (filters.take i).flatten.length + filters[i].length := by
    rw [List.take_succ_eq_append_getElem hi, List.flatten_append, List.length_append]
    simp
  have hle := congrArg List.length hsplit
  simp only [List.length_append] at hle
  rw [new_contentsOf hsize, FilterBlockReader.keyMayMatch]
  simp only
  rw [show blockOffset.toNat / 2 ^ kFilterBaseLg = i from hoffset, if_pos hi, decodeFixed32_contentsOf hsize hi.le,
    show filters.flatten.length + i * 4 + 4 = filters.flatten.length + (i + 1) * 4 by omega,
    decodeFixed32_contentsOf hsize (show i + 1 ≤ filters.length from hi), hsucc, if_pos ⟨by omega, by omega⟩,
    Nat.add_sub_cancel_left]
  congr 1
  rw [contentsOf, hsplit, List.append_assoc, List.append_assoc, List.drop_left, List.take_left]

/-- **A key matches the filter that was made for it.** -/
theorem Holds.keyMayMatch_finish (h : Holds policy b groups pending) (hsize : (b.finish policy).length < 2 ^ 32)
    (hoffset : blockOffset.toNat / kFilterBase = i)
    (hi : i < (allGroups groups pending).length) {key : Slice} (hkey : key ∈ (allGroups groups pending)[i]) :
    (FilterBlockReader.new (b.finish policy)).keyMayMatch policy blockOffset key = true := by
  rw [h.finish] at hsize ⊢
  rw [keyMayMatch_contentsOf hsize hoffset (by simpa using hi), List.getElem_map, filterOf, if_neg]
  · exact policy.noFalseNegatives _ key hkey
  · rw [List.isEmpty_iff]
    exact List.ne_nil_of_mem hkey

end FilterBlockBuilder

end TLevelDB.Table
