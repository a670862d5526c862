import TLevelDB.Db.KeyBytes
import TLevelDB.Db.WriteBatch
import TLevelDB.Lib.Streams

/-!
# Version edits as strings

`VersionEdit::EncodeTo` writes an edit as fields, each of them a tag and then its values,
one after the other and with no sign where they end. `DecodeFrom` reads fields and puts them
into an edit until the string is at its end or something is wrong. Here the keys of files and
compaction pointers are strings, and an optional value is there if its `has_` flag is set.

What was written is read back (`decodeFrom_encodeTo`), whatever the edit held that is read
into. Of a key `DecodeFrom` only makes sure that it is not empty; which strings give edits with
keys that are internal keys is in `decodeFrom_wellFormed_iff`.
-/

namespace TLevelDB.Db.EditFormat

open Coding Streams
open WriteBatch (getLengthPrefixedSlice putLengthPrefixedSlice getLengthPrefixedSlice_put leaves_getVarint32Ptr
  leaves_getLengthPrefixedSlice)

/-! ### Edits -/

/-- `FileMetaData`, as far as it is written. -/
structure FileMetaData where
  number : UInt64
  fileSize : UInt64
  smallest : Slice
  largest : Slice
deriving DecidableEq

/-- The order of a `DeletedFileSet`. -/
def Before (a b : ℕ × UInt64) : Prop := a.1 < b.1 ∨ a.1 = b.1 ∧ a.2 < b.2

instance (a b : ℕ × UInt64) : Decidable (Before a b) := inferInstanceAs (Decidable (_ ∨ _))

/-- What `std::set::insert` makes of the elements of a set. -/
def insertElement (x : ℕ × UInt64) : List (ℕ × UInt64) → List (ℕ × UInt64)
  | [] => [x]
  | y :: ys => if Before x y then x :: y :: ys else if Before y x then y :: insertElement x ys else y :: ys

theorem mem_insertElement {x y : ℕ × UInt64} {l : List (ℕ × UInt64)} (h : y ∈ insertElement x l) : y = x ∨ y ∈ l := by
  induction l with
  | nil => simpa [insertElement] using h
  | cons z l ih =>
    rw [insertElement] at h
    split_ifs at h
    · simpa using h
    · rcases List.mem_cons.mp h with rfl | h
      · exact .inr List.mem_cons_self
      · exact (ih h).imp_right (List.mem_cons_of_mem z)
    · exact .inr h

theorem Before.trans {a b c : ℕ × UInt64} (h : Before a b) (h' : Before b c) : Before a c := by
  simp only [Before, UInt64.lt_iff_toNat_lt] at *
  omega

theorem pairwise_insertElement {x : ℕ × UInt64} {l : List (ℕ × UInt64)} (h : l.Pairwise Before) :
    (insertElement x l).Pairwise Before := by
  induction l with
  | nil => exact List.pairwise_singleton _ _
  | cons y l ih =>
    obtain ⟨hy, hl⟩ := List.pairwise_cons.mp h
    rw [insertElement]
    split_ifs with hxy hyx
    · refine List.pairwise_cons.mpr ⟨fun z hz => ?_, h⟩
      rcases List.mem_cons.mp hz with rfl | hz
      · exact hxy
      · exact hxy.trans (hy z hz)
    · refine List.pairwise_cons.mpr ⟨fun z hz => ?_, ih hl⟩
      rcases mem_insertElement hz with rfl | hz
      · exact hyx
      · exact hy z hz
    · exact h

/-- `DeletedFileSet`: levels and numbers of files, in order. -/
abbrev DeletedFileSet := { l : List (ℕ × UInt64) // l.Pairwise Before }

def DeletedFileSet.insert (s : DeletedFileSet) (x : ℕ × UInt64) : DeletedFileSet :=
  ⟨insertElement x s.1, pairwise_insertElement s.2⟩

structure VersionEdit where
  comparator : Option Slice := none
  logNumber : Option UInt64 := none
  prevLogNumber : Option UInt64 := none
  nextFileNumber : Option UInt64 := none
  lastSequence : Option UInt64 := none
  compactPointers : List (ℕ × Slice) := []
  deletedFiles : DeletedFileSet := ⟨[], List.Pairwise.nil⟩
  newFiles : List (ℕ × FileMetaData) := []
deriving DecidableEq

def VersionEdit.clear (_ : VersionEdit) : VersionEdit := {}

/-! ### `EncodeTo` -/

/-- `Tag`. -/
def kComparator : UInt32 := 1
def kLogNumber : UInt32 := 2
def kNextFileNumber : UInt32 := 3
def kLastSequence : UInt32 := 4
def kCompactPointer : UInt32 := 5
def kDeletedFile : UInt32 := 6
def kNewFile : UInt32 := 7
def kPrevLogNumber : UInt32 := 9

/-- What is written of a value that is there. -/
def putOptional {α : Type} (put : α → Slice) : Option α → Slice
  | none => []
  | some a => put a

def putNumber (tag : UInt32) (n : UInt64) : Slice := encodeVarint32 tag ++ encodeVarint64 n

def putLevel (level : ℕ) : Slice := encodeVarint32 (UInt32.ofNat level)

def putCompactPointer (p : ℕ × Slice) : Slice :=
  encodeVarint32 kCompactPointer ++ (putLevel p.1 ++ putLengthPrefixedSlice p.2)

def putDeletedFile (p : ℕ × UInt64) : Slice := encodeVarint32 kDeletedFile ++ (putLevel p.1 ++ encodeVarint64 p.2)

def putNewFile (p : ℕ × FileMetaData) : Slice :=
  encodeVarint32 kNewFile ++ (putLevel p.1 ++ (encodeVarint64 p.2.number ++ (encodeVarint64 p.2.fileSize ++
    (putLengthPrefixedSlice p.2.smallest ++ putLengthPrefixedSlice p.2.largest))))

/-- What `EncodeTo` appends. -/
def VersionEdit.encodeTo (e : VersionEdit) : Slice :=
  putOptional (fun name => encodeVarint32 kComparator ++ putLengthPrefixedSlice name) e.comparator ++
    (putOptional (putNumber kLogNumber) e.logNumber ++
    (putOptional (putNumber kPrevLogNumber) e.prevLogNumber ++
    (putOptional (putNumber kNextFileNumber) e.nextFileNumber ++
    (putOptional (putNumber kLastSequence) e.lastSequence ++
    (e.compactPointers.flatMap putCompactPointer ++
    (e.deletedFiles.1.flatMap putDeletedFile ++
    e.newFiles.flatMap putNewFile))))))

/-! ### `DecodeFrom` -/

/-- What a turn of the loop of `DecodeFrom` finds. -/
inductive Field where
  | comparator (name : Slice)
  | logNumber (n : UInt64)
  | prevLogNumber (n : UInt64)
  | nextFileNumber (n : UInt64)
  | lastSequence (n : UInt64)
  | compactPointer (level : ℕ) (key : Slice)
  | deletedFile (level : ℕ) (number : UInt64)
  | newFile (level : ℕ) (f : FileMetaData)
deriving DecidableEq

/-- What it does with it. -/
def VersionEdit.set (e : VersionEdit) : Field → VersionEdit
  | .comparator name => { e with comparator := some name }
  | .logNumber n => { e with logNumber := some n }
  | .prevLogNumber n => { e with prevLogNumber := some n }
  | .nextFileNumber n => { e with nextFileNumber := some n }
  | .lastSequence n => { e with lastSequence := some n }
  | .compactPointer level key => { e with compactPointers := e.compactPointers ++ [(level, key)] }
  | .deletedFile level number => { e with deletedFiles := e.deletedFiles.insert (level, number) }
  | .newFile level f => { e with newFiles := e.newFiles ++ [(level, f)] }

/-- `GetInternalKey`, with `InternalKey::DecodeFrom`. -/
def getInternalKey (input : Slice) : Option (Slice × Slice) := do
  let (str, input) ← getLengthPrefixedSlice input
  if str.isEmpty then none else some (str, input)

def getLevel (input : Slice) : Option (ℕ × Slice) := do
  let (v, input) ← getVarint32Ptr input
  if v.toNat < kNumLevels then some (v.toNat, input) else none

/-- What was found, or the message that it was not. -/
def orMessage (msg : String) : Option (Field × Slice) → Except String (Field × Slice)
  | none => .error msg
  | some r => .ok r

/-- The field `f` with a number. -/
def getNumber (f : UInt64 → Field) (input : Slice) : Option (Field × Slice) := do
  let (n, input) ← getVarint64 input
  some (f n, input)

def getCompactPointer (input : Slice) : Option (Field × Slice) := do
  let (level, input) ← getLevel input
  let (key, input) ← getInternalKey input
  some (.compactPointer level key, input)

def getDeletedFile (input : Slice) : Option (Field × Slice) := do
  let (level, input) ← getLevel input
  let (number, input) ← getVarint64 input
  some (.deletedFile level number, input)

def getNewFile (input : Slice) : Option (Field × Slice) := do
  let (level, input) ← getLevel input
  let (number, input) ← getVarint64 input
  let (fileSize, input) ← getVarint64 input
  let (smallest, input) ← getInternalKey input
  let (largest, input) ← getInternalKey input
  some (.newFile level ⟨number, fileSize, smallest, largest⟩, input)

/-- The cases of the tags. -/
def getField (tag : UInt32) (input : Slice) : Except String (Field × Slice) :=
  if tag = kComparator then
    orMessage "comparator name" ((getLengthPrefixedSlice input).map fun r => (.comparator r.1, r.2))
  else if tag = kLogNumber then orMessage "log number" (getNumber .logNumber input)
  else if tag = kPrevLogNumber then orMessage "previous log number" (getNumber .prevLogNumber input)
  else if tag = kNextFileNumber then orMessage "next file number" (getNumber .nextFileNumber input)
  else if tag = kLastSequence then orMessage "last sequence number" (getNumber .lastSequence input)
  else if tag = kCompactPointer then orMessage "compaction pointer" (getCompactPointer input)
  else if tag = kDeletedFile then orMessage "deleted file" (getDeletedFile input)
  else if tag = kNewFile then orMessage "new-file entry" (getNewFile input)
  else .error "unknown tag"

/-- The loop of `DecodeFrom`, in which every turn takes at least one byte. -/
def decodeLoop : ℕ → VersionEdit → Slice → VersionEdit × Option String
  | 0, e, _ => (e, none)
  | fuel + 1, e, input =>
    match getVarint32Ptr input with
    | none => (e, if input.isEmpty then none else some "invalid tag")
    | some (tag, input) =>
      match getField tag input with
      | .error msg => (e, some msg)
      | .ok (f, input) => decodeLoop fuel (e.set f) input

/-- `DecodeFrom`, into an edit that may hold something already; none is OK. -/
def VersionEdit.decodeFrom (e : VersionEdit) (src : Slice) : VersionEdit × Option String :=
  let (e, msg) := decodeLoop (src.length + 1) e.clear src
  (e, msg.map fun msg => "VersionEdit: " ++ msg)

/-! ### The fields of a string -/

/-- A field at the front of a string. -/
def readField (input : Slice) : Option (Field × Slice) := do
  let (tag, input) ← getVarint32Ptr input
  (getField tag input).toOption

section Leaves

variable {n : ℕ} {input : Slice}

theorem leaves_getVarint64 (h : input.length ≤ n) : Leaves n (getVarint64 input) :=
  fun _ hr => (suffix_of_getVarint64 hr).2.trans_le h

theorem leaves_getLevel (h : input.length ≤ n) : Leaves n (getLevel input) :=
  .bind (leaves_getVarint32Ptr h) fun _ _ hv => .ite (.some hv) .none

theorem leaves_getInternalKey (h : input.length ≤ n) : Leaves n (getInternalKey input) :=
  .bind (leaves_getLengthPrefixedSlice h) fun _ _ hstr => .ite .none (.some hstr)

theorem leaves_getNumber (f : UInt64 → Field) (h : input.length ≤ n) : Leaves n (getNumber f input) :=
  .bind (leaves_getVarint64 h) fun _ _ hn => .some hn

theorem leaves_getCompactPointer (h : input.length ≤ n) : Leaves n (getCompactPointer input) :=
  .bind (leaves_getLevel h) fun _ _ hlevel => .bind (leaves_getInternalKey hlevel.le) fun _ _ hkey => .some hkey

theorem leaves_getDeletedFile (h : input.length ≤ n) : Leaves n (getDeletedFile input) :=
  .bind (leaves_getLevel h) fun _ _ hlevel => .bind (leaves_getVarint64 hlevel.le) fun _ _ hnumber => .some hnumber

theorem leaves_getNewFile (h : input.length ≤ n) : Leaves n (getNewFile input) :=
  .bind (leaves_getLevel h) fun _ _ hlevel => .bind (leaves_getVarint64 hlevel.le) fun _ _ hnumber =>
    .bind (leaves_getVarint64 hnumber.le) fun _ _ hsize => .bind (leaves_getInternalKey hsize.le) fun _ _ hsmallest =>
      .bind (leaves_getInternalKey hsmallest.le) fun _ _ hlargest => .some hlargest

theorem orMessage_eq_ok {msg : String} {o : Option (Field × Slice)} {r : Field × Slice} (h : orMessage msg o = .ok r) :
    o = some r := by
  cases o with
  | none => cases h
  | some r' => exact congrArg some (Except.ok.inj h)

theorem length_of_getField {tag : UInt32} {f : Field × Slice} (h : getField tag input = .ok f) :
    f.2.length < input.length := by
  rw [getField] at h
  split_ifs at h
  · have hname := orMessage_eq_ok h
    rw [Option.map_eq_some_iff] at hname
    obtain ⟨r, hr, rfl⟩ := hname
    exact leaves_getLengthPrefixedSlice le_rfl r hr
  · exact leaves_getNumber _ le_rfl f (orMessage_eq_ok h)
  · exact leaves_getNumber _ le_rfl f (orMessage_eq_ok h)
  · exact leaves_getNumber _ le_rfl f (orMessage_eq_ok h)
  · exact leaves_getNumber _ le_rfl f (orMessage_eq_ok h)
  · exact leaves_getCompactPointer le_rfl f (orMessage_eq_ok h)
  · exact leaves_getDeletedFile le_rfl f (orMessage_eq_ok h)
  · exact leaves_getNewFile le_rfl f (orMessage_eq_ok h)

end Leaves

/-- What the loop does: it puts the fields at the front of the string into the edit. -/
theorem decodeLoop_reads {fuel : ℕ} {input : Slice} (hfuel : input.length < fuel) (e : VersionEdit) :
    ∃ fields rest, Reads readField input fields rest ∧ readField rest = none ∧
      (decodeLoop fuel e input).1 = fields.foldl VersionEdit.set e ∧ ((decodeLoop fuel e input).2 = none ↔ rest = []) := by
  induction fuel generalizing input e with
  | zero => omega
  | succ fuel ih =>
    rw [decodeLoop]
    cases htag : getVarint32Ptr input with
    | none =>
      refine ⟨[], input, .nil input, by simp [readField, htag], rfl, ?_⟩
      simp
    | some r =>
      obtain ⟨tag, p⟩ := r
      have hlt := (suffix_of_getVarint32Ptr htag).2
      dsimp only
      cases hfield : getField tag p with
      | error msg =>
        refine ⟨[], input, .nil input, ?_, rfl, ?_⟩
        · simp [readField, htag, hfield, Except.toOption]
        · simp only [reduceCtorEq, false_iff]
          rintro rfl
          simp at hlt
      | ok r =>
        obtain ⟨f, q⟩ := r
        have hread : readField input = some (f, q) := by simp [readField, htag, hfield, Except.toOption]
        have hlt' : q.length < p.length := length_of_getField hfield
        obtain ⟨fields, rest, hreads, hstuck, hset, hok⟩ := ih (show q.length < fuel by omega) (e.set f)
        exact ⟨f :: fields, rest, .cons hread hreads, hstuck, hset, hok⟩

/-- **`DecodeFrom` reads the fields of a string**, if it is made of fields. -/
theorem decodeFrom_eq_iff {old e : VersionEdit} {src : Slice} : old.decodeFrom src = (e, none) ↔
    ∃ fields, Reads readField src fields [] ∧ e = fields.foldl VersionEdit.set {} := by
  obtain ⟨fields, rest, hreads, hstuck, hset, hok⟩ := decodeLoop_reads (Nat.lt_succ_self src.length) old.clear
  rw [VersionEdit.decodeFrom, Prod.mk.injEq, Option.map_eq_none_iff, hset, hok]
  constructor
  · rintro ⟨rfl, rfl⟩
    exact ⟨fields, hreads, rfl⟩
  · rintro ⟨fields', hreads', rfl⟩
    obtain ⟨rfl, rfl⟩ := hreads.eq_of_stuck hstuck hreads' rfl
    exact ⟨rfl, rfl⟩

/-! ### What was written is read back -/

/-- A level that there is. -/
def LevelFits (level : ℕ) : Prop := level < kNumLevels

/-- A key that can be written. -/
def KeyFits (key : Slice) : Prop := key ≠ [] ∧ key.length < 2 ^ 32

instance (level : ℕ) : Decidable (LevelFits level) := inferInstanceAs (Decidable (_ < _))

instance (key : Slice) : Decidable (KeyFits key) := inferInstanceAs (Decidable (_ ∧ _))

/-- An edit that can be written. -/
structure VersionEdit.Encodable (e : VersionEdit) : Prop where
  comparator : ∀ name ∈ e.comparator, name.length < 2 ^ 32
  compactPointers : ∀ p ∈ e.compactPointers, LevelFits p.1 ∧ KeyFits p.2
  deletedFiles : ∀ p ∈ e.deletedFiles.1, LevelFits p.1
  newFiles : ∀ p ∈ e.newFiles, LevelFits p.1 ∧ KeyFits p.2.smallest ∧ KeyFits p.2.largest

namespace Field

def encode : Field → Slice
  | comparator name => encodeVarint32 kComparator ++ putLengthPrefixedSlice name
  | logNumber n => putNumber kLogNumber n
  | prevLogNumber n => putNumber kPrevLogNumber n
  | nextFileNumber n => putNumber kNextFileNumber n
  | lastSequence n => putNumber kLastSequence n
  | compactPointer level key => putCompactPointer (level, key)
  | deletedFile level number => putDeletedFile (level, number)
  | newFile level f => putNewFile (level, f)

def Encodable : Field → Prop
  | comparator name => name.length < 2 ^ 32
  | compactPointer level key => LevelFits level ∧ KeyFits key
  | deletedFile level _ => LevelFits level
  | newFile level f => LevelFits level ∧ KeyFits f.smallest ∧ KeyFits f.largest
  | _ => True

end Field

theorem getLevel_putLevel {level : ℕ} (h : LevelFits level) (rest : Slice) :
    getLevel (putLevel level ++ rest) = some (level, rest) := by
  have hlt : level < 7 := h
  have hlevel : (UInt32.ofNat level).toNat = level := by rw [UInt32.toNat_ofNat', Nat.mod_eq_of_lt (by omega)]
  simp [getLevel, putLevel, hlevel, kNumLevels, hlt]

theorem getInternalKey_put {key : Slice} (h : KeyFits key) (rest : Slice) :
    getInternalKey (putLengthPrefixedSlice key ++ rest) = some (key, rest) := by
  have hkey := getLengthPrefixedSlice_put h.2 rest
  simp [getInternalKey, hkey, h.1]

theorem getNumber_encodeVarint64 (f : UInt64 → Field) (n : UInt64) (rest : Slice) :
    getNumber f (encodeVarint64 n ++ rest) = some (f n, rest) := by
  simp [getNumber]

theorem readField_tag (tag : UInt32) (input : Slice) :
    readField (encodeVarint32 tag ++ input) = (getField tag input).toOption := by
  simp [readField]

theorem readField_putNumber {tag : UInt32} {msg : String} {f : UInt64 → Field}
    (h : ∀ input, getField tag input = orMessage msg (getNumber f input)) (n : UInt64) (rest : Slice) :
    readField (putNumber tag n ++ rest) = some (f n, rest) := by
  rw [putNumber, List.append_assoc, readField_tag, h, getNumber_encodeVarint64]
  rfl

/-- A field is read back, whatever follows it. -/
theorem readField_encode {f : Field} (h : f.Encodable) (rest : Slice) : readField (f.encode ++ rest) = some (f, rest) := by
  cases f with
  | comparator name =>
    have hname := @getLengthPrefixedSlice_put name h rest
    simp [readField_tag, Field.encode, getField, hname, orMessage, Except.toOption]
  | logNumber n => exact readField_putNumber (fun _ => rfl) n rest
  | prevLogNumber n => exact readField_putNumber (fun _ => rfl) n rest
  | nextFileNumber n => exact readField_putNumber (fun _ => rfl) n rest
  | lastSequence n => exact readField_putNumber (fun _ => rfl) n rest
  | compactPointer level key =>
    have htag : ∀ input, getField kCompactPointer input = orMessage "compaction pointer" (getCompactPointer input) := fun _ => rfl
    have hlevel := getLevel_putLevel h.1 (putLengthPrefixedSlice key ++ rest)
    have hkey := getInternalKey_put h.2 rest
    simp [Field.encode, putCompactPointer, readField_tag, htag, getCompactPointer, hlevel, hkey, orMessage, Except.toOption]
  | deletedFile level number =>
    have htag : ∀ input, getField kDeletedFile input = orMessage "deleted file" (getDeletedFile input) := fun _ => rfl
    have hlevel := @getLevel_putLevel level h (encodeVarint64 number ++ rest)
    simp [Field.encode, putDeletedFile, readField_tag, htag, getDeletedFile, hlevel, orMessage, Except.toOption]
  | newFile level f =>
    have htag : ∀ input, getField kNewFile input = orMessage "new-file entry" (getNewFile input) := fun _ => rfl
    have hlevel := getLevel_putLevel h.1 (encodeVarint64 f.number ++ (encodeVarint64 f.fileSize ++
      (putLengthPrefixedSlice f.smallest ++ (putLengthPrefixedSlice f.largest ++ rest))))
    have hsmallest := getInternalKey_put h.2.1 (putLengthPrefixedSlice f.largest ++ rest)
    have hlargest := getInternalKey_put h.2.2 rest
    simp [Field.encode, putNewFile, readField_tag, htag, getNewFile, hlevel, hsmallest, hlargest, orMessage,
      Except.toOption]

namespace VersionEdit

/-- The fields that `EncodeTo` writes. -/
def fields (e : VersionEdit) : List Field :=
  e.comparator.toList.map .comparator ++ (e.logNumber.toList.map .logNumber ++
    (e.prevLogNumber.toList.map .prevLogNumber ++ (e.nextFileNumber.toList.map .nextFileNumber ++
    (e.lastSequence.toList.map .lastSequence ++ (e.compactPointers.map (fun p => .compactPointer p.1 p.2) ++
    (e.deletedFiles.1.map (fun p => .deletedFile p.1 p.2) ++ e.newFiles.map fun p => .newFile p.1 p.2))))))

theorem putOptional_eq_flatMap {α : Type} (put : α → Slice) (o : Option α) : putOptional put o = o.toList.flatMap put := by
  cases o <;> simp [putOptional]

theorem encodeTo_eq_flatMap (e : VersionEdit) : e.encodeTo = e.fields.flatMap Field.encode := by
  simp only [encodeTo, fields, putOptional_eq_flatMap, List.flatMap_append, List.flatMap_map]
  rfl

theorem encodable_of_mem_fields {e : VersionEdit} (h : e.Encodable) {f : Field} (hf : f ∈ e.fields) : f.Encodable := by
  simp only [fields, List.mem_append, List.mem_map, Option.mem_toList] at hf
  rcases hf with ⟨name, hname, rfl⟩ | ⟨n, -, rfl⟩ | ⟨n, -, rfl⟩ | ⟨n, -, rfl⟩ | ⟨n, -, rfl⟩ | ⟨p, hp, rfl⟩ | ⟨p, hp, rfl⟩ |
    ⟨p, hp, rfl⟩
  · exact h.comparator name hname
  · trivial
  · trivial
  · trivial
  · trivial
  · exact h.compactPointers p hp
  · exact h.deletedFiles p hp
  · exact h.newFiles p hp

theorem foldl_set_compactPointers (ps : List (ℕ × Slice)) (e : VersionEdit) :
    (ps.map fun p => Field.compactPointer p.1 p.2).foldl set e =
      { e with compactPointers := e.compactPointers ++ ps } := by
  induction ps generalizing e with
  | nil => simp
  | cons p ps ih =>
    rw [List.map_cons, List.foldl_cons, ih]
    simp [set]

theorem foldl_set_newFiles (ps : List (ℕ × FileMetaData)) (e : VersionEdit) :
    (ps.map fun p => Field.newFile p.1 p.2).foldl set e = { e with newFiles := e.newFiles ++ ps } := by
  induction ps generalizing e with
  | nil => simp
  | cons p ps ih =>
    rw [List.map_cons, List.foldl_cons, ih]
    simp [set]

/-- An element that comes after all others. -/
theorem insertElement_of_last {x : ℕ × UInt64} {l : List (ℕ × UInt64)} (h : ∀ y ∈ l, Before y x) :
    insertElement x l = l ++ [x] := by
  induction l with
  | nil => rfl
  | cons y l ih =>
    have hyx := h y List.mem_cons_self
    have hxy : ¬ Before x y := by
      simp only [Before, UInt64.lt_iff_toNat_lt] at hyx ⊢
      omega
    rw [insertElement, if_neg hxy, if_pos hyx, ih fun z hz => h z (List.mem_cons_of_mem y hz), List.cons_append]

/-- The elements of a set come in order, so that each is inserted after the others. -/
theorem foldl_set_deletedFiles (ps : List (ℕ × UInt64)) (e : VersionEdit)
    (h : (e.deletedFiles.1 ++ ps).Pairwise Before) :
    (ps.map fun p => Field.deletedFile p.1 p.2).foldl set e = { e with deletedFiles := ⟨e.deletedFiles.1 ++ ps, h⟩ } := by
  induction ps generalizing e with
  | nil => simp
  | cons p ps ih =>
    have hlast : insertElement p e.deletedFiles.1 = e.deletedFiles.1 ++ [p] :=
      insertElement_of_last fun y hy => (List.pairwise_append.mp h).2.2 y hy p List.mem_cons_self
    have hset : (e.set (.deletedFile p.1 p.2)).deletedFiles.1 = e.deletedFiles.1 ++ [p] := hlast
    have hsorted : ((e.set (.deletedFile p.1 p.2)).deletedFiles.1 ++ ps).Pairwise Before := by
      rw [hset, List.append_assoc]
      exact h
    rw [List.map_cons, List.foldl_cons, ih _ hsorted]
    simp only [hset, List.append_assoc, List.singleton_append]
    rfl

theorem foldl_set_fields (e : VersionEdit) : e.fields.foldl set {} = e := by
  obtain ⟨comparator, logNumber, prevLogNumber, nextFileNumber, lastSequence, compactPointers, ⟨deleted, hsorted⟩, newFiles⟩ := e
  have hoptional : (comparator.toList.map Field.comparator ++ (logNumber.toList.map Field.logNumber ++
      (prevLogNumber.toList.map Field.prevLogNumber ++ (nextFileNumber.toList.map Field.nextFileNumber ++
      lastSequence.toList.map Field.lastSequence)))).foldl set {} =
      ⟨comparator, logNumber, prevLogNumber, nextFileNumber, lastSequence, [], ⟨[], List.Pairwise.nil⟩, []⟩ := by
    cases comparator <;> cases logNumber <;> cases prevLogNumber <;> cases nextFileNumber <;> cases lastSequence <;> rfl
  simp only [List.foldl_append] at hoptional
  simp only [fields, List.foldl_append, hoptional]
  rw [foldl_set_compactPointers, foldl_set_deletedFiles _ _ (by simpa using hsorted), foldl_set_newFiles]
  simp

end VersionEdit

/-- **What was written is read back.** Reading the string of an edit gives this edit, into
whatever edit it is read. -/
theorem decodeFrom_encodeTo (old e : VersionEdit) (h : e.Encodable) : old.decodeFrom e.encodeTo = (e, none) := by
  have hreads := reads_flatMap (fun f hf => readField_encode (e.encodable_of_mem_fields h hf)) []
  rw [List.append_nil, ← e.encodeTo_eq_flatMap] at hreads
  exact decodeFrom_eq_iff.mpr ⟨e.fields, hreads, e.foldl_set_fields.symm⟩

/-- An edit with something in every field. -/
def sampleEdit : VersionEdit where
  comparator := some [1, 2]
  logNumber := some 300
  prevLogNumber := some 0
  nextFileNumber := some 5
  lastSequence := some 18446744073709551615
  compactPointers := [(0, [7]), (6, [8])]
  deletedFiles := ⟨[(1, 3), (1, 4)], by decide⟩
  newFiles := [(2, ⟨9, 100, [1], [2, 3]⟩)]

theorem decodeFrom_encodeTo_sample :
    (({ comparator := some [9], compactPointers := [(1, [1])] } : VersionEdit).decodeFrom sampleEdit.encodeTo) =
      (sampleEdit, none) :=
  decodeFrom_encodeTo _ _ ⟨by decide, by decide, by decide, by decide⟩

/-! ### Which keys are read -/

/-- The keys in a field. -/
def Field.keys : Field → List Slice
  | .compactPointer _ key => [key]
  | .newFile _ f => [f.smallest, f.largest]
  | _ => []

/-- The compaction pointers, and the smallest and largest keys of the files. -/
def VersionEdit.keys (e : VersionEdit) : List Slice :=
  e.compactPointers.map Prod.snd ++ e.newFiles.flatMap fun p => [p.2.smallest, p.2.largest]

theorem mem_keys_set {e : VersionEdit} {f : Field} {key : Slice} : key ∈ (e.set f).keys ↔ key ∈ e.keys ∨ key ∈ f.keys := by
  cases f with
  | compactPointer level key' =>
    simp only [VersionEdit.keys, VersionEdit.set, Field.keys, List.map_append, List.mem_append, List.map_cons, List.map_nil]
    tauto
  | newFile level f =>
    simp only [VersionEdit.keys, VersionEdit.set, Field.keys, List.flatMap_append, List.flatMap_singleton, List.mem_append]
    tauto
  | _ => simp [VersionEdit.keys, VersionEdit.set, Field.keys]

theorem mem_keys_foldl_set {fields : List Field} {e : VersionEdit} {key : Slice} :
    key ∈ (fields.foldl VersionEdit.set e).keys ↔ key ∈ e.keys ∨ ∃ f ∈ fields, key ∈ f.keys := by
  induction fields generalizing e with
  | nil => simp
  | cons f fields ih =>
    rw [List.foldl_cons, ih, mem_keys_set]
    simp only [List.mem_cons, exists_eq_or_imp, or_assoc]

/-- The string ends with eight bytes of which the first is a type. -/
def EndsInTag (key : Slice) : Prop := 8 ≤ key.length ∧ (key.getD (key.length - 8) 0).toNat ≤ 1

/-- The type is in the lowest byte of the tag, which is stored first. -/
theorem toUInt8_decodeFixed64 {l : Slice} (h : 8 ≤ l.length) : (decodeFixed64 l &&& 0xff).toUInt8 = l.getD 0 0 := by
  rcases l with _ | ⟨b₀, _ | ⟨b₁, _ | ⟨b₂, _ | ⟨b₃, _ | ⟨b₄, _ | ⟨b₅, _ | ⟨b₆, _ | ⟨b₇, l⟩⟩⟩⟩⟩⟩⟩⟩
  iterate 8 simp at h
  have hb₀ := b₀.toNat_lt
  have hmask : (0xff : UInt64).toNat = 2 ^ 8 - 1 := rfl
  rw [decodeFixed64, List.getD_cons_zero, ← UInt8.toNat_inj, UInt64.toNat_toUInt8, UInt64.toNat_and, hmask,
    Nat.and_two_pow_sub_one_eq_mod, UInt64.toNat_ofNat']
  omega

theorem wellFormed_iff_endsInTag (key : Slice) : WellFormed key ↔ EndsInTag key := by
  rw [WellFormed, parseInternalKey, EndsInTag]
  split
  · rename_i hshort
    simp [hshort]
  · rename_i hlong
    have hlen : 8 ≤ (key.drop (key.length - 8)).length := by
      rw [List.length_drop]
      omega
    have htype : (extractTag key &&& 0xff).toUInt8 = key.getD (key.length - 8) 0 := by
      rw [extractTag, toUInt8_decodeFixed64 hlen, List.getD_eq_getElem?_getD, List.getElem?_drop, add_zero,
        ← List.getD_eq_getElem?_getD]
    dsimp only
    rw [htype, and_iff_right (not_lt.mp hlong)]
    generalize key.getD (key.length - 8) 0 = c
    split_ifs with hdeletion hvalue
    · simp [hdeletion]
    · simp [hvalue]
    · have hc₀ : c.toNat ≠ 0 := fun h => hdeletion (UInt8.toNat_inj.mp h)
      have hc₁ : c.toNat ≠ 1 := fun h => hvalue (UInt8.toNat_inj.mp h)
      simp only [Option.isSome_none, Bool.false_eq_true, false_iff]
      omega

/-- **Which edits have internal keys.** Where `DecodeFrom` returns OK, the keys of the edit are
internal keys if, and only if, each key in the fields of the string has the eight bytes of a tag
at its end, with a type that there is. -/
theorem decodeFrom_wellFormed_iff {old e : VersionEdit} {src : Slice} (h : old.decodeFrom src = (e, none)) :
    (∀ key ∈ e.keys, WellFormed key) ↔
      ∀ fields, Reads readField src fields [] → ∀ f ∈ fields, ∀ key ∈ f.keys, EndsInTag key := by
  obtain ⟨fields, hreads, rfl⟩ := decodeFrom_eq_iff.mp h
  have hkeys : ∀ key, key ∈ (fields.foldl VersionEdit.set {}).keys ↔ ∃ f ∈ fields, key ∈ f.keys := by
    intro key
    rw [mem_keys_foldl_set]
    exact or_iff_right (by simp [VersionEdit.keys])
  simp only [hkeys, wellFormed_iff_endsInTag]
  constructor
  · intro hall fields' hreads' f hf key hkey
    obtain ⟨rfl, -⟩ := hreads'.eq_of_stuck rfl hreads rfl
    exact hall key ⟨f, hf, hkey⟩
  · rintro hall key ⟨f, hf, hkey⟩
    exact hall fields hreads f hf key hkey

/-- A compaction pointer with the tag of a value. -/
theorem decodeFrom_wellFormed_one :
    (∀ key ∈ ({ compactPointers := [(0, [1, 0, 0, 0, 0, 0, 0, 0])] } : VersionEdit).keys, WellFormed key) ↔
      ∀ fields, Reads readField [5, 0, 8, 1, 0, 0, 0, 0, 0, 0, 0] fields [] → ∀ f ∈ fields, ∀ key ∈ f.keys, EndsInTag key :=
  @decodeFrom_wellFormed_iff {} _ _ (by decide)

/-- A compaction pointer of a single byte is accepted. -/
theorem decodeFrom_short_key : (({} : VersionEdit).decodeFrom [5, 0, 1, 7]) = ({ compactPointers := [(0, [7])] }, none) ∧
    [7] ∈ ({ compactPointers := [(0, [7])] } : VersionEdit).keys ∧ ¬ WellFormed [7] := by
  decide

end TLevelDB.Db.EditFormat
