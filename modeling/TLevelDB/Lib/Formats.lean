import Mathlib.Data.List.Basic
import Mathlib.Data.List.Infix
import Mathlib.Data.List.Induction

/-!
# Formats of files that grow

A log is a file to which records are appended one by one; how a record is written may
depend on where in the file it begins. Whoever reads a log that was cut off somewhere
gets the records that are there as a whole (`LogFormat.decode_of_prefix`).

A table is built from its entries one by one and then finished; it is only read when it
is finished.
-/

namespace TLevelDB.Storage

variable {R E β : Type}

/-! ### Logs -/

/-- The file of these records, where `encode` says how a record is written at an offset. -/
def writeRecords (encode : ℕ → R → List β) (rs : List R) : List β := rs.foldl (fun bs r => bs ++ encode bs.length r) []

/-- A format for logs. -/
structure LogFormat (R β : Type) where
  /-- What is appended for a record to a file of that length. -/
  encode : ℕ → R → List β
  /-- The records that a reader gets. -/
  decode : List β → List R
  /-- A reader has nothing to report. -/
  intact : List β → Bool
  decode_write : ∀ rs, decode (writeRecords encode rs) = rs
  /-- A reader does not get a record that was not written to its end. -/
  decode_torn : ∀ rs r bs, bs <+: encode (writeRecords encode rs).length r →
    bs ≠ encode (writeRecords encode rs).length r → decode (writeRecords encode rs ++ bs) = rs
  /-- A log that was cut off somewhere is no corrupt log. -/
  intact_of_prefix : ∀ rs bs, bs <+: writeRecords encode rs → intact bs = true

namespace LogFormat

variable (F : LogFormat R β) {rs rs' : List R} {r : R} {bs : List β}

/-- The file of these records. -/
def write (rs : List R) : List β := writeRecords F.encode rs

@[simp] theorem write_nil : F.write [] = [] := rfl

theorem write_snoc (rs : List R) (r : R) : F.write (rs ++ [r]) = F.write rs ++ F.encode (F.write rs).length r := by
  simp [write, writeRecords]

@[simp] theorem decode_write_eq (rs : List R) : F.decode (F.write rs) = rs := F.decode_write rs

@[simp] theorem decode_nil : F.decode [] = [] := F.decode_write []

theorem write_isPrefix (rs rs' : List R) : F.write rs <+: F.write (rs ++ rs') := by
  induction rs' using List.reverseRecOn with
  | nil => simp
  | append_singleton rs' r ih =>
    rw [← List.append_assoc, write_snoc]
    exact ih.trans (List.prefix_append _ _)

/-- A log that is not cut off before the end of its record `j` is read at least that far. -/
theorem decode_of_prefix {j : ℕ} (hj : j ≤ rs.length) (hle : F.write (rs.take j) <+: bs) (hge : bs <+: F.write rs) :
    ∃ k, j ≤ k ∧ k ≤ rs.length ∧ F.decode bs = rs.take k := by
  induction rs using List.reverseRecOn with
  | nil =>
    have hbs : bs = [] := by simpa using hge
    exact ⟨0, by simpa using hj, le_rfl, by simp [hbs]⟩
  | append_singleton rs r ih =>
    have hwhole : bs = F.write (rs ++ [r]) → ∃ k, j ≤ k ∧ k ≤ (rs ++ [r]).length ∧ F.decode bs = (rs ++ [r]).take k :=
      fun heq => ⟨_, hj, le_rfl, by rw [heq, decode_write_eq, List.take_length]⟩
    have hlast : j = rs.length + 1 → bs = F.write (rs ++ [r]) := by
      intro heq
      rw [heq, List.take_of_length_le (by simp)] at hle
      exact hge.eq_of_length (le_antisymm hge.length_le hle.length_le)
    by_cases hj' : j = rs.length + 1
    · exact hwhole (hlast hj')
    · have hjlt : j ≤ rs.length := by
        simp only [List.length_append, List.length_singleton] at hj
        omega
      rw [List.take_append_of_le_length hjlt] at hle
      -- the cut is in the records before the last, or in the last
      rcases List.prefix_or_prefix_of_prefix hge (F.write_isPrefix rs [r]) with hcut | hcut
      · obtain ⟨k, hjk, hk, hdec⟩ := ih hjlt hle hcut
        refine ⟨k, hjk, by simp only [List.length_append, List.length_singleton]; omega, ?_⟩
        rw [hdec, List.take_append_of_le_length hk]
      · obtain ⟨t, rfl⟩ := hcut
        rw [write_snoc, List.prefix_append_right_inj] at hge
        by_cases ht : t = F.encode (F.write rs).length r
        · exact hwhole (by rw [write_snoc, ht])
        · exact ⟨rs.length, hjlt, by simp, by
            rw [List.take_append_of_le_length le_rfl, List.take_length]
            exact F.decode_torn rs r t hge ht⟩

@[simp] theorem intact_write (rs : List R) : F.intact (F.write rs) = true := F.intact_of_prefix rs _ List.prefix_rfl

theorem filterMap_map_of_dec {S : Type} {enc : R → S} {dec : S → Option R} (h : ∀ r, dec (enc r) = some r) (rs : List R) :
    (rs.map enc).filterMap dec = rs := by
  rw [List.filterMap_map, show dec ∘ enc = some from funext h, List.filterMap_some]

theorem writeRecords_symbol (symbol : R → β) (rs : List R) :
    writeRecords (fun _ r => [symbol r]) rs = rs.map symbol := by
  induction rs using List.reverseRecOn with
  | nil => rfl
  | append_singleton rs r ih => simpa [writeRecords] using ih

/-- The format in which every record is one symbol. -/
def ofSymbol (symbol : R → β) (record : β → Option R) (h : ∀ r, record (symbol r) = some r) : LogFormat R β where
  encode _ r := [symbol r]
  decode bs := bs.filterMap record
  intact bs := bs.all fun b => (record b).isSome
  decode_write rs := by
    rw [writeRecords_symbol, filterMap_map_of_dec h]
  decode_torn rs r bs hle hne := by
    obtain rfl : bs = [] := by
      rcases List.prefix_cons_iff.mp hle with rfl | ⟨t, rfl, ht⟩
      · rfl
      · exact absurd (congrArg _ (List.prefix_nil.mp ht)) hne
    rw [writeRecords_symbol, List.append_nil, filterMap_map_of_dec h]
  intact_of_prefix rs bs hle := by
    rw [writeRecords_symbol] at hle
    rw [List.all_eq_true]
    intro b hb
    obtain ⟨r, -, rfl⟩ := List.mem_map.mp (hle.subset hb)
    simp [h]

end LogFormat

/-! ### Tables -/

/-- What is appended for these entries one after the other, where `add` says what is
appended for an entry that comes after others. -/
def addEntries (add : List E → E → List β) (es : List E) : List β :=
  (es.foldl (fun s e => (s.1 ++ [e], s.2 ++ add s.1 e)) (([], []) : List E × List β)).2

/-- A format for tables. -/
structure TableFormat (E β : Type) where
  /-- What is appended for an entry after these. -/
  add : List E → E → List β
  /-- What is appended at the end. -/
  finish : List E → List β
  /-- The entries of a finished table. -/
  read : List β → Option (List E)
  read_finish : ∀ es, read (addEntries add es ++ finish es) = some es

namespace TableFormat

variable (F : TableFormat E β)

/-- A table that is being built. -/
def unfinished (es : List E) : List β := addEntries F.add es

/-- A finished table. -/
def table (es : List E) : List β := F.unfinished es ++ F.finish es

/-- The format in which every entry is one symbol, and so is the end. -/
def ofSymbol (symbol : E → β) (entry : β → Option E) (last : β) (isLast : β → Bool)
    (h : ∀ e, entry (symbol e) = some e) (hlast : entry last = none ∧ isLast last = true) : TableFormat E β where
  add _ e := [symbol e]
  finish _ := [last]
  read bs := if bs.getLast?.any isLast then some (bs.filterMap entry) else none
  read_finish es := by
    have hfold : ∀ (es : List E) (s : List E × List β),
        (es.foldl (fun s e => (s.1 ++ [e], s.2 ++ [symbol e])) s).2 = s.2 ++ es.map symbol := by
      intro es
      induction es with
      | nil => simp
      | cons e es ih => simp [ih]
    simp [addEntries, hfold, hlast, h]

end TableFormat

end TLevelDB.Storage
