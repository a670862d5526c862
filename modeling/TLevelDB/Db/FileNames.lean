import TLevelDB.Util.Coding
import Mathlib.Data.Nat.Digits.Defs

/-!
# File names

The files of a database are named after their number and their kind, and `ParseFileName` finds
both in a name. It accepts exactly the names that the database owns, among them all names that it
makes (`parseFileName_spec`). A number may have leading zeros. The loop that reads it fails at the
first digit with which it would leave 64 bits.
-/

namespace TLevelDB.Db.FileNames

open Coding

/-- The bytes of a string of ASCII characters. -/
def ascii (s : String) : Slice := s.toList.map fun c => UInt8.ofNat c.toNat

/-! ### Names -/

/-- `%06llu`. -/
def decimal (number : UInt64) : Slice :=
  let digits := (Nat.digits 10 number.toNat).reverse.map fun d => UInt8.ofNat (48 + d)
  List.replicate (6 - digits.length) 48 ++ digits

def makeFileName (dbname : Slice) (number : UInt64) (suffix : String) : Slice :=
  dbname ++ (ascii "/" ++ decimal number ++ ascii "." ++ ascii suffix)

def logFileName (dbname : Slice) (number : UInt64) : Slice := makeFileName dbname number "log"

def tableFileName (dbname : Slice) (number : UInt64) : Slice := makeFileName dbname number "ldb"

def sstTableFileName (dbname : Slice) (number : UInt64) : Slice := makeFileName dbname number "sst"

def tempFileName (dbname : Slice) (number : UInt64) : Slice := makeFileName dbname number "dbtmp"

def descriptorFileName (dbname : Slice) (number : UInt64) : Slice := dbname ++ (ascii "/MANIFEST-" ++ decimal number)

/-! ### Parsing -/

inductive FileType where
  | logFile
  | dbLockFile
  | tableFile
  | descriptorFile
  | currentFile
  | tempFile
  | infoLogFile
deriving DecidableEq

def kMaxUint64 : UInt64 := 18446744073709551615

def kLastDigitOfMaxUint64 : UInt8 := 48 + (kMaxUint64 % 10).toUInt8

/-- The loop of `ConsumeDecimalNumber`: the value and what follows the digits. -/
def consumeLoop (value : UInt64) : Slice → Option (UInt64 × Slice)
  | [] => some (value, [])
  | ch :: current =>
    if ch < 48 ∨ 57 < ch then some (value, ch :: current)
    else if kMaxUint64 / 10 < value ∨ value = kMaxUint64 / 10 ∧ kLastDigitOfMaxUint64 < ch then none
    else consumeLoop (value * 10 + (ch - 48).toUInt64) current

def consumeDecimalNumber (input : Slice) : Option (UInt64 × Slice) :=
  match consumeLoop 0 input with
  | none => none
  | some (value, current) => if input.length - current.length ≠ 0 then some (value, current) else none

/-- The part of `ParseFileName` for what follows `MANIFEST-`. -/
def parseManifest (rest : Slice) : Option (UInt64 × FileType) :=
  match consumeDecimalNumber rest with
  | none => none
  | some (num, rest) => if rest.isEmpty then some (num, .descriptorFile) else none

/-- The end of `ParseFileName`, for names that begin with a number. -/
def parseNumbered (filename : Slice) : Option (UInt64 × FileType) :=
  match consumeDecimalNumber filename with
  | none => none
  | some (num, suffix) =>
    if suffix = ascii ".log" then some (num, .logFile)
    else if suffix = ascii ".sst" ∨ suffix = ascii ".ldb" then some (num, .tableFile)
    else if suffix = ascii ".dbtmp" then some (num, .tempFile)
    else none

def parseFileName (filename : Slice) : Option (UInt64 × FileType) :=
  if filename = ascii "CURRENT" then some (0, .currentFile)
  else if filename = ascii "LOCK" then some (0, .dbLockFile)
  else if filename = ascii "LOG" ∨ filename = ascii "LOG.old" then some (0, .infoLogFile)
  else if ascii "MANIFEST-" <+: filename then parseManifest (filename.drop (ascii "MANIFEST-").length)
  else parseNumbered filename

/-! ### Digits -/

def IsDigit (ch : UInt8) : Prop := 48 ≤ ch.toNat ∧ ch.toNat ≤ 57

/-- What digits denote after a number. -/
def numberFrom (value : ℕ) (s : Slice) : ℕ := s.foldl (fun v ch => v * 10 + (ch.toNat - 48)) value

/-- A string of digits that is not empty. -/
structure IsDigits (s : Slice) : Prop where
  ne_nil : s ≠ []
  digit : ∀ ch ∈ s, IsDigit ch

/-- The string does not begin with a digit. -/
def NoDigit (s : Slice) : Prop := ∀ ch ∈ s.head?, ¬ IsDigit ch

theorem isDigit_iff {ch : UInt8} : IsDigit ch ↔ ¬ (ch < 48 ∨ 57 < ch) := by
  rw [IsDigit, UInt8.lt_iff_toNat_lt, UInt8.lt_iff_toNat_lt, not_or, Nat.not_lt, Nat.not_lt]
  exact Iff.rfl

theorem le_numberFrom (value : ℕ) (s : Slice) : value ≤ numberFrom value s := by
  induction s generalizing value with
  | nil => exact le_rfl
  | cons ch s ih =>
    have := ih (value * 10 + (ch.toNat - 48))
    rw [numberFrom, List.foldl_cons]
    change _ ≤ numberFrom _ s
    omega

/-- The check of the loop: one digit more would need more than 64 bits. -/
theorem overflow_iff {value : UInt64} {ch : UInt8} (hch : IsDigit ch) :
    kMaxUint64 / 10 < value ∨ value = kMaxUint64 / 10 ∧ kLastDigitOfMaxUint64 < ch ↔
      2 ^ 64 ≤ value.toNat * 10 + (ch.toNat - 48) := by
  have hmax : (kMaxUint64 / 10).toNat = 1844674407370955161 := by decide
  have hlast : kLastDigitOfMaxUint64.toNat = 53 := by decide
  rw [UInt64.lt_iff_toNat_lt, ← UInt64.toNat_inj, UInt8.lt_iff_toNat_lt, hmax, hlast]
  obtain ⟨h₁, h₂⟩ := hch
  omega

/-- **The loop reads all digits**, and fails if they denote a number of more than 64 bits. -/
theorem consumeLoop_digits {s rest : Slice} (value : UInt64) (hs : ∀ ch ∈ s, IsDigit ch) (hrest : NoDigit rest) :
    consumeLoop value (s ++ rest) =
      if numberFrom value.toNat s < 2 ^ 64 then some (UInt64.ofNat (numberFrom value.toNat s), rest) else none := by
  induction s generalizing value with
  | nil =>
    have hvalue := value.toNat_lt
    rw [List.nil_append, numberFrom, List.foldl_nil, if_pos hvalue, UInt64.ofNat_toNat]
    cases rest with
    | nil => rfl
    | cons ch rest =>
      have hch : ¬ IsDigit ch := hrest ch rfl
      rw [isDigit_iff, not_not] at hch
      rw [consumeLoop, if_pos hch]
  | cons ch s ih =>
    obtain ⟨hch, hs⟩ := List.forall_mem_cons.mp hs
    rw [List.cons_append, consumeLoop, if_neg (isDigit_iff.mp hch)]
    have hle := le_numberFrom (value.toNat * 10 + (ch.toNat - 48)) s
    have hcons : numberFrom value.toNat (ch :: s) = numberFrom (value.toNat * 10 + (ch.toNat - 48)) s := rfl
    by_cases hover : 2 ^ 64 ≤ value.toNat * 10 + (ch.toNat - 48)
    · rw [if_pos ((overflow_iff hch).mpr hover), if_neg (by omega)]
    · have hnext : (value * 10 + (ch - 48).toUInt64).toNat = value.toNat * 10 + (ch.toNat - 48) := by
        have hsub : (ch - 48).toNat = ch.toNat - 48 := UInt8.toNat_sub_of_le _ _ (UInt8.le_iff_toNat_le.mpr hch.1)
        rw [UInt64.toNat_add, UInt64.toNat_mul, UInt8.toNat_toUInt64, hsub]
        simp only [UInt64.reduceToNat]
        omega
      rw [if_neg (fun h => hover ((overflow_iff hch).mp h)), ih _ hs, hnext, hcons]

/-- Every string is digits and what follows them. -/
theorem exists_digits (p : Slice) : ∃ s rest, p = s ++ rest ∧ (∀ ch ∈ s, IsDigit ch) ∧ NoDigit rest := by
  induction p with
  | nil => exact ⟨[], [], rfl, by simp, by simp [NoDigit]⟩
  | cons ch p ih =>
    by_cases hch : IsDigit ch
    · obtain ⟨s, rest, rfl, hs, hrest⟩ := ih
      exact ⟨ch :: s, rest, rfl, List.forall_mem_cons.mpr ⟨hch, hs⟩, hrest⟩
    · exact ⟨[], ch :: p, rfl, by simp, by simpa [NoDigit] using hch⟩

variable {n : UInt64} {p : Slice} {t : FileType}

theorem consumeDecimalNumber_iff {rest : Slice} : consumeDecimalNumber p = some (n, rest) ↔
    ∃ s, p = s ++ rest ∧ IsDigits s ∧ NoDigit rest ∧ numberFrom 0 s = n.toNat := by
  have hzero : (0 : UInt64).toNat = 0 := rfl
  have hread : ∀ s rest : Slice, (∀ ch ∈ s, IsDigit ch) → NoDigit rest → consumeDecimalNumber (s ++ rest) =
      if numberFrom 0 s < 2 ^ 64 ∧ s ≠ [] then some (UInt64.ofNat (numberFrom 0 s), rest) else none := by
    intro s rest hs hrest
    rw [consumeDecimalNumber, consumeLoop_digits 0 hs hrest, hzero]
    by_cases hlt : numberFrom 0 s < 2 ^ 64
    · rw [if_pos hlt]
      simp only [List.length_append, Nat.add_sub_cancel, hlt, true_and, ne_eq, List.length_eq_zero_iff]
    · rw [if_neg hlt, if_neg fun h => hlt h.1]
  constructor
  · intro h
    obtain ⟨s, rest', rfl, hs, hrest⟩ := exists_digits p
    rw [hread s rest' hs hrest, Option.ite_none_right_eq_some] at h
    obtain ⟨⟨hlt, hne⟩, heq⟩ := h
    cases heq
    exact ⟨s, rfl, ⟨hne, hs⟩, hrest, by rw [UInt64.toNat_ofNat', Nat.mod_eq_of_lt hlt]⟩
  · rintro ⟨s, rfl, hs, hrest, hn⟩
    rw [hread s rest hs.digit hrest, if_pos ⟨hn ▸ n.toNat_lt, hs.ne_nil⟩, hn, UInt64.ofNat_toNat]

/-! ### Owned names -/

/-- The names that the database owns, with their number and type. -/
inductive Owned : Slice → ℕ → FileType → Prop
  | current : Owned (ascii "CURRENT") 0 .currentFile
  | lock : Owned (ascii "LOCK") 0 .dbLockFile
  | infoLog : Owned (ascii "LOG") 0 .infoLogFile
  | oldInfoLog : Owned (ascii "LOG.old") 0 .infoLogFile
  | descriptor {s : Slice} : IsDigits s → Owned (ascii "MANIFEST-" ++ s) (numberFrom 0 s) .descriptorFile
  | log {s : Slice} : IsDigits s → Owned (s ++ ascii ".log") (numberFrom 0 s) .logFile
  | sstTable {s : Slice} : IsDigits s → Owned (s ++ ascii ".sst") (numberFrom 0 s) .tableFile
  | table {s : Slice} : IsDigits s → Owned (s ++ ascii ".ldb") (numberFrom 0 s) .tableFile
  | temp {s : Slice} : IsDigits s → Owned (s ++ ascii ".dbtmp") (numberFrom 0 s) .tempFile

/-- A name that begins with a digit is none of the others. -/
theorem parseFileName_of_digits {s suffix : Slice} (hs : IsDigits s) :
    parseFileName (s ++ suffix) = parseNumbered (s ++ suffix) := by
  have hne : ∀ {t : Slice} {c : UInt8}, t.head? = some c → ¬ IsDigit c → ∀ u, s ++ suffix ≠ t ++ u := by
    intro t c ht hc u heq
    obtain ⟨ch, s, rfl⟩ := List.exists_cons_of_ne_nil hs.ne_nil
    obtain ⟨t, rfl⟩ := List.head?_eq_some_iff.mp ht
    rw [List.cons_append, List.cons_append, List.cons.injEq] at heq
    exact hc (heq.1 ▸ hs.digit ch List.mem_cons_self)
  have hne' : ∀ {t : Slice} {c : UInt8}, t.head? = some c → ¬ IsDigit c → s ++ suffix ≠ t := fun ht hc heq =>
    hne ht hc [] (by rw [List.append_nil, heq])
  have hC : ¬ IsDigit 67 := by simp [IsDigit]
  have hL : ¬ IsDigit 76 := by simp [IsDigit]
  have hM : ¬ IsDigit 77 := by simp [IsDigit]
  rw [parseFileName, if_neg (hne' (by decide) hC), if_neg (hne' (by decide) hL), if_neg, if_neg]
  · rintro ⟨t, ht⟩
    exact hne (by decide) hM t ht.symm
  · rintro (h | h)
    · exact hne' (by decide) hL h
    · exact hne' (by decide) hL h

theorem noDigit_suffix {suffix : Slice} (h : suffix.head? = some 46) : NoDigit suffix := by
  intro ch hch
  rw [Option.mem_def, h, Option.some.injEq] at hch
  subst hch
  simp [IsDigit]

theorem parseNumbered_iff : parseNumbered p = some (n, t) ↔
    ∃ s suffix, p = s ++ suffix ∧ IsDigits s ∧ numberFrom 0 s = n.toNat ∧
      (suffix = ascii ".log" ∧ t = .logFile ∨ (suffix = ascii ".sst" ∨ suffix = ascii ".ldb") ∧ t = .tableFile ∨
        suffix = ascii ".dbtmp" ∧ t = .tempFile) := by
  constructor
  · intro h
    unfold parseNumbered at h
    split at h
    · cases h
    next num suffix hnum =>
      obtain ⟨s, rfl, hs, -, hn⟩ := consumeDecimalNumber_iff.mp hnum
      split_ifs at h with hlog htable htemp <;> cases h
      · exact ⟨s, suffix, rfl, hs, hn, .inl ⟨hlog, rfl⟩⟩
      · exact ⟨s, suffix, rfl, hs, hn, .inr (.inl ⟨htable, rfl⟩)⟩
      · exact ⟨s, suffix, rfl, hs, hn, .inr (.inr ⟨htemp, rfl⟩)⟩
  · rintro ⟨s, suffix, rfl, hs, hn, hsuffix⟩
    have hhead : suffix.head? = some 46 := by
      rcases hsuffix with ⟨rfl, -⟩ | ⟨rfl | rfl, -⟩ | ⟨rfl, -⟩ <;> decide
    have hnum := consumeDecimalNumber_iff.mpr ⟨s, rfl, hs, noDigit_suffix hhead, hn⟩
    simp only [parseNumbered, hnum]
    rcases hsuffix with ⟨rfl, rfl⟩ | ⟨rfl | rfl, rfl⟩ | ⟨rfl, rfl⟩
    · rfl
    · rw [if_neg (by decide), if_pos (.inl rfl)]
    · rw [if_neg (by decide), if_pos (.inr rfl)]
    · rw [if_neg (by decide), if_neg (by decide), if_pos rfl]

/-- A name that begins as that of a MANIFEST is none of the others. -/
theorem parseFileName_manifest (q : Slice) : parseFileName (ascii "MANIFEST-" ++ q) = parseManifest q := by
  have hne : ∀ t : Slice, t.head? ≠ some 77 → ascii "MANIFEST-" ++ q ≠ t := by
    intro t ht heq
    refine ht ?_
    rw [← heq, List.head?_append]
    rfl
  rw [parseFileName, if_neg (hne _ (by decide)), if_neg (hne _ (by decide)), if_neg, if_pos (List.prefix_append _ _),
    List.drop_left]
  rintro (h | h)
  · exact hne _ (by decide) h
  · exact hne _ (by decide) h

theorem owned_of_parseFileName (h : parseFileName p = some (n, t)) :
    Owned p n.toNat t := by
  by_cases hmanifest : ascii "MANIFEST-" <+: p
  · obtain ⟨q, rfl⟩ := hmanifest
    rw [parseFileName_manifest, parseManifest] at h
    split at h
    · cases h
    next num rest hnum =>
      obtain ⟨s, rfl, hs, -, hn⟩ := consumeDecimalNumber_iff.mp hnum
      split_ifs at h with hempty
      cases h
      rw [List.isEmpty_iff.mp hempty, List.append_nil, ← hn]
      exact .descriptor hs
  · unfold parseFileName at h
    split_ifs at h with hcurrent hlock hlog
    · cases h
      exact hcurrent ▸ .current
    · cases h
      exact hlock ▸ .lock
    · cases h
      rcases hlog with rfl | rfl
      · exact .infoLog
      · exact .oldInfoLog
    · obtain ⟨s, suffix, rfl, hs, hn, hsuffix⟩ := parseNumbered_iff.mp h
      rw [← hn]
      rcases hsuffix with ⟨rfl, rfl⟩ | ⟨rfl | rfl, rfl⟩ | ⟨rfl, rfl⟩
      · exact .log hs
      · exact .sstTable hs
      · exact .table hs
      · exact .temp hs

theorem Owned.parseFileName {m : ℕ} (h : Owned p m t) (hlt : m < 2 ^ 64) :
    parseFileName p = some (UInt64.ofNat m, t) := by
  have hofNat : (UInt64.ofNat m).toNat = m := by rw [UInt64.toNat_ofNat', Nat.mod_eq_of_lt hlt]
  cases h with
  | current | lock | infoLog | oldInfoLog => decide
  | @descriptor s hs =>
    have hnum := consumeDecimalNumber_iff.mpr ⟨s, (List.append_nil s).symm, hs, by simp [NoDigit], hofNat.symm⟩
    rw [parseFileName_manifest, parseManifest, hnum]
    rfl
  | log hs => exact (parseFileName_of_digits hs).trans (parseNumbered_iff.mpr ⟨_, _, rfl, hs, hofNat.symm, .inl ⟨rfl, rfl⟩⟩)
  | sstTable hs =>
    exact (parseFileName_of_digits hs).trans (parseNumbered_iff.mpr ⟨_, _, rfl, hs, hofNat.symm, .inr (.inl ⟨.inl rfl, rfl⟩)⟩)
  | table hs =>
    exact (parseFileName_of_digits hs).trans (parseNumbered_iff.mpr ⟨_, _, rfl, hs, hofNat.symm, .inr (.inl ⟨.inr rfl, rfl⟩)⟩)
  | temp hs =>
    exact (parseFileName_of_digits hs).trans (parseNumbered_iff.mpr ⟨_, _, rfl, hs, hofNat.symm, .inr (.inr ⟨rfl, rfl⟩)⟩)

/-! ### Numbers in names -/

theorem isDigits_decimal (number : UInt64) : IsDigits (decimal number) := by
  have hdigit : ∀ d < 10, IsDigit (UInt8.ofNat (48 + d)) := fun d hd => by
    rw [IsDigit, UInt8.toNat_ofNat']
    omega
  unfold decimal
  refine ⟨fun hnil => ?_, fun ch hch => ?_⟩
  · obtain ⟨hzeros, hnone⟩ := List.append_eq_nil_iff.mp hnil
    rw [hnone] at hzeros
    simp at hzeros
  · rcases List.mem_append.mp hch with hch | hch
    · rw [List.eq_of_mem_replicate hch]
      simp [IsDigit]
    · obtain ⟨d, hd, rfl⟩ := List.mem_map.mp hch
      exact hdigit d (Nat.digits_lt_base (by decide) (List.mem_reverse.mp hd))

theorem numberFrom_append (value : ℕ) (s t : Slice) : numberFrom value (s ++ t) = numberFrom (numberFrom value s) t :=
  List.foldl_append

/-- Leading zeros do not count. -/
theorem numberFrom_zeros (k : ℕ) : numberFrom 0 (List.replicate k 48) = 0 := by
  induction k with
  | zero => rfl
  | succ k ih => simpa [List.replicate_succ, numberFrom] using ih

theorem numberFrom_decimal (number : UInt64) : numberFrom 0 (decimal number) = number.toNat := by
  have hdigits : ∀ digits : List ℕ, (∀ d ∈ digits, d < 10) →
      numberFrom 0 (digits.reverse.map fun d => UInt8.ofNat (48 + d)) = Nat.ofDigits 10 digits := by
    intro digits h
    induction digits with
    | nil => rfl
    | cons d digits ih =>
      obtain ⟨hd, hdigits⟩ := List.forall_mem_cons.mp h
      rw [List.reverse_cons, List.map_append, numberFrom_append, ih hdigits, Nat.ofDigits_cons]
      simp only [numberFrom, List.map_cons, List.map_nil, List.foldl_cons, List.foldl_nil, UInt8.toNat_ofNat']
      omega
  rw [decimal, numberFrom_append, numberFrom_zeros, hdigits _ fun d hd => Nat.digits_lt_base (by decide) hd,
    Nat.ofDigits_digits]

/-- What follows the name of the database. -/
theorem drop_makeFileName (dbname : Slice) (number : UInt64) (suffix : String) :
    (makeFileName dbname number suffix).drop (dbname.length + 1) = decimal number ++ (ascii "." ++ ascii suffix) := by
  rw [makeFileName, List.drop_append, List.drop_of_length_le (by simp), Nat.add_sub_cancel_left, List.nil_append]
  simp [ascii]

/-- The names that the database makes are parsed to the number and the type. A name is accepted
exactly if the database owns it, where the number has 64 bits. -/
theorem parseFileName_spec :
    (∀ (dbname : Slice) (n : UInt64),
      parseFileName ((logFileName dbname n).drop (dbname.length + 1)) = some (n, .logFile) ∧
      parseFileName ((tableFileName dbname n).drop (dbname.length + 1)) = some (n, .tableFile) ∧
      parseFileName ((sstTableFileName dbname n).drop (dbname.length + 1)) = some (n, .tableFile) ∧
      parseFileName ((descriptorFileName dbname n).drop (dbname.length + 1)) = some (n, .descriptorFile) ∧
      parseFileName ((tempFileName dbname n).drop (dbname.length + 1)) = some (n, .tempFile)) ∧
    ∀ (name : Slice) (n : UInt64) (t : FileType), parseFileName name = some (n, t) ↔ Owned name n.toNat t := by
  have hiff : ∀ (name : Slice) (n : UInt64) (t : FileType), parseFileName name = some (n, t) ↔ Owned name n.toNat t := by
    intro name n t
    refine ⟨owned_of_parseFileName, fun h => ?_⟩
    rw [h.parseFileName n.toNat_lt, UInt64.ofNat_toNat]
  refine ⟨fun dbname n => ?_, hiff⟩
  have hs := isDigits_decimal n
  have hn := numberFrom_decimal n
  have hdescriptor : (descriptorFileName dbname n).drop (dbname.length + 1) = ascii "MANIFEST-" ++ decimal n := by
    rw [descriptorFileName, List.drop_append, List.drop_of_length_le (by simp), Nat.add_sub_cancel_left, List.nil_append]
    simp [ascii]
  simp only [logFileName, tableFileName, sstTableFileName, tempFileName, drop_makeFileName, hdescriptor, hiff, ← hn]
  exact ⟨.log hs, .table hs, .sstTable hs, .descriptor hs, .temp hs⟩

end TLevelDB.Db.FileNames
