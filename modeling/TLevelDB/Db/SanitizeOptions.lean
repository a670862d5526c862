import Mathlib.Algebra.Ring.Nat
import Mathlib.Data.UInt
import Mathlib.Order.Lattice

/-!
# Sanitizing options

`SanitizeOptions` brings four numbers of `Options` into their ranges, and fills in what the
user has left out. It does the former with `ClipToRange`, which compares after a cast to the
type of the bounds. That is `int`, while three of the four fields are of type `size_t`: of a
size only the low 32 bits are looked at, and as a signed number.

So a size below 2³¹ comes into its range. A larger one does so only if these bits look like a
number above the range (`sanitizeOptions_clamps_iff`).
-/

namespace TLevelDB.Db.Sanitize

/-- The fields of `Options` that `SanitizeOptions` looks at or sets. Those that are pointers
may be null. -/
structure Options (Comparator FilterPolicy Logger Cache : Type) where
  comparator : Comparator
  filterPolicy : Option FilterPolicy
  infoLog : Option Logger
  blockCache : Option Cache
  maxOpenFiles : Int32
  writeBufferSize : UInt64
  maxFileSize : UInt64
  blockSize : UInt64

/-! ### `ClipToRange` -/

/-- `ClipToRange`, where `toV` is the cast to the type of the bounds and `ofV` the conversion
from it. -/
def clipToRange {T V : Type} [LT V] [DecidableLT V] (toV : T → V) (ofV : V → T) (v : T) (minvalue maxvalue : V) : T :=
  let v := if maxvalue < toV v then ofV maxvalue else v
  if toV v < minvalue then ofV minvalue else v

/-- `static_cast<int>` of a `size_t`. -/
def toInt (v : UInt64) : Int32 := Int32.ofNat v.toNat

/-- The conversion of an `int` to `size_t`. -/
def ofInt (v : Int32) : UInt64 := v.toInt64.toUInt64

def kNumNonTableCacheFiles : Int32 := 10

variable {Comparator FilterPolicy Logger Cache : Type}

/-- `SanitizeOptions`. `newLogger` is the logger that can be opened, if one can, and
`newLRUCache` makes a cache. -/
def sanitizeOptions (icmp : Comparator) (ipolicy : FilterPolicy) (newLogger : Option Logger) (newLRUCache : ℕ → Cache)
    (src : Options Comparator FilterPolicy Logger Cache) : Options Comparator FilterPolicy Logger Cache where
  comparator := icmp
  filterPolicy := src.filterPolicy.map fun _ => ipolicy
  infoLog := src.infoLog <|> newLogger
  blockCache := some (src.blockCache.getD (newLRUCache (8 * 2 ^ 20)))
  maxOpenFiles := clipToRange id id src.maxOpenFiles (64 + kNumNonTableCacheFiles) 50000
  writeBufferSize := clipToRange toInt ofInt src.writeBufferSize 65536 1073741824
  maxFileSize := clipToRange toInt ofInt src.maxFileSize 1048576 1073741824
  blockSize := clipToRange toInt ofInt src.blockSize 1024 4194304

/-! ### Ranges -/

/-- Every number is the one of its range that is nearest to what the user has set. -/
structure Clamps (src result : Options Comparator FilterPolicy Logger Cache) : Prop where
  maxOpenFiles : result.maxOpenFiles.toInt = min (max src.maxOpenFiles.toInt 74) 50000
  writeBufferSize : result.writeBufferSize.toNat = min (max src.writeBufferSize.toNat (2 ^ 16)) (2 ^ 30)
  maxFileSize : result.maxFileSize.toNat = min (max src.maxFileSize.toNat (2 ^ 20)) (2 ^ 30)
  blockSize : result.blockSize.toNat = min (max src.blockSize.toNat (2 ^ 10)) (2 ^ 22)

/-- The size is below 2³¹, or its low 32 bits are a positive `int` above the range. -/
def Small (hi : ℕ) (v : UInt64) : Prop := v.toNat < 2 ^ 31 ∨ hi < v.toNat % 2 ^ 32 ∧ v.toNat % 2 ^ 32 < 2 ^ 31

theorem toInt_toInt (v : UInt64) :
    (toInt v).toInt = if v.toNat % 2 ^ 32 < 2 ^ 31 then ((v.toNat % 2 ^ 32 : ℕ) : ℤ) else (v.toNat % 2 ^ 32 : ℕ) - 2 ^ 32 := by
  rw [toInt, Int32.toInt_ofNat', Int.bmod_def]
  split_ifs <;> simp [Int32.size] at * <;> omega

/-- A bound that is not negative is the same number in both types. -/
theorem toNat_ofInt {x : Int32} {n : ℕ} (h : x.toInt = n) : (ofInt x).toNat = n := by
  have hcast : x.toInt64.toBitVec.toInt = n := (Int32.toInt_toInt64 x).trans h
  rw [BitVec.toInt_eq_toNat_cond] at hcast
  have hlt := x.toInt64.toBitVec.isLt
  show x.toInt64.toBitVec.toNat = n
  split_ifs at hcast <;> omega

/-- **A size comes into its range exactly if it is small** in this sense. -/
theorem clipToRange_size_iff (v : UInt64) {minvalue maxvalue : Int32} (lo hi : ℕ) (hmin : minvalue.toInt = lo)
    (hmax : maxvalue.toInt = hi) (hlt : lo < hi) :
    (clipToRange toInt ofInt v minvalue maxvalue).toNat = min (max v.toNat lo) hi ↔ Small hi v := by
  have hv := toInt_toInt v
  have hbound : maxvalue.toInt < 2 ^ 31 := maxvalue.toInt_lt
  have hcast : (toInt (ofInt maxvalue)).toInt = hi := by
    rw [toInt_toInt, toNat_ofInt hmax, Nat.mod_eq_of_lt (by omega), if_pos (by omega)]
  have hclamp : min (max v.toNat lo) hi = if v.toNat < lo then lo else if hi < v.toNat then hi else v.toNat := by
    split_ifs <;> omega
  rw [hclamp]
  clear hclamp
  unfold clipToRange Small
  simp only [Int32.lt_iff_toInt_lt]
  by_cases hbig : maxvalue.toInt < (toInt v).toInt
  · -- the value looks too large, and becomes the upper bound
    rw [if_pos hbig, if_neg (by omega), toNat_ofInt hmax]
    split_ifs at hv ⊢ <;> omega
  · rw [if_neg hbig]
    by_cases hsmall : (toInt v).toInt < minvalue.toInt
    · -- it looks too small
      rw [if_pos hsmall, toNat_ofInt hmin]
      split_ifs at hv ⊢ <;> omega
    · -- the value looks right, and stays as it is
      rw [if_neg hsmall]
      split_ifs at hv ⊢ <;> omega

theorem clipToRange_int (v minvalue maxvalue : Int32) (hle : minvalue.toInt ≤ maxvalue.toInt) :
    (clipToRange id id v minvalue maxvalue).toInt = min (max v.toInt minvalue.toInt) maxvalue.toInt := by
  unfold clipToRange
  simp only [id, Int32.lt_iff_toInt_lt]
  split_ifs <;> omega

section

variable (icmp : Comparator) (ipolicy : FilterPolicy) (newLogger : Option Logger) (newLRUCache : ℕ → Cache)
  (src : Options Comparator FilterPolicy Logger Cache)

/-- The numbers of the sanitized options are those of the ranges that are nearest to what the
user has set exactly if the sizes are small. -/
theorem sanitizeOptions_clamps_iff : Clamps src (sanitizeOptions icmp ipolicy newLogger newLRUCache src) ↔
    Small (2 ^ 30) src.writeBufferSize ∧ Small (2 ^ 30) src.maxFileSize ∧ Small (2 ^ 22) src.blockSize := by
  have hwrite := clipToRange_size_iff src.writeBufferSize (2 ^ 16) (2 ^ 30) (by decide : (65536 : Int32).toInt = _)
    (by decide : (1073741824 : Int32).toInt = _) (by decide)
  have hfile := clipToRange_size_iff src.maxFileSize (2 ^ 20) (2 ^ 30) (by decide : (1048576 : Int32).toInt = _)
    (by decide : (1073741824 : Int32).toInt = _) (by decide)
  have hblock := clipToRange_size_iff src.blockSize (2 ^ 10) (2 ^ 22) (by decide : (1024 : Int32).toInt = _)
    (by decide : (4194304 : Int32).toInt = _) (by decide)
  have hopen := clipToRange_int src.maxOpenFiles (64 + kNumNonTableCacheFiles) 50000 (by decide)
  constructor
  · rintro ⟨-, h1, h2, h3⟩
    exact ⟨hwrite.mp h1, hfile.mp h2, hblock.mp h3⟩
  · rintro ⟨h1, h2, h3⟩
    exact ⟨hopen, hwrite.mpr h1, hfile.mpr h2, hblock.mpr h3⟩

end

/-- A write buffer of 4 GiB becomes one of 64 KiB, not of 1 GiB. -/
theorem not_clamps_four_gib : ∃ src : Options Unit Unit Unit Unit, src.writeBufferSize = 2 ^ 32 ∧
    (sanitizeOptions () () none (fun _ => ()) src).writeBufferSize = 65536 ∧
    ¬ Clamps src (sanitizeOptions () () none (fun _ => ()) src) := by
  refine ⟨⟨(), none, none, none, 1000, 2 ^ 32, 2 ^ 21, 4096⟩, rfl, by decide, fun h => ?_⟩
  exact absurd h.writeBufferSize (by decide)

end TLevelDB.Db.Sanitize
