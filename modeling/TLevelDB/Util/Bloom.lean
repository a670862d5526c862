import TLevelDB.Util.Coding
import Mathlib.Data.List.GetD

/-!
# Bloom filters

`BloomFilterPolicy` makes a filter of at least 64 bits for some keys, and appends the number
of probes to it. A key has as many positions in the filter as there are probes; they come
from one hash value by adding a fixed difference again and again, with 32 bits. Whoever reads
a filter computes the number of bits from its length, and takes the number of probes from its
last byte.

A key for which a filter was made matches it (`keyMayMatch_createFilter`): bits are only ever
set, and both sides agree on the number of bits and of probes.
-/

namespace TLevelDB.Coding

open Log

/-! ### `Hash` -/

def hashMultiplier : UInt32 := 0xc6a4a793

/-- The loop of `Hash` over four bytes at a time, and what it does with the remaining ones. -/
def hashLoop : UInt32 → Slice → UInt32
  | h, b₀ :: b₁ :: b₂ :: b₃ :: data =>
    let h := (h + decodeFixed32 [b₀, b₁, b₂, b₃]) * hashMultiplier
    hashLoop (h ^^^ (h >>> 16)) data
  | h, [b₀, b₁, b₂] =>
    let h := (h + (b₂.toUInt32 <<< 16) + (b₁.toUInt32 <<< 8) + b₀.toUInt32) * hashMultiplier
    h ^^^ (h >>> 24)
  | h, [b₀, b₁] =>
    let h := (h + (b₁.toUInt32 <<< 8) + b₀.toUInt32) * hashMultiplier
    h ^^^ (h >>> 24)
  | h, [b₀] =>
    let h := (h + b₀.toUInt32) * hashMultiplier
    h ^^^ (h >>> 24)
  | h, [] => h

def hash (data : Slice) (seed : UInt32) : UInt32 :=
  hashLoop (seed ^^^ (UInt32.ofNat data.length * hashMultiplier)) data

def bloomHash (key : Slice) : UInt32 := hash key 0xbc9f1d34

/-! ### The policy -/

/-- `BloomFilterPolicy`, after the constructor has clamped `k_`. -/
structure BloomFilterPolicy where
  bitsPerKey : ℕ
  k : ℕ
  k_pos : 1 ≤ k
  k_le : k ≤ 30

/-- The difference of the hash values: the first one rotated right by 17 bits. -/
def bloomDelta (h : UInt32) : UInt32 := (h >>> 17) ||| (h <<< 15)

/-- The bit of its byte that a position stands for. -/
def bitMask (bitpos : ℕ) : UInt8 := 1 <<< UInt8.ofNat (bitpos % 8)

def setBit (array : Slice) (bitpos : ℕ) : Slice := array.modify (bitpos / 8) (· ||| bitMask bitpos)

def isSet (array : Slice) (bitpos : ℕ) : Bool := array.getD (bitpos / 8) 0 &&& bitMask bitpos != 0

/-- The inner loop of `CreateFilter`. -/
def setProbes (bits : ℕ) (delta : UInt32) : ℕ → UInt32 → Slice → Slice
  | 0, _, array => array
  | j + 1, h, array => setProbes bits delta j (h + delta) (setBit array (h.toNat % bits))

/-- The loop of `KeyMayMatch`. -/
def allProbesSet (bits : ℕ) (delta : UInt32) (array : Slice) : ℕ → UInt32 → Bool
  | 0, _ => true
  | j + 1, h => isSet array (h.toNat % bits) && allProbesSet bits delta array j (h + delta)

namespace BloomFilterPolicy

variable (p : BloomFilterPolicy)

/-- The size of the filter for `n` keys in bytes; sizes are `size_t`. -/
def filterBytes (n : ℕ) : ℕ :=
  let bits := n * p.bitsPerKey % 2 ^ 64
  -- for small n the false positive rate would be very high
  let bits := if bits < 64 then 64 else bits
  (bits + 7) % 2 ^ 64 / 8

/-- A turn of the outer loop of `CreateFilter`. -/
def addKey (bits : ℕ) (array : Slice) (key : Slice) : Slice :=
  setProbes bits (bloomDelta (bloomHash key)) p.k (bloomHash key) array

/-- The new `*dst`. -/
def createFilter (keys : List Slice) (dst : Slice) : Slice :=
  let bytes := p.filterBytes keys.length
  let bits := bytes * 8 % 2 ^ 64
  dst ++ keys.foldl (p.addKey bits) (List.replicate bytes 0 ++ [UInt8.ofNat p.k])

end BloomFilterPolicy

/-- `BloomFilterPolicy::KeyMayMatch`, which uses nothing of the policy. -/
def bloomKeyMayMatch (key bloomFilter : Slice) : Bool :=
  let len := bloomFilter.length
  if len < 2 then false
  else
    let bits := (len - 1) * 8 % 2 ^ 64
    let k := (bloomFilter.getD (len - 1) 0).toNat
    -- reserved for potentially new encodings
    if 30 < k then true
    else allProbesSet bits (bloomDelta (bloomHash key)) bloomFilter k (bloomHash key)

/-! ### Bits are only ever set -/

theorem and_or_distrib (x y m : UInt8) : (x ||| y) &&& m = (x &&& m) ||| (y &&& m) := by
  apply UInt8.toNat.inj
  simp only [UInt8.toNat_and, UInt8.toNat_or]
  exact Nat.and_or_distrib_right _ _ _

theorem bitMask_ne_zero (bitpos : ℕ) : bitMask bitpos ≠ 0 := by
  have hall : ∀ b < 8, (1 : UInt8) <<< UInt8.ofNat b ≠ 0 := by decide
  exact hall _ (Nat.mod_lt _ (by decide))

section Bits

variable {array : Slice} {i bits j n : ℕ} {h delta : UInt32}

@[simp] theorem length_setBit : (setBit array i).length = array.length := List.length_modify ..

theorem getD_setBit (hi : i / 8 ≠ n) : (setBit array i).getD n 0 = array.getD n 0 := by
  rw [List.getD_eq_getElem?_getD, List.getD_eq_getElem?_getD, setBit, List.getElem?_modify]
  simp [hi]

theorem getD_setBit_same (hi : i / 8 = n) (hn : n < array.length) :
    (setBit array i).getD n 0 = array[n] ||| bitMask i := by
  rw [List.getD_eq_getElem _ _ (by simpa using hn)]
  simp [setBit, hi]

theorem isSet_setBit_self (hi : i / 8 < array.length) : isSet (setBit array i) i = true := by
  rw [isSet, getD_setBit_same rfl hi, and_or_distrib, UInt8.and_self, bne_iff_ne, ne_eq, UInt8.or_eq_zero_iff, not_and]
  exact fun _ => bitMask_ne_zero i

theorem isSet_setBit (hset : isSet array n = true) : isSet (setBit array i) n = true := by
  by_cases hi : i / 8 = n / 8
  · have hne : array.getD (n / 8) 0 &&& bitMask n ≠ 0 := by simpa [isSet] using hset
    have hlen : n / 8 < array.length := by
      by_contra hge
      rw [List.getD_eq_default _ _ (Nat.le_of_not_lt hge)] at hne
      simp at hne
    rw [List.getD_eq_getElem _ _ hlen] at hne
    rw [isSet, getD_setBit_same hi hlen, and_or_distrib, bne_iff_ne, ne_eq, UInt8.or_eq_zero_iff, not_and]
    exact fun hzero => absurd hzero hne
  · rw [isSet, getD_setBit hi]
    exact hset

@[simp] theorem length_setProbes : (setProbes bits delta j h array).length = array.length := by
  induction j generalizing h array with
  | zero => rfl
  | succ j ih => rw [setProbes, ih, length_setBit]

theorem isSet_setProbes (hset : isSet array n = true) : isSet (setProbes bits delta j h array) n = true := by
  induction j generalizing h array with
  | zero => exact hset
  | succ j ih => exact ih (isSet_setBit hset)

/-- Bytes outside the filter are left alone. -/
theorem getD_setProbes (hbits : 0 < bits) (hn : bits / 8 ≤ n) (hdvd : 8 ∣ bits) :
    (setProbes bits delta j h array).getD n 0 = array.getD n 0 := by
  induction j generalizing h array with
  | zero => rfl
  | succ j ih =>
    have hlt : h.toNat % bits < bits := Nat.mod_lt _ hbits
    rw [setProbes, ih, getD_setBit (by omega)]

theorem allProbesSet_mono {array' : Slice} (hset : ∀ n, isSet array n = true → isSet array' n = true)
    (hall : allProbesSet bits delta array j h = true) : allProbesSet bits delta array' j h = true := by
  induction j generalizing h with
  | zero => rfl
  | succ j ih =>
    rw [allProbesSet, Bool.and_eq_true] at hall ⊢
    exact ⟨hset _ hall.1, ih hall.2⟩

theorem allProbesSet_setProbes (hbits : 0 < bits) (hlen : bits ≤ array.length * 8) :
    allProbesSet bits delta (setProbes bits delta j h array) j h = true := by
  induction j generalizing h array with
  | zero => rfl
  | succ j ih =>
    have hlt : h.toNat % bits < bits := Nat.mod_lt _ hbits
    rw [allProbesSet, setProbes, Bool.and_eq_true]
    refine ⟨isSet_setProbes (isSet_setBit_self (by omega)), ih ?_⟩
    rwa [length_setBit]

end Bits

/-! ### What a filter holds -/

namespace BloomFilterPolicy

variable {p : BloomFilterPolicy} {bits : ℕ} {array : Slice} {keys : List Slice} {key : Slice}

@[simp] theorem length_foldl_addKey : (keys.foldl (p.addKey bits) array).length = array.length := by
  induction keys generalizing array with
  | nil => rfl
  | cons key keys ih => rw [List.foldl_cons, ih, addKey, length_setProbes]

theorem isSet_foldl_addKey {n : ℕ} (hset : isSet array n = true) :
    isSet (keys.foldl (p.addKey bits) array) n = true := by
  induction keys generalizing array with
  | nil => exact hset
  | cons key keys ih => exact ih (isSet_setProbes hset)

theorem getD_foldl_addKey (hbits : 0 < bits) (hdvd : 8 ∣ bits) {n : ℕ} (hn : bits / 8 ≤ n) :
    (keys.foldl (p.addKey bits) array).getD n 0 = array.getD n 0 := by
  induction keys generalizing array with
  | nil => rfl
  | cons key keys ih => rw [List.foldl_cons, ih, addKey, getD_setProbes hbits hn hdvd]

/-- The probes of each key are set when all keys have been added. -/
theorem allProbesSet_foldl_addKey (hbits : 0 < bits) (hlen : bits ≤ array.length * 8) (hkey : key ∈ keys) :
    allProbesSet bits (bloomDelta (bloomHash key)) (keys.foldl (p.addKey bits) array) p.k (bloomHash key) = true := by
  induction keys generalizing array with
  | nil => cases hkey
  | cons key' keys ih =>
    rw [List.foldl_cons]
    rcases List.mem_cons.mp hkey with rfl | hkey
    · exact allProbesSet_mono (fun _ => isSet_foldl_addKey) (allProbesSet_setProbes hbits hlen)
    · refine ih ?_ hkey
      rwa [addKey, length_setProbes]

theorem filterBytes_bounds {n : ℕ} (h : n * p.bitsPerKey < 2 ^ 63) :
    8 ≤ p.filterBytes n ∧ p.filterBytes n * 8 < 2 ^ 64 := by
  unfold filterBytes
  dsimp only
  split <;> omega

/-- **No false negatives**: what `CreateFilter` appends for some keys matches each of them. -/
theorem keyMayMatch_createFilter (p : BloomFilterPolicy) (keys : List Slice) (dst : Slice)
    (h : keys.length * p.bitsPerKey < 2 ^ 63) : (p.createFilter keys dst).take dst.length = dst ∧
      ∀ key ∈ keys, bloomKeyMayMatch key ((p.createFilter keys dst).drop dst.length) = true := by
  obtain ⟨hmin, hmax⟩ := filterBytes_bounds h
  unfold createFilter
  dsimp only
  rw [List.take_left, List.drop_left]
  refine ⟨rfl, fun key hkey => ?_⟩
  generalize p.filterBytes keys.length = bytes at hmin hmax ⊢
  rw [Nat.mod_eq_of_lt hmax]
  have hlen : (keys.foldl (p.addKey (bytes * 8)) (List.replicate bytes 0 ++ [UInt8.ofNat p.k])).length = bytes + 1 := by
    simp
  have hlast : (keys.foldl (p.addKey (bytes * 8)) (List.replicate bytes 0 ++ [UInt8.ofNat p.k])).getD bytes 0 =
      UInt8.ofNat p.k := by
    rw [getD_foldl_addKey (by omega) (Nat.dvd_mul_left 8 bytes) (by omega), List.getD_append_right _ _ _ _ (by simp)]
    simp
  have hk : (UInt8.ofNat p.k).toNat = p.k := by
    have hle := p.k_le
    rw [UInt8.toNat_ofNat', Nat.mod_eq_of_lt (by omega)]
  unfold bloomKeyMayMatch
  dsimp only
  rw [hlen, Nat.add_sub_cancel, hlast, hk, Nat.mod_eq_of_lt hmax, if_neg (by omega), if_neg (Nat.not_lt.mpr p.k_le)]
  refine allProbesSet_foldl_addKey (by omega) ?_ hkey
  rw [List.length_append, List.length_replicate, List.length_singleton]
  omega

/-- Two keys with six probes each, after a byte that was there before. -/
theorem keyMayMatch_createFilter_two :
    bloomKeyMayMatch [0x61, 0x62] (((⟨10, 6, by decide, by decide⟩ : BloomFilterPolicy).createFilter
      [[0x68, 0x65, 0x6c, 0x6c, 0x6f], [0x61, 0x62]] [7]).drop 1) = true :=
  (keyMayMatch_createFilter ⟨10, 6, by decide, by decide⟩ [[0x68, 0x65, 0x6c, 0x6c, 0x6f], [0x61, 0x62]] [7]
    (by decide)).2 [0x61, 0x62] (by decide)

end BloomFilterPolicy

end TLevelDB.Coding
