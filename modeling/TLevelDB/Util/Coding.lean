import TLevelDB.Log.Format
import Mathlib.Tactic.Ring

/-!
# Encodings of integers

`util/coding`: integers of variable length (varints), seven bits a byte and the lowest
first, where bit 7 says that there are more bytes; and `PutFixed64`. Strings and slices are
lists of bytes. What is read comes back together with the bytes that follow it, and
`none` stands for the `nullptr` that says that nothing can be read.

The results of a loop over bytes are numbers of `w` bits: what a shift pushes out is lost.
-/

namespace TLevelDB.Coding

/-- `Slice` and `std::string`. -/
abbrev Slice := List UInt8

/-- `v | B`, as a byte. -/
def more (v : ℕ) : UInt8 := UInt8.ofNat v ||| 128

theorem toNat_more (v : ℕ) : (more v).toNat = v % 128 + 128 := by
  have hbyte : ∀ b < 256, (UInt8.ofNat b ||| 128).toNat = b % 128 + 128 := by decide +kernel
  have hv := hbyte (v % 256) (Nat.mod_lt _ (by decide))
  rw [UInt8.ofNat_mod_size] at hv
  rw [more, hv]
  omega

/-! ### Encoding -/

def encodeVarint32 (v : UInt32) : Slice :=
  let n := v.toNat
  if n < 2 ^ 7 then [UInt8.ofNat n]
  else if n < 2 ^ 14 then [more n, UInt8.ofNat (n / 2 ^ 7)]
  else if n < 2 ^ 21 then [more n, more (n / 2 ^ 7), UInt8.ofNat (n / 2 ^ 14)]
  else if n < 2 ^ 28 then [more n, more (n / 2 ^ 7), more (n / 2 ^ 14), UInt8.ofNat (n / 2 ^ 21)]
  else [more n, more (n / 2 ^ 7), more (n / 2 ^ 14), more (n / 2 ^ 21), UInt8.ofNat (n / 2 ^ 28)]

/-- The loop of `EncodeVarint64`, with at most `k` turns. -/
def encodeVarintLoop : ℕ → ℕ → Slice
  | 0, v => [UInt8.ofNat v]
  | k + 1, v => if 128 ≤ v then more v :: encodeVarintLoop k (v / 2 ^ 7) else [UInt8.ofNat v]

def encodeVarint64 (v : UInt64) : Slice := encodeVarintLoop 9 v.toNat

/-- `EncodeVarint32` has the loop written out. -/
theorem encodeVarint32_eq_loop (v : UInt32) : encodeVarint32 v = encodeVarintLoop 4 v.toNat := by
  simp only [encodeVarint32, encodeVarintLoop, Nat.div_div_eq_div_mul]
  split_ifs <;> first | omega | rfl

theorem length_encodeVarintLoop (k v : ℕ) :
    0 < (encodeVarintLoop k v).length ∧ (encodeVarintLoop k v).length ≤ k + 1 := by
  induction k generalizing v with
  | zero => simp [encodeVarintLoop]
  | succ k ih =>
    have := ih (v / 2 ^ 7)
    rw [encodeVarintLoop]
    split
    · simp only [List.length_cons]
      omega
    · simp

theorem length_encodeVarint32 (v : UInt32) : 0 < (encodeVarint32 v).length := by
  rw [encodeVarint32_eq_loop]
  exact (length_encodeVarintLoop 4 _).1

theorem length_encodeVarint64 (v : UInt64) : (encodeVarint64 v).length ≤ 10 := (length_encodeVarintLoop 9 _).2

def encodeFixed64 (v : UInt64) : Slice :=
  [UInt8.ofNat v.toNat, UInt8.ofNat (v.toNat / 2 ^ 8), UInt8.ofNat (v.toNat / 2 ^ 16), UInt8.ofNat (v.toNat / 2 ^ 24),
    UInt8.ofNat (v.toNat / 2 ^ 32), UInt8.ofNat (v.toNat / 2 ^ 40), UInt8.ofNat (v.toNat / 2 ^ 48),
    UInt8.ofNat (v.toNat / 2 ^ 56)]

@[simp] theorem length_encodeFixed64 (v : UInt64) : (encodeFixed64 v).length = 8 := rfl

/-! ### Decoding -/

/-- The loops of `GetVarint32PtrFallback` and `GetVarint64Ptr`, with at most so many turns. -/
def getVarintLoop (w : ℕ) : ℕ → ℕ → ℕ → Slice → Option (ℕ × Slice)
  | 0, _, _, _ => none
  | _ + 1, _, _, [] => none
  | turns + 1, shift, result, byte :: p =>
    if 128 ≤ byte.toNat then
      getVarintLoop w turns (shift + 7) ((result + byte.toNat % 128 * 2 ^ shift) % 2 ^ w) p
    else some ((result + byte.toNat * 2 ^ shift) % 2 ^ w, p)

def getVarint32PtrFallback (p : Slice) : Option (UInt32 × Slice) :=
  (getVarintLoop 32 5 0 0 p).map fun r => (UInt32.ofNat r.1, r.2)

def getVarint32Ptr : Slice → Option (UInt32 × Slice)
  | [] => getVarint32PtrFallback []
  | byte :: p => if byte.toNat < 128 then some (UInt32.ofNat byte.toNat, p) else getVarint32PtrFallback (byte :: p)

/-- `GetVarint64Ptr`, and `GetVarint64`. -/
def getVarint64 (p : Slice) : Option (UInt64 × Slice) :=
  (getVarintLoop 64 10 0 0 p).map fun r => (UInt64.ofNat r.1, r.2)

def decodeFixed64 : Slice → UInt64
  | b₀ :: b₁ :: b₂ :: b₃ :: b₄ :: b₅ :: b₆ :: b₇ :: _ =>
    UInt64.ofNat (b₀.toNat + b₁.toNat * 2 ^ 8 + b₂.toNat * 2 ^ 16 + b₃.toNat * 2 ^ 24 + b₄.toNat * 2 ^ 32 +
      b₅.toNat * 2 ^ 40 + b₆.toNat * 2 ^ 48 + b₇.toNat * 2 ^ 56)
  | _ => 0

/-- What is left is what follows the bytes read, of which there is one at least. -/
theorem suffix_of_getVarintLoop {w turns shift result : ℕ} {p : Slice} {r : ℕ × Slice}
    (h : getVarintLoop w turns shift result p = some r) : r.2 <:+ p ∧ r.2.length < p.length := by
  induction turns generalizing shift result p with
  | zero => cases h
  | succ turns ih =>
    cases p with
    | nil => cases h
    | cons byte p =>
      have hcons := List.suffix_cons byte p
      have hlt : p.length < (byte :: p).length := Nat.lt_succ_self _
      rw [getVarintLoop] at h
      split at h
      · obtain ⟨hsuffix, hlength⟩ := ih h
        exact ⟨hsuffix.trans hcons, hlength.trans hlt⟩
      · cases h
        exact ⟨hcons, hlt⟩

/-! ### Round trips -/

/-- The loops are inverse to each other, where the number needs no more turns than there are. -/
theorem getVarintLoop_encodeVarintLoop {w k v : ℕ} (shift result : ℕ) (rest : Slice) (h : v < 2 ^ (7 * (k + 1))) :
    getVarintLoop w (k + 1) shift result (encodeVarintLoop k v ++ rest) = some ((result + v * 2 ^ shift) % 2 ^ w, rest) := by
  have hlast : ∀ u turns s r, u < 128 → getVarintLoop w (turns + 1) s r ([UInt8.ofNat u] ++ rest) =
      some ((r + u * 2 ^ s) % 2 ^ w, rest) := by
    intro u turns s r hu
    have hbyte : (UInt8.ofNat u).toNat = u := by
      rw [UInt8.toNat_ofNat']
      omega
    rw [List.singleton_append, getVarintLoop, hbyte, if_neg (by omega)]
  induction k generalizing v shift result with
  | zero => exact hlast v 0 shift result h
  | succ k ih =>
    rw [encodeVarintLoop]
    split
    · have hdiv : v / 2 ^ 7 < 2 ^ (7 * (k + 1)) := by
        rw [Nat.div_lt_iff_lt_mul (by decide), ← pow_add]
        exact h
      rw [List.cons_append, getVarintLoop, toNat_more, if_pos (by omega), ih _ _ hdiv]
      -- the low seven bits and the others make up the number
      have hsplit : (v % 128 + 128) % 128 * 2 ^ shift + v / 2 ^ 7 * 2 ^ (shift + 7) = v * 2 ^ shift := by
        have hv : v % 128 + 128 * (v / 2 ^ 7) = v := Nat.mod_add_div v 128
        have hmod : (v % 128 + 128) % 128 = v % 128 := by omega
        rw [hmod, pow_add]
        calc v % 128 * 2 ^ shift + v / 2 ^ 7 * (2 ^ shift * 2 ^ 7)
            = (v % 128 + 128 * (v / 2 ^ 7)) * 2 ^ shift := by ring
          _ = v * 2 ^ shift := by rw [hv]
      rw [Nat.mod_add_mod, add_assoc, hsplit]
    · exact hlast v (k + 1) shift result (by omega)

theorem getVarint32PtrFallback_encodeVarint32 (v : UInt32) (rest : Slice) :
    getVarint32PtrFallback (encodeVarint32 v ++ rest) = some (v, rest) := by
  have hv : v.toNat < 2 ^ 32 := v.toNat_lt
  rw [getVarint32PtrFallback, encodeVarint32_eq_loop, getVarintLoop_encodeVarintLoop 0 0 rest (by omega)]
  simp

/-- The fast path for a single byte agrees with the loop. -/
theorem getVarint32Ptr_eq_fallback (p : Slice) : getVarint32Ptr p = getVarint32PtrFallback p := by
  cases p with
  | nil => rfl
  | cons byte p =>
    rw [getVarint32Ptr]
    split
    · rename_i h
      simp [getVarint32PtrFallback, getVarintLoop, Nat.not_le.mpr h]
    · rfl

theorem suffix_of_getVarint32Ptr {p rest : Slice} {v : UInt32} (h : getVarint32Ptr p = some (v, rest)) :
    rest <:+ p ∧ rest.length < p.length := by
  rw [getVarint32Ptr_eq_fallback, getVarint32PtrFallback, Option.map_eq_some_iff] at h
  obtain ⟨r, hr, hrest⟩ := h
  rw [Prod.mk.injEq] at hrest
  rw [← hrest.2]
  exact suffix_of_getVarintLoop hr

@[simp] theorem getVarint32Ptr_encodeVarint32 (v : UInt32) (rest : Slice) :
    getVarint32Ptr (encodeVarint32 v ++ rest) = some (v, rest) := by
  rw [getVarint32Ptr_eq_fallback, getVarint32PtrFallback_encodeVarint32]

theorem suffix_of_getVarint64 {p rest : Slice} {v : UInt64} (h : getVarint64 p = some (v, rest)) :
    rest <:+ p ∧ rest.length < p.length := by
  rw [getVarint64, Option.map_eq_some_iff] at h
  obtain ⟨r, hr, hrest⟩ := h
  rw [Prod.mk.injEq] at hrest
  rw [← hrest.2]
  exact suffix_of_getVarintLoop hr

@[simp] theorem getVarint64_encodeVarint64 (v : UInt64) (rest : Slice) :
    getVarint64 (encodeVarint64 v ++ rest) = some (v, rest) := by
  have hv : v.toNat < 2 ^ 64 := v.toNat_lt
  rw [getVarint64, encodeVarint64, getVarintLoop_encodeVarintLoop 0 0 rest (by omega)]
  simp

@[simp] theorem decodeFixed64_encodeFixed64 (v : UInt64) (rest : Slice) :
    decodeFixed64 (encodeFixed64 v ++ rest) = v := by
  have hv : v.toNat < 2 ^ 64 := v.toNat_lt
  apply UInt64.toNat.inj
  simp only [encodeFixed64, List.cons_append, List.nil_append, decodeFixed64, UInt8.toNat_ofNat', UInt64.toNat_ofNat']
  omega

end TLevelDB.Coding
