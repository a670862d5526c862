import TLevelDB.Db.KeyBytes
import Mathlib.Algebra.BigOperators.Intervals
import Mathlib.Data.ZMod.Basic
import Mathlib.Tactic.ReduceModChar

/-!
# Samples of the reads of an iterator

`DBIter::ParseKey` counts the bytes that an iterator reads, and records a sample of the reads
when so many have been read as the generator of `util/random` has drawn. It draws in a loop,
until the numbers drawn make up for the entry that is read; a number drawn may be 0.

The generator multiplies by 16807 modulo 2³¹ - 1. Half a period of it is a multiplication by
-1 (`toNat_half`), so what is drawn in the second half of a period makes up a fixed number
together with what is drawn in the first half. The sum over a period is odd. So the loop ends
even if the count, which has 64 bits, overflows: after enough periods the count has been every
number of 64 bits.
-/

namespace TLevelDB

/-! ### The generator -/

namespace Random

def M : UInt32 := 2147483647

def A : UInt64 := 16807

/-- What `Next` makes of `seed_`. -/
def nextSeed (seed : UInt32) : UInt32 :=
  let product : UInt64 := seed.toUInt64 * A
  let seed := ((product >>> 31) + (product &&& M.toUInt64)).toUInt32
  if M < seed then seed - M else seed

end Random

/-- `Random`: `seed_` is neither 0 nor `M`. -/
@[ext] structure Random where
  seed : UInt32
  seed_pos : 0 < seed.toNat
  seed_lt : seed.toNat < 2147483647

namespace Random

theorem mul_mod_pos {x : ℕ} (hpos : 0 < x) (hlt : x < 2147483647) : 0 < x * 16807 % 2147483647 := by omega

/-- One correction is enough, since the product is no multiple of `M`. -/
theorem toNat_nextSeed {seed : UInt32} (hpos : 0 < seed.toNat) (hlt : seed.toNat < 2147483647) :
    (nextSeed seed).toNat = seed.toNat * 16807 % 2147483647 := by
  have hproduct : (seed.toUInt64 * A).toNat = seed.toNat * 16807 := by
    rw [UInt64.toNat_mul, UInt32.toNat_toUInt64]
    exact Nat.mod_eq_of_lt (by change _ * 16807 < _; omega)
  have hhigh : ((seed.toUInt64 * A) >>> 31).toNat = seed.toNat * 16807 / 2 ^ 31 := by
    rw [UInt64.toNat_shiftRight, hproduct, Nat.shiftRight_eq_div_pow]
    rfl
  have hlow : ((seed.toUInt64 * A) &&& M.toUInt64).toNat = seed.toNat * 16807 % 2 ^ 31 := by
    rw [UInt64.toNat_and, hproduct]
    exact Nat.and_two_pow_sub_one_eq_mod _ 31
  have hsum : (((seed.toUInt64 * A) >>> 31) + ((seed.toUInt64 * A) &&& M.toUInt64)).toUInt32.toNat =
      seed.toNat * 16807 / 2 ^ 31 + seed.toNat * 16807 % 2 ^ 31 := by
    rw [UInt64.toNat_toUInt32, UInt64.toNat_add, hhigh, hlow]
    omega
  have hM : M.toNat = 2147483647 := rfl
  have hne := mul_mod_pos hpos hlt
  unfold nextSeed
  dsimp only
  split
  · rename_i h
    rw [UInt32.lt_iff_toNat_lt, hsum, hM] at h
    rw [UInt32.toNat_sub_of_le _ _ (by rw [UInt32.le_iff_toNat_le, hsum, hM]; omega), hsum, hM]
    omega
  · rename_i h
    rw [UInt32.lt_iff_toNat_lt, hsum, hM] at h
    rw [hsum]
    omega

/-- `Next`, which returns the new `seed_`. -/
def next (r : Random) : Random where
  seed := nextSeed r.seed
  seed_pos := by
    rw [toNat_nextSeed r.seed_pos r.seed_lt]
    exact mul_mod_pos r.seed_pos r.seed_lt
  seed_lt := by
    rw [toNat_nextSeed r.seed_pos r.seed_lt]
    exact Nat.mod_lt _ (by decide)

theorem toNat_next (r : Random) : r.next.seed.toNat = r.seed.toNat * 16807 % 2147483647 :=
  toNat_nextSeed r.seed_pos r.seed_lt

theorem range_of_good {s : UInt32} (h : ¬ (s &&& 0x7fffffff = 0 ∨ s &&& 0x7fffffff = M)) :
    0 < (s &&& 0x7fffffff).toNat ∧ (s &&& 0x7fffffff).toNat < 2147483647 := by
  have hle : (s &&& 0x7fffffff).toNat ≤ 2147483647 := by
    rw [UInt32.toNat_and]
    exact Nat.and_le_right
  have hzero : (s &&& 0x7fffffff).toNat ≠ 0 := fun h' => h (.inl (UInt32.toNat.inj h'))
  have hM : (s &&& 0x7fffffff).toNat ≠ 2147483647 := fun h' => h (.inr (UInt32.toNat.inj h'))
  omega

/-- `Random::Random`, which avoids bad seeds. -/
def create (s : UInt32) : Random :=
  if h : s &&& 0x7fffffff = 0 ∨ s &&& 0x7fffffff = M then ⟨1, by decide, by decide⟩
  else ⟨s &&& 0x7fffffff, (range_of_good h).1, (range_of_good h).2⟩

/-- `Uniform`. -/
def uniform (r : Random) (n : UInt32) : UInt32 × Random := (r.next.seed % n, r.next)

/-! ### A period -/

theorem cast_iterate (r : Random) (n : ℕ) :
    ((next^[n] r).seed.toNat : ZMod 2147483647) = r.seed.toNat * 16807 ^ n := by
  induction n with
  | zero => simp
  | succ n ih =>
    rw [Function.iterate_succ_apply', toNat_next, ZMod.natCast_mod, Nat.cast_mul, ih, pow_succ, mul_assoc]
    rfl

def half : ℕ := 1073741823

theorem pow_half : (16807 : ZMod 2147483647) ^ half = -1 := by
  rw [half]
  reduce_mod_char

theorem toNat_half (r : Random) : r.seed.toNat + (next^[half] r).seed.toNat = 2147483647 := by
  have hcast : ((r.seed.toNat + (next^[half] r).seed.toNat : ℕ) : ZMod 2147483647) = 0 := by
    rw [Nat.cast_add, cast_iterate, pow_half]
    ring
  have hdvd := (ZMod.natCast_eq_zero_iff _ _).mp hcast
  have h := r.seed_pos
  have h' := r.seed_lt
  have h'' := (next^[half] r).seed_lt
  omega

theorem iterate_period (r : Random) : next^[half + half] r = r := by
  have h := toNat_half r
  have h' := toNat_half (next^[half] r)
  rw [← Function.iterate_add_apply] at h'
  exact Random.ext (UInt32.toNat.inj (by omega))

/-- `RandomCompactionPeriod`. -/
def randomCompactionPeriod (r : Random) : UInt64 × Random :=
  ((r.uniform (2 * 1048576)).1.toUInt64, (r.uniform (2 * 1048576)).2)

theorem toNat_randomCompactionPeriod (r : Random) :
    r.randomCompactionPeriod.1.toNat = r.next.seed.toNat % 2 ^ 21 := by
  rw [randomCompactionPeriod, uniform, UInt32.toNat_toUInt64, UInt32.toNat_mod]
  rfl

/-- The sum of what is drawn in `n` turns. -/
def drawn (r : Random) (n : ℕ) : ℕ := ∑ i ∈ Finset.range n, (next^[i + 1] r).seed.toNat % 2 ^ 21

theorem drawn_succ (r : Random) (n : ℕ) :
    UInt64.ofNat (r.drawn (n + 1)) = UInt64.ofNat (r.drawn n) + (next^[n] r).randomCompactionPeriod.1 := by
  rw [drawn, Finset.sum_range_succ, Function.iterate_succ_apply', ← toNat_randomCompactionPeriod, UInt64.ofNat_add,
    UInt64.ofNat_toNat]
  rfl

/-- What is drawn in the second half of a period is `2 ^ 21 - 1` less what is drawn in the
first half. -/
theorem drawn_period (r : Random) : r.drawn (half + half) = half * (2 ^ 21 - 1) := by
  have hpair : ∀ i ∈ Finset.range half, (next^[i + 1] r).seed.toNat % 2 ^ 21 +
      (next^[half + i + 1] r).seed.toNat % 2 ^ 21 = 2 ^ 21 - 1 := by
    intro i _
    have hsum := toNat_half (next^[i + 1] r)
    rw [← Function.iterate_add_apply, ← add_assoc] at hsum
    omega
  rw [drawn, Finset.sum_range_add, ← Finset.sum_add_distrib, Finset.sum_congr rfl hpair, Finset.sum_const,
    Finset.card_range, smul_eq_mul]

end Random

/-! ### The loop -/

namespace Db

open Coding

/-- The members of a `DBIter` that `ParseKey` uses, and the state of its `DBImpl`. -/
structure ReadSampling (σ : Type) where
  rnd : Random
  bytesUntilReadSampling : UInt64
  /-- The message of `status_`, if it is not `OK`. -/
  status : Option String
  db : σ

namespace ReadSampling

variable {σ : Type} (recordReadSample : Slice → σ → σ)

/-- One turn of the loop. -/
def turn (k : Slice) (it : ReadSampling σ) : ReadSampling σ :=
  { it with
    rnd := it.rnd.randomCompactionPeriod.2
    bytesUntilReadSampling := it.bytesUntilReadSampling + it.rnd.randomCompactionPeriod.1
    db := recordReadSample k it.db }

/-- The loop, where so many turns are enough for it. -/
def loop (k : Slice) (bytesRead : UInt64) : ℕ → ReadSampling σ → Option (ReadSampling σ)
  | 0, it => if it.bytesUntilReadSampling < bytesRead then none else some it
  | turns + 1, it =>
    if it.bytesUntilReadSampling < bytesRead then loop k bytesRead turns (it.turn recordReadSample k) else some it

/-- `ParseKey` at an entry. -/
def parseKey (k value : Slice) (turns : ℕ) (it : ReadSampling σ) :
    Option (Option (InternalKey Slice) × ReadSampling σ) := do
  let bytesRead := UInt64.ofNat k.length + UInt64.ofNat value.length
  let it ← loop recordReadSample k bytesRead turns it
  let it := { it with bytesUntilReadSampling := it.bytesUntilReadSampling - bytesRead }
  match parseInternalKey k with
  | none => return (none, { it with status := some "corrupted internal key in DBIter" })
  | some ikey => return (some ikey, it)

variable {k : Slice} {bytesRead : UInt64}

/-- The loop ends by the first turn after which the count is great enough. -/
theorem loop_of_iterate {n : ℕ} {it : ReadSampling σ}
    (h : ¬ ((turn recordReadSample k)^[n] it).bytesUntilReadSampling < bytesRead) :
    ∃ it', loop recordReadSample k bytesRead n it = some it' ∧ ¬ it'.bytesUntilReadSampling < bytesRead := by
  induction n generalizing it with
  | zero => exact ⟨it, if_neg h, h⟩
  | succ n ih =>
    rw [loop]
    split
    · exact ih h
    · rename_i hend
      exact ⟨it, rfl, hend⟩

theorem iterate_turn (it : ReadSampling σ) (n : ℕ) :
    ((turn recordReadSample k)^[n] it).rnd = Random.next^[n] it.rnd ∧
      ((turn recordReadSample k)^[n] it).bytesUntilReadSampling =
        it.bytesUntilReadSampling + UInt64.ofNat (it.rnd.drawn n) := by
  induction n with
  | zero => simp [Random.drawn]
  | succ n ih =>
    obtain ⟨hrnd, hbytes⟩ := ih
    rw [Function.iterate_succ_apply', Function.iterate_succ_apply']
    refine ⟨congrArg Random.next hrnd, ?_⟩
    rw [turn, hrnd, hbytes, Random.drawn_succ, UInt64.add_assoc]

/-- After whole periods the generator is where it was. -/
theorem iterate_periods (it : ReadSampling σ) (n : ℕ) :
    ((turn recordReadSample k)^[(Random.half + Random.half) * n] it).rnd = it.rnd ∧
      ((turn recordReadSample k)^[(Random.half + Random.half) * n] it).bytesUntilReadSampling =
        it.bytesUntilReadSampling + UInt64.ofNat n * UInt64.ofNat (Random.half * (2 ^ 21 - 1)) := by
  induction n with
  | zero => simp
  | succ n ih =>
    obtain ⟨hrnd, hbytes⟩ := ih
    have hperiod := iterate_turn recordReadSample (k := k)
      ((turn recordReadSample k)^[(Random.half + Random.half) * n] it) (Random.half + Random.half)
    rw [← Function.iterate_add_apply, hrnd, hbytes, Random.drawn_period, Random.iterate_period] at hperiod
    rw [Nat.mul_succ, Nat.add_comm ((Random.half + Random.half) * n)]
    refine ⟨hperiod.1, hperiod.2.trans ?_⟩
    rw [UInt64.ofNat_add, UInt64.add_mul, UInt64.add_assoc]
    simp

/-- The sum over a period is odd, so that it can be divided by among the numbers of 64 bits. -/
theorem exists_iterate_eq (it : ReadSampling σ) (b : UInt64) :
    ∃ n, ((turn recordReadSample k)^[n] it).bytesUntilReadSampling = b := by
  have hinverse : (10378549740397658113 : UInt64) * UInt64.ofNat (Random.half * (2 ^ 21 - 1)) = 1 := by decide
  refine ⟨_, (iterate_periods recordReadSample it
    ((b - it.bytesUntilReadSampling) * 10378549740397658113).toNat).2.trans ?_⟩
  rw [UInt64.ofNat_toNat, UInt64.mul_assoc, hinverse, UInt64.mul_one, UInt64.add_comm, UInt64.sub_add_cancel]

end ReadSampling

/-- **Read sampling terminates.** `Next` multiplies modulo `2 ^ 31 - 1`, from every seed and
after every number of draws. A number drawn may be 0, but the loop of `ParseKey` ends for
every state of the generator, every count and every size of an entry. -/
theorem read_sampling_terminates {σ : Type} (recordReadSample : Slice → σ → σ) :
    (∀ (s : UInt32) (n : ℕ), let r := Random.next^[n] (Random.create s)
      1 ≤ r.seed.toNat ∧ r.seed.toNat ≤ 2 ^ 31 - 2 ∧
        r.next.seed.toNat = r.seed.toNat * 16807 % (2 ^ 31 - 1)) ∧
    (∃ r : Random, r.randomCompactionPeriod.1 = 0) ∧
    (∀ (it : ReadSampling σ) (k : Slice) (bytesRead : UInt64), ∃ turns it',
      it.loop recordReadSample k bytesRead turns = some it' ∧ bytesRead ≤ it'.bytesUntilReadSampling) ∧
    ∀ (it : ReadSampling σ) (k value : Slice), ∃ turns it',
      it.parseKey recordReadSample k value turns = some (parseInternalKey k, it') := by
  have hloop : ∀ (it : ReadSampling σ) (k : Slice) (bytesRead : UInt64), ∃ turns it',
      it.loop recordReadSample k bytesRead turns = some it' ∧ bytesRead ≤ it'.bytesUntilReadSampling := by
    intro it k bytesRead
    obtain ⟨n, hn⟩ := ReadSampling.exists_iterate_eq recordReadSample (k := k) it bytesRead
    obtain ⟨it', hloop, hend⟩ := ReadSampling.loop_of_iterate recordReadSample (by rw [hn]; exact UInt64.lt_irrefl _)
    exact ⟨n, it', hloop, UInt64.not_lt.mp hend⟩
  refine ⟨?_, ⟨Random.create 1226111452, by decide⟩, hloop, ?_⟩
  · intro s n
    exact ⟨(Random.next^[n] (Random.create s)).seed_pos, Nat.le_of_lt_succ (Random.next^[n] (Random.create s)).seed_lt,
      Random.toNat_next _⟩
  · intro it k value
    obtain ⟨turns, it', hloop, -⟩ := hloop it k (UInt64.ofNat k.length + UInt64.ofNat value.length)
    refine ⟨turns, ?_⟩
    rw [ReadSampling.parseKey, hloop]
    cases parseInternalKey k with
    | none => exact ⟨_, rfl⟩
    | some ikey => exact ⟨_, rfl⟩

end Db

end TLevelDB
