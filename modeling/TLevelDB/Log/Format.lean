import Mathlib.Algebra.Ring.Nat
import Mathlib.Data.List.Basic
import Mathlib.Data.Nat.Basic
import Mathlib.Data.List.TakeDrop
import Mathlib.Logic.Function.Iterate
import Mathlib.Tactic.Common

/-!
# Physical records of a log

A log is a sequence of blocks of `kBlockSize` bytes. A record is written as one physical
record (`kFullType`), or in fragments of which each stays within a block. A physical record
is a header of `kHeaderSize` bytes, which holds a masked checksum, the length of the payload
and the type, and then the payload. Fewer than `kHeaderSize` bytes at the end of a block
stay unused (the trailer).

A checksum is given here bit by bit (`crc32c`). That the tables and the strides of
`crc32c::Extend` compute it is shown in `Util.Crc32c`.
-/

namespace TLevelDB.Log

/-! ### Checksums and integers -/

/-- Division by the polynomial, for one bit. -/
def crcBit (l : UInt32) : UInt32 := if l &&& 1 = 1 then (l >>> 1) ^^^ 0x82f63b78 else l >>> 1

/-- Eight bits. -/
def nextByte (l : UInt32) : UInt32 := crcBit^[8] l

def takeByte (l : UInt32) (b : UInt8) : UInt32 := nextByte (l ^^^ b.toUInt32)

def kCRC32Xor : UInt32 := 0xffffffff

/-- What `crc32c::Extend` returns. -/
def crc32c (crc : UInt32) (data : List UInt8) : UInt32 := data.foldl takeByte (crc ^^^ kCRC32Xor) ^^^ kCRC32Xor

/-- `crc32c::Value`. -/
def value (data : List UInt8) : UInt32 := crc32c 0 data

/-- The checksum of a string can be taken up where it was left. -/
theorem crc32c_append (crc : UInt32) (a b : List UInt8) : crc32c (crc32c crc a) b = crc32c crc (a ++ b) := by
  simp only [crc32c, List.foldl_append, UInt32.xor_assoc, UInt32.xor_self, UInt32.xor_zero]

def kMaskDelta : UInt32 := 0xa282ead8

/-- `crc32c::Mask`. -/
def mask (crc : UInt32) : UInt32 := ((crc >>> 15) ||| (crc <<< 17)) + kMaskDelta

/-- `crc32c::Unmask`. -/
def unmask (maskedCrc : UInt32) : UInt32 :=
  ((maskedCrc - kMaskDelta) >>> 17) ||| ((maskedCrc - kMaskDelta) <<< 15)

theorem rotate_rotate (x : BitVec 32) :
    (((x >>> 15) ||| (x <<< 17)) >>> 17) ||| (((x >>> 15) ||| (x <<< 17)) <<< 15) = x := by
  apply BitVec.eq_of_getLsbD_eq
  intro i hi
  have hhigh : x.getLsbD (15 + (17 + i)) = false := BitVec.getLsbD_of_ge x _ (by omega)
  simp only [BitVec.getLsbD_or, BitVec.getLsbD_ushiftRight, BitVec.getLsbD_shiftLeft]
  -- the low 15 bits come back from the left end, the others from the right
  by_cases hlow : i < 15
  · simp [hlow, hhigh, show 17 + i < 32 by omega, show 17 + i - 17 = i by omega]
  · simp [hlow, hhigh, hi, show ¬ 17 + i < 32 by omega, show i - 15 < 17 by omega,
      show 15 + (i - 15) = i by omega]

@[simp] theorem unmask_mask (crc : UInt32) : unmask (mask crc) = crc := by
  simp only [unmask, mask, UInt32.add_sub_cancel]
  apply UInt32.eq_of_toBitVec_eq
  simpa using rotate_rotate crc.toBitVec

def encodeFixed32 (v : UInt32) : List UInt8 :=
  [UInt8.ofNat v.toNat, UInt8.ofNat (v.toNat / 2 ^ 8), UInt8.ofNat (v.toNat / 2 ^ 16), UInt8.ofNat (v.toNat / 2 ^ 24)]

def decodeFixed32 : List UInt8 → UInt32
  | b₀ :: b₁ :: b₂ :: b₃ :: _ =>
    UInt32.ofNat (b₀.toNat + b₁.toNat * 2 ^ 8 + b₂.toNat * 2 ^ 16 + b₃.toNat * 2 ^ 24)
  | _ => 0

@[simp] theorem length_encodeFixed32 (v : UInt32) : (encodeFixed32 v).length = 4 := rfl

@[simp] theorem decodeFixed32_encodeFixed32 (v : UInt32) (rest : List UInt8) :
    decodeFixed32 (encodeFixed32 v ++ rest) = v := by
  have hv : v.toNat < 2 ^ 32 := v.toNat_lt
  apply UInt32.toNat.inj
  simp only [encodeFixed32, List.cons_append, List.nil_append, decodeFixed32, UInt8.toNat_ofNat', UInt32.toNat_ofNat']
  omega

/-! ### Physical records -/

def kBlockSize : ℕ := 32768

/-- The checksum (4 bytes), the length (2 bytes) and the type (1 byte). -/
def kHeaderSize : ℕ := 7

inductive RecordType where
  /-- Reserved for preallocated files. -/
  | zero
  | full
  | first
  | middle
  | last
  deriving DecidableEq, Repr

def RecordType.toByte : RecordType → UInt8
  | zero => 0
  | full => 1
  | first => 2
  | middle => 3
  | last => 4

/-- What one call of `EmitPhysicalRecord` is to write. -/
structure Fragment where
  type : RecordType
  payload : List UInt8
  deriving DecidableEq, Repr

namespace Fragment

/-- The header that `EmitPhysicalRecord` formats. -/
def header (f : Fragment) : List UInt8 :=
  encodeFixed32 (mask (crc32c (value [f.type.toByte]) f.payload)) ++
    [UInt8.ofNat f.payload.length, UInt8.ofNat (f.payload.length / 2 ^ 8), f.type.toByte]

def bytes (f : Fragment) : List UInt8 := f.header ++ f.payload

def size (f : Fragment) : ℕ := kHeaderSize + f.payload.length

@[simp] theorem length_header (f : Fragment) : f.header.length = kHeaderSize := rfl

@[simp] theorem length_bytes (f : Fragment) : f.bytes.length = f.size := by
  simp [bytes, size]

end Fragment

/-- The length that a header gives. -/
def headerLength (header : List UInt8) : ℕ := (header.getD 4 0).toNat + (header.getD 5 0).toNat * 2 ^ 8

/-- The type that a header gives: a `char` that becomes an `unsigned int`. -/
def headerType (header : List UInt8) : ℕ :=
  if (header.getD 6 0).toNat < 128 then (header.getD 6 0).toNat else 2 ^ 32 - 2 ^ 8 + (header.getD 6 0).toNat

namespace Fragment

variable (f : Fragment) (rest : List UInt8)

theorem headerLength_header (h : f.payload.length < 2 ^ 16) : headerLength (f.header ++ rest) = f.payload.length := by
  show (UInt8.ofNat f.payload.length).toNat + (UInt8.ofNat (f.payload.length / 2 ^ 8)).toNat * 2 ^ 8 = _
  simp only [UInt8.toNat_ofNat']
  omega

theorem headerType_header : headerType (f.header ++ rest) = f.type.toByte.toNat := by
  show (if f.type.toByte.toNat < 128 then f.type.toByte.toNat else 2 ^ 32 - 2 ^ 8 + f.type.toByte.toNat) = _
  cases f.type <;> rfl

theorem decodeFixed32_header : decodeFixed32 (f.header ++ rest) = mask (value (f.type.toByte :: f.payload)) := by
  simp [header, value, crc32c_append]

/-- The checksum goes over the type and the payload. -/
theorem drop_header : (f.header ++ rest).drop 6 = f.type.toByte :: rest := rfl

end Fragment

end TLevelDB.Log
