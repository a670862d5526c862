import TLevelDB.Table.Block

/-!
# The format of a table file

`BlockHandle` and `Footer`, and how a block is stored in a file: its contents, which may be
compressed, the type of the compression and a checksum of both. `readBlock` reads back what
was stored (`Stored.readBlock`). For a handle that was not written so it may read what is not in
the file, since offsets and sizes are added as `uint64_t` (`readBlock_inside_iff`).

The compression libraries are parameters: a `Codec` uncompresses what it has compressed.
-/

namespace TLevelDB.Table

open Coding Log

/-! ### Handles and the footer -/

structure BlockHandle where
  offset : UInt64 := UInt64.ofNat (2 ^ 64 - 1)
  size : UInt64 := UInt64.ofNat (2 ^ 64 - 1)
deriving DecidableEq

/-- `BlockHandle::EncodeTo`. -/
def BlockHandle.encode (h : BlockHandle) : Slice := encodeVarint64 h.offset ++ encodeVarint64 h.size

/-- `BlockHandle::DecodeFrom`, with what is left of the input. -/
def BlockHandle.decodeFrom (input : Slice) : Except Error (BlockHandle × Slice) :=
  match getVarint64 input with
  | none => .error badBlockHandle
  | some (offset, input) =>
    match getVarint64 input with
    | none => .error badBlockHandle
    | some (size, input) => .ok (⟨offset, size⟩, input)

@[simp] theorem BlockHandle.decodeFrom_encode (h : BlockHandle) (rest : Slice) :
    BlockHandle.decodeFrom (h.encode ++ rest) = .ok (h, rest) := by
  simp [decodeFrom, encode]

theorem BlockHandle.decodeFrom_encode_nil (h : BlockHandle) : BlockHandle.decodeFrom h.encode = .ok (h, []) := by
  rw [← List.append_nil h.encode, decodeFrom_encode]

theorem BlockHandle.length_encode (h : BlockHandle) : h.encode.length ≤ 20 := by
  have h₁ := length_encodeVarint64 h.offset
  have h₂ := length_encodeVarint64 h.size
  rw [encode, List.length_append]
  omega

def kTableMagicNumber : ℕ := 0xdb4775248b80fb57

/-- `std::string::resize`. -/
def resize (s : Slice) (n : ℕ) : Slice := s.take n ++ List.replicate (n - s.length) 0

structure Footer where
  metaindexHandle : BlockHandle
  indexHandle : BlockHandle
deriving DecidableEq

namespace Footer

def kEncodedLength : ℕ := 2 * 20 + 8

/-- `Footer::EncodeTo`, to an empty string. -/
def encode (f : Footer) : Slice :=
  resize (f.metaindexHandle.encode ++ f.indexHandle.encode) 40 ++
    (encodeFixed32 (UInt32.ofNat kTableMagicNumber) ++ encodeFixed32 (UInt32.ofNat (kTableMagicNumber / 2 ^ 32)))

def decodeFrom (input : Slice) : Except Error Footer :=
  if input.length < kEncodedLength then .error (.corruption "not an sstable (footer too short)")
  else
    let magicLo := (decodeFixed32 (input.drop (kEncodedLength - 8))).toNat
    let magicHi := (decodeFixed32 (input.drop (kEncodedLength - 4))).toNat
    if magicHi * 2 ^ 32 + magicLo ≠ kTableMagicNumber then .error (.corruption "not an sstable (bad magic number)")
    else
      match BlockHandle.decodeFrom input with
      | .error e => .error e
      | .ok (metaindexHandle, input) =>
        match BlockHandle.decodeFrom input with
        | .error e => .error e
        | .ok (indexHandle, _) => .ok ⟨metaindexHandle, indexHandle⟩

theorem resize_handles (f : Footer) : resize (f.metaindexHandle.encode ++ f.indexHandle.encode) 40 =
    f.metaindexHandle.encode ++ (f.indexHandle.encode ++
      List.replicate (40 - (f.metaindexHandle.encode ++ f.indexHandle.encode).length) 0) := by
  have h₁ := f.metaindexHandle.length_encode
  have h₂ := f.indexHandle.length_encode
  rw [resize, List.take_of_length_le (by rw [List.length_append]; omega), List.append_assoc]

theorem length_encode (f : Footer) : f.encode.length = kEncodedLength := by
  have h₁ := f.metaindexHandle.length_encode
  have h₂ := f.indexHandle.length_encode
  simp only [encode, resize_handles, List.length_append, List.length_replicate, length_encodeFixed32, kEncodedLength]
  omega

@[simp] theorem decodeFrom_encode (f : Footer) : decodeFrom f.encode = .ok f := by
  have hpad : (resize (f.metaindexHandle.encode ++ f.indexHandle.encode) 40).length = 40 := by
    have hlen := f.length_encode
    rw [encode, List.length_append] at hlen
    simp only [List.length_append, length_encodeFixed32, kEncodedLength] at hlen
    omega
  have hlo : f.encode.drop (kEncodedLength - 8) = encodeFixed32 (UInt32.ofNat kTableMagicNumber) ++
      encodeFixed32 (UInt32.ofNat (kTableMagicNumber / 2 ^ 32)) := List.drop_left' hpad
  have hhi : f.encode.drop (kEncodedLength - 4) = encodeFixed32 (UInt32.ofNat (kTableMagicNumber / 2 ^ 32)) ++ [] := by
    rw [show kEncodedLength - 4 = kEncodedLength - 8 + 4 from rfl, ← List.drop_drop, hlo,
      List.drop_left' (length_encodeFixed32 _), List.append_nil]
  rw [decodeFrom, if_neg (by rw [length_encode]; exact Nat.lt_irrefl _)]
  simp only [hlo, hhi, decodeFixed32_encodeFixed32]
  rw [if_neg (by decide), encode, resize_handles]
  simp only [List.append_assoc, BlockHandle.decodeFrom_encode]

end Footer

/-! ### Stored blocks -/

inductive CompressionType where
  | noCompression
  | snappyCompression
  | zstdCompression
deriving DecidableEq

def CompressionType.toByte : CompressionType → UInt8
  | noCompression => 0x0
  | snappyCompression => 0x1
  | zstdCompression => 0x2

/-- A compression library, as `port` gives access to it. -/
structure Codec where
  /-- None if the library is not there. -/
  compress : Slice → Option Slice
  getUncompressedLength : Slice → Option ℕ
  uncompress : Slice → Option Slice
  invertible : ∀ raw compressed, compress raw = some compressed →
    getUncompressedLength compressed = some raw.length ∧ uncompress compressed = some raw

/-- `port::Snappy_*`, and `port::Zstd_*` at the level of the options. -/
structure Codecs where
  snappy : Codec
  zstd : Codec

def kBlockTrailerSize : ℕ := 5

/-- The trailer that `WriteRawBlock` appends. -/
def blockTrailer (type : CompressionType) (contents : Slice) : Slice :=
  type.toByte :: encodeFixed32 (mask (crc32c (value contents) [type.toByte]))

@[simp] theorem length_blockTrailer (type : CompressionType) (contents : Slice) :
    (blockTrailer type contents).length = kBlockTrailerSize := rfl

/-- What `WriteBlock` stores with a library: the compressed block if that is shorter by
enough. -/
def Codec.store (codec : Codec) (type : CompressionType) (raw : Slice) : Slice × CompressionType :=
  match codec.compress raw with
  | some compressed =>
    if compressed.length < raw.length - raw.length / 8 then (compressed, type) else (raw, .noCompression)
  | none => (raw, .noCompression)

/-- What `WriteBlock` stores, and as which type. -/
def Codecs.store (codecs : Codecs) (raw : Slice) : CompressionType → Slice × CompressionType
  | .noCompression => (raw, .noCompression)
  | .snappyCompression => codecs.snappy.store .snappyCompression raw
  | .zstdCompression => codecs.zstd.store .zstdCompression raw

structure BlockContents where
  data : Slice
  cachable : Bool
deriving DecidableEq

/-- The cases of `ReadBlock` for compressed blocks; `name` is in the messages. -/
def Codec.load (codec : Codec) (name : String) (data : Slice) : Except Error BlockContents :=
  match codec.getUncompressedLength data with
  | none => .error (.corruption ("corrupted " ++ name ++ " compressed block length"))
  | some _ =>
    match codec.uncompress data with
    | none => .error (.corruption ("corrupted " ++ name ++ " compressed block contents"))
    | some raw => .ok ⟨raw, true⟩

/-- The end of `ReadBlock`. In a mapped file the data is not copied. -/
def Codecs.load (codecs : Codecs) (mapped : Bool) (data : Slice) (type : UInt8) : Except Error BlockContents :=
  if type = CompressionType.noCompression.toByte then .ok ⟨data, !mapped⟩
  else if type = CompressionType.snappyCompression.toByte then codecs.snappy.load "snappy" data
  else if type = CompressionType.zstdCompression.toByte then codecs.zstd.load "zstd" data
  else .error (.corruption "bad block type")

/-! ### Reading -/

/-- A file that is open for reading: a `PosixMmapReadableFile`, or a `PosixRandomAccessFile`.
`outside` is what memory holds at the addresses before and behind the file, or the buffer that
was read into. -/
structure RandomAccessFile where
  contents : Slice
  mapped : Bool
  outside : ℕ → UInt8

/-- `data()` and `size()` of what was read. Addresses are `uint64_t`, counted from `data()`. -/
structure View where
  data : ℕ → UInt8
  size : ℕ

/-- So many bytes at an address. -/
def View.bytes (v : View) (start n : ℕ) : Slice := (List.range n).map fun i => v.data ((start + i) % 2 ^ 64)

/-- `EINVAL`. -/
def invalidArgument : Error := .ioError "Invalid argument"

/-- `RandomAccessFile::Read`. -/
def RandomAccessFile.read (file : RandomAccessFile) (offset n : ℕ) : Except Error View :=
  if file.mapped then
    if file.contents.length < (offset + n) % 2 ^ 64 then .error invalidArgument
    else .ok ⟨fun i => file.contents.getD ((offset + i) % 2 ^ 64) (file.outside ((offset + i) % 2 ^ 64)), n⟩
  else if 2 ^ 63 ≤ offset then .error invalidArgument -- the offset of `pread` is signed
  else
    let scratch := (file.contents.drop offset).take n
    .ok ⟨fun i => scratch.getD i (file.outside i), scratch.length⟩

/-- `ReadBlock` up to the look at the type: the data, and the type. -/
def readRawBlock (file : RandomAccessFile) (verifyChecksums : Bool) (handle : BlockHandle) : Except Error (Slice × UInt8) :=
  let n := handle.size.toNat
  match file.read handle.offset.toNat ((n + kBlockTrailerSize) % 2 ^ 64) with
  | .error e => .error e
  | .ok contents =>
    if contents.size ≠ (n + kBlockTrailerSize) % 2 ^ 64 then .error (.corruption "truncated block read")
    else if verifyChecksums ∧ value (contents.bytes 0 ((n + 1) % 2 ^ 64)) ≠ unmask (decodeFixed32 (contents.bytes (n + 1) 4))
    then .error (.corruption "block checksum mismatch")
    else .ok (contents.bytes 0 n, contents.data n)

def readBlock (codecs : Codecs) (file : RandomAccessFile) (verifyChecksums : Bool) (handle : BlockHandle) :
    Except Error BlockContents :=
  match readRawBlock file verifyChecksums handle with
  | .error e => .error e
  | .ok (data, type) => codecs.load file.mapped data type

/-! ### What is read of a file -/

/-- The view is one of the file, from the offset on. -/
structure View.Of (v : View) (file : Slice) (offset : ℕ) : Prop where
  le : offset + v.size ≤ file.length
  data : ∀ i < v.size, v.data i = file.getD (offset + i) 0

variable {n : ℕ} {codecs : Codecs} {offset : ℕ} {file : RandomAccessFile} {raw : Slice} {type : CompressionType}
  {handle : BlockHandle}

theorem View.Of.bytes {v : View} {file : Slice} (h : v.Of file offset) (hsize : v.size < 2 ^ 64)
    {start : ℕ} (hle : start + n ≤ v.size) : v.bytes start n = (file.drop (offset + start)).take n := by
  have hlen := h.le
  refine List.ext_getElem (by simp [View.bytes]; omega) fun i hi _ => ?_
  have hi : i < n := by simpa [View.bytes] using hi
  have hbyte : v.data ((start + i) % 2 ^ 64) = file.getD (offset + start + i) 0 := by
    rw [Nat.mod_eq_of_lt (by omega), h.data _ (by omega), add_assoc]
  rw [List.getD_eq_getElem _ _ (by omega)] at hbyte
  simpa [View.bytes] using hbyte

/-- Where no sum of offsets and sizes wraps around, what is read in full is in the file. -/
theorem RandomAccessFile.view_of_read {v : View} (hpos : 0 < n)
    (hwrap : offset + n < 2 ^ 64) (h : file.read offset n = .ok v) (hsize : v.size = n) : v.Of file.contents offset := by
  rw [RandomAccessFile.read, Nat.mod_eq_of_lt hwrap] at h
  split_ifs at h with hmapped hshort hsigned
  · cases h
    dsimp only at hsize ⊢
    refine ⟨by dsimp only; omega, fun i hi => ?_⟩
    dsimp only at hi ⊢
    rw [Nat.mod_eq_of_lt (by omega), List.getD_eq_getElem _ _ (by omega), List.getD_eq_getElem]
  · cases h
    dsimp only at hsize
    have hlength : ((file.contents.drop offset).take n).length = min n (file.contents.length - offset) := by
      rw [List.length_take, List.length_drop]
    refine ⟨by dsimp only; omega, fun i hi => ?_⟩
    dsimp only at hi ⊢
    rw [List.getD_eq_getElem _ _ hi, List.getD_eq_getElem _ _ (by omega), List.getElem_take, List.getElem_drop]

/-- What is in the file is read in full. -/
theorem RandomAccessFile.exists_read (hfile : file.contents.length < 2 ^ 63)
    (hpos : 0 < n) (hle : offset + n ≤ file.contents.length) :
    ∃ v, file.read offset n = .ok v ∧ v.size = n ∧ v.Of file.contents offset := by
  have hread : ∃ v, file.read offset n = .ok v ∧ v.size = n := by
    rw [RandomAccessFile.read, Nat.mod_eq_of_lt (by omega)]
    split_ifs
    · omega
    · exact ⟨_, rfl, rfl⟩
    · omega
    · refine ⟨_, rfl, ?_⟩
      simp only [List.length_take, List.length_drop]
      omega
  obtain ⟨v, hv, hsize⟩ := hread
  exact ⟨v, hv, hsize, view_of_read hpos (by omega) hv hsize⟩

/-! ### What was stored is read back -/

theorem Codec.load_store {codec : Codec} (name : String)
    (h : (codec.store type raw).2 = type) (hne : type ≠ .noCompression) :
    codec.load name (codec.store type raw).1 = .ok ⟨raw, true⟩ := by
  unfold Codec.store at h ⊢
  cases hc : codec.compress raw with
  | none =>
    simp only [hc] at h
    exact absurd h.symm hne
  | some compressed =>
    simp only [hc] at h ⊢
    obtain ⟨hlen, hraw⟩ := codec.invertible raw compressed hc
    split at h
    · rename_i hlt
      simp [hlt, Codec.load, hlen, hraw]
    · exact absurd h.symm hne

/-- Where a library did not help, the block is stored as it is. -/
theorem Codec.store_eq_or (codec : Codec) (type : CompressionType) (raw : Slice) :
    codec.store type raw = (raw, .noCompression) ∨ (codec.store type raw).2 = type := by
  unfold Codec.store
  split
  · split
    · exact .inr rfl
    · exact .inl rfl
  · exact .inl rfl

theorem Codecs.load_store (codecs : Codecs) (mapped : Bool) (raw : Slice) (type : CompressionType) :
    ∃ cachable, codecs.load mapped (codecs.store raw type).1 (codecs.store raw type).2.toByte = .ok ⟨raw, cachable⟩ := by
  have hplain : codecs.load mapped raw CompressionType.noCompression.toByte = .ok ⟨raw, !mapped⟩ := if_pos rfl
  cases type with
  | noCompression => exact ⟨_, hplain⟩
  | snappyCompression =>
    rcases codecs.snappy.store_eq_or .snappyCompression raw with heq | htype
    · exact ⟨_, by simpa only [Codecs.store, heq] using hplain⟩
    · refine ⟨true, ?_⟩
      rw [Codecs.store, Codecs.load, htype, if_neg (by decide), if_pos rfl]
      exact Codec.load_store _ htype (by decide)
  | zstdCompression =>
    rcases codecs.zstd.store_eq_or .zstdCompression raw with heq | htype
    · exact ⟨_, by simpa only [Codecs.store, heq] using hplain⟩
    · refine ⟨true, ?_⟩
      rw [Codecs.store, Codecs.load, htype, if_neg (by decide), if_neg (by decide), if_pos rfl]
      exact Codec.load_store _ htype (by decide)

/-- The bytes of a stored block. -/
def Codecs.bytes (codecs : Codecs) (raw : Slice) (type : CompressionType) : Slice :=
  (codecs.store raw type).1 ++ blockTrailer (codecs.store raw type).2 (codecs.store raw type).1

/-- The handle of a block that is stored at an offset. -/
def Codecs.handleAt (codecs : Codecs) (offset : UInt64) (raw : Slice) (type : CompressionType) : BlockHandle :=
  ⟨offset, UInt64.ofNat (codecs.store raw type).1.length⟩

/-- The block is stored in the file at this handle; offsets are `uint64_t`. -/
def Stored (codecs : Codecs) (file : Slice) (handle : BlockHandle) (raw : Slice) (type : CompressionType) : Prop :=
  ∃ before after, file = before ++ codecs.bytes raw type ++ after ∧
    handle = codecs.handleAt (UInt64.ofNat before.length) raw type

theorem Stored.append {file : Slice}
    (h : Stored codecs file handle raw type) (more : Slice) : Stored codecs (file ++ more) handle raw type := by
  obtain ⟨before, after, rfl, hhandle⟩ := h
  exact ⟨before, after ++ more, by rw [List.append_assoc], hhandle⟩

/-- The checksum is that of the contents and the type. -/
theorem checksum_blockTrailer (type : CompressionType) (contents : Slice) :
    unmask (decodeFixed32 (encodeFixed32 (mask (crc32c (value contents) [type.toByte])))) =
      value (contents ++ [type.toByte]) := by
  rw [← List.append_nil (encodeFixed32 _), decodeFixed32_encodeFixed32, unmask_mask, value, value, crc32c_append]

theorem readRawBlock_of_le (hfile : file.contents.length < 2 ^ 63)
    (hn : handle.size.toNat = n) (hle : handle.offset.toNat + n + kBlockTrailerSize ≤ file.contents.length)
    (verifyChecksums : Bool) : readRawBlock file verifyChecksums handle =
      if verifyChecksums ∧ value ((file.contents.drop handle.offset.toNat).take (n + 1)) ≠
        unmask (decodeFixed32 ((file.contents.drop (handle.offset.toNat + (n + 1))).take 4)) then
        .error (.corruption "block checksum mismatch")
      else .ok ((file.contents.drop handle.offset.toNat).take n, file.contents.getD (handle.offset.toNat + n) 0) := by
  rw [kBlockTrailerSize] at hle
  obtain ⟨v, hread, hsize, hv⟩ := RandomAccessFile.exists_read hfile (Nat.succ_pos (n + 4)) hle
  have hlt : v.size < 2 ^ 64 := by omega
  rw [readRawBlock, hn, kBlockTrailerSize, Nat.mod_eq_of_lt (show n + 5 < 2 ^ 64 by omega),
    Nat.mod_eq_of_lt (show n + 1 < 2 ^ 64 by omega), hread]
  dsimp only
  rw [if_neg (not_not.mpr hsize), hv.bytes hlt (by omega), hv.bytes hlt (by omega), hv.bytes hlt (by omega),
    hv.data n (by omega), add_zero]

/-- **What was stored is read back**. -/
theorem Stored.readBlock (h : Stored codecs file.contents handle raw type) (hfile : file.contents.length < 2 ^ 63)
    (verifyChecksums : Bool) : ∃ cachable, readBlock codecs file verifyChecksums handle = .ok ⟨raw, cachable⟩ := by
  obtain ⟨before, after, hcontents, rfl⟩ := h
  obtain ⟨cachable, hload⟩ := codecs.load_store file.mapped raw type
  refine ⟨cachable, ?_⟩
  simp only [Codecs.bytes, Codecs.handleAt] at hcontents ⊢
  generalize codecs.store raw type = st at hload hcontents ⊢
  obtain ⟨contents, type⟩ := st
  have hlength := congrArg List.length hcontents
  simp only [List.length_append, length_blockTrailer, kBlockTrailerSize] at hlength
  have hoffset : (UInt64.ofNat before.length).toNat = before.length := by
    rw [UInt64.toNat_ofNat', Nat.mod_eq_of_lt (by omega)]
  have hsize : (UInt64.ofNat contents.length).toNat = contents.length := by
    rw [UInt64.toNat_ofNat', Nat.mod_eq_of_lt (by omega)]
  have hsplit : file.contents = (before ++ (contents ++ [type.toByte])) ++
      (encodeFixed32 (mask (crc32c (value contents) [type.toByte])) ++ after) := by
    rw [hcontents, blockTrailer]
    simp only [List.append_assoc, List.cons_append, List.nil_append]
  have hfront : file.contents.drop before.length = contents ++ ([type.toByte] ++
      (encodeFixed32 (mask (crc32c (value contents) [type.toByte])) ++ after)) := by
    rw [hsplit, List.append_assoc, List.drop_left, List.append_assoc]
  have hcrc : file.contents.drop (before.length + (contents.length + 1)) =
      encodeFixed32 (mask (crc32c (value contents) [type.toByte])) ++ after := by
    rw [hsplit]
    exact List.drop_left' (by simp)
  rw [Table.readBlock, readRawBlock_of_le hfile hsize (by simp only [hoffset, kBlockTrailerSize]; omega)]
  simp only [hoffset]
  rw [if_neg]
  · have htype : file.contents.getD (before.length + contents.length) 0 = type.toByte := by
      rw [List.getD_eq_getElem?_getD, ← List.getElem?_drop, hfront, List.getElem?_append_right le_rfl, Nat.sub_self]
      rfl
    rw [htype, hfront, List.take_left]
    exact hload
  · rintro ⟨-, hne⟩
    refine hne ?_
    rw [hcrc, hfront, ← List.append_assoc, List.take_left' (by simp), List.take_left' (length_encodeFixed32 _),
      checksum_blockTrailer]

/-! ### Which blocks are read -/

theorem readRawBlock_eq_ok {verifyChecksums : Bool} {data : Slice}
    {type : UInt8} (h : readRawBlock file verifyChecksums handle = .ok (data, type)) :
    ∃ v, file.read handle.offset.toNat ((handle.size.toNat + kBlockTrailerSize) % 2 ^ 64) = .ok v ∧
      v.size = (handle.size.toNat + kBlockTrailerSize) % 2 ^ 64 ∧ data = v.bytes 0 handle.size.toNat := by
  rw [readRawBlock] at h
  split at h
  · cases h
  · rename_i v hv
    split_ifs at h with hsize hcrc
    cases h
    exact ⟨v, hv, not_not.mp hsize, rfl⟩

theorem readBlock_uncompressed {verifyChecksums : Bool}
    {result : BlockContents} (h : readBlock codecs file verifyChecksums handle = .ok result)
    (htype : (readRawBlock file verifyChecksums handle).map Prod.snd = .ok CompressionType.noCompression.toByte) :
    readRawBlock file verifyChecksums handle = .ok (result.data, CompressionType.noCompression.toByte) := by
  rw [readBlock] at h
  split at h
  · cases h
  · rename_i data type hraw
    rw [hraw] at htype
    have htype : type = CompressionType.noCompression.toByte := Except.ok.inj htype
    rw [Codecs.load, if_pos htype] at h
    cases h
    rw [hraw, htype]

/-- **Which blocks are inside the file.** Where `ReadBlock` returns OK for an uncompressed block,
the block with its trailer is inside the file and the result is its bytes if, and only if, the
end of the block is a `uint64_t`. -/
theorem readBlock_inside_iff {codecs : Codecs} {file : RandomAccessFile} {verifyChecksums : Bool} {handle : BlockHandle}
    {result : BlockContents} (hfile : file.contents.length < 2 ^ 64)
    (hok : readBlock codecs file verifyChecksums handle = .ok result)
    (htype : (readRawBlock file verifyChecksums handle).map Prod.snd = .ok CompressionType.noCompression.toByte) :
    (handle.offset.toNat + handle.size.toNat + kBlockTrailerSize ≤ file.contents.length ∧
        result.data = (file.contents.drop handle.offset.toNat).take handle.size.toNat) ↔
      handle.offset.toNat + handle.size.toNat + kBlockTrailerSize < 2 ^ 64 := by
  constructor
  · exact fun h => h.1.trans_lt hfile
  · intro hend
    obtain ⟨v, hread, hsize, hdata⟩ := readRawBlock_eq_ok (readBlock_uncompressed hok htype)
    rw [kBlockTrailerSize] at hend hread hsize ⊢
    rw [Nat.mod_eq_of_lt (by omega)] at hread hsize
    have hv := RandomAccessFile.view_of_read (Nat.succ_pos _) (by omega) hread hsize
    have hle := hv.le
    rw [hdata, hv.bytes (by omega) (by omega), add_zero]
    exact ⟨by omega, rfl⟩

/-- No library is there. -/
def noCodec : Codec := ⟨fun _ => none, fun _ => none, fun _ => none, fun _ _ h => by cases h⟩

theorem readBlock_inside_one : readBlock ⟨noCodec, noCodec⟩ ⟨[7, 0, 0, 0, 0, 0], false, fun _ => 1⟩ false ⟨0, 1⟩ =
      .ok ⟨[7], true⟩ ∧ (0 + 1 + kBlockTrailerSize ≤ 6 ∧ [7] = [(7 : UInt8)]) :=
  ⟨by decide, (@readBlock_inside_iff ⟨noCodec, noCodec⟩ ⟨[7, 0, 0, 0, 0, 0], false, fun _ => 1⟩ false ⟨0, 1⟩ ⟨[7], true⟩
    (by decide) (by decide) (by decide)).mpr (by decide)⟩

/-- In a mapped file, a block that begins ten bytes before the file is read without an error. With
a `PosixRandomAccessFile` it is a block of `2 ^ 64 - 5` bytes, for which nothing has to be read. -/
theorem readBlock_outside :
    readBlock ⟨noCodec, noCodec⟩ ⟨[7], true, fun _ => 0⟩ false ⟨UInt64.ofNat (2 ^ 64 - 10), 5⟩ =
        .ok ⟨[0, 0, 0, 0, 0], false⟩ ∧
      (readRawBlock ⟨[7], true, fun _ => 0⟩ false ⟨UInt64.ofNat (2 ^ 64 - 10), 5⟩).map Prod.snd =
        .ok CompressionType.noCompression.toByte ∧
      ¬ (UInt64.ofNat (2 ^ 64 - 10)).toNat + (5 : UInt64).toNat + kBlockTrailerSize ≤ [(7 : UInt8)].length ∧
      ∃ result, readBlock ⟨noCodec, noCodec⟩ ⟨[7], false, fun _ => 0⟩ false ⟨0, UInt64.ofNat (2 ^ 64 - 5)⟩ = .ok result := by
  refine ⟨by decide, by decide, by decide, ?_⟩
  exact ⟨_, rfl⟩

end TLevelDB.Table
