import TLevelDB.Table.Reader

/-!
# Where a key is in a table

`Table::ApproximateOffsetOf`: the offset of the block that the index has for a key, or for keys
beyond all blocks that of the metaindex block. Since separators and blocks come in the same order,
it grows with the key, and it is an offset in the file.
-/

namespace TLevelDB.Table

open Coding Cursors Block

def Rep.approximateOffsetOf (o : Options) (t : Rep) (key : Slice) : UInt64 :=
  let ops : CursorOps Unit BlockIterator Slice Slice := BlockIterator.ops o.comparator
  match ops.current (ops.seek key ((), t.indexBlock.newIterator)).2 with
  | some (_, value) =>
    match BlockHandle.decodeFrom value with
    | .ok (handle, _) => handle.offset
    -- a handle that cannot be decoded
    | .error _ => t.metaindexHandle.offset
  | none => t.metaindexHandle.offset

namespace TableFile

variable {o : Options} {file : RandomAccessFile} {blocks : List Slice} (t : TableFile o file.contents blocks)

/-- The offset of a section, or of the metaindex block after the last one. -/
def offsetAt (i : ℕ) : UInt64 := (t.sections[i]?.map fun s => s.handle.offset).getD t.metaindexHandle.offset

/-- The section that the index has for a key. -/
def sectionOf (key : Slice) : ℕ := t.sections.findIdx fun s => (o.comparator.compare s.separator key).isGE

theorem approximateOffsetOf_rep (hblocks : ∀ raw ∈ blocks, raw.length < 2 ^ 32) (cacheId : UInt64) (key : Slice) :
    (t.rep cacheId).approximateOffsetOf o key = t.offsetAt (t.sectionOf key) := by
  have hindex := BlockIterator.implements_ops (L := BlockBuilder.layout Nat.one_pos (hblocks _ t.index.mem))
    t.increasing_index fun _ : Unit => True
  have hseek := (hindex.seek (r := ()) key trivial
    (BlockBuilder.stands_newIterator Nat.one_pos (hblocks _ t.index.mem))).2
  have hcurrent := hindex.current hseek
  rw [seek_eq_atIndex, map_cur_atIndex, List.findIdx_map, List.getElem?_map] at hcurrent
  have hsection : (t.sections.findIdx ((fun e : Slice × Slice => decide ((o.comparator.compare e.1 key).isGE = true)) ∘
      TableBuilder.Section.indexEntry)) = t.sectionOf key := by
    rw [sectionOf]
    congr 1
    funext s
    exact Bool.decide_eq_true
  rw [hsection] at hcurrent
  have hrep : (t.rep cacheId).indexBlock =
      Block.new (BlockBuilder.addAll 1 (t.sections.map TableBuilder.Section.indexEntry)).finish := rfl
  rw [Rep.approximateOffsetOf, hrep, offsetAt]
  rw [hcurrent]
  cases t.sections[t.sectionOf key]? with
  | none => rfl
  | some s => simp only [Option.map_some, TableBuilder.Section.indexEntry, s.handle.decodeFrom_encode_nil, Option.getD_some]

theorem offsetAt_mono {i j : ℕ} (h : i ≤ j) : (t.offsetAt i).toNat ≤ (t.offsetAt j).toNat := by
  rw [offsetAt, offsetAt]
  by_cases hj : j < t.sections.length
  · have hi : i < t.sections.length := by omega
    rw [List.getElem?_eq_getElem hi, List.getElem?_eq_getElem hj]
    rcases h.eq_or_lt with rfl | hlt
    · exact le_rfl
    · exact (List.pairwise_iff_getElem.mp t.ordered i j hi hj hlt).le
  · rw [List.getElem?_eq_none (not_lt.mp hj), Option.map_none, Option.getD_none]
    by_cases hi : i < t.sections.length
    · rw [List.getElem?_eq_getElem hi]
      exact (t.offset_lt _ (List.getElem_mem hi)).le
    · rw [List.getElem?_eq_none (not_lt.mp hi)]
      exact le_rfl

theorem offsetAt_le (i : ℕ) : (t.offsetAt i).toNat ≤ file.contents.length := by
  have hmeta := TableBuilder.offset_lt_of_stored t.metaindex.stored
  have hlast : t.offsetAt t.sections.length = t.metaindexHandle.offset := by simp [offsetAt]
  rcases le_total i t.sections.length with h | h
  · have hle := t.offsetAt_mono h
    rw [hlast] at hle
    omega
  · have heq : t.offsetAt i = t.metaindexHandle.offset := by simp [offsetAt, h]
    rw [heq]
    omega

theorem sectionOf_mono {a b : Slice} (h : (o.comparator.compare a b).isLE) : t.sectionOf a ≤ t.sectionOf b := by
  refine List.findIdx_le_findIdx fun s _ hge => ?_
  exact Std.TransCmp.isGE_trans hge (Std.OrientedCmp.isGE_iff_isLE.mpr h)

end TableFile

end TLevelDB.Table
