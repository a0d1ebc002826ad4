import DumpRestore.Foundations.Sparse
import DumpRestore.Protocol.Spcl

/-!
# Segments of a file on tape

The contents of a file lie on tape in segments: a header whose `c_addr` says which of the `c_count`
blocks are allocated, and one record of data for each of those. `Segment` is a header with the
blocks it announces.
-/

namespace DumpRestore

/-- The contents of blocks of a file, holes as zeros. -/
def expand (bs : List (Option Block)) : List UInt8 := Sparse.expand Block.bytes 0 tpBsize bs

@[simp] theorem length_expand (bs : List (Option Block)) :
    (expand bs).length = bs.length * tpBsize :=
  Sparse.length_expand 0 Block.length_bytes bs

/-- The records of data for the allocated blocks. -/
def dataRecs (bs : List (Option Block)) : List Rec := bs.filterMap (Option.map Rec.data)

@[simp] theorem dataRecs_nil : dataRecs [] = [] := rfl

@[simp] theorem dataRecs_none_cons (bs : List (Option Block)) :
    dataRecs (none :: bs) = dataRecs bs := rfl

@[simp] theorem dataRecs_some_cons (b : Block) (bs : List (Option Block)) :
    dataRecs (some b :: bs) = .data b :: dataRecs bs := rfl

theorem dataRecs_append (as bs : List (Option Block)) :
    dataRecs (as ++ bs) = dataRecs as ++ dataRecs bs :=
  List.filterMap_append

/-- `c_addr` from index `i` on has an entry for each of the blocks, zero for the holes. -/
def AddrMap (addr : ℕ → ℕ) (i : ℕ) (bs : List (Option Block)) : Prop :=
  ∀ (k : ℕ) (hk : k < bs.length), addr (i + k) ≠ 0 ↔ (bs[k]).isSome

theorem AddrMap.head {addr : ℕ → ℕ} {i : ℕ} {b : Option Block} {bs : List (Option Block)}
    (h : AddrMap addr i (b :: bs)) : addr i ≠ 0 ↔ b.isSome :=
  h 0 (Nat.zero_lt_succ _)

theorem AddrMap.tail {addr : ℕ → ℕ} {i : ℕ} {b : Option Block} {bs : List (Option Block)}
    (h : AddrMap addr i (b :: bs)) : AddrMap addr (i + 1) bs := by
  intro k hk
  rw [show i + 1 + k = i + (k + 1) by omega]
  exact h (k + 1) (Nat.succ_lt_succ hk)

/-- A header and the blocks it announces. -/
structure Segment where
  header : Spcl
  blocks : List (Option Block)
  count : header.cCount = blocks.length
  addr : AddrMap header.cAddr 0 blocks

/-- A segment on tape. -/
def Segment.recs (s : Segment) : List Rec := .spcl s.header :: dataRecs s.blocks

end DumpRestore
