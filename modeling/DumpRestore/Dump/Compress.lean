import DumpRestore.Protocol.TapeBuf
import DumpRestore.Restore.Convert

/-!
# Compressed volumes

The slaves of `dump` write the blocks of `ntrec` records that they have read. With `-z` each block
but the first one of the volume has a prefix, and its data are compressed where that saves 16
bytes.

* `Volume` are the records that are written to a volume.
* `doslave` are the bytes of the volume.
-/

namespace DumpRestore

open ByteOrder

/-! ## The records of a volume -/

/-- The header as a dump with or without `-z` writes it. -/
def Emitted.setCompressed (compressed : Bool) (e : Emitted) : Emitted where
  spcl := { e.spcl with
    cFlags := if compressed then e.spcl.cFlags ||| drCompressed
      else e.spcl.cFlags &&& ~~~drCompressed }
  ino := e.ino
  fits := { e.fits with }
  ino_lt := e.ino_lt
  newinodefmt := by
    have h := e.newinodefmt
    have hyes : (e.spcl.cFlags ||| drCompressed) &&& drNewinodefmt =
        e.spcl.cFlags &&& drNewinodefmt := by
      rw [BitVec.and_or_distrib_right, show drCompressed &&& drNewinodefmt = 0#32 by decide,
        BitVec.or_zero]
    have hno : e.spcl.cFlags &&& ~~~drCompressed &&& drNewinodefmt =
        e.spcl.cFlags &&& drNewinodefmt := by
      rw [BitVec.and_assoc, show ~~~drCompressed &&& drNewinodefmt = drNewinodefmt by decide]
    cases compressed
    · simpa only [Bool.false_eq_true, if_false, hno] using h
    · simpa only [if_true, hyes] using h

/-- What the program writes as one record. -/
inductive Written where
  | header (e : Emitted)
  | data (b : Block)

/-- The record on a volume written by a machine of byte order `t`. -/
def Written.block (t : Order) (compressed : Bool) : Written → Block
  | .header e => ⟨((e.setCompressed compressed).header t).image t, by simp⟩
  | .data b => b

/-- The bytes of some records. -/
def bytes (rs : List Block) : List UInt8 := rs.flatMap Block.bytes

@[simp] theorem length_bytes (rs : List Block) : (bytes rs).length = rs.length * tpBsize := by
  induction rs with
  | nil => simp [bytes]
  | cons r rs ih =>
    rw [bytes, List.flatMap_cons, List.length_append, Block.length_bytes, ← bytes, ih,
      List.length_cons, Nat.add_mul, one_mul, Nat.add_comm]

theorem bytes_append (rs ss : List Block) : bytes (rs ++ ss) = bytes rs ++ bytes ss :=
  List.flatMap_append

theorem bytes_cons (r : Block) (rs : List Block) : bytes (r :: rs) = r.bytes ++ bytes rs :=
  List.flatMap_cons

theorem bytes_take (k : ℕ) (rs : List Block) :
    bytes (rs.take k) = (bytes rs).take (k * tpBsize) := by
  rcases Nat.le_total k rs.length with h | h
  · conv_rhs => rw [← List.take_append_drop k rs, bytes_append]
    rw [List.take_left' (by rw [length_bytes, List.length_take, min_eq_left h])]
  · have hlen := Nat.mul_le_mul_right tpBsize h
    rw [List.take_of_length_le h, List.take_of_length_le (by rwa [length_bytes])]

theorem bytes_drop (k : ℕ) (rs : List Block) :
    bytes (rs.drop k) = (bytes rs).drop (k * tpBsize) := by
  rcases Nat.le_total k rs.length with h | h
  · conv_rhs => rw [← List.take_append_drop k rs, bytes_append]
    rw [List.drop_left' (by rw [length_bytes, List.length_take, min_eq_left h])]
  · have hlen := Nat.mul_le_mul_right tpBsize h
    rw [List.drop_of_length_le h, List.drop_of_length_le (by rwa [length_bytes])]
    rfl

/-- The blocks that are written whole to a volume. The first record is the header of the volume, as
`startnewtape` has filled it in. `main` admits up to `maxbsize / 1024` records in a block. -/
structure Volume where
  ntrec : ℕ
  header : Emitted
  first : List Written
  blocks : List (List Written)
  ntrec_le : ntrec ≤ 1024
  cType : header.spcl.cType = .tape
  cNtrec : header.spcl.cNtrec = ntrec
  length_first : first.length + 1 = ntrec
  length_blocks : ∀ b ∈ blocks, b.length = ntrec

/-- The records of the volume, in order. -/
def Volume.written (v : Volume) : List Written := .header v.header :: v.first ++ v.blocks.flatten

/-- The records as they are on a volume. -/
def Volume.recs (v : Volume) (t : Order) (compressed : Bool) : List Block :=
  v.written.map (Written.block t compressed)

/-! ## Blocks on tape -/

variable (lib : CompressLib) (zipflag : Zip) (t : Order)

/-- What a slave writes for the block `tblock` of a compressed dump: `struct tapebuf`. -/
def compressBlock (call : ℕ) (tblock : List UInt8) : List UInt8 :=
  let writesize := tblock.length
  match lib.compress zipflag call (tpBsize + writesize) tblock with
  | some out =>
    if out.length ≤ writesize - 16 then
      TapeBuf.image t ⟨true, zipflag.code, out.length⟩ ++ out
    else TapeBuf.image t ⟨false, zipflag.code, writesize⟩ ++ tblock
  | none => TapeBuf.image t ⟨false, zipflag.code, writesize⟩ ++ tblock

/-- What `doslave` writes for the blocks of a volume, in the order of the ring. `doCompress` is
clear for the first block. -/
def doslave (compressed : Bool) : (doCompress : Bool) → (call : ℕ) → List (List UInt8) → List UInt8
  | _, _, [] => []
  | doCompress, call, tblock :: tblocks =>
    (if compressed && doCompress then compressBlock lib zipflag t call tblock else tblock) ++
      doslave compressed compressed (call + 1) tblocks

/-- The bytes of the volume. -/
def Volume.tape (v : Volume) (compressed : Bool) : List UInt8 :=
  doslave lib zipflag t compressed false 0
    (((.header v.header :: v.first) :: v.blocks).map fun b =>
      bytes (b.map (Written.block t compressed)))

/-- Without compression the volume has the bytes of its records. -/
theorem doslave_false (doCompress : Bool) (call : ℕ) (tblocks : List (List UInt8)) :
    doslave lib zipflag t false doCompress call tblocks = tblocks.flatten := by
  induction tblocks generalizing doCompress call with
  | nil => rfl
  | cons b bs ih => rw [doslave, Bool.false_and, ih, List.flatten_cons]; rfl

/-- All blocks but the first one go through `compressBlock`. -/
theorem doslave_true (call : ℕ) (tblocks : List (List UInt8)) :
    doslave lib zipflag t true true call tblocks =
      (tblocks.zipIdx call).flatMap fun b => compressBlock lib zipflag t b.2 b.1 := by
  induction tblocks generalizing call with
  | nil => rfl
  | cons b bs ih => rw [doslave, ih, List.zipIdx_cons, List.flatMap_cons]; rfl

/-- The blocks but the first one, with the numbers of the calls. -/
def Volume.later (v : Volume) : List (List Block × ℕ) :=
  (v.blocks.map (List.map (Written.block t true))).zipIdx 1

theorem Volume.map_fst_later (v : Volume) :
    (v.later t).map Prod.fst = v.blocks.map (List.map (Written.block t true)) :=
  List.zipIdx_map_fst ..

theorem Volume.tape_true (v : Volume) :
    v.tape lib zipflag t true =
      bytes ((.header v.header :: v.first).map (Written.block t true)) ++
        (v.later t).flatMap fun b => compressBlock lib zipflag t b.2 (bytes b.1) := by
  rw [tape, List.map_cons, doslave, Bool.and_false, doslave_true, later, List.zipIdx_map,
    List.zipIdx_map, List.flatMap_map, List.flatMap_map]
  rfl

theorem Volume.tape_false (v : Volume) : v.tape lib zipflag t false = bytes (v.recs t false) := by
  rw [tape, doslave_false, recs, written, List.map_append, List.map_flatten, bytes_append]
  simp only [bytes, List.map_cons, List.flatten_cons, List.flatMap_def, List.map_flatten,
    List.flatten_flatten, List.map_map]
  congr 3
  funext b
  rw [Function.comp_apply, Function.comp_apply, List.map_map]

end DumpRestore
