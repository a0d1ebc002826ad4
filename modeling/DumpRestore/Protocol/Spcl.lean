import DumpRestore.Foundations.ByteOrder
import Mathlib.Data.Fintype.Basic
import Mathlib.Data.Int.Basic

/-!
# The records of a dump tape

A dump tape is a sequence of records of `TP_BSIZE` bytes (`protocols/dumprestore.h`). A record is
either a header (`struct s_spcl`) or a block of data. `Spcl` has the members of the header in the
order of the structure, `Spcl.scalars` lists them as they lie in memory and `Spcl.image` is the
memory image on a machine of either byte order.

The array `c_addr` is a function of the index: below `TP_NINDIR` it is the array's element, and
above it stands for the memory after the array, which the sources do read in places.
-/

namespace DumpRestore

open ByteOrder

/-! ## Sizes and magic numbers -/

/-- `TP_BSIZE`: the size of a tape record. -/
def tpBsize : ℕ := 1024

/-- `TP_NINDIR`: the number of entries of `c_addr`. -/
def tpNindir : ℕ := tpBsize / 2

/-- `MAXBSIZE`: the largest block size of an ext2 filesystem. -/
def maxBsize : ℕ := 65536

/-- `NFS_MAGIC`. -/
def nfsMagic : ℕ := 60012

/-- `WINO`, the inode number of whiteouts. -/
def wino : ℕ := 1

/-- `ROOTINO`. -/
def rootino : ℕ := 2

/-- `CHECKSUM`: what the words of a header add up to. -/
def checksumTotal : ℤ := 84446

/-- `howmany(x, y)`. -/
def howmany (x y : ℕ) : ℕ := (x + (y - 1)) / y

/-- A block of `TP_BSIZE` bytes. -/
structure Block where
  bytes : List UInt8
  length_bytes : bytes.length = tpBsize

attribute [simp] Block.length_bytes

/-- The block of zeros. -/
instance : Inhabited Block := ⟨⟨List.replicate tpBsize 0, List.length_replicate⟩⟩

/-! ## File types -/

/-- `S_IFMT` and the file types under it. -/
def ifmt (mode : ℕ) : ℕ := mode &&& 0o170000

/-- `S_IFIFO`. -/
def ifIfo : ℕ := 0o010000

/-- `S_IFCHR`. -/
def ifChr : ℕ := 0o020000

/-- `S_IFDIR`. -/
def ifDir : ℕ := 0o040000

/-- `S_IFBLK`. -/
def ifBlk : ℕ := 0o060000

/-- `S_IFREG`. -/
def ifReg : ℕ := 0o100000

/-- `S_IFLNK`. -/
def ifLnk : ℕ := 0o120000

/-- `S_IFSOCK`. -/
def ifSock : ℕ := 0o140000

/-! ## Headers -/

/-- The record types `TS_*`. -/
inductive SpclType
  | tape
  | inode
  | bits
  | addr
  | end_
  | clri
  deriving DecidableEq, Repr, Inhabited

/-- The value of `c_type`. -/
def SpclType.code : SpclType → ℕ
  | .tape => 1
  | .inode => 2
  | .bits => 3
  | .addr => 4
  | .end_ => 5
  | .clri => 6

/-- The record type with a given `c_type`. -/
def SpclType.ofCode (n : ℕ) : Option SpclType :=
  [SpclType.tape, .inode, .bits, .addr, .end_, .clri].find? fun t => t.code == n

@[simp] theorem SpclType.ofCode_code (t : SpclType) : SpclType.ofCode t.code = some t := by
  cases t <;> rfl

theorem SpclType.code_lt (t : SpclType) : t.code < 7 := by
  cases t <;> decide

/-- `DR_NEWHEADER`. -/
def drNewheader : BitVec 32 := 0x0001#32

/-- `DR_NEWINODEFMT`, which shares its bit with `DR_INODEINFO`. -/
def drNewinodefmt : BitVec 32 := 0x0002#32

/-- `DR_COMPRESSED`. -/
def drCompressed : BitVec 32 := 0x0080#32

/-- `DR_METAONLY`. -/
def drMetaonly : BitVec 32 := 0x0100#32

/-- `DR_EXTATTRIBUTES`. -/
def drExtattributes : BitVec 32 := 0x8000#32

/-- `EXT_XATTR`: the value of `c_extattributes` for an extended attribute. -/
def extXattr : ℤ := 3

/-- `struct bsdtimeval`. -/
@[ext]
structure BsdTimeval where
  tvSec : ℕ
  tvUsec : ℕ
  deriving DecidableEq, Inhabited

instance neZeroBlockPointers : NeZero 15 := ⟨by decide⟩

/-- `struct new_bsd_inode`. The arrays `di_db` and `di_ib` are adjacent and are copied as one. -/
@[ext]
structure NewBsdInode where
  diMode : ℕ
  diNlink : ℤ
  diOuid : ℕ
  diOgid : ℕ
  diSize : ℕ
  diAtime : BsdTimeval
  diMtime : BsdTimeval
  diCtime : BsdTimeval
  diDb : Fin 15 → ℕ
  diFlags : ℕ
  diBlocks : ℤ
  diGen : ℤ
  diUid : ℕ
  diGid : ℕ
  diSpare : Fin 2 → ℤ
  deriving DecidableEq, Inhabited

/-- `struct s_spcl`. -/
structure Spcl where
  cType : SpclType
  cDate : ℤ
  cDdate : ℤ
  cVolume : ℤ
  cTapea : ℕ
  cInumber : ℕ
  cMagic : ℤ
  cChecksum : ℤ
  cDinode : NewBsdInode
  cCount : ℤ
  cAddr : ℕ → ℕ
  cLabel : Fin 16 → ℕ
  cLevel : ℤ
  cFilesys : Fin 64 → ℕ
  cDev : Fin 64 → ℕ
  cHost : Fin 64 → ℕ
  cFlags : BitVec 32
  cFirstrec : ℤ
  cNtrec : ℤ
  cExtattributes : ℤ
  cSpare : Fin 30 → ℤ
  deriving Inhabited

/-! ## The memory image -/

/-- A signed member of width `w`, in two's complement. -/
def sint (w : ℕ) (x : ℤ) : Scalar := ⟨w, (x % (256 ^ w : ℤ)).toNat⟩

/-- An unsigned member of width `w`. -/
def uint (w n : ℕ) : Scalar := ⟨w, n⟩

@[simp] theorem sint_width (w : ℕ) (x : ℤ) : (sint w x).width = w := rfl

@[simp] theorem uint_width (w n : ℕ) : (uint w n).width = w := rfl

/-- The members of `struct new_bsd_inode` in memory order. -/
def NewBsdInode.scalars (d : NewBsdInode) : List Scalar :=
  [uint 2 d.diMode, sint 2 d.diNlink, uint 2 d.diOuid, uint 2 d.diOgid, uint 8 d.diSize,
    uint 4 d.diAtime.tvSec, uint 4 d.diAtime.tvUsec, uint 4 d.diMtime.tvSec,
    uint 4 d.diMtime.tvUsec, uint 4 d.diCtime.tvSec, uint 4 d.diCtime.tvUsec] ++
  List.ofFn (fun i => uint 4 (d.diDb i)) ++
  [uint 4 d.diFlags, sint 4 d.diBlocks, sint 4 d.diGen, uint 4 d.diUid, uint 4 d.diGid] ++
  List.ofFn (fun i => sint 4 (d.diSpare i))

/-- The members of `struct s_spcl` in memory order. -/
def Spcl.scalars (h : Spcl) : List Scalar :=
  [uint 4 h.cType.code, sint 4 h.cDate, sint 4 h.cDdate, sint 4 h.cVolume, uint 4 h.cTapea,
    uint 4 h.cInumber, sint 4 h.cMagic, sint 4 h.cChecksum] ++
  h.cDinode.scalars ++
  [sint 4 h.cCount] ++
  List.ofFn (fun i : Fin 512 => uint 1 (h.cAddr i)) ++
  List.ofFn (fun i => uint 1 (h.cLabel i)) ++
  [sint 4 h.cLevel] ++
  List.ofFn (fun i => uint 1 (h.cFilesys i)) ++
  List.ofFn (fun i => uint 1 (h.cDev i)) ++
  List.ofFn (fun i => uint 1 (h.cHost i)) ++
  [uint 4 h.cFlags.toNat, sint 4 h.cFirstrec, sint 4 h.cNtrec, sint 4 h.cExtattributes] ++
  List.ofFn (fun i => sint 4 (h.cSpare i))

/-- The memory image of a header on a machine of byte order `o`. -/
def Spcl.image (o : Order) (h : Spcl) : List UInt8 := ByteOrder.image o h.scalars

/-- The widths of the members of `struct s_spcl`. -/
def spclWidths : List ℕ :=
  List.replicate 8 4 ++ (List.replicate 4 2 ++ [8] ++ List.replicate 28 4) ++ [4] ++
    List.replicate 512 1 ++ List.replicate 16 1 ++ [4] ++ List.replicate 64 1 ++
    List.replicate 64 1 ++ List.replicate 64 1 ++ List.replicate 4 4 ++ List.replicate 30 4

theorem map_width_ofFn {n : ℕ} (f : Fin n → Scalar) {w : ℕ} (hf : ∀ i, (f i).width = w) :
    (List.ofFn f).map Scalar.width = List.replicate n w := by
  rw [List.map_ofFn, show Scalar.width ∘ f = fun _ => w from funext hf, List.ofFn_const]

theorem NewBsdInode.map_width_scalars (d : NewBsdInode) :
    d.scalars.map Scalar.width = List.replicate 4 2 ++ [8] ++ List.replicate 28 4 := by
  simp only [NewBsdInode.scalars, List.map_append,
    map_width_ofFn (fun i => uint 4 (d.diDb i)) (fun _ => uint_width ..),
    map_width_ofFn (fun i => sint 4 (d.diSpare i)) (fun _ => sint_width ..)]
  rfl

theorem Spcl.map_width_scalars (h : Spcl) : h.scalars.map Scalar.width = spclWidths := by
  simp only [Spcl.scalars, List.map_append, NewBsdInode.map_width_scalars,
    map_width_ofFn (fun i : Fin 512 => uint 1 (h.cAddr i)) (fun _ => uint_width ..),
    map_width_ofFn (fun i => uint 1 (h.cLabel i)) (fun _ => uint_width ..),
    map_width_ofFn (fun i => uint 1 (h.cFilesys i)) (fun _ => uint_width ..),
    map_width_ofFn (fun i => uint 1 (h.cDev i)) (fun _ => uint_width ..),
    map_width_ofFn (fun i => uint 1 (h.cHost i)) (fun _ => uint_width ..),
    map_width_ofFn (fun i => sint 4 (h.cSpare i)) (fun _ => sint_width ..)]
  rfl

theorem size_spclWidths : size spclWidths = tpBsize := by
  simp only [size, spclWidths, List.sum_append, List.sum_replicate, List.sum_cons, List.sum_nil,
    tpBsize]
  rfl

@[simp] theorem Spcl.length_image (o : Order) (h : Spcl) : (h.image o).length = tpBsize := by
  rw [Spcl.image, ByteOrder.length_image, Spcl.map_width_scalars, size_spclWidths]

/-! ## Records -/

/-- A record of the tape. -/
inductive Rec
  | spcl (h : Spcl)
  | data (b : Block)

/-- The bytes of a record, as a program that does not look for a header reads them. -/
def Rec.block : Rec → Block
  | .spcl h => ⟨h.image .little, h.length_image _⟩
  | .data b => b

@[simp] theorem Rec.block_data (b : Block) : (Rec.data b).block = b := rfl

end DumpRestore
