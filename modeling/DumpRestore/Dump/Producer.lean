import DumpRestore.Protocol.Checksum

/-!
# The producers of records

`dump/traverse.c` turns inodes and maps into records: `dumpmap`, `blksout` (called by `dumpino`
through `dumponeblock`) and `dump_xattr`. They build headers in the global `spcl`, and hand headers
and data to the tape layer by `writerec` and `dumpblock`. The tape layer is free to start a new
volume in any of these calls, and then writes a volume header of its own through the same global.

`TapeLayer` is that interface. A producer is a function on the state `Spcl × τ` of the global
header and of the layer. `recorder` is the layer that keeps the records it is handed and starts a
new volume wherever its environment says; `Writer` has the one of `dump/tape.c`.
-/

namespace DumpRestore

open ByteOrder

/-! ## The filesystem -/

/-- `DEV_BSIZE`. -/
def devBsize : ℕ := 512

/-- What the superblock says: block sizes are `EXT2_MIN_BLOCK_SIZE << s_log_block_size`, up to
`EXT2_MAX_BLOCK_SIZE`, and a fragment has the size of a block. -/
structure Ext2Fs where
  sLogBlockSize : ℕ
  sLogBlockSize_le : sLogBlockSize ≤ 6
  sInodeSize : ℕ
  sInodeSize_le : sInodeSize ≤ tpBsize * 2 ^ sLogBlockSize
  sInodesCount : ℕ
  sInodesCount_lt : sInodesCount + 1 < 2 ^ 32

theorem zero_logBlockSize_le : 0 ≤ 6 := Nat.zero_le 6

theorem sInodeSize_128_le : 128 ≤ tpBsize * 2 ^ 0 := by decide

theorem sInodesCount_16_lt : 16 + 1 < 2 ^ 32 := by decide

/-- A small filesystem, with blocks of 1024 bytes. -/
def smallFs : Ext2Fs where
  sLogBlockSize := 0
  sLogBlockSize_le := zero_logBlockSize_le
  sInodeSize := 128
  sInodeSize_le := sInodeSize_128_le
  sInodesCount := 16
  sInodesCount_lt := sInodesCount_16_lt

namespace Ext2Fs

variable (fs : Ext2Fs)

/-- `fs->blocksize`, under the names `fs_bsize` and `fs_fsize`. -/
def blocksize : ℕ := tpBsize * 2 ^ fs.sLogBlockSize

/-- `tbperdb`: tape blocks per disk block. -/
def tbperdb : ℕ := fs.blocksize / tpBsize

/-- `NINDIR(fs) * EXT2_FRAGS_PER_BLOCK(fs)`: the entries of the buffer of `dumponeblock`. -/
def nindir : ℕ := fs.blocksize / 4

/-- `maxino`. -/
def maxino : ℕ := fs.sInodesCount + 1

/-- `mapsize`. -/
def mapsize : ℕ := howmany (howmany fs.maxino 8) tpBsize * tpBsize

/-- `fsbtodb`: the device address, in units of `DEV_BSIZE`, of a filesystem block. -/
def fsbtodb (b : ℕ) : ℕ := b * fs.blocksize / devBsize

theorem tbperdb_eq : fs.tbperdb = 2 ^ fs.sLogBlockSize :=
  Nat.mul_div_cancel_left _ (by decide)

theorem blocksize_eq : fs.blocksize = fs.tbperdb * tpBsize := by
  rw [tbperdb_eq, blocksize, Nat.mul_comm]

theorem tbperdb_pos : 0 < fs.tbperdb := by
  rw [tbperdb_eq]
  exact Nat.two_pow_pos _

theorem blocksize_pos : 0 < fs.blocksize := by
  rw [blocksize_eq]
  exact Nat.mul_pos fs.tbperdb_pos (by decide)

theorem blocksize_le : fs.blocksize ≤ maxBsize := by
  have := Nat.pow_le_pow_right (show 0 < 2 by decide) fs.sLogBlockSize_le
  rw [blocksize, tpBsize, maxBsize]
  omega

/-- A header of `TP_NINDIR` entries covers whole disk blocks. -/
theorem tbperdb_dvd : fs.tbperdb ∣ tpNindir := by
  rw [tbperdb_eq, show tpNindir = 2 ^ 9 from rfl]
  exact pow_dvd_pow 2 (by have := fs.sLogBlockSize_le; omega)

end Ext2Fs

/-- `struct dinode`. The arrays `di_db` and `di_ib` are adjacent and are copied as one. -/
structure Dinode where
  diMode : ℕ
  diUid : ℕ
  diSize : ℕ
  diAtime : ℕ
  diCtime : ℕ
  diMtime : ℕ
  diDtime : ℕ
  diGid : ℕ
  diNlink : ℕ
  diBlocks : ℕ
  diFlags : ℕ
  diDb : Fin 15 → ℕ
  diGen : ℕ
  diFileAcl : ℕ
  diSizeHigh : ℕ
  diUidhigh : ℕ
  diGidhigh : ℕ
  diExtraisize : ℕ
  deriving Inhabited

/-- What the filesystem library says of an inode: its `struct dinode`, the pairs of block count
and block number that `ext2fs_block_iterate2` reports, and the raw bytes that
`ext2fs_read_inode_full` returns. -/
structure Inode where
  dinode : Dinode
  blocks : List (ℕ × ℕ)
  raw : List UInt8

/-- The size of a file, with the high half that ext2 keeps in `di_dir_acl`. -/
def Dinode.iSize (dp : Dinode) : ℕ := dp.diSize + dp.diSizeHigh <<< 32

/-- The inode as it goes on tape. -/
def Dinode.toBsd (dp : Dinode) (size : ℕ) : NewBsdInode where
  diMode := dp.diMode
  diNlink := (dp.diNlink : ℤ).bmod (2 ^ 16)
  diOuid := dp.diUid
  diOgid := dp.diGid
  diSize := size
  diAtime := ⟨dp.diAtime, 0⟩
  diMtime := ⟨dp.diMtime, 0⟩
  diCtime := ⟨dp.diCtime, 0⟩
  diDb := dp.diDb
  diFlags := dp.diFlags
  diBlocks := (dp.diBlocks : ℤ).bmod (2 ^ 32)
  diGen := (dp.diGen : ℤ).bmod (2 ^ 32)
  diUid := dp.diUidhigh <<< 16 ||| dp.diUid
  diGid := dp.diGidhigh <<< 16 ||| dp.diGid
  diSpare := fun _ => 0

/-! ## The tape layer -/

/-- The tape layer under the producers: `writerec` and `dumpblock` on the global header and on
the layer's own state. A record passed to `writerec` is a header exactly when `isspcl` is set. -/
structure TapeLayer (τ : Type*) where
  writerec : Rec → Spcl × τ → Spcl × τ
  dumpblock : ℕ → ℕ → Spcl × τ → Spcl × τ

/-- An assignment to members of the global header. -/
def modifySpcl {τ : Type*} (f : Spcl → Spcl) (d : Spcl × τ) : Spcl × τ := (f d.1, d.2)

/-- What `writeheader` puts in the global header. -/
def sealHeader (ino : ℕ) (h : Spcl) : Spcl :=
  mkchecksum .little { h with cInumber := ino, cMagic := nfsMagic }

variable {τ : Type*} (L : TapeLayer τ)

/-- `writeheader`. -/
def writeheader (ino : ℕ) (d : Spcl × τ) : Spcl × τ :=
  let d := modifySpcl (sealHeader ino) d
  L.writerec (.spcl d.1) d

/-- The `i`-th record of a buffer, filled up with zeros. -/
def blockAt (buf : List UInt8) (i : ℕ) : Block where
  bytes := ((buf.drop (i * tpBsize)).take tpBsize) ++
    List.replicate (tpBsize - ((buf.drop (i * tpBsize)).take tpBsize).length) 0
  length_bytes := by
    have : ((buf.drop (i * tpBsize)).take tpBsize).length ≤ tpBsize := by simp
    simp only [List.length_append, List.length_replicate]
    omega

/-- The loop `for (i = 0, cp = buf; i < spcl.c_count; i++, cp += TP_BSIZE) writerec(cp, 0)`, whose
bound is read from the global header at each turn. The counter is an `int`. -/
def writerecs (buf : List UInt8) : (fuel i : ℕ) → Spcl × τ → Spcl × τ
  | 0, _, d => d
  | fuel + 1, i, d =>
    if (i : ℤ) < d.1.cCount then
      writerecs buf fuel (i + 1) (L.writerec (.data (blockAt buf i)) d)
    else d

/-- How many values an `int` counter takes from 0 on. -/
def intCount : ℕ := 2 ^ 31

/-- `dumpmap`. -/
def dumpmap (fs : Ext2Fs) (map : List UInt8) (type : SpclType) (ino : ℕ) (d : Spcl × τ) :
    Spcl × τ :=
  let d := modifySpcl (fun h => { h with
    cType := type
    cCount := howmany fs.mapsize tpBsize
    cDinode := { h.cDinode with diSize := fs.mapsize } }) d
  let d := writeheader L ino d
  writerecs L map intCount 0 d

/-! ## Blocks of a file -/

/-- The block numbers from `i` on that one header of `blksout` covers, and their data. -/
def blksoutData (fs : Ext2Fs) (blkp : List ℕ) (i count k : ℕ) (d : Spcl × τ) : Spcl × τ :=
  let j := i + k * fs.tbperdb
  let b := blkp.getD (i / fs.tbperdb + k) 0
  if b ≠ 0 then
    L.dumpblock b (if j + fs.tbperdb ≤ count then fs.blocksize else (count - j) * tpBsize) d
  else d

/-- The entry that the outer loop of `blksout` stops before. -/
def blksoutCount (blks i : ℕ) : ℕ := if i + tpNindir > blks then blks else i + tpNindir

/-- The members that `blksout` sets for the header of entries `i` to `count`. -/
def blksoutSpcl (fs : Ext2Fs) (blkp : List ℕ) (i count : ℕ) (h : Spcl) : Spcl :=
  { h with
    cAddr := fun k =>
      if k < count - i then (if blkp.getD ((i + k) / fs.tbperdb) 0 ≠ 0 then 1 else 0)
      else h.cAddr k
    cCount := (count - i : ℕ) }

/-- The body of the outer loop of `blksout`: one header with the data it announces. -/
def blksoutHeader (fs : Ext2Fs) (blkp : List ℕ) (blks ino i : ℕ) (d : Spcl × τ) : Spcl × τ :=
  let count := blksoutCount blks i
  let d := writeheader L ino (modifySpcl (blksoutSpcl fs blkp i count) d)
  let d := (List.range (howmany (count - i) fs.tbperdb)).foldl
    (fun d k => blksoutData L fs blkp i count k d) d
  modifySpcl (fun h => { h with cType := .addr }) d

/-- `blksout`. -/
def blksout (fs : Ext2Fs) (blkp : List ℕ) (ino : ℕ) (d : Spcl × τ) : Spcl × τ :=
  let blks := howmany (blkp.length * fs.blocksize) tpBsize
  (List.range (howmany blks tpNindir)).foldl
    (fun d c => blksoutHeader L fs blkp blks ino (c * tpNindir) d) d

/-- The conversion to `int`. -/
def toInt (n : ℤ) : ℤ := n.bmod (2 ^ 32)

/-- `struct block_context`: the entries collected in `buf`, and the next block expected. -/
structure BlockContext where
  buf : List ℕ
  nextBlock : ℤ

/-- `p->next_block = n`. -/
def BlockContext.setNextBlock (p : BlockContext) (n : ℤ) : BlockContext := { p with nextBlock := n }

@[simp] theorem BlockContext.nextBlock_setNextBlock (p : BlockContext) (n : ℤ) :
    (p.setNextBlock n).nextBlock = n := rfl

@[simp] theorem BlockContext.buf_setNextBlock (p : BlockContext) (n : ℤ) :
    (p.setNextBlock n).buf = p.buf := rfl

/-- `p->buf[p->cnt++] = b`, with the flush of a full buffer. -/
def pushBlock (fs : Ext2Fs) (ino b : ℕ) (p : BlockContext × (Spcl × τ)) :
    BlockContext × (Spcl × τ) :=
  let buf := p.1.buf ++ [b]
  if buf.length = fs.nindir then ({ p.1 with buf := [] }, blksout L fs buf ino p.2)
  else ({ p.1 with buf := buf }, p.2)

/-- `dumponeblock`: the holes before block `blockcnt`, then the block. -/
def dumponeblock (fs : Ext2Fs) (ino : ℕ) (p : BlockContext × (Spcl × τ)) (blk : ℕ × ℕ) :
    BlockContext × (Spcl × τ) :=
  let p := (List.range (blk.1 - p.1.nextBlock).toNat).foldl
    (fun p _ => pushBlock L fs ino 0 p) p
  let p := pushBlock L fs ino blk.2 p
  (p.1.setNextBlock (toInt (blk.1 + 1)), p.2)

/-- The end of `dumpino`: iterate over the blocks, deal with holes at the end of the inode and
write the last, partial buffer. -/
def dumpblocks (fs : Ext2Fs) (blocks : List (ℕ × ℕ)) (size ino : ℕ) (d : Spcl × τ) : Spcl × τ :=
  let p := blocks.foldl (dumponeblock L fs ino) (⟨[], 0⟩, d)
  let done := (p.1.nextBlock * fs.blocksize % 2 ^ 64).toNat
  let p := if size > done then
      (List.range (toInt (howmany (size - done) fs.blocksize)).toNat).foldl
        (fun p _ => pushBlock L fs ino 0 p) p
    else p
  if p.1.buf.length > 0 then blksout L fs p.1.buf ino p.2 else p.2

/-! ## Extended attributes -/

/-- `EXT2_GOOD_OLD_INODE_SIZE + di_extraisize`: where the attributes start in the raw inode. -/
def Dinode.xattrOffset (dp : Dinode) : ℕ := 128 + dp.diExtraisize

/-- `EXT2_XATTR_MAGIC`. -/
def ext2XattrMagic : ℕ := 0xEA020000

/-- `EXT2_XATTR_MAGIC2`. -/
def ext2XattrMagic2 : ℕ := 0xEA020001

/-- The buffer `xattr` of `dump_xattr`. -/
def xattrBuf (fs : Ext2Fs) (inode : Inode) : List UInt8 :=
  let attrs := (inode.raw.take fs.sInodeSize).drop inode.dinode.xattrOffset
  let attrs := attrs ++ List.replicate (fs.sInodeSize - attrs.length) 0
  bytesLE 4 ext2XattrMagic2 ++ attrs.drop 4

/-- Whether `dump_xattr` finds attributes in the inode. -/
def Inode.HasAttrs (inode : Inode) : Prop :=
  inode.dinode.diExtraisize ≠ 0 ∧
    ofBytesLE ((inode.raw.drop inode.dinode.xattrOffset).take 4) = ext2XattrMagic

instance (inode : Inode) : Decidable inode.HasAttrs := inferInstanceAs (Decidable (_ ∧ _))

/-- The first half of `dump_xattr`: attributes in the inode. -/
def dumpXattrInode (fs : Ext2Fs) (inode : Inode) (ino : ℕ) (d : Spcl × τ) : Spcl × τ :=
  if inode.HasAttrs then
    let d := modifySpcl (fun h => { h with
      cType := .inode
      cDinode := { h.cDinode with diSize := fs.sInodeSize }
      cFlags := h.cFlags ||| drExtattributes
      cExtattributes := extXattr
      cCount := howmany fs.sInodeSize tpBsize
      cAddr := fun i => if i < howmany fs.sInodeSize tpBsize then 1 else h.cAddr i }) d
    let d := writeheader L ino d
    let d := writerecs L (xattrBuf fs inode) intCount 0 d
    modifySpcl (fun h => { h with
      cFlags := h.cFlags &&& ~~~drExtattributes
      cExtattributes := 0 }) d
  else d

/-- The second half of `dump_xattr`: the attribute block. -/
def dumpXattrBlock (fs : Ext2Fs) (inode : Inode) (ino : ℕ) (d : Spcl × τ) : Spcl × τ :=
  if inode.dinode.diFileAcl ≠ 0 then
    let d := modifySpcl (fun h => { h with
      cType := .inode
      cDinode := { h.cDinode with diSize := fs.blocksize }
      cFlags := h.cFlags ||| drExtattributes
      cExtattributes := extXattr }) d
    let d := blksout L fs [inode.dinode.diFileAcl] ino d
    modifySpcl (fun h => { h with
      cFlags := h.cFlags &&& ~~~drExtattributes
      cExtattributes := 0 }) d
  else d

/-- `dump_xattr`. -/
def dumpXattr (fs : Ext2Fs) (inode : Inode) (ino : ℕ) (d : Spcl × τ) : Spcl × τ :=
  dumpXattrBlock L fs inode ino (dumpXattrInode L fs inode ino d)

/-! ## A file -/

/-- What `dumpino` sets in the global header before it looks at the file type. -/
def inodeHeader (dp : Dinode) (size : ℕ) (h : Spcl) : Spcl :=
  { h with cDinode := dp.toBsd size, cType := .inode, cCount := 0 }

/-- The contents of a short symbolic link, terminated. -/
def shortLink (dp : Dinode) : List UInt8 :=
  (List.ofFn fun i => bytesLE 4 (dp.diDb i)).flatten.take dp.diSize ++ [0]

/-- The body of `dumpino`, from the header of the inode to its last data record. The flag says
whether the attributes follow: they do not where the function returns early. -/
def dumpinoBody (fs : Ext2Fs) (inode : Inode) (ino : ℕ) (metaonly : Bool) (d : Spcl × τ) :
    Bool × (Spcl × τ) :=
  let dp := inode.dinode
  let size := if metaonly then 0 else dp.iSize
  let type := ifmt dp.diMode
  let d := modifySpcl (inodeHeader dp size) d
  if metaonly ∧ type ≠ 0 then
    let d := modifySpcl (fun h => { h with cFlags := h.cFlags ||| drMetaonly, cCount := 0 }) d
    let d := writeheader L ino d
    (true, modifySpcl (fun h => { h with cFlags := h.cFlags &&& ~~~drMetaonly }) d)
  else if type = 0 ∨ type = ifDir then (false, d)
  else if type = ifLnk ∧ 0 < size ∧ size < 15 * 4 then
    let d := modifySpcl (fun h => { h with
      cAddr := fun i => if i = 0 then 1 else h.cAddr i
      cCount := 1 }) d
    let d := writeheader L ino d
    (true, L.writerec (.data (blockAt (shortLink dp) 0)) d)
  else if (type = ifLnk ∨ type = ifReg) ∧ size ≠ 0 then
    (true, dumpblocks L fs inode.blocks size ino d)
  else if type = ifLnk ∨ type = ifReg ∨ type = ifIfo ∨ type = ifSock ∨ type = ifChr ∨
      type = ifBlk then
    (true, writeheader L ino d)
  else (false, d)

/-- `dumpino`. On the first inode of the dump the map of dumped inodes goes before it. -/
def dumpino (fs : Ext2Fs) (newtape : Bool) (dumpinomap : List UInt8) (inode : Inode) (ino : ℕ)
    (metaonly : Bool) (d : Spcl × τ) : Spcl × τ :=
  let d := if newtape then dumpmap L fs dumpinomap .bits ino d else d
  let p := dumpinoBody L fs inode ino metaonly d
  if p.1 then dumpXattr L fs inode ino p.2 else p.2

/-! ## The recording layer -/

/-- Options of the dump that end up in headers. -/
structure DumpOptions where
  ntrec : ℕ
  compressed : Bool
  deriving Inhabited

/-- What `startnewtape` reads from the current slave: `slp->count`, `slp->firstrec` and
`slp->inode`. -/
structure VolStart where
  count : ℤ
  firstrec : ℤ
  inode : ℕ

/-- The volume header that `startnewtape` writes through the global header. -/
def volumeHeader (o : DumpOptions) (s : VolStart) (h : Spcl) : Spcl :=
  sealHeader s.inode { h with
    cCount := s.count
    cFirstrec := s.firstrec
    cVolume := h.cVolume + 1
    cType := .tape
    cFlags := h.cFlags ||| drNewheader ||| (if o.compressed then drCompressed else 0)
    cNtrec := o.ntrec }

/-- What `writerec` and the end of `startnewtape` do to the global header after that. -/
def afterVolumeHeader (h : Spcl) : Spcl :=
  { h with cTapea := h.cTapea + 1, cFlags := h.cFlags &&& ~~~drNewheader }

/-- The effect of `startnewtape` on the global header. -/
def startnewtapeSpcl (o : DumpOptions) (s : VolStart) (h : Spcl) : Spcl :=
  afterVolumeHeader (volumeHeader o s h)

/-- A tape layer that keeps the records it is handed, headers of volumes left out. After the
`n`-th record it starts a new volume where `vol n` says so. -/
def recorder (o : DumpOptions) (fs : Ext2Fs) (dev : ℕ → Block) (vol : ℕ → Option VolStart) :
    TapeLayer (List Rec) :=
  let put (r : Rec) (d : Spcl × List Rec) : Spcl × List Rec :=
    let out := d.2 ++ [r]
    let h := { d.1 with cTapea := d.1.cTapea + 1 }
    match vol out.length with
    | none => (h, out)
    | some s => (startnewtapeSpcl o s h, out)
  { writerec := put
    dumpblock := fun blkno size d => (List.range (size / tpBsize)).foldl
      (fun d k => put (.data (dev (fs.fsbtodb blkno + k * (tpBsize / devBsize)))) d) d }

/-- The environment in which the volume never changes. -/
def oneVolume : ℕ → Option VolStart := fun _ => none

end DumpRestore
