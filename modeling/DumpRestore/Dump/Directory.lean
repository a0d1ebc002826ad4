import DumpRestore.Dump.FileRecords
import DumpRestore.Protocol.Direct

/-!
# Dumping a directory

`dumpdirino` converts a directory of the filesystem to entries of type `struct direct` in blocks of
`DIRBLKSIZ` bytes, and writes the result like a file, one record for each header. The conversion is
done in memory of twice the size of the directory that `malloc` returns, whose contents are
arbitrary.

`lays_convertDirs` says what the conversion leaves in memory, and `emits_dirRecords` what the
loop writes to tape.
-/

namespace DumpRestore

open ByteOrder Mem

/-! ## The conversion -/

/-- `struct ext2_dir_entry`, as `ext2fs_dir_iterate` passes it. -/
structure Ext2DirEntry where
  inode : ℕ
  fileType : ℕ
  name : List UInt8
  deriving DecidableEq

/-- The `d_type` for a file type of ext2. -/
def dtOfExt2 : ℕ → ℕ
  | 1 => 8
  | 2 => 4
  | 3 => 2
  | 4 => 6
  | 5 => 1
  | 6 => 12
  | 7 => 10
  | _ => 0

/-- The entry that stands for an entry of ext2. -/
def Ext2DirEntry.direct (e : Ext2DirEntry) : Direct := ⟨e.inode, dtOfExt2 e.fileType, e.name⟩

/-- `MIN(DIRBLKSIZ, TP_BSIZE)`. -/
def cdcBs : ℕ := min devBsize tpBsize

theorem cdcBs_eq : cdcBs = 512 := rfl

/-- `struct convert_dir_context`, the size of blocks left out, with the bytes that were asked of
`malloc`. The mark says that the program has written beyond them, or that a sum did not fit its
`int`: what the memory holds then is no longer what the program has. -/
structure ConvertDirContext where
  buf : Mem
  size : ℕ
  prevOffset : ℕ
  offset : ℕ
  undefined : Bool

/-- `di_size * 2`, computed in 32 bits. -/
def cdcSize (diSize : ℕ) : ℕ := diSize * 2 % 2 ^ 32

/-- The context before the conversion of a directory of `di_size` bytes. -/
def ConvertDirContext.start (junk : Mem) (diSize : ℕ) : ConvertDirContext where
  buf := junk
  size := cdcSize diSize
  prevOffset := 0
  offset := 0
  undefined := false

/-- The program computes `n` in an `int`. -/
def ConvertDirContext.int (p : ConvertDirContext) (n : ℕ) : ConvertDirContext :=
  { p with undefined := p.undefined || decide (intCount ≤ n) }

/-- The bytes from the end of the converted entries to the end of their block. -/
def ConvertDirContext.pad (p : ConvertDirContext) : ℕ := cdcBs - p.offset % cdcBs

/-- Stretch the previous entry to the end of its block. -/
def ConvertDirContext.stretch (p : ConvertDirContext) : ConvertDirContext :=
  { p.int (p.offset + p.pad) with
    buf := setReclen p.buf p.prevOffset (dReclen p.buf p.prevOffset + p.pad)
    offset := p.offset + p.pad }

/-- Add an entry. -/
def ConvertDirContext.add (p : ConvertDirContext) (e : Direct) : ConvertDirContext where
  buf := p.buf.write p.offset (e.bytes (dirsiz e.dNamlen))
  size := p.size
  prevOffset := p.offset
  offset := p.offset + dirsiz e.dNamlen
  undefined := p.undefined || decide (p.size < p.offset + dirsiz e.dNamlen)

section Undefined

variable {p : ConvertDirContext} {n : ℕ} {e : Direct}

@[simp] theorem offset_int : (p.int n).offset = p.offset := rfl

@[simp] theorem size_int : (p.int n).size = p.size := rfl

@[simp] theorem pad_int : (p.int n).pad = p.pad := rfl

@[simp] theorem offset_stretch : p.stretch.offset = p.offset + p.pad := rfl

@[simp] theorem size_stretch : p.stretch.size = p.size := rfl

@[simp] theorem offset_add : (p.add e).offset = p.offset + dirsiz e.dNamlen := rfl

@[simp] theorem size_add : (p.add e).size = p.size := rfl

theorem undefined_int : (p.int n).undefined = false ↔ p.undefined = false ∧ n < intCount := by
  simp [ConvertDirContext.int]

theorem undefined_stretch : p.stretch.undefined = false ↔
    p.undefined = false ∧ p.offset + p.pad < intCount :=
  undefined_int

theorem undefined_add : (p.add e).undefined = false ↔
    p.undefined = false ∧ p.offset + dirsiz e.dNamlen ≤ p.size := by
  simp [ConvertDirContext.add]

end Undefined

/-- `convert_dir`. -/
def convertDir (excludeIno : ℕ → Bool) (p : ConvertDirContext) (dirent : Ext2DirEntry) :
    ConvertDirContext :=
  if excludeIno dirent.inode then p
  else
    let reclen := ext2DirRecLen (dirent.name.length + 1)
    let p := p.int (p.offset + reclen)
    let p := if (p.offset + reclen - 1) / cdcBs ≠ p.offset / cdcBs then p.stretch else p
    (p.int (p.offset + reclen)).add dirent.direct

/-- The conversion of a directory of `di_size` bytes in `dumpdirino`, the fix of the last entry
included. -/
def convertDirs (excludeIno : ℕ → Bool) (diSize : ℕ) (junk : Mem) (dirents : List Ext2DirEntry) :
    ConvertDirContext :=
  let p := dirents.foldl (convertDir excludeIno) (.start junk diSize)
  if p.offset % cdcBs ≠ 0 then p.stretch else p

/-- The entries that are converted. -/
def kept (excludeIno : ℕ → Bool) (dirents : List Ext2DirEntry) : List Direct :=
  (dirents.filter fun e => !excludeIno e.inode).map Ext2DirEntry.direct

/-! ## Its result -/

/-- The law of the conversion. -/
def Converted (p : ConvertDirContext) (es : List Direct) : Prop :=
  es = [] ∧ p.offset = 0 ∨ LaysLast p.buf cdcBs 0 es p.prevOffset p.offset

section Converted

variable {p : ConvertDirContext} {es : List Direct} {e : Direct} {n : ℕ}

theorem Converted.lays (h : Converted p es) : Lays p.buf cdcBs 0 es p.offset := by
  rcases h with ⟨rfl, hoffset⟩ | h
  · exact hoffset.symm
  · exact h.lays

theorem Converted.int (h : Converted p es) : Converted (p.int n) es := h

/-- Stretching ends a block. -/
theorem Converted.stretch (h : Converted p es) (hoffset : p.offset % cdcBs ≠ 0) :
    Converted p.stretch es ∧ p.stretch.offset % cdcBs = 0 ∧ es ≠ [] := by
  have hpad : p.pad = 512 - p.offset % 512 := rfl
  rcases h with ⟨-, hzero⟩ | h
  · rw [hzero] at hoffset
    exact absurd rfl hoffset
  · have hfour := h.lays.mod_four
    have hne : es ≠ [] := by
      obtain ⟨init, last, rfl, -⟩ := h
      simp
    obtain ⟨-, hle⟩ := h.prev_le
    have hblock : p.prevOffset % cdcBs + (p.offset - p.prevOffset) ≤ cdcBs := by
      obtain ⟨init, last, -, -, r, -, hfits, hr⟩ := h
      have := hfits.block
      rw [← hr, Nat.add_sub_cancel_left]
      exact this
    refine ⟨.inr ?_, ?_, hne⟩
    · have hreclen := h.dReclen_eq (by decide)
      rw [ConvertDirContext.stretch, hreclen]
      refine h.stretch _ ?_ ?_
      · omega
      · simp only [cdcBs_eq] at hblock hoffset ⊢
        omega
    · simp only [ConvertDirContext.stretch, cdcBs_eq] at hoffset ⊢
      omega

/-- Adding an entry that fits the block. -/
theorem Converted.add (h : Converted p es) (he : p.offset % cdcBs + dirsiz e.dNamlen ≤ cdcBs) :
    Converted (p.add e) (es ++ [e]) :=
  .inr (h.lays.snoc he (entryAt_write ..))

/-- One call of `convert_dir`. -/
theorem Converted.convertDir (h : Converted p es) (excludeIno : ℕ → Bool) {dirent : Ext2DirEntry}
    (he : dirent.direct.Valid) :
    Converted (convertDir excludeIno p dirent) (es ++ kept excludeIno [dirent]) := by
  have hsiz := he.dirsiz_le
  have hpos := dirsiz_ge dirent.direct.dNamlen
  have hreclen : ext2DirRecLen (dirent.name.length + 1) = dirsiz dirent.direct.dNamlen := rfl
  rw [DumpRestore.convertDir]
  by_cases hex : excludeIno dirent.inode = true
  · simpa [kept, hex] using h
  · have hkept : kept excludeIno [dirent] = [dirent.direct] := by simp [kept, hex]
    simp only [if_neg hex, hkept, hreclen]
    split
    case isTrue hcross =>
      have hpart : p.offset % cdcBs ≠ 0 := by
        simp only [ConvertDirContext.int, cdcBs_eq] at *
        omega
      obtain ⟨hstretch, hzero, -⟩ := h.int.stretch hpart
      refine hstretch.int.add ?_
      change (p.int _).stretch.offset % cdcBs + _ ≤ cdcBs
      rw [hzero, cdcBs_eq]
      omega
    case isFalse hroom =>
      refine h.int.int.add ?_
      simp only [ConvertDirContext.int, cdcBs_eq] at *
      omega

theorem kept_append (excludeIno : ℕ → Bool) (as bs : List Ext2DirEntry) :
    kept excludeIno (as ++ bs) = kept excludeIno as ++ kept excludeIno bs := by
  simp [kept]

/-- All calls of `convert_dir` for a directory. -/
theorem Converted.foldl (h : Converted p es) {excludeIno : ℕ → Bool} {dirents : List Ext2DirEntry}
    (he : ∀ e ∈ dirents, e.direct.Valid) :
    Converted (dirents.foldl (DumpRestore.convertDir excludeIno) p)
      (es ++ kept excludeIno dirents) := by
  induction dirents generalizing p es with
  | nil => simpa [kept] using h
  | cons e dirents ih =>
    have hstep := h.convertDir excludeIno (he e List.mem_cons_self)
    have hrest := ih hstep fun e' he' => he e' (List.mem_cons_of_mem _ he')
    rwa [List.append_assoc, ← kept_append, List.singleton_append] at hrest

end Converted

/-- **The converted directory** has the entries that are not excluded, in whole blocks. -/
theorem lays_convertDirs (excludeIno : ℕ → Bool) (diSize : ℕ) (junk : Mem)
    {dirents : List Ext2DirEntry} (he : ∀ e ∈ dirents, e.direct.Valid) :
    Lays (convertDirs excludeIno diSize junk dirents).buf cdcBs 0 (kept excludeIno dirents)
        (convertDirs excludeIno diSize junk dirents).offset ∧
      (convertDirs excludeIno diSize junk dirents).offset % cdcBs = 0 := by
  have hstart : Converted (.start junk diSize) [] := .inl ⟨rfl, rfl⟩
  have h : Converted (dirents.foldl (convertDir excludeIno) (.start junk diSize))
      (kept excludeIno dirents) := hstart.foldl he
  rw [convertDirs]
  split
  case isTrue hpart =>
    obtain ⟨hstretch, hzero, -⟩ := h.stretch hpart
    exact ⟨hstretch.lays, hzero⟩
  case isFalse hwhole =>
    exact ⟨h.lays, not_not.mp hwhole⟩

/-! ## Its records -/

/-- `TP_BSIZE` bytes of memory. -/
def blockOf (m : Mem) (a : ℕ) : Block := ⟨m.read a tpBsize, length_read ..⟩

variable {τ : Type*} (L : TapeLayer τ)

/-- One turn of the loop of `dumpdirino`. -/
def dirRecord (buf : Mem) (ino i : ℕ) (d : Spcl × τ) : Spcl × τ :=
  let d := modifySpcl (fun h => { h with
    cAddr := fun k => if k = 0 then 1 else h.cAddr k
    cCount := 1 }) d
  let d := writeheader L ino d
  let d := L.writerec (.data (blockOf buf (i * tpBsize))) d
  modifySpcl (fun h => { h with cType := .addr }) d

/-- The loop of `dumpdirino`. -/
def dirRecords (buf : Mem) (size ino : ℕ) (d : Spcl × τ) : Spcl × τ :=
  (List.range (howmany size tpBsize)).foldl (fun d i => dirRecord L buf ino i d) d

/-- The body of `dumpdirino` for the converted directory `cdc`. The flag says whether the
attributes follow. -/
def dumpdirinoBody (cdc : ConvertDirContext) (inode : Inode) (ino : ℕ) (d : Spcl × τ) :
    Bool × (Spcl × τ) :=
  let d := modifySpcl (inodeHeader inode.dinode cdc.offset) d
  if ifmt inode.dinode.diMode = ifDir ∧ cdc.offset > 0 then
    (true, dirRecords L cdc.buf cdc.offset ino d)
  else (false, d)

/-- `dumpdirino`. -/
def dumpdirino (fs : Ext2Fs) (newtape : Bool) (dumpinomap : List UInt8) (excludeIno : ℕ → Bool)
    (junk : Mem) (inode : Inode) (dirents : List Ext2DirEntry) (ino : ℕ) (d : Spcl × τ) :
    Spcl × τ :=
  let d := if newtape then dumpmap L fs dumpinomap .bits ino d else d
  let p := dumpdirinoBody L (convertDirs excludeIno inode.dinode.diSize junk dirents) inode ino d
  if p.1 then dumpXattr L fs inode ino p.2 else p.2

section Recorder

variable {o : DumpOptions} {fs : Ext2Fs} {dev : ℕ → Block} {buf : Mem} {ino : ℕ}
  {d : Spcl × List Rec}

theorem emitsOne_dirRecord (i : ℕ) :
    ∃ g, EmitsOne d g (dirRecord (recorder o fs dev oneVolume) buf ino i d) ∧
      g.blocks = [some (blockOf buf (i * tpBsize))] := by
  refine ⟨⟨sealHeader ino { d.1 with
    cAddr := fun k => if k = 0 then 1 else d.1.cAddr k
    cCount := 1 }, [some (blockOf buf (i * tpBsize))], rfl, ?_⟩,
    ⟨?_, accepted_sealHeader .., rfl, rfl, rfl, rfl, rfl, rfl⟩, rfl⟩
  · intro k hk
    obtain rfl : k = 0 := by simpa using hk
    exact iff_of_true one_ne_zero rfl
  · simp [dirRecord, writerec_oneVolume, writeheader_oneVolume, modifySpcl, Segment.recs]

/-- **The records of a directory** are its converted bytes, one record for each header. -/
theorem emits_dirRecords (size : ℕ) :
    ∃ gs, Emits d gs (dirRecords (recorder o fs dev oneVolume) buf size ino d) ∧
      gs.map Segment.blocks =
        (List.range (howmany size tpBsize)).map fun i => [some (blockOf buf (i * tpBsize))] := by
  rw [dirRecords]
  induction howmany size tpBsize with
  | zero => exact ⟨[], .nil d, rfl⟩
  | succ n ih =>
    obtain ⟨gs, hgs, hblocks⟩ := ih
    obtain ⟨g, hg, hgblocks⟩ := emitsOne_dirRecord (o := o) (d := (List.range n).foldl
        (fun d i => dirRecord (recorder o fs dev oneVolume) buf ino i d) d) n
    refine ⟨gs ++ [g], ?_, ?_⟩
    · rw [List.range_succ, List.foldl_append, List.foldl_cons, List.foldl_nil]
      exact hgs.trans (.cons hg (.nil _))
    · rw [List.map_append, hblocks, List.range_succ, List.map_append]
      simp [hgblocks]

end Recorder

end DumpRestore
