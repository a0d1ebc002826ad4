import DumpRestore.Dump.DirectoryBound
import DumpRestore.Restore.FileBlocks
import DumpRestore.Restore.QuadTape
import DumpRestore.Restore.ReadDir
import DumpRestore.RoundTrip.FileData

/-!
# A directory, through dump and restore

`dumpdirino` converts a directory and writes it to tape, `extractdirs` copies it to restore's
directory file behind those that are there, and `rst_readdir` reads it back, through a buffer that
runs on into whatever is stored after it. `roundTrips_iff` follows the entries all the way. They
come back unless

* the conversion leaves the buffer of `dumpdirino`, or
* `converthead` exchanges the halves of `di_size`, and the data does not end with a full buffer of
  `getfile`: the last call of `putdir` is then for more bytes than the buffer has, or for more than
  the directory has.
-/

namespace DumpRestore

open ByteOrder Mem

/-! ## Data without holes -/

/-- The state of `getfile` in a file without holes whose size is a multiple of 512. -/
structure WholeState (s : FileState) : Prop where
  calls : ∀ c ∈ s.calls, WholeBlocks c
  size : s.size % 512 = 0
  lastWriteWasHole : s.lastWriteWasHole = false

theorem wholeBlocks_fill {buf : List Block} {size : ℤ} (hmod : size % 512 = 0) (hpos : 0 ≤ size)
    (hle : size ≤ buf.length * tpBsize) : WholeBlocks (.fill buf size) := by
  refine ⟨buf, size.toNat, ?_, by omega, by omega⟩
  rw [Int.toNat_of_nonneg hpos]

theorem WholeState.block {cap : ℕ} {s : FileState} (h : WholeState s) (hsize : 0 < s.size)
    (b : Block) : WholeState (s.block (cap * tpBsize) (some b)) := by
  have hmod := h.size
  have hlen : (s.buf ++ [b]).length = s.buf.length + 1 := by simp
  simp only [FileState.block, FileState.store, FileState.curblk, FileState.advance, cap_mul_div]
  split
  case isTrue hfull =>
    refine ⟨fun c hc => ?_, by rw [tpBsize]; simp only; omega, rfl⟩
    rcases List.mem_append.mp hc with hc | hc
    · exact h.calls c hc
    · obtain rfl := List.mem_singleton.mp hc
      rw [hlen] at hfull
      split
      case isTrue hmore =>
        refine wholeBlocks_fill ?_ ?_ ?_
        · rw [tpBsize]
          omega
        · exact Int.natCast_nonneg _
        · rw [hlen, hfull]
          push_cast
          exact le_rfl
      case isFalse hlast =>
        refine wholeBlocks_fill ?_ ?_ ?_
        all_goals
          rw [hlen, tpBsize] at *
          push_cast
          omega
  case isFalse =>
    exact ⟨h.calls, by rw [tpBsize]; simp only; omega, h.lastWriteWasHole⟩

theorem WholeState.foldl {cap : ℕ} {s : FileState} (h : WholeState s) (bs : List Block)
    (hsize : ((bs.length : ℤ) - 1) * tpBsize < s.size) :
    WholeState ((bs.map some).foldl (FileState.block (cap * tpBsize)) s) := by
  induction bs generalizing s with
  | nil => exact h
  | cons b bs ih =>
    rw [List.length_cons] at hsize
    push_cast at hsize
    refine ih (h.block ?_ b) ?_
    · rw [tpBsize] at hsize
      omega
    · rw [size_block, tpBsize] at *
      omega

/-- The last flush is of whole blocks, too. -/
theorem WholeState.finish {s : FileState} (h : WholeState s) (origsize : ℤ) (hle : s.size ≤ 0)
    (hgt : -tpBsize < s.size) : ∀ c ∈ s.finish origsize, WholeBlocks c := by
  have hmod := h.size
  have hno : ¬ s.lastFlush.size > 0 := by
    rw [FileState.lastFlush]
    split
    · exact not_lt.mpr hle
    · exact not_lt.mpr hle
  have hflag : s.lastFlush.lastWriteWasHole = false := by
    rw [FileState.lastFlush]
    split
    · rfl
    · exact h.lastWriteWasHole
  intro c hc
  simp only [FileState.finish, FileState.assumeHole, if_neg hno, hflag] at hc
  rw [if_neg Bool.false_ne_true, FileState.lastFlush] at hc
  split at hc
  case isTrue hbuf =>
    rcases List.mem_append.mp hc with hc | hc
    · exact h.calls c hc
    · obtain rfl := List.mem_singleton.mp hc
      rw [FileState.curblk] at *
      refine wholeBlocks_fill ?_ ?_ ?_
      all_goals
        rw [tpBsize] at *
        omega
  case isFalse => exact h.calls c hc

/-- The calls of `getfile` for a file without holes. -/
theorem wholeBlocks_calls (cap : ℕ) {size : ℕ} (bs : List Block) (hmod : size % 512 = 0)
    (hlen : bs.length = howmany size tpBsize) :
    ∀ c ∈ ((bs.map some).foldl (FileState.block (cap * tpBsize))
      ⟨[], size, false, []⟩).finish size, WholeBlocks c := by
  have hstart : WholeState ⟨[], size, false, []⟩ := ⟨by simp, by simp only; omega, rfl⟩
  have hend := size_foldl_block (cap * tpBsize) (bs.map some) ⟨[], size, false, []⟩
  rw [List.length_map, hlen] at hend
  refine (hstart.foldl bs ?_).finish size ?_ ?_
  · rw [hlen]
    rw [howmany, tpBsize]
    simp only
    omega
  · rw [hend, howmany, tpBsize]
    simp only
    omega
  · rw [hend, howmany, tpBsize]
    simp only
    omega

/-- The contents of consecutive blocks of memory. -/
theorem expand_blockOf (m : Mem) (n : ℕ) :
    expand ((List.range n).map fun i => some (blockOf m (i * tpBsize))) =
      m.read 0 (n * tpBsize) := by
  induction n with
  | zero => simp [expand, Mem.read]
  | succ n ih =>
    rw [List.range_succ, List.map_append, List.map_singleton, expand_concat_some, ih,
      Nat.succ_mul, read_add, Nat.zero_add]
    rfl

/-! ## Calls that reach putdir -/

/-- A call of `fill`. -/
def Call.isFill : Call → Bool
  | .fill _ _ => true
  | .skip _ | .ftruncate _ => false

/-- The calls that reach `putdir`. -/
def fills (calls : List Call) : List Call := calls.filter Call.isFill

theorem fills_append (cs ds : List Call) : fills (cs ++ ds) = fills cs ++ fills ds :=
  List.filter_append ..

theorem fills_of_whole {calls : List Call} (h : ∀ c ∈ calls, WholeBlocks c) :
    fills calls = calls := by
  refine List.filter_eq_self.mpr fun c hc => ?_
  obtain ⟨buf, size, rfl, -⟩ := h c hc
  rfl

theorem fills_missing (n : ℕ) : fills (FileState.missing n) = [] := by
  refine List.filter_eq_nil_iff.mpr fun c hc => ?_
  obtain ⟨i, -, rfl⟩ := List.mem_map.mp hc
  exact Bool.false_ne_true

theorem storeDir_fills (junk : Mem) (ino : ℕ) (calls : List Call) (s : DirFile) :
    storeDir junk ino (fills calls) s = storeDir junk ino calls s := by
  have hfold (s : DirFile) : (fills calls).foldl putCall s = calls.foldl putCall s := by
    induction calls generalizing s with
    | nil => rfl
    | cons c calls ih => cases c <;> exact ih _
  rw [storeDir, storeDir, hfold]

theorem run_map_some (blocks : List Block) : Sparse.run (blocks.map some) = blocks.length := by
  induction blocks using List.reverseRecOn with
  | nil => rfl
  | append_singleton blocks b ih => simp [ih]

section Calls

variable {cap size : ℕ} {blocks : List Block}

/-- The calls for a file of its own size are for what is in the buffer. -/
theorem bounded_callsFor (hcap : 0 < cap) (hlen : blocks.length = howmany size tpBsize) :
    ∀ c ∈ callsFor cap size (blocks.map some), c.Bounded (cap * tpBsize) := by
  have htaken : Taken size (blocks.map some) := by
    rw [Taken, List.length_map, hlen, howmany, tpBsize]
    omega
  refine ((exact_callsFor_iff hcap htaken).mpr ?_).2
  rintro (⟨hearly, -⟩ | ⟨_, hnone, -⟩)
  · rw [List.length_map, hlen, howmany, tpBsize] at hearly
    omega
  · simp [List.getElem?_map] at hnone

/-- The calls for a file that is taken for a much larger one reach `putdir` with all blocks, if the
last of them fills the buffer. -/
theorem fills_callsFor (hcap : 0 < cap) (hlt : blocks.length * tpBsize < size)
    (hmod : size % 512 = 0) (hfull : blocks.length % cap = 0) :
    (∀ c ∈ fills (callsFor cap size (blocks.map some)), WholeBlocks c) ∧
      delivered (fills (callsFor cap size (blocks.map some))) = expand (blocks.map some) := by
  have hless : (blocks.length : ℤ) * tpBsize < size := by exact_mod_cast hlt
  have hstart : WholeState ⟨[], size, false, []⟩ := ⟨by simp, by simp only; omega, rfl⟩
  have hwhole : WholeState ((blocks.map some).foldl (FileState.block (cap * tpBsize))
      ⟨[], size, false, []⟩) :=
    hstart.foldl blocks (by simp only [tpBsize] at *; omega)
  have hgathered := (gathered_nil cap size).foldl hcap (blocks.map some)
    (by rw [List.nil_append, List.length_map]; exact hless)
  rw [List.nil_append] at hgathered
  have hsize := hgathered.size
  have hbuf := hgathered.buf
  rw [run_map_some, hfull, List.length_eq_zero_iff] at hbuf
  rw [callsFor]
  generalize (blocks.map some).foldl (FileState.block (cap * tpBsize))
    ⟨[], size, false, []⟩ = s at *
  have hpos : s.size > 0 := by
    rw [hsize, List.length_map]
    omega
  have hflush : s.lastFlush = s := if_neg (by simp [FileState.curblk, hbuf])
  have hfills : fills (s.finish size) = s.calls := by
    simp only [FileState.finish, hflush, FileState.assumeHole, if_pos hpos, if_true, fills_append,
      fills_missing, fills_of_whole hwhole.calls, List.append_nil]
    exact List.append_nil _
  have hbytes := hgathered.bytes
  rw [hbuf, List.flatMap_nil, List.append_nil] at hbytes
  rw [hfills]
  exact ⟨hwhole.calls, hbytes⟩

end Calls

/-! ## The trip -/

/-- A directory as the filesystem library reports it: entries with inode numbers below `maxino` and
with names that fit, in a whole number of blocks. -/
structure Directory (maxino : ℕ) where
  inode : Inode
  dirents : List Ext2DirEntry
  mode : ifmt inode.dinode.diMode = ifDir
  valid : ∀ e ∈ dirents, e.direct.Valid
  inode_ne : ∀ e ∈ dirents, e.inode ≠ 0
  inode_lt : ∀ e ∈ dirents, e.inode < maxino
  size_dvd : tpBsize ∣ inode.dinode.diSize

/-- The records that `dumpdirino` writes for a directory, when the global header was `h` before. -/
def dirRecs (o : DumpOptions) (fs : Ext2Fs) (dev : ℕ → Block) (excludeIno : ℕ → Bool) (junk : Mem)
    (inode : Inode) (dirents : List Ext2DirEntry) (ino : ℕ) (h : Spcl) : List Rec :=
  (dumpdirinoBody (recorder o fs dev oneVolume)
    (convertDirs excludeIno inode.dinode.diSize junk dirents) inode ino (h, [])).2.2

section Trip

open ConvertDir

variable {maxino : ℕ} (o : DumpOptions) (fs : Ext2Fs) (dev : ℕ → Block) (excludeIno : ℕ → Bool)
  (junk : Mem) (dir : Directory maxino) (ino : ℕ) (h : Spcl)

/-- The directory after `convert_dir` and the fix of the last entry. -/
def Directory.converted : ConvertDirContext :=
  convertDirs excludeIno dir.inode.dinode.diSize junk dir.dirents

/-- The bytes of the converted directory, in whole output blocks. -/
def Directory.convertedSize : ℕ := cdcBs * Bins.nextFit cdcBs 0 (reclens excludeIno dir.dirents)

theorem Directory.names : ∀ e ∈ dir.dirents, 1 ≤ e.name.length ∧ e.name.length ≤ 255 := by
  intro e he
  have hvalid := dir.valid e he
  have hlen : e.direct.dName.length = e.name.length := rfl
  have := hvalid.dName_pos
  have := hvalid.dName_lt
  omega

theorem Directory.offset_converted :
    (dir.converted excludeIno junk).offset = dir.convertedSize excludeIno := by
  rw [Directory.converted, offset_convertDirs, outputBlocks_eq _ _ _ dir.names]
  rfl

/-- The last record is in the buffer, too. -/
theorem Directory.records_le (hwithin : Within (dir.converted excludeIno junk)) :
    howmany (dir.convertedSize excludeIno) tpBsize * tpBsize ≤
      (dir.converted excludeIno junk).size := by
  have hle := hwithin.offset_le
  have hsize : (dir.converted excludeIno junk).size = cdcSize dir.inode.dinode.diSize := by
    rw [Directory.converted, size_convertDirs]
  rw [dir.offset_converted, hsize] at hle
  rw [hsize]
  obtain ⟨n, hn⟩ := dir.size_dvd
  rw [cdcSize] at hle ⊢
  rw [howmany, tpBsize] at *
  omega

/-- The records of a directory are a header of type `TS_INODE` and headers that continue it, with
one block each. -/
theorem exists_dir_segments (hkept : kept excludeIno dir.dirents ≠ []) :
    ∃ g gs, dirRecs o fs dev excludeIno junk dir.inode dir.dirents ino h =
        (g :: gs).flatMap Segment.recs ∧
      g.header.accepted = true ∧ g.header.cType = .inode ∧
      g.header.cDinode.diSize = dir.convertedSize excludeIno ∧
      ifmt g.header.cDinode.diMode = ifDir ∧ (∀ g' ∈ gs, g'.Continues h.cDate) ∧
      (g :: gs).map Segment.blocks =
        (List.range (howmany (dir.convertedSize excludeIno) tpBsize)).map
          (fun i => [some (blockOf (dir.converted excludeIno junk).buf (i * tpBsize))]) ∧
      0 < dir.convertedSize excludeIno := by
  obtain ⟨hlays, -⟩ := lays_convertDirs excludeIno dir.inode.dinode.diSize junk dir.valid
  rw [← Directory.converted, dir.offset_converted] at hlays
  have hpos : 0 < dir.convertedSize excludeIno := by
    obtain ⟨e, es, hes⟩ := List.exists_cons_of_ne_nil hkept
    rw [hes] at hlays
    obtain ⟨r, -, hfits, hrest⟩ := hlays
    have := hfits.pos
    have := hrest.le
    omega
  obtain ⟨gs, hgs, hblocks⟩ := emits_dirRecords (o := o)
    (d := (inodeHeader dir.inode.dinode (dir.convertedSize excludeIno) h, []))
    (dir.convertedSize excludeIno)
  have hne : gs ≠ [] := by
    rintro rfl
    have hlen := congrArg List.length hblocks
    simp only [List.length_map, List.length_range, List.map_nil, List.length_nil] at hlen
    rw [howmany, tpBsize] at hlen
    omega
  obtain ⟨g, gs', rfl, hacc, htype, hdate, hdinode, hcont⟩ := hgs.exists_first hne
  refine ⟨g, gs', ?_, hacc, htype, ?_, ?_, hcont, hblocks, hpos⟩
  · rw [dirRecs, ← Directory.converted, dumpdirinoBody, dir.offset_converted,
      if_pos ⟨dir.mode, hpos⟩]
    exact hgs.recs_eq
  · rw [hdinode]
    rfl
  · rw [hdinode]
    exact dir.mode

/-- The tape with the records of the directory, then `next`, then `rest`. -/
def dirTape (next : Spcl) (rest : List Rec) (t : QuadTape) : QuadTape :=
  { t with
    recs := dirRecs o fs dev excludeIno junk dir.inode dir.dirents ino h ++ .spcl next :: rest
    dumpdate := h.cDate }

section Stored

variable (s : { s : DirFile // s.dirloc = 0 ∧ s.seekpt = s.df.length }) (junk' : Mem)
  (later : List UInt8) (ddSize : ℤ) (ddBuf : Mem)

/-- What `rst_readdir` returns from the stored directory, the end included, when `getfile` made
`calls` for it. Everything else is arbitrary: the directory file `s` so far, the memory in which
entries are built, what the directory file has after the directory, and what the reader's buffer
has. -/
def readStored (calls : List Call) : List (Option Direct) :=
  rstReaddirs ((storeDir junk' ino calls s).2.df ++ later) maxino
    ((kept excludeIno dir.dirents).length + 1)
    ⟨(storeDir junk' ino calls s).1.tSeekpt, 0, ddSize, ddBuf⟩

/-- **The directory comes back.** Nothing undefined happens in its conversion, nor in a call of
`fill`, the calls of `putdir` are for its `di_size` bytes, and a reader at the start of the stored
directory returns the entries that were not excluded, in order, and then the end of the
directory. -/
def RoundTrips (next : Spcl) (rest : List Rec) (t : QuadTape) (k : Fin 7) : Prop :=
  Within (dir.converted excludeIno junk) ∧
    ∃ calls hd t', extract (fssize k)
        (dirTape o fs dev excludeIno junk dir ino h next rest t) = some (calls, hd, t') ∧
      t'.recs = rest ∧ (∀ c ∈ calls, c.Bounded (fssize k)) ∧
      delivered (fills calls) =
        (dir.converted excludeIno junk).buf.read 0 (dir.converted excludeIno junk).offset ∧
      readStored excludeIno dir ino s junk' later ddSize ddBuf calls =
        (kept excludeIno dir.dirents).map some ++ [none]

/-- Reading the stored directory, when `putdir` got it. -/
theorem readStored_eq {calls : List Call} (hcalls : ∀ c ∈ fills calls, WholeBlocks c)
    (hfed : delivered (fills calls) =
      (dir.converted excludeIno junk).buf.read 0 (dir.converted excludeIno junk).offset) :
    readStored excludeIno dir ino s junk' later ddSize ddBuf calls =
      (kept excludeIno dir.dirents).map some ++ [none] := by
  obtain ⟨hlays, -⟩ := lays_convertDirs excludeIno dir.inode.dinode.diSize junk dir.valid
  have hread : Lays (ofList (delivered (fills calls))) 512 0 (kept excludeIno dir.dirents)
      (delivered (fills calls)).length := by
    rw [hfed, length_read]
    exact hlays.congr (agree_ofList_read _ _)
  have hes : ∀ e ∈ kept excludeIno dir.dirents, e.Valid ∧ e.dIno ≠ 0 ∧ e.dIno < maxino := by
    intro e he
    obtain ⟨dirent, hkeep, rfl⟩ := List.mem_map.mp he
    have hmem := List.mem_of_mem_filter hkeep
    exact ⟨dir.valid dirent hmem, dir.inode_ne dirent hmem, dir.inode_lt dirent hmem⟩
  obtain ⟨stored, hdf, hstored, htable, -, -⟩ := @stored_storeDir _ _ _ junk' ino
    s.property.1 s.property.2 hcalls hread fun e he => ⟨(hes e he).1, (hes e he).2.1⟩
  rw [storeDir_fills] at hdf htable
  rw [readStored, hdf, htable]
  obtain ⟨-, p, r, hlays', hentry, hr, hblock, hn⟩ := hasDir_append hstored
  have hstart : Positioned (s.val.df ++ stored ++ later) s.val.df.length 0
      ⟨s.val.df.length, 0, ddSize, ddBuf⟩ := .inl ⟨rfl, rfl, rfl⟩
  exact hstart.rstReaddirs hlays' hentry hr hblock (by simp only [List.length_append] at *; omega)
    hes

end Stored

/-- The blocks of the converted directory. -/
def Directory.blocks : List Block :=
  (List.range (howmany (dir.convertedSize excludeIno) tpBsize)).map fun i =>
    blockOf (dir.converted excludeIno junk).buf (i * tpBsize)

theorem Directory.length_blocks : (dir.blocks excludeIno junk).length =
    howmany (dir.convertedSize excludeIno) tpBsize := by
  rw [Directory.blocks, List.length_map, List.length_range]

theorem Directory.expand_blocks : expand ((dir.blocks excludeIno junk).map some) =
    (dir.converted excludeIno junk).buf.read 0
      (howmany (dir.convertedSize excludeIno) tpBsize * tpBsize) := by
  rw [Directory.blocks, List.map_map]
  exact expand_blockOf _ _

/-- The halves of `di_size` are exchanged in the header of the directory. -/
def Directory.Exchanged (t : QuadTape) : Prop :=
  t.qcvt = true ∨ 0xfffffff < dir.convertedSize excludeIno

instance Directory.decidableExchanged (t : QuadTape) : Decidable (dir.Exchanged excludeIno t) :=
  inferInstanceAs (Decidable (_ ∨ _))

/-- `di_size` as `converthead` leaves it. -/
def Directory.sizeRead (t : QuadTape) : ℕ :=
  if dir.Exchanged excludeIno t then dir.convertedSize excludeIno * 2 ^ 32
  else dir.convertedSize excludeIno

theorem Directory.convertedSize_lt (hwithin : Within (dir.converted excludeIno junk)) :
    dir.convertedSize excludeIno < 2 ^ 31 := by
  have hle := (within_convertDirs ..).mp hwithin
  have heq := dir.offset_converted excludeIno junk
  rw [Directory.converted, offset_convertDirs] at heq
  rw [heq, limit, intCount] at hle
  omega

/-- The calls for the size that the directory has. -/
theorem whole_callsFor (k : Fin 7) :
    (∀ c ∈ callsFor (2 ^ (k : ℕ)) (dir.convertedSize excludeIno)
        ((dir.blocks excludeIno junk).map some), c.Bounded (fssize k) ∧ WholeBlocks c) ∧
      delivered (callsFor (2 ^ (k : ℕ)) (dir.convertedSize excludeIno)
          ((dir.blocks excludeIno junk).map some)) =
        (dir.converted excludeIno junk).buf.read 0 (dir.convertedSize excludeIno) := by
  have hlen := dir.length_blocks excludeIno junk
  have hmod : dir.convertedSize excludeIno % 512 = 0 := Nat.mul_mod_right ..
  have hbounded := bounded_callsFor (Nat.two_pow_pos (k : ℕ)) hlen
  have hwhole := wholeBlocks_calls (2 ^ (k : ℕ)) (dir.blocks excludeIno junk) hmod hlen
  have hlast : lastIndex (dir.convertedSize excludeIno : ℤ) =
      ((dir.blocks excludeIno junk).map some).length := by
    rw [lastIndex, Int.toNat_natCast, List.length_map, hlen]
  have hdelivered := (delivered_eq_iff (Nat.two_pow_pos (k : ℕ)) hlast.le).mpr (by
    rintro ⟨_, hnone, -⟩
    simp [List.getElem?_map] at hnone)
  rw [hlast, List.take_length, dir.expand_blocks] at hdelivered
  refine ⟨fun c hc => ⟨hbounded c hc, hwhole c hc⟩, ?_⟩
  rw [callsFor, hdelivered]
  have hle := (howmany_le_iff (y := tpBsize) (by decide)).mp
    (le_refl (howmany (dir.convertedSize excludeIno) tpBsize))
  rw [← Nat.add_sub_of_le hle, read_add, List.take_left' (length_read ..)]

variable {dir excludeIno junk}

theorem Directory.bmod_sizeRead (hwithin : Within (dir.converted excludeIno junk)) (t : QuadTape) :
    (dir.sizeRead excludeIno t : ℤ).bmod (2 ^ 64) = dir.sizeRead excludeIno t := by
  have hlt := dir.convertedSize_lt excludeIno junk hwithin
  have hfits : dir.sizeRead excludeIno t < 2 ^ 63 := by
    rw [Directory.sizeRead]
    split <;> omega
  exact Int.bmod_eq_of_le (by omega) (by omega)

/-- What `getfile` does with the records of the directory. -/
theorem extract_dirTape (hkept : kept excludeIno dir.dirents ≠ [])
    (hwithin : Within (dir.converted excludeIno junk)) (next : { n : Spcl // Follows h.cDate n })
    (rest : List Rec) (t : QuadTape) (k : Fin 7) :
    ∃ hd t', extract (fssize k) (dirTape o fs dev excludeIno junk dir ino h next rest t) =
        some (callsFor (2 ^ (k : ℕ)) (dir.sizeRead excludeIno t)
          ((dir.blocks excludeIno junk).map some), hd, t') ∧ t'.recs = rest := by
  obtain ⟨g, gs, hrecs, hacc, htype, hsize, hmode, hcont, hblocks, hpos⟩ :=
    exists_dir_segments o fs dev excludeIno junk dir ino h hkept
  have hlt := dir.convertedSize_lt excludeIno junk hwithin
  have hswapped : g.header.QuadSwapped ↔ 0xfffffff < dir.convertedSize excludeIno := by
    rw [Spcl.QuadSwapped, hsize]
    constructor
    · rintro ⟨hzero | hlarge, -, hne⟩
      · exact absurd hzero hne
      · exact hlarge
    · exact fun hlarge => ⟨.inr hlarge, hmode, by omega⟩
  have hread : (dirTape o fs dev excludeIno junk dir ino h next rest t).sizeOf g.header =
      dir.sizeRead excludeIno t := by
    have hquad : quadSwap (dir.convertedSize excludeIno) =
        dir.convertedSize excludeIno * 2 ^ 32 := by
      rw [quadSwap, Nat.div_eq_of_lt (by omega), Nat.mod_eq_of_lt (by omega), Nat.zero_add]
    have hafter : (dirTape o fs dev excludeIno junk dir ino h next rest t).qcvtAfter g.header =
        decide (dir.Exchanged excludeIno t) := by
      rw [QuadTape.qcvtAfter, Bool.eq_iff_iff, Bool.or_eq_true, decide_eq_true_iff,
        decide_eq_true_iff, hswapped]
      exact Iff.rfl
    rw [QuadTape.sizeOf, hafter, hsize, hquad, Directory.sizeRead]
    simp only [decide_eq_true_eq]
  have hsingles : Singles (g :: gs) := by
    intro g' hg'
    have hmem := List.mem_map_of_mem (f := Segment.blocks) hg'
    rw [hblocks] at hmem
    obtain ⟨i, -, hi⟩ := List.mem_map.mp hmem
    exact ⟨_, hi.symm⟩
  have hlen : gs.length + 1 = howmany (dir.convertedSize excludeIno) tpBsize := by
    have hlen := congrArg List.length hblocks
    simpa using hlen
  have hless : (gs.length : ℤ) * tpBsize < dir.sizeRead excludeIno t := by
    have hle : dir.convertedSize excludeIno ≤ dir.sizeRead excludeIno t := by
      rw [Directory.sizeRead]
      split <;> omega
    rw [howmany, tpBsize] at *
    omega
  obtain ⟨hd, t', hextract, hrest⟩ := extract_singles (t := dirTape o fs dev excludeIno junk dir
    ino h next rest t) hacc htype hcont hsingles next.property
    (by rw [hread]; exact dir.bmod_sizeRead hwithin t) hless (congrArg (· ++ _) hrecs)
  have hall : (g :: gs).flatMap Segment.blocks = (dir.blocks excludeIno junk).map some := by
    rw [List.flatMap_def, hblocks, Directory.blocks, List.map_map, ← List.flatMap_def]
    exact List.map_eq_flatMap.symm
  rw [hall] at hextract
  exact ⟨hd, t', hextract, hrest⟩

variable (s : { s : DirFile // s.dirloc = 0 ∧ s.seekpt = s.df.length }) (junk' : Mem)
  (later : List UInt8) (ddSize : ℤ) (ddBuf : Mem)

/-- **The round trip of a directory.** It succeeds just if the converted entries can be cut into the
output blocks that the buffer has room for and, in case the halves of `di_size` are exchanged, the
data ends with a full buffer of `getfile`. -/
theorem roundTrips_iff (hkept : kept excludeIno dir.dirents ≠ [])
    (next : { n : Spcl // Follows h.cDate n }) (rest : List Rec) (t : QuadTape) (k : Fin 7) :
    RoundTrips o fs dev excludeIno junk dir ino h s junk' later ddSize ddBuf next rest t k ↔
      Bins.Packs cdcBs (room dir.inode.dinode.diSize) (reclens excludeIno dir.dirents) ∧
        (dir.Exchanged excludeIno t → fssize k ∣ dir.convertedSize excludeIno) := by
  rw [RoundTrips, Directory.converted, within_iff_packs _ _ _ dir.names]
  refine and_congr_right fun hpacks => ?_
  have hwithin : Within (dir.converted excludeIno junk) :=
    (within_iff_packs _ _ _ dir.names).mpr hpacks
  rw [← Directory.converted, dir.offset_converted]
  have hcap := Nat.two_pow_pos (k : ℕ)
  have hfs : fssize k = 2 ^ (k : ℕ) * tpBsize := rfl
  have hlen := dir.length_blocks excludeIno junk
  obtain ⟨hd, t', hextract, hrest⟩ := extract_dirTape o fs dev ino h hkept hwithin next rest t k
  have hpos : 0 < dir.convertedSize excludeIno := by
    obtain ⟨-, -, -, -, -, -, -, -, -, hpos⟩ :=
      exists_dir_segments o fs dev excludeIno junk dir ino h hkept
    exact hpos
  by_cases hex : dir.Exchanged excludeIno t
  · have hsize : dir.sizeRead excludeIno t = dir.convertedSize excludeIno * 2 ^ 32 := if_pos hex
    have hmany : ((dir.blocks excludeIno junk).map some).length * tpBsize <
        dir.sizeRead excludeIno t := by
      rw [List.length_map, hlen, hsize]
      rw [howmany, tpBsize]
      omega
    have hbounded := bounded_iff_of_lt hcap hmany
    rw [run_map_some, hlen] at hbounded
    rw [List.length_map] at hmany
    have hmod : dir.sizeRead excludeIno t % 512 = 0 := by
      rw [hsize]
      omega
    constructor
    · rintro ⟨calls, hd', t'', hextract', -, hcalls, hfed, -⟩ -
      obtain ⟨rfl, -⟩ : _ = calls ∧ _ :=
        Prod.mk.inj (Option.some.inj (hextract.symm.trans hextract'))
      have hfull := hbounded.mp hcalls
      have hfills := (fills_callsFor hcap hmany hmod (by rwa [hlen])).2
      rw [dir.expand_blocks] at hfills
      -- `putdir` gets whole blocks of the tape
      have hwhole := congrArg List.length (hfills.symm.trans hfed)
      rw [length_read, length_read] at hwhole
      rw [hfs, ← hwhole]
      exact Nat.mul_dvd_mul_right (Nat.dvd_of_mod_eq_zero hfull) _
    · intro hdvd
      obtain ⟨j, hj⟩ := hdvd hex
      have hn : howmany (dir.convertedSize excludeIno) tpBsize = 2 ^ (k : ℕ) * j := by
        rw [hj, hfs, howmany, Nat.mul_right_comm, tpBsize]
        omega
      have hend : howmany (dir.convertedSize excludeIno) tpBsize * tpBsize =
          dir.convertedSize excludeIno := by
        rw [hn, hj, hfs, Nat.mul_right_comm]
      have hfull : howmany (dir.convertedSize excludeIno) tpBsize % 2 ^ (k : ℕ) = 0 := by
        rw [hn, Nat.mul_mod_right]
      obtain ⟨hwhole, hfed⟩ := fills_callsFor hcap hmany hmod (by rwa [hlen])
      rw [dir.expand_blocks, hend] at hfed
      refine ⟨_, hd, t', hextract, hrest, hbounded.mpr hfull, hfed, ?_⟩
      exact readStored_eq excludeIno junk dir ino s junk' later ddSize ddBuf hwhole
        (by rw [hfed, dir.offset_converted])
  · have hsize : dir.sizeRead excludeIno t = dir.convertedSize excludeIno := if_neg hex
    rw [hsize] at hextract
    obtain ⟨hcalls, hfed⟩ := whole_callsFor excludeIno junk dir k
    have hfills := fills_of_whole fun c hc => (hcalls c hc).2
    refine iff_of_true ⟨_, hd, t', hextract, hrest, fun c hc => (hcalls c hc).1, ?_, ?_⟩
      fun hexchanged => absurd hexchanged hex
    · rw [hfills, hfed]
    · refine readStored_eq excludeIno junk dir ino s junk' later ddSize ddBuf ?_ ?_
      · rw [hfills]
        exact fun c hc => (hcalls c hc).2
      · rw [hfills, hfed, dir.offset_converted]

end Trip

/-! ## Directories that do and do not come back -/

/-- A directory with one file. -/
def smallDirectory : Directory 17 where
  inode :=
    { dinode := { (default : Dinode) with diMode := 0o040755, diSize := 1024 }
      blocks := [(0, 100)]
      raw := [] }
  dirents := [⟨12, 2, [46]⟩, ⟨2, 2, [46, 46]⟩, ⟨13, 1, [97]⟩]
  mode := by decide
  valid := by
    simp only [List.forall_mem_cons, List.not_mem_nil, IsEmpty.forall_iff, implies_true, and_true]
    refine ⟨?_, ?_, ?_⟩ <;> constructor <;> simp [Ext2DirEntry.direct, dtOfExt2]
  inode_ne := by decide
  inode_lt := by decide
  size_dvd := by decide

/-- The entries of this directory come back when its file is excluded. -/
theorem smallDirectory_roundTrips :
    RoundTrips default smallFs default (· == 13) default smallDirectory 12 default
      ⟨⟨[], 0, fun _ => 0, 0, 0⟩, rfl, rfl⟩ default [] 0 default endHeader [] default 2 := by
  refine (roundTrips_iff default smallFs default 12 default ⟨⟨[], 0, fun _ => 0, 0, 0⟩, rfl, rfl⟩
    default [] 0 default (by decide) endHeader [] default 2).mpr ⟨?_, ?_⟩
  · refine (Bins.packs_iff fun r hr => ?_).mpr (by decide)
    exact (ConvertDir.reclens_range _ smallDirectory.names hr).2
  · rintro (hqcvt | hlarge)
    · exact absurd hqcvt (by decide)
    · exact absurd hlarge (by decide)

theorem wideEntries_ranges : ∀ e ∈ ConvertDir.wideEntries 64,
    (e.inode = 2 ∨ e.inode = 12) ∧ dtOfExt2 e.fileType < 2 ^ 8 ∧ ∀ c ∈ e.name, c ≠ 0 := by
  have hall : ((ConvertDir.wideEntries 64).all fun e => (e.inode == 2 || e.inode == 12) &&
      Nat.blt (dtOfExt2 e.fileType) (2 ^ 8) && e.name.all (· != 0)) = true := by
    decide +kernel
  intro e he
  have hranges := List.all_eq_true.mp hall e he
  simp only [Bool.and_eq_true, Bool.or_eq_true, beq_iff_eq, Nat.blt_eq, List.all_eq_true,
    bne_iff_ne, ne_eq] at hranges
  exact ⟨hranges.1.1, hranges.1.2, hranges.2⟩

theorem wideEntries_valid : ∀ e ∈ ConvertDir.wideEntries 64, e.direct.Valid := by
  intro e he
  obtain ⟨hino, htype, hname⟩ := wideEntries_ranges e he
  obtain ⟨hpos, hle⟩ := ConvertDir.forall_wideEntries e he
  refine ⟨?_, htype, hpos, Nat.lt_succ_of_le hle, hname⟩
  change e.inode < 2 ^ 32
  omega

theorem wideEntries_inode_ne : ∀ e ∈ ConvertDir.wideEntries 64, e.inode ≠ 0 := by
  intro e he
  obtain ⟨hino, -⟩ := wideEntries_ranges e he
  omega

theorem wideEntries_inode_lt : ∀ e ∈ ConvertDir.wideEntries 64, e.inode < 17 := by
  intro e he
  obtain ⟨hino, -⟩ := wideEntries_ranges e he
  omega

theorem ifmt_wideDirectory : ifmt 0o040755 = ifDir := by decide

theorem size_wideDirectory : tpBsize ∣ 32768 := by decide

/-- The directory that leaves the buffer of its conversion. -/
def wideDirectory : Directory 17 where
  inode :=
    { dinode := { (default : Dinode) with diMode := 0o040755, diSize := 32768 }
      blocks := [(0, 100)]
      raw := [] }
  dirents := ConvertDir.wideEntries 64
  mode := ifmt_wideDirectory
  valid := wideEntries_valid
  inode_ne := wideEntries_inode_ne
  inode_lt := wideEntries_inode_lt
  size_dvd := size_wideDirectory

/-- Nor does it come back. -/
theorem not_roundTrips : ¬∀ (maxino : ℕ) (o : DumpOptions) (fs : Ext2Fs) (dev : ℕ → Block)
    (excludeIno : ℕ → Bool) (junk : Mem) (dir : Directory maxino) (ino : ℕ) (h : Spcl)
    (s : { s : DirFile // s.dirloc = 0 ∧ s.seekpt = s.df.length }) (junk' : Mem)
    (later : List UInt8) (ddSize : ℤ) (ddBuf : Mem) (next : { n : Spcl // Follows h.cDate n })
    (rest : List Rec) (t : QuadTape) (k : Fin 7), kept excludeIno dir.dirents ≠ [] →
    RoundTrips o fs dev excludeIno junk dir ino h s junk' later ddSize ddBuf next rest t k := by
  intro hall
  obtain ⟨hwithin, -⟩ := hall 17 default ConvertDir.wideFs default (fun _ => false) default
    wideDirectory 13 default ⟨⟨[], 0, fun _ => 0, 0, 0⟩, rfl, rfl⟩ default [] 0 default endHeader []
    default 2 (by decide)
  exact ConvertDir.not_within_wideEntries default hwithin

end DumpRestore
