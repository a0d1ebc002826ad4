import DumpRestore.Dump.FileRecords
import DumpRestore.Restore.FileStream

/-!
# The data of a file, through dump and restore

The records that `dumpino` writes for a regular file, followed by the header of another object, are
given to `getfile`. It stops at that header in every case, and it delivers the file except where
the file ends inside a hole and the buffer is not empty at that hole: there the last flush, whose
length is computed from the size of the hole, is too short.
-/

namespace DumpRestore

/-! ## From emitted segments to a tape -/

theorem Emits.recs_eq {d d' : Spcl × List Rec} {gs : List Segment} (h : Emits d gs d') :
    d'.2 = d.2 ++ gs.flatMap Segment.recs := by
  induction h with
  | nil => simp
  | cons hg _ ih => rw [ih, hg.recs, List.flatMap_cons, List.append_assoc]

theorem Emits.continues {d d' : Spcl × List Rec} {gs : List Segment} {date : ℤ}
    (h : Emits d gs d') (htype : d.1.cType = .addr) (hdate : d.1.cDate = date) :
    ∀ g ∈ gs, g.Continues date := by
  induction h with
  | nil => simp
  | cons hg _ ih =>
    intro g' hg'
    rcases List.mem_cons.mp hg' with rfl | hg'
    · exact ⟨hg.accepted, hg.type.trans htype, hg.date.trans hdate⟩
    · exact ih hg.type_after (hg.date_after.trans hdate) g' hg'

/-- The first segment of a file and those that continue it. -/
theorem Emits.exists_first {d d' : Spcl × List Rec} {gs : List Segment} (h : Emits d gs d')
    (hne : gs ≠ []) :
    ∃ g gs', gs = g :: gs' ∧ g.header.accepted = true ∧ g.header.cType = d.1.cType ∧
      g.header.cDate = d.1.cDate ∧ g.header.cDinode = d.1.cDinode ∧
      ∀ g' ∈ gs', g'.Continues d.1.cDate := by
  cases h with
  | nil => exact absurd rfl hne
  | cons hg hgs =>
    exact ⟨_, _, rfl, hg.accepted, hg.type, hg.date, hg.dinode,
      hgs.continues hg.type_after hg.date_after⟩

/-- A file on tape as segments, read by `extract`. -/
theorem extract_segments {cap size : ℕ} {g : Segment} {gs : List Segment} {next : Spcl}
    {rest : List Rec} {t : Tape} (hacc : g.header.accepted = true) (htype : g.header.cType = .inode)
    (hdi : g.header.cDinode.diSize = size) (hsize : size < 2 ^ 63)
    (hcont : ∀ g' ∈ gs, g'.Continues t.dumpdate) (hnext : Follows t.dumpdate next)
    (hpos : g.blocks ≠ [] → 0 < size)
    (hlast : lastIndex size ≤ ((g :: gs).flatMap Segment.blocks).length)
    (hrecs : t.recs = (g :: gs).flatMap Segment.recs ++ .spcl next :: rest) :
    ∃ t', extract (cap * tpBsize) t =
      some (((((g :: gs).flatMap Segment.blocks).take (lastIndex size)).foldl
          (FileState.block (cap * tpBsize)) ⟨[], size, false, []⟩).finish size,
        next.patch, t') ∧ t'.recs = rest := by
  have hpatch : g.header.patch = g.header := by rw [Spcl.patch, htype]
  have hmagic : g.header.cMagic = nfsMagic := by
    rw [Spcl.accepted, Bool.and_eq_true, decide_eq_true_iff] at hacc
    exact hacc.1
  have hfirst : t.recs = .spcl g.header ::
      (dataRecs g.blocks ++ (gs.flatMap Segment.recs ++ .spcl next :: rest)) := by
    rw [hrecs]
    simp [Segment.recs]
  obtain ⟨t', hget, hrest⟩ := getfile_segments (t := { t.at 1
      (dataRecs g.blocks ++ (gs.flatMap Segment.recs ++ .spcl next :: rest)) with
        readmapflag := g.header.isLongMap })
    htype hmagic hdi hsize g.count g.addr hpos hlast (by rw [Spcl.isLongMap, htype]; rfl) hcont
    hnext rfl
  refine ⟨t', ?_, hrest⟩
  rw [extract, TapeSource.gethead_tape, gethead_at hacc hfirst]
  simp only [Option.bind_eq_bind, Option.bind_some, hpatch]
  exact hget

/-! ## The trip -/

/-- The buffer sizes that restore admits for `fssize`: powers of two from `TP_BSIZE` to
`MAXBSIZE`. -/
def fssize (k : Fin 7) : ℕ := 2 ^ (k : ℕ) * tpBsize

/-- The records that `dumpino` writes for a file, when the global header was `h` before. -/
def fileRecs (o : DumpOptions) (fs : Ext2Fs) (dev : ℕ → Block) (inode : Inode) (ino : ℕ)
    (h : Spcl) : List Rec :=
  (dumpinoBody (recorder o fs dev oneVolume) fs inode ino false (h, [])).2.2

/-- A tape that holds the records of a file, then `next`, then `rest`. -/
def fileTape (o : DumpOptions) (fs : Ext2Fs) (dev : ℕ → Block) (inode : Inode) (ino : ℕ)
    (h next : Spcl) (rest : List Rec) (t : Tape) : Tape :=
  { t with
    recs := fileRecs o fs dev inode ino h ++ .spcl next :: rest
    dumpdate := h.cDate }

section Trip

variable {fs : Ext2Fs} (o : DumpOptions) (dev : ℕ → Block) (file : RegularFile fs) (ino : ℕ)
  (h : Spcl) (next : { n : Spcl // Follows h.cDate n }) (rest : List Rec) (t : Tape) (k : Fin 7)

/-- The blocks of a file that hold its contents. -/
def RegularFile.tpBlocks : List (Option Block) :=
  blocksFrom fs dev file.inode.bmap 0 (howmany file.size tpBsize)

/-- The file arrives: `getfile` delivers its contents and stops at the next header. -/
def Arrives : Prop :=
  ∃ calls t', extract (fssize k) (fileTape o fs dev file.inode ino h next rest t) =
      some (calls, next.val.patch, t') ∧
    delivered calls = contents fs dev file.inode.bmap file.size ∧ t'.recs = rest

theorem fileRecs_of_size_pos (hsize : file.size ≠ 0) :
    fileRecs o fs dev file.inode ino h =
      (dumpblocks (recorder o fs dev oneVolume) fs file.inode.blocks file.size ino
        (inodeHeader file.inode.dinode file.size h, [])).2 := by
  have hsize' : file.inode.dinode.iSize ≠ 0 := hsize
  simp [fileRecs, dumpinoBody, file.mode, hsize', ifReg, ifDir, ifLnk, modifySpcl,
    RegularFile.size]

theorem fileRecs_of_size_zero (hsize : file.size = 0) :
    fileRecs o fs dev file.inode ino h =
      [.spcl (sealHeader ino (inodeHeader file.inode.dinode file.size h))] := by
  have hsize' : file.inode.dinode.iSize = 0 := hsize
  simp [fileRecs, dumpinoBody, file.mode, hsize', ifReg, ifDir, ifLnk, modifySpcl,
    RegularFile.size, writeheader_oneVolume]

/-- The records of a file are a header of type `TS_INODE` with blocks, and segments that continue
it. Together they have the blocks that hold the contents. -/
theorem exists_segments :
    ∃ g gs n, fileRecs o fs dev file.inode ino h = (g :: gs).flatMap Segment.recs ∧
      g.header.accepted = true ∧ g.header.cType = .inode ∧ g.header.cDate = h.cDate ∧
      g.header.cDinode.diSize = file.size ∧ (∀ g' ∈ gs, g'.Continues h.cDate) ∧
      (g :: gs).flatMap Segment.blocks = blocksFrom fs dev file.inode.bmap 0 n ∧
      howmany file.size tpBsize ≤ n ∧ (g.blocks ≠ [] → 0 < file.size) := by
  by_cases hsize : file.size = 0
  · refine ⟨⟨sealHeader ino (inodeHeader file.inode.dinode file.size h), [], rfl, ?_⟩, [], 0, ?_,
      accepted_sealHeader .., rfl, rfl, rfl, by simp, by simp [blocksFrom], ?_, by simp⟩
    · intro i hi
      exact absurd hi (Nat.not_lt_zero _)
    · rw [fileRecs_of_size_zero _ _ _ _ _ hsize]
      simp [Segment.recs]
    · rw [hsize]
      exact le_rfl
  · obtain ⟨gs, n, hgs, hblocks, hle⟩ := file.emits_dumpblocks dev ino (o := o)
      (d := (inodeHeader file.inode.dinode file.size h, []))
    have hn : n ≠ 0 := by
      rintro rfl
      omega
    have hne : gs ≠ [] := by
      rintro rfl
      have hlen := congrArg List.length hblocks
      rw [length_blocksFrom, List.flatMap_nil, List.length_nil] at hlen
      exact (Nat.mul_pos (Nat.pos_of_ne_zero hn) fs.tbperdb_pos).ne hlen
    obtain ⟨g, gs', rfl, hacc, htype, hdate, hdinode, hcont⟩ := hgs.exists_first hne
    refine ⟨g, gs', n * fs.tbperdb, ?_, hacc, htype, hdate, ?_, hcont, hblocks, ?_, fun _ => ?_⟩
    · rw [fileRecs_of_size_pos _ _ _ _ _ hsize, hgs.recs_eq, List.nil_append]
    · rw [hdinode]
      rfl
    · rwa [howmany_le_iff (by decide), Nat.mul_assoc, ← fs.blocksize_eq]
    · exact Nat.pos_of_ne_zero hsize

/-- What `getfile` does with the records of a file. -/
theorem extract_fileTape :
    ∃ calls t', extract (fssize k) (fileTape o fs dev file.inode ino h next rest t) =
        some (calls, next.val.patch, t') ∧
      (delivered calls = contents fs dev file.inode.bmap file.size ↔
        ¬ LosesTail (2 ^ (k : ℕ)) file.size (file.tpBlocks dev)) ∧ t'.recs = rest := by
  obtain ⟨g, gs, n, hrecs, hacc, htype, hdate, hsize, hcont, hblocks, hn, hpos⟩ :=
    exists_segments o dev file ino h
  have hlast : lastIndex file.size = howmany file.size tpBsize := by
    rw [lastIndex, Int.toNat_natCast]
  have htake : (blocksFrom fs dev file.inode.bmap 0 n).take (lastIndex file.size) =
      file.tpBlocks dev := by
    rw [hlast, take_blocksFrom hn, RegularFile.tpBlocks]
  have hself : (file.tpBlocks dev).take (lastIndex file.size) = file.tpBlocks dev :=
    List.take_of_length_le (by rw [RegularFile.tpBlocks, length_blocksFrom, hlast])
  obtain ⟨t', hget, hrest⟩ := extract_segments
    (t := fileTape o fs dev file.inode ino h next rest t) hacc htype hsize file.size_lt hcont
    next.property hpos (by rw [hblocks, length_blocksFrom, hlast]; exact hn)
    (congrArg (· ++ _) hrecs)
  have hlen : lastIndex file.size ≤ (file.tpBlocks dev).length := by
    rw [RegularFile.tpBlocks, length_blocksFrom, hlast]
  have hiff := delivered_eq_iff (Nat.two_pow_pos (k : ℕ)) hlen
  rw [hself] at hiff
  rw [hblocks, htake] at hget
  exact ⟨_, t', hget, hiff, hrest⟩

/-- **The round trip of file data**, for every regular file, every block size and every buffer
size: the file arrives unless it ends inside a hole that follows blocks still in the buffer. -/
theorem arrives_iff :
    Arrives o dev file ino h next rest t k ↔
      ¬ LosesTail (2 ^ (k : ℕ)) file.size (file.tpBlocks dev) := by
  obtain ⟨calls, t', hget, hiff, hrest⟩ := extract_fileTape o dev file ino h next rest t k
  constructor
  · rintro ⟨calls', t'', hget', hdelivered, -⟩
    obtain ⟨rfl, -⟩ : calls = calls' ∧ t' = t'' := by simpa using hget.symm.trans hget'
    exact hiff.mp hdelivered
  · intro hkeeps
    exact ⟨calls, t', hget, hiff.mpr hkeeps, hrest⟩

end Trip

/-! ## A file that does not arrive -/

/-- A file of 1524 bytes whose first block is allocated and whose second one is a hole. -/
def holeAtEnd : RegularFile smallFs where
  inode :=
    { dinode := { (default : Dinode) with diMode := 0o100644, diSize := 1524 }
      blocks := [(0, 100)]
      raw := [] }
  mode := by decide
  ascending := by simp
  allocated := by simp
  fits := by simp
  size_fits := by decide

/-- The header `TS_END` after the file. -/
def endHeader : { n : Spcl // Follows (default : Spcl).cDate n } :=
  ⟨sealHeader 2 { (default : Spcl) with cType := .end_ },
    ⟨accepted_sealHeader .., by decide, rfl⟩⟩

/-- With a buffer of 4096 bytes, the first 1024 bytes of this file are cut to 500. -/
theorem not_arrives_holeAtEnd :
    ¬ Arrives default default holeAtEnd 12 default endHeader [] default 2 := by
  obtain ⟨calls, t', hget, hiff, -⟩ :=
    extract_fileTape default default holeAtEnd 12 default endHeader [] default 2
  rintro ⟨calls', t'', hget', hdelivered, -⟩
  obtain ⟨rfl, -⟩ : calls = calls' ∧ t' = t'' := by simpa using hget.symm.trans hget'
  refine hiff.mp hdelivered ⟨by decide, rfl, ?_⟩
  have hrun : Sparse.run ((holeAtEnd.tpBlocks default).take (holeAtEnd.size / tpBsize)) = 1 := rfl
  rw [hrun]
  decide

end DumpRestore
