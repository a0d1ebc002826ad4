import DumpRestore.Dump.Producer
import DumpRestore.Protocol.Segment

/-!
# The records of a file

What `dumpblocks` hands to the tape layer for a file: segments whose blocks, put together, are the
blocks of the file in order, the holes at its end included (`emits_dumpblocks`). The segments come
from `blksout`, which is called for each full buffer of `dumponeblock` and for the last one.
-/

namespace DumpRestore

/-! ## Contents of a file -/

/-- The disk block with logical number `i`, zero if it is not allocated. -/
def Inode.bmap (inode : Inode) (i : ℕ) : ℕ :=
  ((inode.blocks.find? fun blk => blk.1 == i).map Prod.snd).getD 0

/-- The `j`-th block of `TP_BSIZE` bytes of a file with the block map `bmap`. -/
def fileBlock (fs : Ext2Fs) (dev : ℕ → Block) (bmap : ℕ → ℕ) (j : ℕ) : Option Block :=
  if bmap (j / fs.tbperdb) = 0 then none
  else some (dev (fs.fsbtodb (bmap (j / fs.tbperdb)) + j % fs.tbperdb * (tpBsize / devBsize)))

/-- Blocks `a` to `a + n` of a file. -/
def blocksFrom (fs : Ext2Fs) (dev : ℕ → Block) (bmap : ℕ → ℕ) (a n : ℕ) : List (Option Block) :=
  (List.range' a n).map (fileBlock fs dev bmap)

/-- The contents of a file: its first bytes, holes read as zeros. -/
def contents (fs : Ext2Fs) (dev : ℕ → Block) (bmap : ℕ → ℕ) (size : ℕ) : List UInt8 :=
  (expand (blocksFrom fs dev bmap 0 (howmany size tpBsize))).take size

section Blocks

variable {fs : Ext2Fs} {dev : ℕ → Block} {bmap : ℕ → ℕ}

@[simp] theorem length_blocksFrom (a n : ℕ) : (blocksFrom fs dev bmap a n).length = n := by
  simp [blocksFrom]

theorem getElem_blocksFrom (a n k : ℕ) (hk : k < (blocksFrom fs dev bmap a n).length) :
    (blocksFrom fs dev bmap a n)[k] = fileBlock fs dev bmap (a + k) := by
  simp [blocksFrom]

theorem blocksFrom_append (fs : Ext2Fs) (dev : ℕ → Block) (bmap : ℕ → ℕ) (a m n : ℕ) :
    blocksFrom fs dev bmap a m ++ blocksFrom fs dev bmap (a + m) n =
      blocksFrom fs dev bmap a (m + n) := by
  rw [blocksFrom, blocksFrom, blocksFrom, ← List.map_append, List.range'_append_1]

theorem take_blocksFrom {a m n : ℕ} (h : m ≤ n) :
    (blocksFrom fs dev bmap a n).take m = blocksFrom fs dev bmap a m := by
  rw [← Nat.add_sub_of_le h, ← blocksFrom_append, List.take_left' (length_blocksFrom ..)]

/-- The blocks of `TP_BSIZE` bytes in one disk block. -/
theorem blocksFrom_disk_block (q : ℕ) :
    blocksFrom fs dev bmap (q * fs.tbperdb) fs.tbperdb =
      if bmap q = 0 then List.replicate fs.tbperdb none
      else (List.range fs.tbperdb).map fun r =>
        some (dev (fs.fsbtodb (bmap q) + r * (tpBsize / devBsize))) := by
  have hdiv : ∀ r ∈ List.range fs.tbperdb,
      fileBlock fs dev bmap (q * fs.tbperdb + r) =
        if bmap q = 0 then none
        else some (dev (fs.fsbtodb (bmap q) + r * (tpBsize / devBsize))) := by
    intro r hr
    rw [List.mem_range] at hr
    rw [fileBlock, Nat.mul_comm, Nat.mul_add_div fs.tbperdb_pos, Nat.div_eq_of_lt hr, Nat.add_zero,
      Nat.mul_add_mod, Nat.mod_eq_of_lt hr]
  rw [blocksFrom, List.range'_eq_map_range, List.map_map]
  split
  case isTrue hzero =>
    rw [List.eq_replicate_iff]
    refine ⟨by simp, fun b hb => ?_⟩
    obtain ⟨r, hr, rfl⟩ := List.mem_map.mp hb
    rw [Function.comp_apply, hdiv r hr, if_pos hzero]
  case isFalse hne =>
    refine List.map_congr_left fun r hr => ?_
    rw [Function.comp_apply, hdiv r hr, if_neg hne]

end Blocks

/-! ## One header and its data -/

theorem accepted_sealHeader (ino : ℕ) (h : Spcl) : (sealHeader ino h).accepted = true := by
  rw [Spcl.accepted, Bool.and_eq_true]
  exact ⟨decide_eq_true rfl, checksum_mkchecksum ..⟩

/-- A producer on the recording layer that wrote the segment `g`. -/
structure EmitsOne (d : Spcl × List Rec) (g : Segment) (d' : Spcl × List Rec) : Prop where
  recs : d'.2 = d.2 ++ g.recs
  accepted : g.header.accepted = true
  type : g.header.cType = d.1.cType
  date : g.header.cDate = d.1.cDate
  dinode : g.header.cDinode = d.1.cDinode
  type_after : d'.1.cType = .addr
  date_after : d'.1.cDate = d.1.cDate
  dinode_after : d'.1.cDinode = d.1.cDinode

/-- A producer on the recording layer that wrote the segments `gs`. -/
inductive Emits : Spcl × List Rec → List Segment → Spcl × List Rec → Prop
  | nil (d : Spcl × List Rec) : Emits d [] d
  | cons {d d' d'' : Spcl × List Rec} {g : Segment} {gs : List Segment} :
      EmitsOne d g d' → Emits d' gs d'' → Emits d (g :: gs) d''

theorem Emits.trans {d d' d'' : Spcl × List Rec} {gs gs' : List Segment} (h : Emits d gs d')
    (h' : Emits d' gs' d'') : Emits d (gs ++ gs') d'' := by
  induction h with
  | nil => exact h'
  | cons hg _ ih => exact .cons hg (ih h')

section Recorder

variable {o : DumpOptions} {fs : Ext2Fs} {dev : ℕ → Block} {bmap : ℕ → ℕ} {ino : ℕ}
  {d : Spcl × List Rec}

theorem writerec_oneVolume (r : Rec) :
    (recorder o fs dev oneVolume).writerec r d =
      ({ d.1 with cTapea := d.1.cTapea + 1 }, d.2 ++ [r]) := rfl

theorem writeheader_oneVolume :
    writeheader (recorder o fs dev oneVolume) ino d =
      ({ sealHeader ino d.1 with cTapea := d.1.cTapea + 1 },
        d.2 ++ [.spcl (sealHeader ino d.1)]) := rfl

theorem dumpblock_oneVolume (b size : ℕ) :
    (recorder o fs dev oneVolume).dumpblock b size d =
      ({ d.1 with cTapea := d.1.cTapea + size / tpBsize },
        d.2 ++ (List.range (size / tpBsize)).map fun k =>
          .data (dev (fs.fsbtodb b + k * (tpBsize / devBsize)))) := by
  simp only [recorder, oneVolume]
  induction size / tpBsize with
  | zero => simp
  | succ n ih =>
    simp only [List.range_succ, List.foldl_append, List.foldl_cons, List.foldl_nil, ih,
      List.map_append, List.map_cons, List.map_nil, List.append_assoc, Nat.add_assoc]

/-- The data of one disk block. -/
theorem blksoutData_oneVolume (count : ℕ) {blkp : List ℕ} {i k base : ℕ}
    (hblk : blkp.getD (i / fs.tbperdb + k) 0 = bmap (base + i / fs.tbperdb + k))
    (hfits : i + k * fs.tbperdb + fs.tbperdb ≤ count) :
    ∃ n, blksoutData (recorder o fs dev oneVolume) fs blkp i count k d =
      ({ d.1 with cTapea := n }, d.2 ++ dataRecs
        (blocksFrom fs dev bmap ((base + i / fs.tbperdb + k) * fs.tbperdb) fs.tbperdb)) := by
  rw [blocksFrom_disk_block, ← hblk, blksoutData]
  split
  case isTrue hne =>
    refine ⟨d.1.cTapea + fs.tbperdb, ?_⟩
    rw [dumpblock_oneVolume, fs.blocksize_eq, Nat.mul_div_cancel _ (by decide : 0 < tpBsize)]
    simp [dataRecs, List.filterMap_map]
  case isFalse hzero =>
    refine ⟨d.1.cTapea, ?_⟩
    rw [if_pos (not_not.mp hzero)]
    simp [dataRecs]

/-- The data that one header announces. -/
theorem foldl_blksoutData_oneVolume {blkp : List ℕ} {i count base m : ℕ}
    (hblk : ∀ k < m, blkp.getD (i / fs.tbperdb + k) 0 = bmap (base + i / fs.tbperdb + k))
    (hfits : i + m * fs.tbperdb ≤ count) :
    ∃ n, (List.range m).foldl
        (fun d k => blksoutData (recorder o fs dev oneVolume) fs blkp i count k d) d =
      ({ d.1 with cTapea := n }, d.2 ++ dataRecs
        (blocksFrom fs dev bmap ((base + i / fs.tbperdb) * fs.tbperdb) (m * fs.tbperdb))) := by
  induction m with
  | zero => exact ⟨d.1.cTapea, by simp [blocksFrom]⟩
  | succ m ih =>
    obtain ⟨n, ih⟩ := ih (fun k hk => hblk k (by omega)) (by rw [Nat.succ_mul] at hfits; omega)
    obtain ⟨n', hlast⟩ := blksoutData_oneVolume (o := o) count
      (d := ({ d.1 with cTapea := n }, d.2 ++ dataRecs
        (blocksFrom fs dev bmap ((base + i / fs.tbperdb) * fs.tbperdb) (m * fs.tbperdb))))
      (hblk m (Nat.lt_succ_self m)) (by rw [Nat.succ_mul] at hfits; omega)
    refine ⟨n', ?_⟩
    rw [List.range_succ, List.foldl_append, ih, List.foldl_cons, List.foldl_nil, hlast,
      List.append_assoc, ← dataRecs_append, Nat.add_mul _ m, blocksFrom_append, Nat.succ_mul]

theorem isSome_fileBlock (j : ℕ) :
    (fileBlock fs dev bmap j).isSome ↔ bmap (j / fs.tbperdb) ≠ 0 := by
  rw [fileBlock]
  split <;> simp_all

theorem getD_map_range' {blkp : List ℕ} {base j : ℕ}
    (hblkp : blkp = (List.range' base blkp.length).map bmap) (hj : j < blkp.length) :
    blkp.getD j 0 = bmap (base + j) := by
  rw [hblkp, List.getD_eq_getElem?_getD, List.getElem?_map,
    List.getElem?_range' (by simpa using hj)]
  simp

/-- The `c_addr` that `blksout` computes is that of the blocks. -/
theorem addrMap_blksoutSpcl {blkp : List ℕ} {base i n : ℕ} (h : Spcl)
    (hblkp : blkp = (List.range' base blkp.length).map bmap)
    (hn : i + n ≤ blkp.length * fs.tbperdb) :
    AddrMap (blksoutSpcl fs blkp i (i + n) h).cAddr 0
      (blocksFrom fs dev bmap (base * fs.tbperdb + i) n) := by
  intro k hk
  rw [getElem_blocksFrom, isSome_fileBlock]
  rw [length_blocksFrom] at hk
  have hidx : (i + k) / fs.tbperdb < blkp.length :=
    Nat.div_lt_of_lt_mul (by rw [Nat.mul_comm]; omega)
  rw [Nat.add_assoc, Nat.mul_comm base, Nat.mul_add_div fs.tbperdb_pos,
    ← getD_map_range' hblkp hidx, blksoutSpcl, Nat.zero_add, Nat.add_sub_cancel_left]
  simp only [hk, if_true]
  split
  case isTrue hne => exact iff_of_true one_ne_zero hne
  case isFalse hzero => exact iff_of_false (not_not_intro rfl) hzero

theorem howmany_le_iff {x y n : ℕ} (hy : 0 < y) : howmany x y ≤ n ↔ x ≤ n * y := by
  rw [howmany, Nat.div_le_iff_le_mul_add_pred hy, Nat.mul_comm]
  omega

theorem howmany_mul (n w : ℕ) (hw : 0 < w) : howmany (n * w) w = n := by
  rw [howmany, Nat.add_comm, Nat.add_mul_div_right _ _ hw, Nat.div_eq_of_lt (by omega),
    Nat.zero_add]

/-- One turn of the outer loop of `blksout`. -/
theorem emitsOne_blksoutHeader {blkp : List ℕ} {base c : ℕ}
    (hblkp : blkp = (List.range' base blkp.length).map bmap)
    (hc : c * tpNindir < blkp.length * fs.tbperdb) :
    ∃ g, EmitsOne d g (blksoutHeader (recorder o fs dev oneVolume) fs blkp
        (blkp.length * fs.tbperdb) ino (c * tpNindir) d) ∧
      g.blocks = blocksFrom fs dev bmap (base * fs.tbperdb + c * tpNindir)
        (min tpNindir (blkp.length * fs.tbperdb - c * tpNindir)) := by
  obtain ⟨q, hq⟩ := fs.tbperdb_dvd
  -- The header covers `m` disk blocks, from the one with index `c * q` on.
  have hdiv : c * tpNindir / fs.tbperdb = c * q := by
    rw [hq, Nat.mul_left_comm, Nat.mul_div_cancel_left _ fs.tbperdb_pos]
  have hmul : c * tpNindir = c * q * fs.tbperdb := by
    rw [hq]
    ring
  obtain ⟨m, hm, hmin⟩ : ∃ m, c * q + m ≤ blkp.length ∧
      min tpNindir (blkp.length * fs.tbperdb - c * tpNindir) = m * fs.tbperdb := by
    refine ⟨min q (blkp.length - c * q), ?_, ?_⟩
    · have : c * q < blkp.length := by
        rw [hmul] at hc
        exact lt_of_mul_lt_mul_right hc (Nat.zero_le _)
      omega
    · rw [hmul, ← Nat.sub_mul, hq, Nat.mul_comm fs.tbperdb q, Nat.mul_min_mul_right]
  have hcount : blksoutCount (blkp.length * fs.tbperdb) (c * tpNindir) =
      c * tpNindir + m * fs.tbperdb := by
    rw [blksoutCount, ← hmin]
    split <;> omega
  have hfits : c * tpNindir + m * fs.tbperdb ≤ blkp.length * fs.tbperdb := by
    rw [hmul, ← Nat.add_mul]
    exact Nat.mul_le_mul_right _ hm
  have hsub : c * tpNindir + m * fs.tbperdb - c * tpNindir = m * fs.tbperdb :=
    Nat.add_sub_cancel_left ..
  have hhowmany : howmany (m * fs.tbperdb) fs.tbperdb = m := howmany_mul _ _ fs.tbperdb_pos
  have hblocks : (base + c * tpNindir / fs.tbperdb) * fs.tbperdb =
      base * fs.tbperdb + c * tpNindir := by
    rw [hdiv, Nat.add_mul, ← hmul]
  let h := blksoutSpcl fs blkp (c * tpNindir) (c * tpNindir + m * fs.tbperdb) d.1
  have haddr : AddrMap (sealHeader ino h).cAddr 0
      (blocksFrom fs dev bmap (base * fs.tbperdb + c * tpNindir) (m * fs.tbperdb)) :=
    addrMap_blksoutSpcl d.1 hblkp hfits
  let g : Segment := ⟨sealHeader ino h, _, by rw [length_blocksFrom, ← hsub]; rfl, haddr⟩
  obtain ⟨n, hdata⟩ := foldl_blksoutData_oneVolume (o := o) (m := m)
    (d := writeheader (recorder o fs dev oneVolume) ino (h, d.2))
    (i := c * tpNindir)
    (fun k hk => by rw [hdiv, getD_map_range' hblkp (by omega), Nat.add_assoc]) le_rfl
  have hturn :
      blksoutHeader (recorder o fs dev oneVolume) fs blkp (blkp.length * fs.tbperdb) ino
        (c * tpNindir) d =
      ({ sealHeader ino h with cTapea := n, cType := .addr }, d.2 ++ g.recs) := by
    simp only [blksoutHeader, hcount, hsub, hhowmany]
    rw [show modifySpcl _ d = (h, d.2) from rfl, hdata, hblocks]
    simp [modifySpcl, writeheader_oneVolume, g, Segment.recs]
  rw [hturn, hmin]
  exact ⟨g, ⟨rfl, accepted_sealHeader .., rfl, rfl, rfl, rfl, rfl, rfl⟩, rfl⟩

/-- The headers of one call of `blksout`, up to a number of turns. -/
theorem emits_foldl_blksoutHeader {blkp : List ℕ} {base n : ℕ}
    (hblkp : blkp = (List.range' base blkp.length).map bmap)
    (hn : n ≤ howmany (blkp.length * fs.tbperdb) tpNindir) :
    ∃ gs, Emits d gs ((List.range n).foldl
        (fun d c => blksoutHeader (recorder o fs dev oneVolume) fs blkp
          (blkp.length * fs.tbperdb) ino (c * tpNindir) d) d) ∧
      gs.flatMap Segment.blocks = blocksFrom fs dev bmap (base * fs.tbperdb)
        (min (n * tpNindir) (blkp.length * fs.tbperdb)) := by
  induction n with
  | zero => exact ⟨[], .nil d, by simp [blocksFrom]⟩
  | succ n ih =>
    obtain ⟨gs, hgs, hblocks⟩ := ih (by omega)
    have hlt : n * tpNindir < blkp.length * fs.tbperdb := by
      rw [howmany, tpNindir, tpBsize] at *
      omega
    obtain ⟨g, hg, hgblocks⟩ := emitsOne_blksoutHeader (o := o)
      (d := (List.range n).foldl
        (fun d c => blksoutHeader (recorder o fs dev oneVolume) fs blkp
          (blkp.length * fs.tbperdb) ino (c * tpNindir) d) d) hblkp hlt
    refine ⟨gs ++ [g], ?_, ?_⟩
    · rw [List.range_succ, List.foldl_append, List.foldl_cons, List.foldl_nil]
      exact hgs.trans (.cons hg (.nil _))
    · rw [List.flatMap_append, List.flatMap_cons, List.flatMap_nil, List.append_nil, hblocks,
        hgblocks, Nat.min_eq_left hlt.le, blocksFrom_append]
      congr 1
      rw [Nat.succ_mul]
      omega

/-- **`blksout` writes the blocks of its buffer.** -/
theorem emits_blksout {blkp : List ℕ} {base : ℕ}
    (hblkp : blkp = (List.range' base blkp.length).map bmap) :
    ∃ gs, Emits d gs (blksout (recorder o fs dev oneVolume) fs blkp ino d) ∧
      gs.flatMap Segment.blocks =
        blocksFrom fs dev bmap (base * fs.tbperdb) (blkp.length * fs.tbperdb) := by
  have hblks : howmany (blkp.length * fs.blocksize) tpBsize = blkp.length * fs.tbperdb := by
    rw [fs.blocksize_eq, ← Nat.mul_assoc, howmany_mul _ _ (by decide)]
  obtain ⟨gs, hgs, hblocks⟩ := emits_foldl_blksoutHeader (o := o) (d := d)
    hblkp le_rfl
  refine ⟨gs, by rwa [blksout, hblks], ?_⟩
  rw [hblocks, Nat.min_eq_right]
  rw [howmany, tpNindir, tpBsize]
  omega

/-! ## The buffer of dumponeblock -/

/-- After the first `n` disk blocks of a file: those that do not fit whole buffers are in the
buffer, the others are on tape. -/
def Collected (fs : Ext2Fs) (dev : ℕ → Block) (bmap : ℕ → ℕ) (d : Spcl × List Rec) (n : ℕ)
    (p : BlockContext × (Spcl × List Rec)) : Prop :=
  ∃ gs k, Emits d gs p.2 ∧ gs.flatMap Segment.blocks = blocksFrom fs dev bmap 0 (k * fs.tbperdb) ∧
    k ≤ n ∧ p.1.buf = (List.range' k (n - k)).map bmap

theorem collected_nil (nextBlock : ℤ) : Collected fs dev bmap d 0 (⟨[], nextBlock⟩, d) :=
  ⟨[], 0, .nil d, by simp [blocksFrom], le_rfl, rfl⟩

theorem Collected.pushBlock (ino : ℕ) {n : ℕ} {p : BlockContext × (Spcl × List Rec)}
    (hp : Collected fs dev bmap d n p) :
    Collected fs dev bmap d (n + 1)
      (pushBlock (recorder o fs dev oneVolume) fs ino (bmap n) p) := by
  obtain ⟨gs, k, hgs, hblocks, hk, hbuf⟩ := hp
  have hpush : p.1.buf ++ [bmap n] = (List.range' k (n + 1 - k)).map bmap := by
    rw [hbuf, show n + 1 - k = (n - k) + 1 by omega, List.range'_1_concat, List.map_append,
      List.map_singleton, show k + (n - k) = n by omega]
  have hlen : (p.1.buf ++ [bmap n]).length = n + 1 - k := by simp [hpush]
  rw [DumpRestore.pushBlock]
  simp only [hlen]
  split
  case isTrue hfull =>
    obtain ⟨gs', hgs', hblocks'⟩ := emits_blksout (o := o) (d := p.2) (by rw [hlen, hpush])
    refine ⟨gs ++ gs', n + 1, hgs.trans hgs', ?_, le_rfl, by simp⟩
    rw [List.flatMap_append, hblocks, hblocks', hlen]
    have := blocksFrom_append fs dev bmap 0 (k * fs.tbperdb)
      ((n + 1 - k) * fs.tbperdb)
    rw [Nat.zero_add] at this
    rw [this, ← Nat.add_mul, show k + (n + 1 - k) = n + 1 by omega]
  case isFalse =>
    exact ⟨gs, k, hgs, hblocks, by omega, hpush⟩

theorem Collected.holes (ino : ℕ) {n c : ℕ} {p : BlockContext × (Spcl × List Rec)}
    (hp : Collected fs dev bmap d n p) (hzero : ∀ i, n ≤ i → i < n + c → bmap i = 0) :
    Collected fs dev bmap d (n + c) ((List.range c).foldl
      (fun p _ => DumpRestore.pushBlock (recorder o fs dev oneVolume) fs ino 0 p) p) := by
  induction c with
  | zero => exact hp
  | succ c ih =>
    have hlast := (ih fun i hi hic => hzero i hi (by omega)).pushBlock (o := o) ino
    rw [hzero (n + c) (by omega) (by omega)] at hlast
    rw [List.range_succ, List.foldl_append, List.foldl_cons, List.foldl_nil]
    exact hlast

@[simp] theorem nextBlock_pushBlock {τ : Type*} (L : TapeLayer τ) (b : ℕ)
    (p : BlockContext × (Spcl × τ)) :
    (DumpRestore.pushBlock L fs ino b p).1.nextBlock = p.1.nextBlock := by
  rw [DumpRestore.pushBlock]
  split <;> rfl

theorem toInt_of_lt {n : ℕ} (h : n < 2 ^ 31) : toInt n = n := by
  rw [toInt, Int.bmod_eq_of_le] <;> omega

/-- One call of `dumponeblock`. -/
theorem Collected.dumponeblock (ino : ℕ) {n : ℕ} {p : BlockContext × (Spcl × List Rec)}
    {blk : ℕ × ℕ} (hp : Collected fs dev bmap d n p) (hnext : p.1.nextBlock = n) (hn : n ≤ blk.1)
    (hzero : ∀ i, n ≤ i → i < blk.1 → bmap i = 0) (hblk : bmap blk.1 = blk.2)
    (hfits : blk.1 + 1 < 2 ^ 31) :
    Collected fs dev bmap d (blk.1 + 1)
        (dumponeblock (recorder o fs dev oneVolume) fs ino p blk) ∧
      (dumponeblock (recorder o fs dev oneVolume) fs ino p blk).1.nextBlock =
        (blk.1 + 1 : ℕ) := by
  have hcount : ((blk.1 : ℤ) - p.1.nextBlock).toNat = blk.1 - n := by omega
  have htoInt : toInt ((blk.1 : ℤ) + 1) = (blk.1 + 1 : ℕ) := by
    rw [← toInt_of_lt hfits, Nat.cast_succ]
  have hholes := hp.holes (o := o) ino (c := blk.1 - n)
    (fun i hi hic => hzero i hi (by omega))
  have hpush := hholes.pushBlock (o := o) ino
  rw [show n + (blk.1 - n) = blk.1 by omega, hblk] at hpush
  obtain ⟨gs, k, hgs, hblocks, hk, hbuf⟩ := hpush
  rw [DumpRestore.dumponeblock, hcount]
  refine ⟨⟨gs, k, hgs, hblocks, hk, ?_⟩, ?_⟩
  · rw [BlockContext.buf_setNextBlock, hbuf]
  · rw [BlockContext.nextBlock_setNextBlock, htoInt]

/-- All calls of `dumponeblock` for a file. -/
theorem Collected.foldl_dumponeblock {blocks : List (ℕ × ℕ)} {n : ℕ}
    {p : BlockContext × (Spcl × List Rec)} (hp : Collected fs dev bmap d n p)
    (hnext : p.1.nextBlock = n) (hn : n < 2 ^ 31) (hle : ∀ blk ∈ blocks, n ≤ blk.1)
    (hasc : blocks.Pairwise fun b c => b.1 < c.1) (hblk : ∀ blk ∈ blocks, bmap blk.1 = blk.2)
    (hzero : ∀ i, n ≤ i → (∀ blk ∈ blocks, blk.1 ≠ i) → bmap i = 0)
    (hfits : ∀ blk ∈ blocks, blk.1 + 1 < 2 ^ 31) :
    ∃ m, Collected fs dev bmap d m
        (blocks.foldl (DumpRestore.dumponeblock (recorder o fs dev oneVolume) fs ino) p) ∧
      (blocks.foldl (DumpRestore.dumponeblock (recorder o fs dev oneVolume) fs ino) p).1.nextBlock =
        m ∧ m < 2 ^ 31 ∧ ∀ i, m ≤ i → bmap i = 0 := by
  induction blocks generalizing n p with
  | nil => exact ⟨n, hp, hnext, hn, fun i hi => hzero i hi (by simp)⟩
  | cons blk blocks ih =>
    obtain ⟨hfirst, hasc⟩ := List.pairwise_cons.mp hasc
    have hmem : blk ∈ blk :: blocks := List.mem_cons_self
    have hstep := hp.dumponeblock (o := o) ino hnext (hle blk hmem)
      (fun i hi hib => hzero i hi fun c hc => by
        rcases List.mem_cons.mp hc with rfl | hc
        · omega
        · have := hfirst c hc
          omega)
      (hblk blk hmem) (hfits blk hmem)
    exact ih hstep.1 hstep.2 (hfits blk hmem) (fun c hc => hfirst c hc) hasc
      (fun c hc => hblk c (List.mem_cons_of_mem _ hc))
      (fun i hi hne => hzero i (by have := hle blk hmem; omega) fun c hc => by
        rcases List.mem_cons.mp hc with rfl | hc
        · omega
        · exact hne c hc)
      (fun c hc => hfits c (List.mem_cons_of_mem _ hc))

end Recorder

/-! ## A regular file -/

/-- A regular file whose blocks are reported once each, in ascending order. The counters of the
source are of type `int`, which is enough for the block numbers of a file. -/
structure RegularFile (fs : Ext2Fs) where
  inode : Inode
  mode : ifmt inode.dinode.diMode = ifReg
  ascending : inode.blocks.Pairwise fun b c => b.1 < c.1
  allocated : ∀ blk ∈ inode.blocks, blk.2 ≠ 0
  fits : ∀ blk ∈ inode.blocks, blk.1 + 1 < 2 ^ 31
  size_fits : howmany inode.dinode.iSize fs.blocksize < 2 ^ 31

namespace RegularFile

variable {fs : Ext2Fs} (file : RegularFile fs)

/-- The size of the file. -/
def size : ℕ := file.inode.dinode.iSize

theorem bmap_of_mem {blk : ℕ × ℕ} (h : blk ∈ file.inode.blocks) :
    file.inode.bmap blk.1 = blk.2 := by
  have hfind : file.inode.blocks.find? (fun b => b.1 == blk.1) = some blk := by
    obtain ⟨as, bs, hab⟩ := List.append_of_mem h
    have hasc := file.ascending
    rw [hab, List.pairwise_append] at hasc
    rw [hab, List.find?_eq_some_iff_append]
    refine ⟨by simp, as, bs, rfl, fun a ha => ?_⟩
    have := hasc.2.2 a ha blk List.mem_cons_self
    simp
    omega
  rw [Inode.bmap, hfind]
  rfl

theorem bmap_of_notMem {i : ℕ} (h : ∀ blk ∈ file.inode.blocks, blk.1 ≠ i) :
    file.inode.bmap i = 0 := by
  have hfind : file.inode.blocks.find? (fun b => b.1 == i) = none := by
    rw [List.find?_eq_none]
    intro blk hblk
    simpa using h blk hblk
  rw [Inode.bmap, hfind]
  rfl

theorem size_lt : file.size < 2 ^ 63 := by
  have hsize : file.size ≤ _ :=
    (howmany_le_iff fs.blocksize_pos).mp (Nat.le_of_lt file.size_fits)
  have := Nat.mul_le_mul_left (2 ^ 31) fs.blocksize_le
  rw [maxBsize] at this
  omega

variable {o : DumpOptions} {dev : ℕ → Block} {ino : ℕ} {d : Spcl × List Rec}

variable (dev ino) in
/-- **The records of a regular file** are segments with all its blocks, and perhaps more. -/
theorem emits_dumpblocks :
    ∃ gs n, Emits d gs (dumpblocks (recorder o fs dev oneVolume) fs file.inode.blocks file.size
        ino d) ∧
      gs.flatMap Segment.blocks = blocksFrom fs dev file.inode.bmap 0 (n * fs.tbperdb) ∧
      file.size ≤ n * fs.blocksize := by
  obtain ⟨m, hm, hnext, hlt, hzero⟩ := (collected_nil (d := d) 0).foldl_dumponeblock (o := o)
    rfl (by decide) (fun _ _ => Nat.zero_le _) file.ascending (fun _ h => file.bmap_of_mem h)
    (fun _ _ h => file.bmap_of_notMem h) file.fits
  rw [dumpblocks]
  generalize file.inode.blocks.foldl (dumponeblock (recorder o fs dev oneVolume) fs ino)
    (⟨[], 0⟩, d) = p at hm hnext ⊢
  have hbytes : m * fs.blocksize < 2 ^ 64 := by
    have hle := fs.blocksize_le
    have hmul := Nat.mul_le_mul hlt.le hle
    rw [maxBsize] at hmul
    omega
  have hdone : (p.1.nextBlock * fs.blocksize % 2 ^ 64).toNat = m * fs.blocksize := by
    rw [hnext]
    omega
  -- The holes at the end of the file.
  obtain ⟨n, q, hq, hn, hsize⟩ : ∃ n q, q = (if file.size > m * fs.blocksize then
        (List.range (toInt (howmany (file.size - m * fs.blocksize) fs.blocksize)).toNat).foldl
          (fun p _ => pushBlock (recorder o fs dev oneVolume) fs ino 0 p) p
      else p) ∧ Collected fs dev file.inode.bmap d n q ∧ file.size ≤ n * fs.blocksize := by
    split
    case isTrue hmore =>
      have hle : howmany (file.size - m * fs.blocksize) fs.blocksize ≤
          howmany file.size fs.blocksize :=
        Nat.div_le_div_right (by omega)
      have hall := (howmany_le_iff fs.blocksize_pos).mp
        (le_refl (howmany (file.size - m * fs.blocksize) fs.blocksize))
      refine ⟨m + howmany (file.size - m * fs.blocksize) fs.blocksize, _, rfl, ?_, ?_⟩
      · rw [toInt_of_lt (hle.trans_lt file.size_fits), Int.toNat_natCast]
        exact hm.holes ino fun i hi _ => hzero i hi
      · rw [Nat.add_mul]
        omega
    case isFalse hless =>
      exact ⟨m, p, rfl, hm, by omega⟩
  simp only [hdone, ← hq]
  obtain ⟨gs, k, hgs, hblocks, hk, hbuf⟩ := hn
  have hlen : q.1.buf.length = n - k := by simp [hbuf]
  split
  case isTrue =>
    obtain ⟨gs', hgs', hblocks'⟩ := emits_blksout (o := o) (d := q.2) (by rw [hlen, hbuf])
    have happend := blocksFrom_append fs dev file.inode.bmap 0
      (k * fs.tbperdb) ((n - k) * fs.tbperdb)
    rw [Nat.zero_add, ← Nat.add_mul, show k + (n - k) = n by omega] at happend
    refine ⟨gs ++ gs', n, hgs.trans hgs', ?_, hsize⟩
    rw [List.flatMap_append, hblocks, hblocks', hlen, happend]
  case isFalse hempty =>
    obtain rfl : k = n := by omega
    exact ⟨gs, k, hgs, hblocks, hsize⟩

end RegularFile

end DumpRestore
