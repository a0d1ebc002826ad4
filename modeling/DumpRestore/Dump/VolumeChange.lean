import DumpRestore.Dump.Directory

/-!
# Volume changes under the producers

Any record handed to the tape layer may end the volume. `startnewtape` then writes the header of
the next one through the global header, and what it leaves there is not what the producer left.

* `Alike` relates a run of a producer to the run without volume changes. The producers keep it,
  with two exceptions.
* The loops of `dumpmap` and of the first half of `dump_xattr` read `c_count` back. `KeepsCount`
  says that no volume header makes them stop early or run on.
* `transparent_iff` says that the records are the same exactly under that condition.
-/

namespace DumpRestore

/-! ## What a volume header leaves alone -/

/-- A header without the members that number records and volumes. -/
def Spcl.unnumbered (h : Spcl) : Spcl :=
  { h with cVolume := 0, cTapea := 0, cFirstrec := 0, cChecksum := 0 }

/-- A record without the members that number records and volumes. -/
def Rec.unnumbered : Rec → Rec
  | .spcl h => .spcl h.unnumbered
  | .data b => .data b

/-- The members of the global header that survive a volume header. -/
def Spcl.lasting (h : Spcl) : Spcl :=
  { h.unnumbered with cType := .tape, cCount := 0, cInumber := 0, cMagic := 0 }

/-- The global header once `main` has started the first volume: the members that every volume
header sets to the same values have them already. -/
structure Started (o : DumpOptions) (h : Spcl) : Prop where
  flags : (h.cFlags ||| if o.compressed then drCompressed else 0) &&& ~~~drNewheader = h.cFlags
  ntrec : h.cNtrec = o.ntrec

section Started

variable {o : DumpOptions} {h h' : Spcl}

theorem Started.of_lasting (hs : Started o h) (hl : h.lasting = h'.lasting) : Started o h' := by
  have hlasting : Started o h.lasting := ⟨hs.flags, hs.ntrec⟩
  rw [hl] at hlasting
  exact ⟨hlasting.flags, hlasting.ntrec⟩

/-- A flag other than `DR_NEWHEADER` may be set. -/
theorem Started.or_flag (hs : Started o h) {x : BitVec 32} (hx : x &&& ~~~drNewheader = x) :
    Started o { h with cFlags := h.cFlags ||| x } := by
  refine ⟨?_, hs.ntrec⟩
  have hf := hs.flags
  generalize (if o.compressed then drCompressed else 0) = c at hf ⊢
  calc (h.cFlags ||| x ||| c) &&& ~~~drNewheader
      = ((h.cFlags ||| c) &&& ~~~drNewheader) ||| (x &&& ~~~drNewheader) := by
        rw [BitVec.or_assoc, BitVec.or_comm x c, ← BitVec.or_assoc, BitVec.and_or_distrib_right]
    _ = h.cFlags ||| x := by rw [hf, hx]

/-- A flag other than `DR_COMPRESSED` may be cleared. -/
theorem Started.clear_flag (hs : Started o h) {x : BitVec 32}
    (hx : drCompressed &&& ~~~x = drCompressed) :
    Started o { h with cFlags := h.cFlags &&& ~~~x } := by
  refine ⟨?_, hs.ntrec⟩
  have hf := hs.flags
  have hc : (if o.compressed then drCompressed else 0) &&& ~~~x =
      if o.compressed then drCompressed else 0 := by
    split
    · exact hx
    · exact BitVec.zero_and
  generalize (if o.compressed then drCompressed else 0) = c at hf hc ⊢
  calc (h.cFlags &&& ~~~x ||| c) &&& ~~~drNewheader
      = (h.cFlags &&& ~~~x ||| c &&& ~~~x) &&& ~~~drNewheader := by rw [hc]
    _ = ((h.cFlags ||| c) &&& ~~~drNewheader) &&& ~~~x := by
        rw [← BitVec.and_or_distrib_right, BitVec.and_assoc, BitVec.and_comm (~~~x),
          ← BitVec.and_assoc]
    _ = h.cFlags &&& ~~~x := by rw [hf]

/-- **A volume header** changes none of the other members. -/
theorem Started.lasting_startnewtapeSpcl (hs : Started o h) (s : VolStart) :
    (startnewtapeSpcl o s h).lasting = h.lasting := by
  have hflags : (h.cFlags ||| drNewheader ||| if o.compressed then drCompressed else 0) &&&
      ~~~drNewheader = h.cFlags := by
    rw [BitVec.or_assoc, BitVec.or_comm drNewheader, ← BitVec.or_assoc,
      BitVec.and_or_distrib_right, hs.flags, show drNewheader &&& ~~~drNewheader = 0 by decide]
    exact BitVec.or_zero
  calc (startnewtapeSpcl o s h).lasting
      = { h.lasting with
          cFlags := (h.cFlags ||| drNewheader ||| if o.compressed then drCompressed else 0) &&&
            ~~~drNewheader
          cNtrec := o.ntrec } := rfl
    _ = { h.lasting with cFlags := h.cFlags, cNtrec := h.cNtrec } := by rw [hflags, hs.ntrec]
    _ = h.lasting := rfl

/-- What is on tape of a header depends on the members that last and on the type and the count. -/
theorem unnumbered_sealHeader (hl : h.lasting = h'.lasting) (ht : h.cType = h'.cType)
    (hc : h.cCount = h'.cCount) (ino : ℕ) :
    (sealHeader ino h).unnumbered = (sealHeader ino h').unnumbered := by
  have hseal : ∀ h : Spcl, (sealHeader ino h).unnumbered =
      { h.lasting with
        cType := h.cType, cCount := h.cCount, cInumber := ino, cMagic := nfsMagic } :=
    fun _ => rfl
  rw [hseal, hseal, hl, ht, hc]

end Started

/-! ## Two runs side by side -/

/-- Two runs that went on from the records `b` and `b'` to the states `d` and `d'`, and handed over
the same records on the way. -/
structure Alike (o : DumpOptions) (b b' : List Rec) (d d' : Spcl × List Rec) : Prop where
  lasting : d.1.lasting = d'.1.lasting
  started : Started o d.1
  recs : ∃ X X', d.2 = b ++ X ∧ d'.2 = b' ++ X' ∧ X.map Rec.unnumbered = X'.map Rec.unnumbered

/-- Two runs that also have the same type in the global header, as they do between two headers of
a file. -/
structure AlikeType (o : DumpOptions) (b b' : List Rec) (d d' : Spcl × List Rec) : Prop
    extends Alike o b b' d d' where
  type : d.1.cType = d'.1.cType

/-- The entries collected so far are the same as well. -/
def AlikeContext (o : DumpOptions) (b b' : List Rec) (p p' : BlockContext × (Spcl × List Rec)) :
    Prop :=
  p.1 = p'.1 ∧ AlikeType o b b' p.2 p'.2

/-- The same flag, and runs that are alike. -/
def AlikeFlag (o : DumpOptions) (b b' : List Rec) (p p' : Bool × (Spcl × List Rec)) : Prop :=
  p.1 = p'.1 ∧ Alike o b b' p.2 p'.2

/-- Two tape layers that keep runs alike when they are handed the same records. -/
structure AlikeLayers (o : DumpOptions) (L L' : TapeLayer (List Rec)) : Prop where
  writerec {b b' : List Rec} {d d' : Spcl × List Rec} {r r' : Rec} :
    Alike o b b' d d' → r.unnumbered = r'.unnumbered →
      Alike o b b' (L.writerec r d) (L'.writerec r' d')
  dumpblock {b b' : List Rec} {d d' : Spcl × List Rec} (blkno size : ℕ) :
    Alike o b b' d d' → Alike o b b' (L.dumpblock blkno size d) (L'.dumpblock blkno size d')

section Alike

variable {o : DumpOptions} {b b' : List Rec} {d d' e e' : Spcl × List Rec}

theorem Alike.start (hl : d.1.lasting = d'.1.lasting) (hs : Started o d.1) :
    Alike o d.2 d'.2 d d' :=
  ⟨hl, hs, [], [], by simp, by simp, rfl⟩

theorem Alike.trans (h : Alike o b b' d d') (h' : Alike o d.2 d'.2 e e') : Alike o b b' e e' := by
  obtain ⟨X, X', hX, hX', heq⟩ := h.recs
  obtain ⟨Y, Y', hY, hY', heq'⟩ := h'.recs
  refine ⟨h'.lasting, h'.started, X ++ Y, X' ++ Y', ?_, ?_, ?_⟩
  · rw [hY, hX, List.append_assoc]
  · rw [hY', hX', List.append_assoc]
  · rw [List.map_append, List.map_append, heq, heq']

theorem Alike.map_eq_iff (h : Alike o b b' d d') :
    d.2.map Rec.unnumbered = d'.2.map Rec.unnumbered ↔
      b.map Rec.unnumbered = b'.map Rec.unnumbered := by
  obtain ⟨X, X', hX, hX', heq⟩ := h.recs
  rw [hX, hX', List.map_append, List.map_append, heq, List.append_left_inj]

/-- An assignment that does not look at the members a volume header changes. -/
theorem Alike.modify (h : Alike o b b' d d') {f : Spcl → Spcl}
    (hf : ∀ h, (f h).lasting = (f h.lasting).lasting) (hs : Started o d.1 → Started o (f d.1)) :
    Alike o b b' (modifySpcl f d) (modifySpcl f d') := by
  refine ⟨?_, hs h.started, h.recs⟩
  simp only [modifySpcl]
  rw [hf, h.lasting, ← hf]

theorem Alike.setType (h : Alike o b b' d d') (t : SpclType) :
    AlikeType o b b' (modifySpcl (fun h => { h with cType := t }) d)
      (modifySpcl (fun h => { h with cType := t }) d') :=
  ⟨h.modify (fun _ => rfl) fun hs => ⟨hs.flags, hs.ntrec⟩, rfl⟩

theorem alikeFlag_ite {c : Prop} [Decidable c] {p q p' q' : Bool × (Spcl × List Rec)}
    (hp : c → AlikeFlag o b b' p p') (hq : ¬c → AlikeFlag o b b' q q') :
    AlikeFlag o b b' (if c then p else q) (if c then p' else q') := by
  split
  case isTrue hc => exact hp hc
  case isFalse hc => exact hq hc

end Alike

/-! ## The recording layer -/

section Recorder

variable {o : DumpOptions} {fs : Ext2Fs} {dev : ℕ → Block} {vol vol' : ℕ → Option VolStart}
  {b b' : List Rec} {d d' : Spcl × List Rec}

variable (fs dev vol) in
theorem recs_writerec (r : Rec) : ((recorder o fs dev vol).writerec r d).2 = d.2 ++ [r] := by
  simp only [recorder]
  split <;> rfl

theorem cCount_writerec (r : Rec) : ((recorder o fs dev vol).writerec r d).1.cCount =
    ((vol (d.2.length + 1)).map VolStart.count).getD d.1.cCount := by
  simp only [recorder, List.length_append, List.length_singleton]
  cases vol (d.2.length + 1) <;> rfl

theorem lasting_writerec (hs : Started o d.1) (r : Rec) :
    ((recorder o fs dev vol).writerec r d).1.lasting = d.1.lasting := by
  simp only [recorder]
  split
  case h_1 => rfl
  case h_2 s _ =>
    have hs' : Started o { d.1 with cTapea := d.1.cTapea + 1 } := ⟨hs.flags, hs.ntrec⟩
    exact hs'.lasting_startnewtapeSpcl s

variable (fs dev vol) in
theorem started_writerec (hs : Started o d.1) (r : Rec) :
    Started o ((recorder o fs dev vol).writerec r d).1 :=
  hs.of_lasting (lasting_writerec hs r).symm

theorem Alike.writerec_recorder (h : Alike o b b' d d') {r r' : Rec}
    (hr : r.unnumbered = r'.unnumbered) :
    Alike o b b' ((recorder o fs dev vol).writerec r d)
      ((recorder o fs dev vol').writerec r' d') := by
  have hs' : Started o d'.1 := h.started.of_lasting h.lasting
  refine h.trans ⟨?_, started_writerec fs dev vol h.started r, [r], [r'],
    recs_writerec fs dev vol r, recs_writerec fs dev vol' r', by simp [hr]⟩
  rw [lasting_writerec h.started, lasting_writerec hs', h.lasting]

/-- **The recording layer** keeps runs alike, wherever the volume changes. -/
theorem alikeLayers_recorder :
    AlikeLayers o (recorder o fs dev vol) (recorder o fs dev vol') where
  writerec h hr := h.writerec_recorder hr
  dumpblock blkno size h := by
    have hfold : ∀ (vol : ℕ → Option VolStart) (d : Spcl × List Rec),
        (recorder o fs dev vol).dumpblock blkno size d =
          (List.range (size / tpBsize)).foldl (fun d k => (recorder o fs dev vol).writerec
            (.data (dev (fs.fsbtodb blkno + k * (tpBsize / devBsize)))) d) d := fun _ _ => rfl
    rw [hfold, hfold]
    exact List.foldl_rel h fun _ _ _ _ hd => hd.writerec_recorder rfl

end Recorder

/-! ## The producers that are transparent -/

section Producers

variable {o : DumpOptions} {L L' : TapeLayer (List Rec)} (hL : AlikeLayers o L L')
  {fs : Ext2Fs} {b b' : List Rec} {d d' : Spcl × List Rec}
  {p p' : BlockContext × (Spcl × List Rec)}

include hL

/-- A header, with the type and the count just set. -/
theorem Alike.writeheader (h : Alike o b b' d d') (ht : d.1.cType = d'.1.cType)
    (hc : d.1.cCount = d'.1.cCount) (ino : ℕ) :
    Alike o b b' (writeheader L ino d) (writeheader L' ino d') :=
  hL.writerec (h.modify (f := sealHeader ino) (fun _ => rfl) fun hs => ⟨hs.flags, hs.ntrec⟩)
    (congrArg Rec.spcl (unnumbered_sealHeader h.lasting ht hc ino))

variable (fs) in
theorem Alike.blksoutData (h : Alike o b b' d d') (blkp : List ℕ) (i count k : ℕ) :
    Alike o b b' (blksoutData L fs blkp i count k d) (blksoutData L' fs blkp i count k d') := by
  simp only [DumpRestore.blksoutData]
  split
  · exact hL.dumpblock _ _ h
  · exact h

theorem AlikeType.blksoutHeader (h : AlikeType o b b' d d') (blkp : List ℕ) (blks ino i : ℕ) :
    AlikeType o b b' (blksoutHeader L fs blkp blks ino i d)
      (blksoutHeader L' fs blkp blks ino i d') := by
  have hset : Alike o b b' (modifySpcl (blksoutSpcl fs blkp i (blksoutCount blks i)) d)
      (modifySpcl (blksoutSpcl fs blkp i (blksoutCount blks i)) d') :=
    h.toAlike.modify (fun _ => rfl) fun hs => ⟨hs.flags, hs.ntrec⟩
  have hheader := hset.writeheader hL h.type rfl ino
  have hdata := List.foldl_rel (l := List.range (howmany (blksoutCount blks i - i) fs.tbperdb))
    hheader fun k _ _ _ hd => hd.blksoutData hL fs blkp i (blksoutCount blks i) k
  exact hdata.setType .addr

theorem AlikeType.blksout (h : AlikeType o b b' d d') (blkp : List ℕ) (ino : ℕ) :
    AlikeType o b b' (blksout L fs blkp ino d) (blksout L' fs blkp ino d') :=
  List.foldl_rel h fun c _ _ _ hd => hd.blksoutHeader hL blkp _ ino (c * tpNindir)

variable (fs) in
theorem AlikeContext.pushBlock (h : AlikeContext o b b' p p') (ino n : ℕ) :
    AlikeContext o b b' (pushBlock L fs ino n p) (pushBlock L' fs ino n p') := by
  obtain ⟨hp, hd⟩ := h
  simp only [DumpRestore.pushBlock, hp]
  split
  · exact ⟨rfl, hd.blksout hL ..⟩
  · exact ⟨rfl, hd⟩

variable (fs) in
theorem AlikeContext.pushHoles (h : AlikeContext o b b' p p') (ino n : ℕ) :
    AlikeContext o b b' ((List.range n).foldl (fun p _ => DumpRestore.pushBlock L fs ino 0 p) p)
      ((List.range n).foldl (fun p _ => DumpRestore.pushBlock L' fs ino 0 p) p') :=
  List.foldl_rel h fun _ _ _ _ hq => hq.pushBlock hL fs ino 0

theorem AlikeContext.dumponeblock (h : AlikeContext o b b' p p') (ino : ℕ) (blk : ℕ × ℕ) :
    AlikeContext o b b' (dumponeblock L fs ino p blk) (dumponeblock L' fs ino p' blk) := by
  have hblk := (h.pushHoles hL fs ino (blk.1 - p'.1.nextBlock).toNat).pushBlock hL fs ino blk.2
  simp only [DumpRestore.dumponeblock, h.1]
  exact ⟨congrArg (BlockContext.setNextBlock · _) hblk.1, hblk.2⟩

theorem AlikeType.dumpblocks (h : AlikeType o b b' d d') (blocks : List (ℕ × ℕ)) (size ino : ℕ) :
    Alike o b b' (dumpblocks L fs blocks size ino d) (dumpblocks L' fs blocks size ino d') := by
  have hblocks : AlikeContext o b b' (blocks.foldl (dumponeblock L fs ino) (⟨[], 0⟩, d))
      (blocks.foldl (dumponeblock L' fs ino) (⟨[], 0⟩, d')) :=
    List.foldl_rel ⟨rfl, h⟩ fun blk _ _ _ hp => hp.dumponeblock hL ino blk
  have hholes := fun n => hblocks.pushHoles hL fs ino n
  simp only [DumpRestore.dumpblocks, hblocks.1]
  split
  · simp only [(hholes _).1]
    split
    · exact ((hholes _).2.blksout hL ..).toAlike
    · exact (hholes _).2.toAlike
  · simp only [hblocks.1]
    split
    · exact (hblocks.2.blksout hL ..).toAlike
    · exact hblocks.2.toAlike

variable (fs) in
theorem Alike.dumpXattrBlock (h : Alike o b b' d d') (inode : Inode) (ino : ℕ) :
    Alike o b b' (dumpXattrBlock L fs inode ino d) (dumpXattrBlock L' fs inode ino d') := by
  simp only [DumpRestore.dumpXattrBlock]
  split
  · refine Alike.modify (AlikeType.toAlike (AlikeType.blksout hL ⟨h.modify (fun _ => rfl) ?_, rfl⟩
      ..)) (fun _ => rfl) ?_
    · exact fun hs => ⟨(hs.or_flag (x := drExtattributes) (by decide)).flags, hs.ntrec⟩
    · exact fun hs => ⟨(hs.clear_flag (x := drExtattributes) (by decide)).flags, hs.ntrec⟩
  · exact h

/-- **A file** is dumped alike, wherever the volume changes. -/
theorem Alike.dumpinoBody (h : Alike o b b' d d') (inode : Inode) (ino : ℕ) (metaonly : Bool) :
    AlikeFlag o b b' (dumpinoBody L fs inode ino metaonly d)
      (dumpinoBody L' fs inode ino metaonly d') := by
  have hset : AlikeType o b b'
      (modifySpcl (inodeHeader inode.dinode (if metaonly then 0 else inode.dinode.iSize)) d)
      (modifySpcl (inodeHeader inode.dinode (if metaonly then 0 else inode.dinode.iSize)) d') :=
    ⟨h.modify (fun _ => rfl) fun hs => ⟨hs.flags, hs.ntrec⟩, rfl⟩
  refine alikeFlag_ite (fun _ => ?_) fun _ => alikeFlag_ite (fun _ => ?_) fun _ =>
    alikeFlag_ite (fun _ => ?_) fun _ => alikeFlag_ite (fun _ => ?_) fun _ =>
    alikeFlag_ite (fun _ => ?_) fun _ => ?_
  · have hflags := hset.toAlike.modify (f := fun h => { h with
      cFlags := h.cFlags ||| drMetaonly, cCount := 0 }) (fun _ => rfl)
      fun hs => ⟨(hs.or_flag (x := drMetaonly) (by decide)).flags, hs.ntrec⟩
    have hheader := hflags.writeheader hL rfl rfl ino
    exact ⟨rfl, hheader.modify (f := fun h => { h with cFlags := h.cFlags &&& ~~~drMetaonly })
      (fun _ => rfl) fun hs => hs.clear_flag (by decide)⟩
  · exact ⟨rfl, hset.toAlike⟩
  · have hcount := hset.toAlike.modify
      (f := fun h => { h with
        cAddr := fun i => if i = 0 then 1 else h.cAddr i
        cCount := 1 }) (fun _ => rfl) fun hs => ⟨hs.flags, hs.ntrec⟩
    exact ⟨rfl, hL.writerec (hcount.writeheader hL rfl rfl ino) rfl⟩
  · exact ⟨rfl, hset.dumpblocks hL ..⟩
  · exact ⟨rfl, hset.toAlike.writeheader hL rfl rfl ino⟩
  · exact ⟨rfl, hset.toAlike⟩

theorem AlikeType.dirRecord (h : AlikeType o b b' d d') (buf : Mem) (ino i : ℕ) :
    AlikeType o b b' (dirRecord L buf ino i d) (dirRecord L' buf ino i d') := by
  have hcount : Alike o b b' _ _ := h.toAlike.modify (f := fun h => { h with
    cAddr := fun k => if k = 0 then 1 else h.cAddr k
    cCount := 1 }) (fun _ => rfl) fun hs => ⟨hs.flags, hs.ntrec⟩
  exact (hL.writerec (hcount.writeheader hL h.type rfl ino) rfl).setType .addr

/-- **A directory** is dumped alike, wherever the volume changes. -/
theorem Alike.dumpdirinoBody (h : Alike o b b' d d') (cdc : ConvertDirContext) (inode : Inode)
    (ino : ℕ) :
    AlikeFlag o b b' (dumpdirinoBody L cdc inode ino d) (dumpdirinoBody L' cdc inode ino d') := by
  have hset : AlikeType o b b' (modifySpcl (inodeHeader inode.dinode cdc.offset) d)
      (modifySpcl (inodeHeader inode.dinode cdc.offset) d') :=
    ⟨h.modify (fun _ => rfl) fun hs => ⟨hs.flags, hs.ntrec⟩, rfl⟩
  refine alikeFlag_ite (fun _ => ⟨rfl, AlikeType.toAlike ?_⟩) fun _ => ⟨rfl, hset.toAlike⟩
  exact List.foldl_rel hset fun i _ _ _ hd => hd.dirRecord hL cdc.buf ino i

end Producers

/-! ## The loops that read the count back -/

/-- The count in the global header after `i` records, if it is `c` after the first `p` records of
the dump. -/
def countAt (vol : ℕ → Option VolStart) (c : ℤ) (p : ℕ) : ℕ → ℤ
  | 0 => c
  | i + 1 => ((vol (p + i + 1)).map VolStart.count).getD (countAt vol c p i)

/-- The volume headers keep the count: for a header that announces `n` records, after `p` records
of the dump, the loop over these records goes on before the last of them and stops after it. -/
def KeepsCount (vol : ℕ → Option VolStart) (n p : ℕ) : Prop :=
  (∀ i < n, (i : ℤ) < countAt vol n p (i + 1)) ∧ countAt vol n p (n + 1) ≤ n

theorem countAt_oneVolume (c : ℤ) (p i : ℕ) : countAt oneVolume c p i = c := by
  induction i with
  | zero => rfl
  | succ i ih => exact ih

theorem keepsCount_oneVolume (n p : ℕ) : KeepsCount oneVolume n p := by
  refine ⟨fun i hi => ?_, ?_⟩
  · rw [countAt_oneVolume]
    exact_mod_cast hi
  · rw [countAt_oneVolume]

section Loops

variable {o : DumpOptions} {fs : Ext2Fs} {dev : ℕ → Block} {vol : ℕ → Option VolStart}
  {d : Spcl × List Rec}

/-- The records of `k` turns of the loop of `writerecs`. -/
def bufRecs (buf : List UInt8) (i k : ℕ) : List Rec :=
  (List.range' i k).map fun j => .data (blockAt buf j)

/-- The loop of `writerecs` stops where the count says so. -/
theorem exists_writerecs (buf : List UInt8) (c : ℤ) (p fuel i : ℕ) (hs : Started o d.1)
    (hp : d.2.length = p + i + 1) (hc : d.1.cCount = countAt vol c p (i + 1)) :
    ∃ k, k ≤ fuel ∧
      (writerecs (recorder o fs dev vol) buf fuel i d).2 = d.2 ++ bufRecs buf i k ∧
      (writerecs (recorder o fs dev vol) buf fuel i d).1.lasting = d.1.lasting ∧
      (∀ j < k, ((i + j : ℕ) : ℤ) < countAt vol c p (i + j + 1)) ∧
      (k = fuel ∨ countAt vol c p (i + k + 1) ≤ (i + k : ℕ)) := by
  induction fuel generalizing i d with
  | zero => exact ⟨0, le_rfl, by simp [writerecs, bufRecs], rfl, by simp, .inl rfl⟩
  | succ fuel ih =>
    rw [writerecs]
    split
    case isTrue hlt =>
      have hrecs := recs_writerec fs dev vol (o := o) (d := d)
        (.data (blockAt buf i))
      obtain ⟨k, hk, hout, hlasting, hgo, hstop⟩ := ih (i + 1)
        (started_writerec fs dev vol hs (.data (blockAt buf i)))
        (by rw [hrecs, List.length_append, hp]; rfl)
        (by rw [cCount_writerec, hp, hc]; rfl)
      refine ⟨k + 1, by omega, ?_, ?_, ?_, ?_⟩
      · rw [hout, hrecs, List.append_assoc]
        rfl
      · rw [hlasting, lasting_writerec hs]
      · intro j hj
        cases j with
        | zero => rwa [Nat.add_zero, ← hc]
        | succ j =>
          rw [show i + (j + 1) = i + 1 + j by omega]
          exact hgo j (by omega)
      · rw [show i + (k + 1) = i + 1 + k by omega]
        exact hstop.imp (by omega) id
    case isFalse hge =>
      refine ⟨0, by omega, by simp [bufRecs], rfl, by simp, .inr ?_⟩
      rw [Nat.add_zero, ← hc]
      omega

variable (fs dev vol) in
/-- A header that announces `n` records, and the loop over them. -/
theorem exists_announced (buf : List UInt8) (ino n : ℕ) (hs : Started o d.1)
    (hc : d.1.cCount = n) (hn : n < intCount) :
    ∃ k,
      (writerecs (recorder o fs dev vol) buf intCount 0
        (writeheader (recorder o fs dev vol) ino d)).2 =
        d.2 ++ .spcl (sealHeader ino d.1) :: bufRecs buf 0 k ∧
      (writerecs (recorder o fs dev vol) buf intCount 0
        (writeheader (recorder o fs dev vol) ino d)).1.lasting = d.1.lasting ∧
      (k = n ↔ KeepsCount vol n d.2.length) := by
  have hseal : Started o (sealHeader ino d.1) := ⟨hs.flags, hs.ntrec⟩
  have hheader : (writeheader (recorder o fs dev vol) ino d).2 =
      d.2 ++ [.spcl (sealHeader ino d.1)] := recs_writerec fs dev vol _
  obtain ⟨k, hk, hout, hlasting, hgo, hstop⟩ := exists_writerecs (o := o)
    (d := writeheader (recorder o fs dev vol) ino d) buf n d.2.length intCount 0
    (started_writerec fs dev vol (d := modifySpcl (sealHeader ino) d) hseal _)
    (by rw [hheader, List.length_append]; rfl)
    ((cCount_writerec (d := modifySpcl (sealHeader ino) d) _).trans (by
      rw [countAt, countAt, ← hc]
      rfl))
  refine ⟨k, by rw [hout, hheader, List.append_assoc]; rfl, ?_, ?_⟩
  · rw [hlasting]
    exact lasting_writerec (d := modifySpcl (sealHeader ino) d) hseal _
  · simp only [Nat.zero_add] at hgo hstop
    constructor
    · rintro rfl
      exact ⟨hgo, hstop.resolve_left (by omega)⟩
    · rintro ⟨hkeep, hend⟩
      rcases Nat.lt_trichotomy k n with hlt | heq | hgt
      · have := hkeep k hlt
        rcases hstop with rfl | hstop <;> omega
      · exact heq
      · have := hgo n hgt
        omega

end Loops

/-! ## Same records -/

/-- From `d` to `e` in one run and from `d'` to `e'` in the other, the records stay the same
exactly under the condition `C`. -/
structure SameIff (o : DumpOptions) (C : Prop) (d d' e e' : Spcl × List Rec) : Prop where
  lasting : e.1.lasting = e'.1.lasting
  started : Started o e.1
  map_eq_iff : e.2.map Rec.unnumbered = e'.2.map Rec.unnumbered ↔
    d.2.map Rec.unnumbered = d'.2.map Rec.unnumbered ∧ C

section SameIff

variable {o : DumpOptions} {C C' : Prop} {d d' e e' f f' : Spcl × List Rec}

theorem SameIff.alike (h : SameIff o C d d' e e') : Alike o e.2 e'.2 e e' :=
  .start h.lasting h.started

theorem Alike.sameIff (h : Alike o d.2 d'.2 e e') : SameIff o True d d' e e' :=
  ⟨h.lasting, h.started, by rw [h.map_eq_iff, and_true]⟩

theorem SameIff.trans (h : SameIff o C d d' e e') (h' : SameIff o C' e e' f f') :
    SameIff o (C ∧ C') d d' f f' :=
  ⟨h'.lasting, h'.started, by rw [h'.map_eq_iff, h.map_eq_iff, and_assoc]⟩

/-- The data records at the end of a list of records. -/
def lastData (recs : List Rec) : ℕ :=
  (recs.reverse.takeWhile fun r => match r with | .data _ => true | .spcl _ => false).length

theorem lastData_bufRecs (as : List Rec) (h : Spcl) (buf : List UInt8) (k : ℕ) :
    lastData ((as ++ .spcl h :: bufRecs buf 0 k).map Rec.unnumbered) = k := by
  rw [lastData, List.map_append, List.map_cons, List.reverse_append, List.reverse_cons,
    List.append_assoc, List.takeWhile_append_of_pos]
  · simp [bufRecs, Rec.unnumbered]
  · intro r hr
    obtain ⟨b, rfl⟩ : ∃ b, .data b = r := by
      simp only [bufRecs, List.map_map, List.mem_reverse, List.mem_map] at hr
      obtain ⟨j, -, rfl⟩ := hr
      exact ⟨_, rfl⟩
    rfl

/-- A header with the data after it can be told from the records before it. -/
theorem map_unnumbered_eq_iff {as bs : List Rec} {g h : Spcl} (hg : g.unnumbered = h.unnumbered)
    (buf : List UInt8) (k n : ℕ) :
    (as ++ .spcl g :: bufRecs buf 0 k).map Rec.unnumbered =
        (bs ++ .spcl h :: bufRecs buf 0 n).map Rec.unnumbered ↔
      as.map Rec.unnumbered = bs.map Rec.unnumbered ∧ k = n := by
  constructor
  · intro heq
    have hlen : k = n := by
      rw [← lastData_bufRecs as g buf k, heq, lastData_bufRecs]
    subst hlen
    rw [List.map_append, List.map_append, List.map_cons, List.map_cons] at heq
    exact ⟨List.append_inj_left' heq rfl, rfl⟩
  · rintro ⟨heq, rfl⟩
    simp only [List.map_append, List.map_cons, heq, Rec.unnumbered, hg]

/-- **A header and the loop that reads its count back** are handed over as without volume changes
exactly if the volume headers keep the count. -/
theorem Alike.announced (fs : Ext2Fs) (dev : ℕ → Block) (vol : ℕ → Option VolStart)
    {b b' : List Rec} (h : Alike o b b' d d') (ht : d.1.cType = d'.1.cType) {n : ℕ}
    (hc : d.1.cCount = n) (hc' : d'.1.cCount = n) (hn : n < intCount) (buf : List UInt8) (ino : ℕ) :
    SameIff o (KeepsCount vol n d.2.length) d d'
      (writerecs (recorder o fs dev vol) buf intCount 0
        (DumpRestore.writeheader (recorder o fs dev vol) ino d))
      (writerecs (recorder o fs dev oneVolume) buf intCount 0
        (DumpRestore.writeheader (recorder o fs dev oneVolume) ino d')) := by
  obtain ⟨k, hout, hlasting, hkeeps⟩ := exists_announced fs dev vol buf ino
    n h.started hc hn
  obtain ⟨k', hout', hlasting', hkeeps'⟩ :=
    exists_announced fs dev oneVolume buf ino n (h.started.of_lasting h.lasting) hc' hn
  obtain rfl : k' = n := hkeeps'.mpr (keepsCount_oneVolume ..)
  refine ⟨by rw [hlasting, hlasting', h.lasting], h.started.of_lasting hlasting.symm, ?_⟩
  rw [hout, hout', map_unnumbered_eq_iff (unnumbered_sealHeader h.lasting ht (hc.trans hc'.symm)
    ino), hkeeps]

end SameIff

/-! ## The exact condition -/

section Exact

variable {o : DumpOptions} {fs : Ext2Fs} {dev : ℕ → Block} {vol : ℕ → Option VolStart}
  {b b' : List Rec} {d d' : Spcl × List Rec}

variable (fs dev vol) in
theorem Alike.dumpmap (h : Alike o b b' d d') (map : List UInt8) (type : SpclType) (ino : ℕ) :
    SameIff o (KeepsCount vol (howmany fs.mapsize tpBsize) d.2.length) d d'
      (dumpmap (recorder o fs dev vol) fs map type ino d)
      (dumpmap (recorder o fs dev oneVolume) fs map type ino d') := by
  have hn : howmany fs.mapsize tpBsize < intCount := by
    have := fs.sInodesCount_lt
    rw [Ext2Fs.mapsize, howmany_mul _ _ (by decide), howmany, howmany, Ext2Fs.maxino, tpBsize,
      intCount]
    omega
  have hset : Alike o b b' _ _ := h.modify (f := fun h => { h with
    cType := type
    cCount := howmany fs.mapsize tpBsize
    cDinode := { h.cDinode with diSize := fs.mapsize } }) (fun _ => rfl)
    fun hs => ⟨hs.flags, hs.ntrec⟩
  have hrecs := hset.announced fs dev vol rfl rfl rfl hn map ino
  exact ⟨hrecs.lasting, hrecs.started, hrecs.map_eq_iff⟩

variable (fs dev vol) in
theorem Alike.dumpXattrInode (h : Alike o b b' d d') (inode : Inode) (ino : ℕ) :
    SameIff o (inode.HasAttrs → KeepsCount vol (howmany fs.sInodeSize tpBsize) d.2.length) d d'
      (dumpXattrInode (recorder o fs dev vol) fs inode ino d)
      (dumpXattrInode (recorder o fs dev oneVolume) fs inode ino d') := by
  have hn : howmany fs.sInodeSize tpBsize < intCount := by
    have := fs.sInodeSize_le
    have := fs.blocksize_le
    rw [howmany, tpBsize, intCount]
    rw [Ext2Fs.blocksize, maxBsize] at this
    omega
  by_cases hattrs : inode.HasAttrs
  case neg =>
    rw [DumpRestore.dumpXattrInode, DumpRestore.dumpXattrInode, if_neg hattrs, if_neg hattrs]
    exact ⟨h.lasting, h.started, by simp [hattrs]⟩
  case pos =>
    rw [DumpRestore.dumpXattrInode, DumpRestore.dumpXattrInode, if_pos hattrs, if_pos hattrs]
    have hset : Alike o b b' _ _ := h.modify (f := fun h => { h with
      cType := .inode
      cDinode := { h.cDinode with diSize := fs.sInodeSize }
      cFlags := h.cFlags ||| drExtattributes
      cExtattributes := extXattr
      cCount := howmany fs.sInodeSize tpBsize
      cAddr := fun i => if i < howmany fs.sInodeSize tpBsize then 1 else h.cAddr i })
      (fun _ => rfl)
      fun hs => ⟨(hs.or_flag (x := drExtattributes) (by decide)).flags, hs.ntrec⟩
    have hrecs := hset.announced fs dev vol rfl rfl rfl hn
      (xattrBuf fs inode) ino
    have hclear : Alike o _ _ _ _ := hrecs.alike.modify (f := fun h => { h with
      cFlags := h.cFlags &&& ~~~drExtattributes
      cExtattributes := 0 }) (fun _ => rfl)
      fun hs => ⟨(hs.clear_flag (x := drExtattributes) (by decide)).flags, hs.ntrec⟩
    refine ⟨hclear.lasting, hclear.started, ?_⟩
    rw [forall_prop_of_true hattrs]
    exact hrecs.map_eq_iff

variable (fs dev vol) in
theorem Alike.dumpXattr (h : Alike o b b' d d') (inode : Inode) (ino : ℕ) :
    SameIff o (inode.HasAttrs → KeepsCount vol (howmany fs.sInodeSize tpBsize) d.2.length) d d'
      (dumpXattr (recorder o fs dev vol) fs inode ino d)
      (dumpXattr (recorder o fs dev oneVolume) fs inode ino d') := by
  have hinode := h.dumpXattrInode fs dev vol inode ino
  have hlayers : AlikeLayers o (recorder o fs dev vol) (recorder o fs dev oneVolume) :=
    alikeLayers_recorder
  have hblock := hinode.alike.dumpXattrBlock hlayers fs inode ino
  have hboth := hinode.trans hblock.sameIff
  rwa [and_true] at hboth

/-- The records are the same as without volume changes, except for their numbers. -/
def Transparent (o : DumpOptions) (fs : Ext2Fs) (dev : ℕ → Block) (vol : ℕ → Option VolStart)
    (d : Spcl × List Rec) (producer : TapeLayer (List Rec) → Spcl × List Rec → Spcl × List Rec) :
    Prop :=
  (producer (recorder o fs dev vol) d).2.map Rec.unnumbered =
    (producer (recorder o fs dev oneVolume) d).2.map Rec.unnumbered

/-- What `dumpino` and `dumpdirino` have in common: the map before the first inode, the body, and
the attributes if the body does not return early. -/
def dumpobject {τ : Type*} (L : TapeLayer τ) (fs : Ext2Fs) (newtape : Bool)
    (dumpinomap : List UInt8) (inode : Inode) (ino : ℕ)
    (body : TapeLayer τ → Spcl × τ → Bool × (Spcl × τ)) (d : Spcl × τ) : Spcl × τ :=
  let p := body L (if newtape then DumpRestore.dumpmap L fs dumpinomap .bits ino d else d)
  if p.1 then DumpRestore.dumpXattr L fs inode ino p.2 else p.2

/-- The volume headers keep the count in the two loops of `dumpino` and `dumpdirino`: in the map
and in the attributes of the inode, which start where the body ends. -/
def KeepsCounts (o : DumpOptions) (fs : Ext2Fs) (dev : ℕ → Block) (vol : ℕ → Option VolStart)
    (newtape : Bool) (dumpinomap : List UInt8) (inode : Inode) (ino : ℕ)
    (body : TapeLayer (List Rec) → Spcl × List Rec → Bool × (Spcl × List Rec))
    (d : Spcl × List Rec) : Prop :=
  let L := recorder o fs dev oneVolume
  let p := body L (if newtape then DumpRestore.dumpmap L fs dumpinomap .bits ino d else d)
  (newtape = true → KeepsCount vol (howmany fs.mapsize tpBsize) d.2.length) ∧
    (p.1 = true → inode.HasAttrs →
      KeepsCount vol (howmany fs.sInodeSize tpBsize) p.2.2.length)

theorem transparent_dumpobject {body : TapeLayer (List Rec) → Spcl × List Rec →
      Bool × (Spcl × List Rec)}
    (hbody : ∀ d d', Alike o d.2 d'.2 d d' →
      AlikeFlag o d.2 d'.2 (body (recorder o fs dev vol) d) (body (recorder o fs dev oneVolume) d'))
    (hs : Started o d.1) (newtape : Bool) (dumpinomap : List UInt8) (inode : Inode) (ino : ℕ) :
    Transparent o fs dev vol d (fun L => dumpobject L fs newtape dumpinomap inode ino body) ↔
      KeepsCounts o fs dev vol newtape dumpinomap inode ino body d := by
  have hmap : SameIff o (newtape = true → KeepsCount vol (howmany fs.mapsize tpBsize) d.2.length)
      d d
      (if newtape then DumpRestore.dumpmap (recorder o fs dev vol) fs dumpinomap .bits ino d else d)
      (if newtape then DumpRestore.dumpmap (recorder o fs dev oneVolume) fs dumpinomap .bits ino d
        else d) := by
    have hstart : Alike o d.2 d.2 d d := .start rfl hs
    cases newtape with
    | false => exact ⟨rfl, hs, by simp⟩
    | true => simpa using hstart.dumpmap fs dev vol dumpinomap .bits ino
  rw [Transparent, KeepsCounts, dumpobject, dumpobject]
  generalize (if newtape then
    DumpRestore.dumpmap (recorder o fs dev vol) fs dumpinomap .bits ino d else d) = e at *
  generalize (if newtape then
    DumpRestore.dumpmap (recorder o fs dev oneVolume) fs dumpinomap .bits ino d else d) = e' at *
  obtain ⟨hflag, hbody⟩ := hbody e e' hmap.alike
  generalize body (recorder o fs dev vol) e = p at *
  generalize body (recorder o fs dev oneVolume) e' = p' at *
  have hupto := hmap.trans hbody.sameIff
  rw [hflag]
  cases p'.1 with
  | false => simpa using hupto.map_eq_iff
  | true =>
    have hattrs := hupto.alike.dumpXattr fs dev vol inode ino
    have hlen (hc : newtape = true → KeepsCount vol (howmany fs.mapsize tpBsize) d.2.length) :
        p.2.2.length = p'.2.2.length := by
      simpa using congrArg List.length (hupto.map_eq_iff.mpr ⟨rfl, hc, trivial⟩)
    simp only [↓reduceIte, forall_const]
    rw [hattrs.map_eq_iff, hupto.map_eq_iff]
    constructor
    · rintro ⟨⟨-, hc, -⟩, hkeeps⟩
      exact ⟨hc, hlen hc ▸ hkeeps⟩
    · rintro ⟨hc, hkeeps⟩
      exact ⟨⟨rfl, hc, trivial⟩, hlen hc ▸ hkeeps⟩

theorem transparent_dumpmap (hs : Started o d.1) (map : List UInt8) (type : SpclType) (ino : ℕ) :
    Transparent o fs dev vol d (fun L => dumpmap L fs map type ino) ↔
      KeepsCount vol (howmany fs.mapsize tpBsize) d.2.length := by
  have hmap := (Alike.start rfl hs).dumpmap fs dev vol map type ino
  rw [Transparent, hmap.map_eq_iff]
  exact and_iff_right rfl

theorem transparent_dumpXattr (hs : Started o d.1) (inode : Inode) (ino : ℕ) :
    Transparent o fs dev vol d (fun L => dumpXattr L fs inode ino) ↔
      (inode.HasAttrs → KeepsCount vol (howmany fs.sInodeSize tpBsize) d.2.length) := by
  have hattrs := (Alike.start rfl hs).dumpXattr fs dev vol inode ino
  rw [Transparent, hattrs.map_eq_iff]
  exact and_iff_right rfl

/-- **Volume changes are transparent** to a producer exactly if they keep the count in the loops
that read it back. Bodies of files and of directories have no such loop. -/
theorem transparent_iff (o : DumpOptions) (fs : Ext2Fs) (dev : ℕ → Block)
    (vol : ℕ → Option VolStart) (h : { h : Spcl // Started o h }) (out : List Rec) :
    (∀ map type ino, Transparent o fs dev vol (h, out) (fun L => dumpmap L fs map type ino) ↔
      KeepsCount vol (howmany fs.mapsize tpBsize) out.length) ∧
    (∀ inode ino, Transparent o fs dev vol (h, out) (fun L => dumpXattr L fs inode ino) ↔
      (inode.HasAttrs → KeepsCount vol (howmany fs.sInodeSize tpBsize) out.length)) ∧
    (∀ newtape map inode ino metaonly,
      Transparent o fs dev vol (h, out)
          (fun L => dumpino L fs newtape map inode ino metaonly) ↔
        KeepsCounts o fs dev vol newtape map inode ino
          (fun L => dumpinoBody L fs inode ino metaonly) (h, out)) ∧
    (∀ newtape map excludeIno junk inode dirents ino,
      Transparent o fs dev vol (h, out)
          (fun L => dumpdirino L fs newtape map excludeIno junk inode dirents ino) ↔
        KeepsCounts o fs dev vol newtape map inode ino
          (fun L => dumpdirinoBody L (convertDirs excludeIno inode.dinode.diSize junk dirents)
              inode ino) (h, out)) :=
  ⟨fun map type ino => transparent_dumpmap h.property map type ino,
    fun inode ino => transparent_dumpXattr h.property inode ino,
    fun newtape map inode ino metaonly => transparent_dumpobject
      (fun _ _ hd => hd.dumpinoBody alikeLayers_recorder inode ino metaonly)
      h.property newtape map inode ino,
    fun newtape map _ _ inode _ ino => transparent_dumpobject
      (fun _ _ hd => hd.dumpdirinoBody alikeLayers_recorder _ inode ino)
      h.property newtape map inode ino⟩

end Exact

/-! ## A map that loses a record -/

/-- A filesystem whose maps have two records. -/
def twoRecordFs : Ext2Fs where
  sLogBlockSize := 0
  sLogBlockSize_le := zero_logBlockSize_le
  sInodeSize := 128
  sInodeSize_le := sInodeSize_128_le
  sInodesCount := 10000
  sInodesCount_lt := by decide

/-- A volume change after the first record of the map, with the count that `flushtape` computes:
`lastspclrec + c_count + 1 - c_tapea`. -/
def changeInMap (n : ℕ) : Option VolStart := if n = 2 then some ⟨1, 3, 0⟩ else none

/-- The second record of the map is lost. -/
theorem not_transparent_changeInMap :
    ¬ Transparent ⟨3, false⟩ twoRecordFs default changeInMap
        ({ (default : Spcl) with cNtrec := 3 }, [])
        (fun L => dumpmap L twoRecordFs (List.replicate 2048 1) .clri 10000) := by
  rw [transparent_dumpmap ⟨by decide, rfl⟩]
  rintro ⟨hkeeps, -⟩
  exact absurd (hkeeps 1 (by decide)) (by decide)

end DumpRestore
