import DumpRestore.Dump.WriterInvariant

/-!
# The inodes on which the volumes start

`flushtape` notes in `slp->inode` which inode is being dumped when it turns to the buffer of the
next slave, and `startnewtape` stores it in `volinfo` for the volume that it starts: where the
volume is full, for the buffer that comes next, and at an end of tape for the oldest buffer that has
to be sent again.

* `Start` is what `startnewtape` notes, and `flushStarts` the starts of a `flushtape`.
* `dumpRun` is a dump, with `getino` setting `curino`.
* `Meets` is the law of a record that is handed in while an inode is dumped: it goes on tape again
  with every volume that starts on a smaller inode.
-/

namespace DumpRestore

/-! ## Volumes -/

/-- The start of a volume: the inode in `volinfo`. The number of blocks that went to the slaves
before is not in the program. -/
structure Start where
  inode : ℕ
  blocks : ℕ
  deriving DecidableEq, Repr

/-- `volinfo[tapeno] = slp->inode`, as `startnewtape` is called with this writer. -/
def Writer.start (w : Writer) : Start := ⟨w.slp.inode, w.flushed.length⟩

section Starts

variable (o : DumpOptions)

/-- The volumes that start where `fill` may flush the buffer. -/
def fillStarts (flush : Spcl × Writer → List Start) (d : Spcl × Writer) : List Start :=
  if d.2.trecno ≥ o.ntrec then flush d else []

/-- The volumes that `startnewtape` starts. It stores the inode after its header: where the header
alone fills the volume, this goes to the entry of the next one. -/
def newtapeStarts (flush : Spcl × Writer → Option (Spcl × Writer))
    (starts : Spcl × Writer → List Start) (d : Spcl × Writer) : List Start :=
  match fill o flush (newtapeHeader o d) with
  | none => []
  | some e =>
    let more := fillStarts o starts (newtapeHeader o d)
    ⟨if more.isEmpty then e.2.slp.inode else 0, d.2.flushed.length⟩ :: more

/-- The volumes that `flushtape` starts. -/
def flushStarts : List Report → Spcl × Writer → List Start
  | [], _ => []
  | rep :: reports, d =>
    let w := { d.2.send with reports := reports }
    if w.slp.sent ∧ rep.eot then [w.start]
    else
      let d := nextBuffer o d.2.slp.firstrec rep.curino (d.1, w)
      if rep.full then newtapeStarts o (flushtape o reports) (flushStarts reports) d else []

/-- The volumes that `writerec` starts. -/
def writerecStarts (r : Rec) (d : Spcl × Writer) : List Start :=
  fillStarts o (flushStarts o d.2.reports) (putrec r d)

/-- The volumes that the loop of `dumpblock` starts. -/
def dumpblockStarts : (fuel dblkno tpblks : ℕ) → Spcl × Writer → List Start
  | 0, _, _, _ => []
  | fuel + 1, dblkno, tpblks, d =>
    let avail := min tpblks (o.ntrec - d.2.trecno)
    if avail > 0 then
      let d := putblocks dblkno avail d
      fillStarts o (flushStarts o d.2.reports) d ++
        match fill o (flushtape o d.2.reports) d with
        | none => []
        | some d =>
          dumpblockStarts fuel (dblkno + avail * (tpBsize / devBsize)) (tpblks - avail) d
    else []

/-- The volumes that a call starts. -/
def WriterCall.starts (fs : Ext2Fs) (c : WriterCall) (d : Spcl × Option Writer) : List Start :=
  match d.2 with
  | none => []
  | some w =>
    match c with
    | .assign _ => []
    | .writeheader ino => writerecStarts o (.spcl (sealHeader ino d.1)) (sealHeader ino d.1, w)
    | .writerec b => writerecStarts o (.data b) (d.1, w)
    | .dumpblock blkno size =>
      dumpblockStarts o (size / tpBsize) (fs.fsbtodb blkno) (size / tpBsize) (d.1, w)

end Starts

/-! ## A dump -/

/-- What the passes of a dump do: `getino`, which sets `curino`, and calls on the tape layer. -/
inductive DumpCall
  | getino (inum : ℕ)
  | call (c : WriterCall)

/-- The state of a dump: the global header, the writer, and the volumes that were started. -/
structure DumpState where
  spcl : Spcl
  writer : Option Writer
  starts : List Start

/-- `curino = inum`: what the reports that are still to come have as `curino`. -/
def Writer.setCurino (inum : ℕ) (w : Writer) : Writer :=
  { w with reports := w.reports.map fun rep => { rep with curino := inum } }

/-- A call of the passes. -/
def DumpCall.exec (o : DumpOptions) (fs : Ext2Fs) (s : DumpState) : DumpCall → DumpState
  | .getino inum => { s with writer := s.writer.map (Writer.setCurino inum) }
  | .call c =>
    let d := c.exec (DumpRestore.writer o fs) (s.spcl, s.writer)
    ⟨d.1, d.2, s.starts ++ c.starts o fs (s.spcl, s.writer)⟩

/-- `startnewtape(1)`. -/
def firstVolume (o : DumpOptions) (h : Spcl) (w : Writer) : DumpState :=
  let d := onWriter (fun d => startnewtape o (flushtape o d.2.reports) d)
    ({ h with cTapea := 0 }, some w)
  ⟨d.1, d.2, newtapeStarts o (flushtape o w.reports) (flushStarts o w.reports)
    ({ h with cTapea := 0 }, w)⟩

/-- A dump from `startnewtape(1)` on. `curino` is what the passes over the maps left. -/
def dumpRun (o : DumpOptions) (fs : Ext2Fs) (h : Spcl) (reports : List Report) (curino : ℕ)
    (calls : List DumpCall) : DumpState :=
  calls.foldl (DumpCall.exec o fs) (firstVolume o h ((alloctape reports).setCurino curino))

/-- The calls of a pass over inodes. An inode that is passed over has none on the tape layer. -/
def passCalls (inodes : List (ℕ × List WriterCall)) : List DumpCall :=
  inodes.flatMap fun p => .getino p.1 :: p.2.map .call

/-- The calls of a dump: the map of the inodes in use, the directories, the other files, and the
trailer. The map of the dumped inodes is written with the first of them. -/
structure Passes where
  maps : List WriterCall
  dirs : List (ℕ × List WriterCall)
  files : List (ℕ × List WriterCall)
  trailer : List WriterCall

/-- The calls in their order. -/
def Passes.calls (p : Passes) : List DumpCall :=
  p.maps.map .call ++ (passCalls p.dirs ++ (passCalls p.files ++ p.trailer.map .call))

/-! ## A record that is sent again -/

/-- A block has a record. -/
def InBlock (n : ℕ) (blk : List Req) : Prop := ∃ q ∈ blk, n ∈ q.numbers

/-- Of buffers in the order of the ring: from each one on that was begun at a smaller inode, one has
the record, or else `tail` holds. -/
def Resent (next n : ℕ) (tail : Prop) : List SlaveBuf → Prop
  | [] => True
  | s :: rest =>
    (s.inode < next → (∃ t ∈ s :: rest, InBlock n t.req) ∨ tail) ∧ Resent next n tail rest

/-- The blocks that went to the slaves, and the one that is being filled. -/
def Writer.blocks (w : Writer) : List (List Req) := w.flushed ++ [w.req]

/-- The record `n` lies in these blocks behind the start of each volume in `ss` that was started on
an inode smaller than `next`. -/
def Behind (next n : ℕ) (blocks : List (List Req)) (ss : List Start) : Prop :=
  ∀ s ∈ ss, s.inode ≠ 0 → s.inode < next →
    ∃ k blk, s.blocks ≤ k ∧ blocks[k]? = some blk ∧ InBlock n blk

/-- The volumes were started one after the other. -/
structure InOrder (w : Writer) (ss : List Start) : Prop where
  sorted : ss.Pairwise fun s s' => s.blocks ≤ s'.blocks
  le : ∀ s ∈ ss, s.blocks ≤ w.flushed.length

/-- The law of a record `n` that was handed in, as long as no inode before `low` is dumped: it lies
behind the start of each volume that was started, or will be, on an inode before `next`. With
`next = 0` this says nothing about the record. -/
structure Meets (low next n : ℕ) (w : Writer) (ss : List Start) : Prop where
  order : InOrder w ss
  slp : w.slp.inode < next → InBlock n w.req
  others : Resent next n (InBlock n w.req) w.others
  starts : Behind next n w.blocks ss
  reports : ∀ rep ∈ w.reports, low ≤ rep.curino

section Resent

variable {next n : ℕ} {tail tail' : Prop} {l : List SlaveBuf}

theorem Resent.mono (h : Resent next n tail l) (htail : tail → tail') : Resent next n tail' l := by
  induction l with
  | nil => trivial
  | cons s rest ih => exact ⟨fun hs => (h.1 hs).imp_right htail, ih h.2⟩

theorem Resent.of_tail (htail : tail) : Resent next n tail l := by
  induction l with
  | nil => trivial
  | cons s rest ih => exact ⟨fun _ => .inr htail, ih⟩

/-- The block that is handed to a slave joins the ring. -/
theorem Resent.concat {s : SlaveBuf} (h : Resent next n (InBlock n s.req) l)
    (hs : s.inode < next → InBlock n s.req) : Resent next n False (l ++ [s]) := by
  induction l with
  | nil => exact ⟨fun hlt => .inl ⟨s, List.mem_singleton_self s, hs hlt⟩, trivial⟩
  | cons t rest ih =>
    refine ⟨fun hlt => .inl ?_, ih h.2⟩
    obtain ⟨u, hu, hn⟩ | hn := h.1 hlt
    · exact ⟨u, List.mem_append_left [s] hu, hn⟩
    · exact ⟨s, List.mem_append_right (t :: rest) (List.mem_singleton_self s), hn⟩

/-- What becomes of the processes does not matter. -/
theorem Resent.map {f : SlaveBuf → SlaveBuf} (h : Resent next n tail l)
    (hreq : ∀ s, (f s).req = s.req) (hinode : ∀ s, (f s).inode = s.inode) :
    Resent next n tail (l.map f) := by
  induction l with
  | nil => trivial
  | cons s rest ih =>
    refine ⟨fun hlt => (h.1 (hinode s ▸ hlt)).imp_left ?_, ih h.2⟩
    rintro ⟨t, ht, hn⟩
    exact ⟨f t, List.mem_map_of_mem ht, hreq t ▸ hn⟩

end Resent

section Behind

variable {next n : ℕ} {blocks blocks' : List (List Req)} {ss ss' : List Start}

theorem Behind.mono (h : Behind next n blocks ss) (hblocks : ∀ (k : ℕ) blk, blocks[k]? = some blk →
    InBlock n blk → ∃ blk', blocks'[k]? = some blk' ∧ InBlock n blk') :
    Behind next n blocks' ss := by
  intro s hs hne hlt
  obtain ⟨k, blk, hle, hk, hn⟩ := h s hs hne hlt
  obtain ⟨blk', hk', hn'⟩ := hblocks k blk hk hn
  exact ⟨k, blk', hle, hk', hn'⟩

theorem Behind.append (h : Behind next n blocks ss) (h' : Behind next n blocks ss') :
    Behind next n blocks (ss ++ ss') := by
  intro s hs
  rcases List.mem_append.mp hs with hs | hs
  · exact h s hs
  · exact h' s hs

/-- More blocks at the end. -/
theorem Behind.more (h : Behind next n blocks ss) (more : List (List Req)) :
    Behind next n (blocks ++ more) ss :=
  h.mono fun k blk hk hn => ⟨blk, by
    rw [List.getElem?_append_left (List.getElem?_eq_some_iff.mp hk).1, hk], hn⟩

end Behind

/-! ## Rolling forward -/

section Shift

variable {n : ℕ}

theorem numbers_init_last {q : Req} (hn : n ∈ q.numbers) :
    n ∈ q.last.numbers ∨ InBlock n q.init := by
  rw [Req.numbers, List.mem_range'_1] at hn
  cases hsrc : q.src with
  | buffer r => exact .inl (by simpa [Req.last, hsrc, Req.numbers, List.mem_range'_1] using hn)
  | device dblk =>
    by_cases hlast : n = q.first + (q.count - 1)
    · left
      simp only [Req.last, hsrc, Req.numbers, List.mem_range'_1]
      omega
    · right
      have hpos : q.count - 1 ≠ 0 := by omega
      refine ⟨{ q with count := q.count - 1 }, by simp [Req.init, hsrc, hpos], ?_⟩
      rw [Req.numbers, List.mem_range'_1]
      dsimp only
      omega

/-- Every record of the old blocks is sent again, or left for the next buffer. -/
theorem inBlock_shiftBlocks {carry : Req} {blks : List (List Req)} {p : List (List Req) × Req}
    (hp : shiftBlocks carry blks = some p)
    (hn : n ∈ carry.numbers ∨ ∃ blk ∈ blks, InBlock n blk) :
    (∃ blk ∈ p.1, InBlock n blk) ∨ n ∈ p.2.numbers := by
  induction blks generalizing carry p with
  | nil =>
    obtain rfl := Option.some.inj hp
    exact .inr (hn.resolve_right (by simp))
  | cons blk blks ih =>
    obtain ⟨q, p', hq, hp', rfl⟩ := shiftBlocks_cons hp
    have hrest : n ∈ q.last.numbers ∨ (∃ b ∈ blks, InBlock n b) →
        (∃ b ∈ (carry :: (blk.dropLast ++ q.init)) :: p'.1, InBlock n b) ∨ n ∈ p'.2.numbers :=
      fun h => (ih hp' h).imp_left
        (Exists.imp fun _ => And.imp_left (List.mem_cons_of_mem _))
    have hfirst : ∀ r ∈ carry :: (blk.dropLast ++ q.init), n ∈ r.numbers →
        (∃ b ∈ (carry :: (blk.dropLast ++ q.init)) :: p'.1, InBlock n b) ∨ n ∈ p'.2.numbers :=
      fun r hr hin => .inl ⟨_, List.mem_cons_self, r, hr, hin⟩
    obtain hn | ⟨b, hb, r, hr, hn⟩ := hn
    · exact hfirst carry List.mem_cons_self hn
    rcases List.mem_cons.mp hb with rfl | hb
    · rw [eq_of_getLast? hq] at hr
      rcases List.mem_append.mp hr with hr | hr
      · exact hfirst r (List.mem_cons_of_mem _ (List.mem_append_left _ hr)) hn
      · obtain rfl := List.mem_singleton.mp hr
        obtain hlast | ⟨r', hr', hin⟩ := numbers_init_last hn
        · exact hrest (.inl hlast)
        · exact hfirst r' (List.mem_cons_of_mem _ (List.mem_append_right _ hr')) hin
    · exact hrest (.inr ⟨b, hb, r, hr, hn⟩)

end Shift

/-! ## The steps of the writer -/

section Steps

variable {o : DumpOptions} {low next n : ℕ} {d d' : Spcl × Writer} {w w' : Writer}
  {ss : List Start}

theorem InBlock.append {blk : List Req} (h : InBlock n blk) (more : List Req) :
    InBlock n (blk ++ more) := by
  obtain ⟨q, hq, hn⟩ := h
  exact ⟨q, List.mem_append_left more hq, hn⟩

theorem Behind.lastBlock {flushed : List (List Req)} {req req' : List Req}
    (h : Behind next n (flushed ++ [req]) ss) (hreq : InBlock n req → InBlock n req') :
    Behind next n (flushed ++ [req']) ss := by
  refine h.mono fun k blk hk hn => ?_
  rw [List.getElem?_append] at hk ⊢
  split at hk
  case isTrue hlt =>
    rw [if_pos hlt]
    exact ⟨blk, hk, hn⟩
  case isFalse hge =>
    rw [if_neg hge]
    obtain ⟨hzero, rfl⟩ : k - flushed.length = 0 ∧ req = blk := by
      rw [List.getElem?_singleton] at hk
      split at hk
      · exact ⟨‹_›, Option.some.inj hk⟩
      · cases hk
    exact ⟨req', by rw [hzero]; rfl, hreq hn⟩

theorem InOrder.more (h : InOrder w ss) (hle : w.flushed.length ≤ w'.flushed.length) :
    InOrder w' ss :=
  ⟨h.sorted, fun s hs => (h.le s hs).trans hle⟩

theorem InOrder.start (h : InOrder w ss) (inode : ℕ) :
    InOrder w (ss ++ [⟨inode, w.flushed.length⟩]) where
  sorted := List.pairwise_append.mpr ⟨h.sorted, List.pairwise_singleton _ _, fun s hs t ht => by
    obtain rfl := List.mem_singleton.mp ht
    exact h.le s hs⟩
  le s hs := by
    rcases List.mem_append.mp hs with hs | hs
    · exact h.le s hs
    · obtain rfl := List.mem_singleton.mp hs
      exact le_rfl

/-- A change of the writer that keeps the slaves, and what is in the buffer. -/
theorem Meets.grow (h : Meets low next n w ss) (hslp : w'.slp.inode = w.slp.inode)
    (hothers : Resent next n (InBlock n w.req) w.others →
      Resent next n (InBlock n w.req) w'.others)
    (hflushed : w'.flushed = w.flushed) (hreq : InBlock n w.req → InBlock n w'.req)
    (hreports : w'.reports = w.reports) : Meets low next n w' ss where
  order := h.order.more (by rw [hflushed])
  slp hlt := hreq (h.slp (hslp ▸ hlt))
  others := (hothers h.others).mono hreq
  starts := by
    rw [Writer.blocks, hflushed]
    exact h.starts.lastBlock hreq
  reports := hreports ▸ h.reports

theorem Meets.put (h : Meets low next n w ss) (src : Source) (count : ℕ) :
    Meets low next n (w.put src count) ss :=
  h.grow rfl id rfl (fun hn => hn.append _) rfl

theorem Meets.putrec (h : Meets low next n d.2 ss) (r : Rec) : Meets low next n (putrec r d).2 ss :=
  (h.put (.buffer r) 1).grow rfl id rfl id rfl

theorem Meets.newtapeHeader (h : Meets low next n d.2 ss) :
    Meets low next n (newtapeHeader o d).2 ss := by
  have hslaves : Meets low next n d.2.enslave ss :=
    h.grow rfl (fun hr => hr.map (fun _ => rfl) fun _ => rfl) rfl id rfl
  exact Meets.putrec (d := (volumeHeader o _ d.1, d.2.enslave)) hslaves _

/-- A record that is handed in lies in the buffer. -/
theorem meets_put (hss : InOrder w ss) (hreports : ∀ rep ∈ w.reports, low ≤ rep.curino)
    (next : ℕ) (src : Source) {count : ℕ} (hpos : 0 < count) :
    Meets low next w.handed (w.put src count) ss := by
  have hin : InBlock w.handed (w.put src count).req :=
    ⟨_, List.mem_append_right _ List.mem_cons_self, by
      rw [Req.numbers, List.mem_range'_1]
      exact ⟨le_rfl, Nat.lt_add_of_pos_right hpos⟩⟩
  refine ⟨hss.more le_rfl, fun _ => hin, .of_tail hin, fun s hs _ _ => ?_, hreports⟩
  refine ⟨w.flushed.length, (w.put src count).req, hss.le s hs, ?_, hin⟩
  rw [Writer.blocks]
  exact List.getElem?_concat_length

/-- The law after a block went to a slave. -/
structure Rings (low next n : ℕ) (w : Writer) (ss : List Start) : Prop where
  order : InOrder w ss
  ring : Resent next n False (w.slp :: w.others)
  starts : Behind next n w.flushed ss
  reports : ∀ rep ∈ w.reports, low ≤ rep.curino

theorem Meets.send (h : Meets low next n w ss) {reports : List Report}
    (hreports : ∀ rep ∈ reports, low ≤ rep.curino) :
    Rings low next n { w.send with reports := reports } ss where
  order := h.order.more (List.prefix_append _ _).length_le
  ring := by
    change Resent next n False (w.send.slp :: w.send.others)
    rw [ring_send]
    exact Resent.concat h.others h.slp
  starts := h.starts
  reports := hreports

theorem Rings.nextBuffer (h : Rings low next n d.2 ss) (lastfirstrec : ℤ) {curino : ℕ}
    (hcurino : next ≤ curino) : Meets low next n (nextBuffer o lastfirstrec curino d).2 ss where
  order := h.order.more le_rfl
  slp hlt := absurd hlt (Nat.not_lt.mpr hcurino)
  others := h.ring.2.mono False.elim
  starts := h.starts.more _
  reports := h.reports

/-- At an end of tape the record goes on the new volume, if that starts on a smaller inode. -/
theorem Rings.rollforward (h : Rings low next n d.2 ss) {curino : ℕ} (hcurino : next ≤ curino)
    (hd : rollforward o curino d = some d') : Meets low next n d'.2 (ss ++ [d.2.start]) := by
  rw [DumpRestore.rollforward] at hd
  split at hd
  · cases hd
  obtain ⟨blks, hblks, rfl⟩ := Option.map_eq_some_iff.mp hd
  refine ⟨(h.order.start _).more (List.prefix_append _ _).length_le,
    fun hlt => absurd hlt (Nat.not_lt.mpr hcurino), ?_, ?_, h.reports⟩
  · have hothers : Resent next n False ((d.2.others.map fun s => { s with sent := false }).map
        fun s => { s with sent := true }) :=
      (h.ring.2.map (f := fun s => { s with sent := false }) (fun _ => rfl) fun _ => rfl).map
        (fun _ => rfl) fun _ => rfl
    exact hothers.mono False.elim
  · refine Behind.append ((h.starts.more blks.1).more _) fun s hs _ hlt => ?_
    obtain rfl := List.mem_singleton.mp hs
    obtain ⟨t, ht, hn⟩ := (h.ring.1 hlt).resolve_right id
    obtain ⟨blk, hblk, hin⟩ | hleft := inBlock_shiftBlocks hblks
      (.inr ⟨t.req, List.mem_map_of_mem ht, hn⟩)
    · obtain ⟨j, hj, rfl⟩ := List.getElem_of_mem hblk
      refine ⟨d.2.flushed.length + j, blks.1[j], Nat.le_add_right _ _, ?_, hin⟩
      simp only [Writer.blocks, List.append_assoc]
      rw [List.getElem?_append_right (Nat.le_add_right _ _), Nat.add_sub_cancel_left,
        List.getElem?_append_left hj, List.getElem?_eq_getElem hj]
    · refine ⟨(d.2.flushed ++ blks.1).length, [blks.2], ?_, List.getElem?_concat_length,
        ⟨blks.2, List.mem_singleton_self _, hleft⟩⟩
      rw [List.length_append]
      exact Nat.le_add_right _ _

theorem Meets.started (h : Meets low next n w ss) {inode : ℕ} (hinode : inode ≠ 0 → next ≤ inode) :
    Meets low next n w (ss ++ [⟨inode, w.flushed.length⟩]) :=
  ⟨h.order.start inode, h.slp, h.others, h.starts.append fun s hs hne hlt => by
    obtain rfl := List.mem_singleton.mp hs
    exact absurd hlt (Nat.not_lt.mpr (hinode hne)), h.reports⟩

section Fill

variable {flush : Spcl × Writer → Option (Spcl × Writer)}

theorem le_slp_fill (hflush : ∀ d', flush d = some d' → low ≤ d'.2.slp.inode)
    (hle : low ≤ d.2.slp.inode) (hd : fill o flush d = some d') : low ≤ d'.2.slp.inode := by
  rw [DumpRestore.fill] at hd
  split at hd
  · exact hflush d' hd
  · obtain rfl := Option.some.inj hd
    exact hle

theorem Meets.fill_of {starts : Spcl × Writer → List Start}
    (hflush : ∀ d', flush d = some d' → Meets low next n d'.2 (ss ++ starts d))
    (h : Meets low next n d.2 ss) (hd : DumpRestore.fill o flush d = some d') :
    Meets low next n d'.2 (ss ++ fillStarts o starts d) := by
  rw [DumpRestore.fill] at hd
  rw [fillStarts]
  split at hd
  case isTrue hfull =>
    rw [if_pos hfull]
    exact hflush d' hd
  case isFalse hroom =>
    rw [if_neg hroom, List.append_nil]
    obtain rfl := Option.some.inj hd
    exact h

/-- A new volume. -/
theorem Meets.newtape {starts : Spcl × Writer → List Start}
    (hflush : ∀ ss d', Meets low next n (DumpRestore.newtapeHeader o d).2 ss →
      flush (DumpRestore.newtapeHeader o d) = some d' →
      Meets low next n d'.2 (ss ++ starts (DumpRestore.newtapeHeader o d)))
    (hslp : next ≤ d'.2.slp.inode) (h : Meets low next n d.2 ss)
    (hd : DumpRestore.fill o flush (DumpRestore.newtapeHeader o d) = some d') :
    Meets low next n d'.2 (ss ++ newtapeStarts o flush starts d) := by
  rw [newtapeStarts, hd]
  dsimp only
  rw [← List.singleton_append, ← List.append_assoc]
  set inode := if (fillStarts o starts (DumpRestore.newtapeHeader o d)).isEmpty then
    d'.2.slp.inode else 0 with hinode
  have hstart : Meets low next n d.2 (ss ++ [⟨inode, d.2.flushed.length⟩]) := by
    refine h.started fun hne => ?_
    rw [hinode] at hne ⊢
    split at hne
    · rwa [if_pos ‹_›]
    · exact absurd rfl hne
  have hheader := hstart.newtapeHeader (o := o)
  exact Meets.fill_of (fun _ => hflush _ _ hheader) hheader hd

end Fill

/-- After a flush the slave whose buffer is filled has the inode that is being dumped. -/
theorem le_slp_flushtape {reports : List Report} (hreports : ∀ rep ∈ reports, low ≤ rep.curino)
    (hd : flushtape o reports d = some d') : low ≤ d'.2.slp.inode := by
  induction reports generalizing d d' with
  | nil => cases hd
  | cons rep reports ih =>
    obtain ⟨hrep, hreports⟩ := List.forall_mem_cons.mp hreports
    rw [DumpRestore.flushtape] at hd
    split at hd
    case isTrue =>
      rw [DumpRestore.rollforward] at hd
      split at hd
      · cases hd
      · obtain ⟨blks, -, rfl⟩ := Option.map_eq_some_iff.mp hd
        exact hrep
    case isFalse =>
      dsimp only at hd
      split at hd
      case isTrue =>
        obtain ⟨e, he, rfl⟩ := Option.map_eq_some_iff.mp hd
        have hinode : low ≤ e.2.slp.inode := le_slp_fill (fun _ => ih hreports) hrep he
        exact hinode
      case isFalse =>
        obtain rfl := Option.some.inj hd
        exact hrep

/-- **A flush.** -/
theorem Meets.flushtape (hle : next ≤ low) (h : Meets low next n d.2 ss) {reports : List Report}
    (hreports : ∀ rep ∈ reports, low ≤ rep.curino) (hd : flushtape o reports d = some d') :
    Meets low next n d'.2 (ss ++ flushStarts o reports d) := by
  induction reports generalizing d d' ss with
  | nil => cases hd
  | cons rep reports ih =>
    obtain ⟨hrep, hreports⟩ := List.forall_mem_cons.mp hreports
    have hrings := h.send hreports
    rw [DumpRestore.flushtape] at hd
    rw [flushStarts]
    split at hd
    case isTrue heot =>
      rw [if_pos heot]
      exact Rings.rollforward (d := (d.1, { d.2.send with reports := reports })) hrings
        (hle.trans hrep) hd
    case isFalse heot =>
      rw [if_neg heot]
      have hnext := Rings.nextBuffer (o := o) (d := (d.1, { d.2.send with reports := reports }))
        hrings d.2.slp.firstrec (hle.trans hrep)
      dsimp only at hd ⊢
      split at hd
      case isTrue hfull =>
        rw [if_pos hfull]
        obtain ⟨e, he, rfl⟩ := Option.map_eq_some_iff.mp hd
        have hinode : low ≤ e.2.slp.inode :=
          le_slp_fill (fun _ => le_slp_flushtape hreports) hrep he
        have hmeets := hnext.newtape (fun _ _ h => ih h hreports) (hle.trans hinode) he
        exact hmeets
      case isFalse hfull =>
        rw [if_neg hfull, List.append_nil]
        obtain rfl := Option.some.inj hd
        exact hnext

theorem Meets.fill (hle : next ≤ low) (h : Meets low next n d.2 ss)
    (hd : DumpRestore.fill o (DumpRestore.flushtape o d.2.reports) d = some d') :
    Meets low next n d'.2 (ss ++ fillStarts o (flushStarts o d.2.reports) d) :=
  Meets.fill_of (fun _ => h.flushtape hle h.reports) h hd

theorem Meets.dumpblockLoop (hle : next ≤ low) (h : Meets low next n d.2 ss)
    {fuel dblkno tpblks : ℕ} (hd : DumpRestore.dumpblockLoop o fuel dblkno tpblks d = some d') :
    Meets low next n d'.2 (ss ++ dumpblockStarts o fuel dblkno tpblks d) := by
  induction fuel generalizing dblkno tpblks d ss with
  | zero =>
    obtain rfl := Option.some.inj hd
    rwa [dumpblockStarts, List.append_nil]
  | succ fuel ih =>
    simp only [DumpRestore.dumpblockLoop, dumpblockStarts] at hd ⊢
    split at hd
    case isTrue havail =>
      rw [if_pos havail]
      obtain ⟨e, he, hrest⟩ := Option.bind_eq_some_iff.mp hd
      have hput : Meets low next n (putblocks dblkno (min tpblks (o.ntrec - d.2.trecno)) d).2 ss :=
        h.put _ _
      rw [he, ← List.append_assoc]
      exact ih (hput.fill hle he) hrest
    case isFalse hnone =>
      rw [if_neg hnone, List.append_nil]
      obtain rfl := Option.some.inj hd
      exact h

end Steps

/-! ## Runs -/

section Runs

variable {o : DumpOptions} {fs : Ext2Fs} {low next n : ℕ} {s : DumpState}

/-- The law in a state of a dump. -/
def MeetsIn (low next n : ℕ) (s : DumpState) : Prop :=
  ∀ w, s.writer = some w → Meets low next n w s.starts

/-- A call that goes to the tape layer. -/
theorem MeetsIn.call (hle : next ≤ low) (h : MeetsIn low next n s) (c : WriterCall) :
    MeetsIn low next n (DumpCall.exec o fs s (.call c)) := by
  intro w hw
  have hstarts : ∀ v, s.writer = some v → (DumpCall.exec o fs s (.call c)).starts =
      s.starts ++ c.starts o fs (s.spcl, some v) := fun v hv => by
    simp only [DumpCall.exec, hv]
  cases c with
  | assign f =>
    have hv : s.writer = some w := hw
    rw [hstarts w hv]
    exact (List.append_nil s.starts).symm ▸ h w hv
  | writeheader ino =>
    obtain ⟨v, hv, hfv⟩ := onWriter_eq_some hw
    rw [hstarts v hv]
    have hput := (h v hv).putrec (d := (sealHeader ino s.spcl, v))
      (.spcl (sealHeader ino s.spcl))
    exact hput.fill hle hfv
  | writerec b =>
    obtain ⟨v, hv, hfv⟩ := onWriter_eq_some hw
    rw [hstarts v hv]
    exact ((h v hv).putrec (d := (s.spcl, v)) (.data b)).fill hle hfv
  | dumpblock blkno size =>
    obtain ⟨v, hv, hfv⟩ := onWriter_eq_some hw
    rw [hstarts v hv]
    exact (h v hv).dumpblockLoop (d := (s.spcl, v)) hle hfv

theorem MeetsIn.getino (h : MeetsIn low next n s) {low' inum : ℕ} (hlow : low' ≤ inum) :
    MeetsIn low' next n (DumpCall.exec o fs s (.getino inum)) := by
  intro w hw
  obtain ⟨v, hv, rfl⟩ := Option.map_eq_some_iff.mp hw
  have hmeets := h v hv
  refine ⟨hmeets.order.more le_rfl, hmeets.slp, hmeets.others, hmeets.starts, fun rep hrep => ?_⟩
  obtain ⟨r, -, rfl⟩ := List.mem_map.mp hrep
  exact hlow

/-- The inodes that a call makes the one being dumped. -/
def DumpCall.From (low : ℕ) : DumpCall → Prop
  | .getino inum => low ≤ inum
  | .call _ => True

theorem DumpCall.from_zero (c : DumpCall) : c.From 0 := by
  cases c with
  | getino inum => exact Nat.zero_le inum
  | call c => trivial

/-- **The law along a dump** in which no inode before `low` is dumped any more. -/
theorem MeetsIn.foldl (hle : next ≤ low) (h : MeetsIn low next n s) {calls : List DumpCall}
    (hcalls : ∀ c ∈ calls, c.From low) :
    MeetsIn low next n (calls.foldl (DumpCall.exec o fs) s) := by
  induction calls generalizing s with
  | nil => exact h
  | cons c calls ih =>
    obtain ⟨hc, hcalls⟩ := List.forall_mem_cons.mp hcalls
    refine ih ?_ hcalls
    cases c with
    | getino inum => exact h.getino hc
    | call c => exact h.call hle c

/-- The header of an inode that is being dumped. -/
theorem MeetsIn.writeheader {m : ℕ} (h : MeetsIn low 0 m s) {w : Writer}
    (hw : s.writer = some w) (next ino : ℕ) (hle : next ≤ low) :
    MeetsIn low next w.handed (DumpCall.exec o fs s (.call (.writeheader ino))) := by
  intro v hv
  obtain ⟨w', hw', hfv⟩ := onWriter_eq_some hv
  obtain rfl := Option.some.inj (hw.symm.trans hw')
  have hmeets := h w hw
  have hput := meets_put hmeets.order hmeets.reports next (.buffer (.spcl (sealHeader ino s.spcl)))
    Nat.one_pos
  have hheader : Meets low next w.handed
      (DumpRestore.putrec (.spcl (sealHeader ino s.spcl)) (sealHeader ino s.spcl, w)).2 s.starts :=
    hput.grow rfl id rfl id rfl
  have hstarts : (DumpCall.exec o fs s (.call (.writeheader ino))).starts =
      s.starts ++ WriterCall.starts o fs (.writeheader ino) (s.spcl, some w) := by
    simp only [DumpCall.exec, hw]
  rw [hstarts]
  exact hheader.fill hle hfv

/-- The first volume. -/
theorem meetsIn_firstVolume (o : DumpOptions) (h : Spcl) (reports : List Report) (curino : ℕ) :
    MeetsIn 0 0 0 (firstVolume o h ((alloctape reports).setCurino curino)) := by
  intro w hw
  obtain ⟨v, hv, hfv⟩ := onWriter_eq_some hw
  obtain rfl := Option.some.inj hv
  obtain ⟨e, he, heq⟩ := Option.map_eq_some_iff.mp hfv
  set v := (alloctape reports).setCurino curino
  have hnone : Meets 0 0 0 v [] :=
    ⟨⟨.nil, fun s hs => absurd hs List.not_mem_nil⟩, fun hlt => absurd hlt (Nat.not_lt_zero _),
      by simp [v, alloctape, Writer.setCurino, Resent, slavesMax],
      fun s hs => absurd hs List.not_mem_nil, fun _ _ => Nat.zero_le _⟩
  have hmeets := Meets.newtape (d := ({ h with cTapea := 0 }, v))
    (fun _ _ hheader => hheader.flushtape le_rfl hheader.reports) (Nat.zero_le _) hnone he
  have hwriter : w = e.2 := congrArg Prod.snd heq.symm
  rw [hwriter]
  exact hmeets

end Runs

end DumpRestore
