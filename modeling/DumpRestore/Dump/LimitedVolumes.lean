import DumpRestore.Dump.VolumeInodes
import DumpRestore.Dump.VolumeLimits

/-!
# Dumps with limits

The writer of a dump with `-B` gets its reports from the counters of `flushtape`. Each volume but
the first one is started by the block that fills the one before.

* `Steady` is the law of such a writer, and `Steadily.foldl` the law along a dump.
* `onVolume` are the blocks of a volume, and `LimitsKept` is what is promised of them.
* `limits_kept` is the main theorem, and `not_limits_kept` shows where limits are not kept.
-/

namespace DumpRestore

open Cuts

/-! ## The writer -/

/-- The records that some requests stand for. -/
def records (blk : List Req) : ℕ := (blk.map Req.count).sum

theorem records_concat (blk : List Req) (q : Req) :
    records (blk ++ [q]) = records blk + q.count := by
  simp [records]

/-- The writer after `given` records other than headers of volumes: a new volume is started where
`full` says so, and each block that went to a slave has `ntrec` records. With `pending` the header
of the last volume is still to come. At least `more` reports are left, and where a block is one
record no report is full right after the start of a volume. -/
structure Steady (o : DumpOptions) (full : List Bool) (pending : Bool) (given more : ℕ) (w : Writer)
    (ss : List Start) : Prop where
  starts : ss.map Start.blocks = 0 :: marks 0 (full.take w.flushed.length)
  blocks : ∀ blk ∈ w.flushed, records blk = o.ntrec
  buffer : records w.req = w.trecno
  count : o.ntrec * w.flushed.length + w.trecno + pending.toNat = given + ss.length
  opened : ∀ s ∈ ss, o.ntrec * s.blocks < o.ntrec * w.flushed.length + w.trecno + pending.toNat
  noeot : ∀ rep ∈ w.reports, rep.eot = false
  ahead : w.reports.map Report.full = full.drop w.flushed.length
  quiet : o.ntrec = 1 → (pending :: w.reports.map Report.full).IsChain
    fun first full => first = true → full = false
  left : more ≤ w.reports.length
  within : w.flushed.length ≤ full.length

section Writer

variable {o : DumpOptions} {full : List Bool} {pending : Bool} {given more : ℕ}
  {d : Spcl × Writer} {w : Writer} {ss : List Start}

theorem Steady.fewer (h : Steady o full pending given more w ss) {more' : ℕ} (hle : more' ≤ more) :
    Steady o full pending given more' w ss :=
  ⟨h.starts, h.blocks, h.buffer, h.count, h.opened, h.noeot, h.ahead, h.quiet, hle.trans h.left,
    h.within⟩

theorem Steady.put (h : Steady o full false given more w ss) (src : Source) (count : ℕ) :
    Steady o full false (given + count) more (w.put src count) ss where
  starts := h.starts
  blocks := h.blocks
  buffer := (records_concat _ _).trans (congrArg (· + count) h.buffer)
  count := by
    have hcount := h.count
    simp only [Writer.put]
    omega
  opened s hs := by
    have hlt := h.opened s hs
    simp only [Writer.put]
    omega
  noeot := h.noeot
  ahead := h.ahead
  quiet := h.quiet
  left := h.left
  within := h.within

theorem Steady.putrec (h : Steady o full false given more d.2 ss) (r : Rec) :
    Steady o full false (given + 1) more (putrec r d).2 ss :=
  have hput := h.put (.buffer r) 1
  ⟨hput.starts, hput.blocks, hput.buffer, hput.count, hput.opened, hput.noeot, hput.ahead,
    hput.quiet, hput.left, hput.within⟩

/-- The header of the volume that was started. -/
theorem Steady.newtapeHeader (h : Steady o full true given more d.2 ss) :
    Steady o full false given more (newtapeHeader o d).2 ss where
  starts := h.starts
  blocks := h.blocks
  buffer := (records_concat _ _).trans (congrArg (· + 1) h.buffer)
  count := h.count
  opened := h.opened
  noeot := h.noeot
  ahead := h.ahead
  quiet hsingle := by
    have hchain := (h.quiet hsingle).tail
    cases hreports : d.2.reports with
    | nil =>
      have hnil : (DumpRestore.newtapeHeader o d).2.reports = [] := hreports
      rw [hnil]
      exact .singleton _
    | cons rep reports =>
      have hcons : (DumpRestore.newtapeHeader o d).2.reports = rep :: reports := hreports
      rw [hcons]
      rw [hreports] at hchain
      exact .cons_cons (fun hfalse => by cases hfalse) hchain
  left := h.left
  within := h.within

/-- What a writer sends as the report says. -/
theorem Steady.send (h : Steady o full false given (more + 1) d.2 ss) {rep : Report}
    {reports : List Report} (hreports : d.2.reports = rep :: reports)
    (hroom : d.2.trecno = o.ntrec) (lastfirstrec : ℤ) (inode : ℕ) :
    Steady o full rep.full given more
      (nextBuffer o lastfirstrec rep.curino (d.1, { d.2.send with reports := reports })).2
      (ss ++ if rep.full then [⟨inode, d.2.flushed.length + 1⟩] else []) := by
  have hahead := h.ahead
  rw [hreports, List.map_cons] at hahead
  have hlt : d.2.flushed.length < full.length := by
    by_contra hge
    rw [List.drop_eq_nil_of_le (Nat.not_lt.mp hge)] at hahead
    cases hahead
  rw [List.drop_eq_getElem_cons hlt] at hahead
  obtain ⟨hfull, hahead⟩ := List.cons.inj hahead
  have htake : full.take (d.2.flushed.length + 1) = full.take d.2.flushed.length ++ [rep.full] := by
    rw [List.take_succ_eq_append_getElem hlt, hfull]
  have hlen : (d.2.flushed ++ [d.2.req]).length = d.2.flushed.length + 1 := by simp
  have hcount := h.count
  rw [hroom] at hcount
  refine ⟨?_, ?_, rfl, ?_, ?_, ?_, ?_, ?_, ?_, hlen.trans_le hlt⟩
  · change _ = 0 :: marks 0 (full.take (d.2.flushed ++ [d.2.req]).length)
    rw [hlen, htake, marks_concat, List.map_append, h.starts, List.length_take_of_le hlt.le,
      Nat.zero_add, List.cons_append]
    cases rep.full <;> rfl
  · intro blk hblk
    rcases List.mem_append.mp hblk with hblk | hblk
    · exact h.blocks blk hblk
    · obtain rfl := List.mem_singleton.mp hblk
      exact h.buffer.trans hroom
  · change o.ntrec * (d.2.flushed ++ [d.2.req]).length + 0 + _ = _
    rw [hlen, List.length_append, Nat.mul_succ]
    cases rep.full <;> simp at hcount ⊢ <;> omega
  · change ∀ s ∈ _, _ < o.ntrec * (d.2.flushed ++ [d.2.req]).length + 0 + _
    rw [hlen]
    intro s hs
    rcases List.mem_append.mp hs with hs | hs
    · have hlt := h.opened s hs
      rw [hroom] at hlt
      rw [Nat.mul_succ]
      simp only [Bool.toNat_false] at hlt
      omega
    · cases hrep : rep.full with
      | false =>
        rw [hrep] at hs
        cases hs
      | true =>
        rw [hrep, if_pos rfl] at hs
        obtain rfl := List.mem_singleton.mp hs
        exact Nat.lt_succ_self _
  · exact fun r hr => h.noeot r (hreports ▸ List.mem_cons_of_mem _ hr)
  · change _ = full.drop (d.2.flushed ++ [d.2.req]).length
    rw [hlen]
    exact hahead
  · intro hsingle
    have hchain := (h.quiet hsingle).tail
    rwa [hreports] at hchain
  · have hleft := h.left
    rw [hreports, List.length_cons] at hleft
    exact Nat.le_of_succ_le_succ hleft

/-- The buffer is full, and no new volume is started. -/
theorem Steady.flushtape_of_not_full (h : Steady o full false given (more + 1) d.2 ss)
    {rep : Report} {reports : List Report} (hreports : d.2.reports = rep :: reports)
    (hroom : d.2.trecno = o.ntrec) (hnot : rep.full = false) :
    ∃ d', flushtape o d.2.reports d = some d' ∧ flushStarts o d.2.reports d = [] ∧
      Steady o full false given more d'.2 ss ∧ d'.2.trecno = 0 := by
  have heot := h.noeot rep (hreports ▸ List.mem_cons_self)
  have hsend := h.send hreports hroom d.2.slp.firstrec 0
  rw [hnot, if_neg (by decide), List.append_nil] at hsend
  refine ⟨_, ?_, ?_, hsend, rfl⟩
  · rw [hreports, DumpRestore.flushtape, if_neg (by simp [heot])]
    dsimp only
    rw [if_neg (by simp [hnot])]
  · rw [hreports, flushStarts, if_neg (by simp [heot])]
    dsimp only
    rw [if_neg (by simp [hnot])]

/-- The header of the volume goes into the buffer and, where a block is one record, on tape. -/
theorem Steady.newtape (hpos : 0 < o.ntrec) (h : Steady o full true given (more + 1) d.2 ss)
    (hempty : d.2.trecno = 0) :
    ∃ d', fill o (flushtape o d.2.reports) (DumpRestore.newtapeHeader o d) = some d' ∧
      fillStarts o (flushStarts o d.2.reports) (DumpRestore.newtapeHeader o d) = [] ∧
      Steady o full false given more d'.2 ss ∧ d'.2.trecno < o.ntrec := by
  have hheader := h.newtapeHeader
  have htrecno : (DumpRestore.newtapeHeader o d).2.trecno = 1 := congrArg (· + 1) hempty
  by_cases hsingle : o.ntrec = 1
  · have hchain := h.quiet hsingle
    have hleft := h.left
    cases hreports : d.2.reports with
    | nil =>
      rw [hreports] at hleft
      cases hleft
    | cons rep reports =>
      rw [hreports, List.map_cons] at hchain
      have hnot : rep.full = false := (List.isChain_cons_cons.mp hchain).1 rfl
      obtain ⟨d', hd', hstarts, hd, htrecno'⟩ :=
        hheader.flushtape_of_not_full hreports (htrecno.trans hsingle.symm) hnot
      rw [← hreports]
      refine ⟨d', ?_, ?_, hd, htrecno' ▸ hpos⟩
      · exact (if_pos (htrecno.trans hsingle.symm).ge).trans hd'
      · exact (if_pos (htrecno.trans hsingle.symm).ge).trans hstarts
  · have hnot : ¬(DumpRestore.newtapeHeader o d).2.trecno ≥ o.ntrec := by omega
    exact ⟨_, if_neg hnot, if_neg hnot, hheader.fewer (Nat.le_succ _), Nat.not_le.mp hnot⟩

/-- **A flush** needs two reports at most. -/
theorem Steady.flushtape (hpos : 0 < o.ntrec) (h : Steady o full false given (more + 2) d.2 ss)
    (hroom : d.2.trecno = o.ntrec) : ∃ d', flushtape o d.2.reports d = some d' ∧
      Steady o full false given more d'.2 (ss ++ flushStarts o d.2.reports d) ∧
      d'.2.trecno < o.ntrec := by
  have hleft := h.left
  cases hreports : d.2.reports with
  | nil =>
    rw [hreports] at hleft
    cases hleft
  | cons rep reports =>
    have heot := h.noeot rep (hreports ▸ List.mem_cons_self)
    cases hfull : rep.full with
    | false =>
      obtain ⟨d', hd', hstarts, hd, htrecno⟩ := h.flushtape_of_not_full hreports hroom hfull
      rw [← hreports, hstarts, List.append_nil]
      exact ⟨d', hd', hd.fewer (Nat.le_succ _), htrecno ▸ hpos⟩
    | true =>
      let e := nextBuffer o d.2.slp.firstrec rep.curino (d.1, { d.2.send with reports := reports })
      have hsend (inode : ℕ) : Steady o full true given (more + 1) e.2
          (ss ++ [⟨inode, e.2.flushed.length⟩]) := by
        have hnext := h.send hreports hroom d.2.slp.firstrec inode
        rw [hfull, if_pos rfl] at hnext
        have hlen : e.2.flushed.length = d.2.flushed.length + 1 := List.length_append
        rwa [hlen]
      obtain ⟨e', he', -, -, htrecno⟩ := (hsend 0).newtape hpos rfl
      obtain ⟨e'', he'', hstarts, hsteady, -⟩ := (hsend e'.2.slp.inode).newtape hpos rfl
      obtain rfl := Option.some.inj (he'.symm.trans he'')
      have hflush : flushStarts o (rep :: reports) d =
          [⟨e'.2.slp.inode, e.2.flushed.length⟩] := by
        rw [flushStarts, if_neg (by simp [heot])]
        dsimp only
        rw [if_pos hfull]
        change newtapeStarts o (DumpRestore.flushtape o e.2.reports)
          (flushStarts o e.2.reports) e = _
        rw [newtapeStarts, he']
        dsimp only
        rw [hstarts]
        rfl
      refine ⟨(clearNewheader e'.1, e'.2), ?_, hflush ▸ hsteady, htrecno⟩
      rw [DumpRestore.flushtape, if_neg (by simp [heot])]
      dsimp only
      rw [if_pos hfull, startnewtape]
      exact congrArg (Option.map _) he'

theorem Steady.fill (hpos : 0 < o.ntrec) (h : Steady o full false given (more + 2) d.2 ss)
    (hroom : d.2.trecno ≤ o.ntrec) :
    ∃ d', DumpRestore.fill o (DumpRestore.flushtape o d.2.reports) d = some d' ∧
      Steady o full false given more d'.2 (ss ++ fillStarts o (flushStarts o d.2.reports) d) ∧
      d'.2.trecno < o.ntrec := by
  by_cases hge : d.2.trecno ≥ o.ntrec
  · rw [DumpRestore.fill, fillStarts, if_pos hge, if_pos hge]
    exact h.flushtape hpos (le_antisymm hroom hge)
  · rw [DumpRestore.fill, fillStarts, if_neg hge, if_neg hge, List.append_nil]
    exact ⟨d, rfl, h.fewer (Nat.le_add_right _ 2), Nat.not_le.mp hge⟩

theorem Steady.dumpblockLoop (hpos : 0 < o.ntrec) {fuel tpblks : ℕ} (dblkno : ℕ)
    (h : Steady o full false given (2 * tpblks + more) d.2 ss) (hroom : d.2.trecno < o.ntrec)
    (hfuel : tpblks ≤ fuel) : ∃ d', dumpblockLoop o fuel dblkno tpblks d = some d' ∧
      Steady o full false (given + tpblks) more d'.2
        (ss ++ dumpblockStarts o fuel dblkno tpblks d) ∧ d'.2.trecno < o.ntrec := by
  induction fuel generalizing dblkno tpblks given d ss with
  | zero =>
    obtain rfl : tpblks = 0 := Nat.le_zero.mp hfuel
    rw [Nat.mul_zero, Nat.zero_add] at h
    rw [dumpblockStarts, List.append_nil]
    exact ⟨d, rfl, h, hroom⟩
  | succ fuel ih =>
    simp only [DumpRestore.dumpblockLoop, dumpblockStarts]
    set avail := min tpblks (o.ntrec - d.2.trecno) with havail
    by_cases hsome : avail > 0
    · rw [if_pos hsome, if_pos hsome]
      have hput : Steady o full false (given + avail) (2 * (tpblks - avail) + more + 2)
          (putblocks dblkno avail d).2 ss := (h.fewer (by omega)).put _ _
      have hle : (putblocks dblkno avail d).2.trecno ≤ o.ntrec := by
        change d.2.trecno + avail ≤ o.ntrec
        omega
      obtain ⟨e, he, hsteady, hless⟩ := hput.fill hpos hle
      obtain ⟨d', hd', hrest, hroom'⟩ :=
        ih (dblkno + avail * (tpBsize / devBsize)) hsteady hless (by omega)
      rw [he, Option.bind_some]
      rw [Nat.add_assoc, Nat.add_sub_cancel' (by omega), List.append_assoc] at hrest
      exact ⟨d', hd', hrest, hroom'⟩
    · obtain rfl : tpblks = 0 := by omega
      rw [Nat.mul_zero, Nat.zero_add] at h
      rw [if_neg hsome, if_neg hsome, List.append_nil]
      exact ⟨d, rfl, h, hroom⟩

end Writer

/-! ## Runs -/

/-- The records that a call hands in. -/
def WriterCall.given : WriterCall → ℕ
  | .assign _ => 0
  | .writeheader _ => 1
  | .writerec _ => 1
  | .dumpblock _ size => size / tpBsize

/-- The records that a call of a dump hands in. -/
def DumpCall.given : DumpCall → ℕ
  | .getino _ => 0
  | .call c => c.given

/-- The records that a dump hands in, headers of volumes apart. -/
def given (calls : List DumpCall) : ℕ := (calls.map DumpCall.given).sum

section Runs

variable {o : DumpOptions} {fs : Ext2Fs} {full : List Bool} {n more : ℕ} {s : DumpState}

/-- The law of a writer that still runs. -/
def Steadily (o : DumpOptions) (full : List Bool) (n more : ℕ) (s : DumpState) : Prop :=
  ∃ w, s.writer = some w ∧ Steady o full false n more w s.starts ∧ w.trecno < o.ntrec

theorem Steadily.call (hpos : 0 < o.ntrec) {c : WriterCall}
    (h : Steadily o full n (2 * c.given + more) s) :
    Steadily o full (n + c.given) more (DumpCall.exec o fs s (.call c)) := by
  obtain ⟨w, hw, hsteady, hroom⟩ := h
  have hstarts : (DumpCall.exec o fs s (.call c)).starts =
      s.starts ++ c.starts o fs (s.spcl, some w) := by
    simp only [DumpCall.exec, hw]
  rw [Steadily, hstarts]
  cases c with
  | assign f =>
    refine ⟨w, hw, ?_, hroom⟩
    exact (List.append_nil s.starts).symm ▸ hsteady.fewer (Nat.le_add_left _ _)
  | writeheader ino =>
    have hput := (hsteady.fewer (Nat.add_comm _ _).le).putrec (d := (sealHeader ino s.spcl, w))
      (.spcl (sealHeader ino s.spcl))
    obtain ⟨d', hd', hsteady', hroom'⟩ := hput.fill hpos hroom
    refine ⟨d'.2, ?_, hsteady', hroom'⟩
    have hrun : writerec o (.spcl (sealHeader ino s.spcl)) (sealHeader ino s.spcl, w) = some d' :=
      hd'
    simp only [DumpCall.exec, WriterCall.exec, DumpRestore.writeheader, writer, onWriter,
      modifySpcl, hw, hrun]
  | writerec b =>
    have hput := (hsteady.fewer (Nat.add_comm _ _).le).putrec (d := (s.spcl, w)) (.data b)
    obtain ⟨d', hd', hsteady', hroom'⟩ := hput.fill hpos hroom
    refine ⟨d'.2, ?_, hsteady', hroom'⟩
    have hrun : DumpRestore.writerec o (.data b) (s.spcl, w) = some d' := hd'
    simp only [DumpCall.exec, WriterCall.exec, writer, onWriter, hw, hrun]
  | dumpblock blkno size =>
    obtain ⟨d', hd', hsteady', hroom'⟩ := Steady.dumpblockLoop (d := (s.spcl, w)) hpos
      (fs.fsbtodb blkno) hsteady hroom le_rfl
    refine ⟨d'.2, ?_, hsteady', hroom'⟩
    have hrun : DumpRestore.dumpblock o fs blkno size (s.spcl, w) = some d' := hd'
    simp only [DumpCall.exec, WriterCall.exec, writer, onWriter, hw, hrun]

theorem Steadily.getino (h : Steadily o full n more s) (inum : ℕ) :
    Steadily o full n more (DumpCall.exec o fs s (.getino inum)) := by
  obtain ⟨w, hw, hsteady, hroom⟩ := h
  have hfull : (w.setCurino inum).reports.map Report.full = w.reports.map Report.full := by
    simp [Writer.setCurino, Function.comp_def]
  refine ⟨w.setCurino inum, by simp [DumpCall.exec, hw], ⟨hsteady.starts, hsteady.blocks,
    hsteady.buffer, hsteady.count, hsteady.opened, ?_, hfull.trans hsteady.ahead, ?_, ?_,
    hsteady.within⟩, hroom⟩
  · intro rep hrep
    obtain ⟨r, hr, rfl⟩ := List.mem_map.mp hrep
    exact hsteady.noeot r hr
  · rw [hfull]
    exact hsteady.quiet
  · exact hsteady.left.trans (List.length_map _).ge

/-- **The law along a dump** with enough reports. -/
theorem Steadily.foldl (hpos : 0 < o.ntrec) {calls : List DumpCall}
    (h : Steadily o full n (2 * given calls + more) s) :
    Steadily o full (n + given calls) more (calls.foldl (DumpCall.exec o fs) s) := by
  induction calls generalizing n s with
  | nil =>
    rw [given, List.map_nil, List.sum_nil, Nat.mul_zero, Nat.zero_add] at h
    exact h
  | cons c calls ih =>
    have hgiven : given (c :: calls) = c.given + given calls := by simp [given]
    rw [hgiven, Nat.mul_add, Nat.add_assoc] at h
    rw [hgiven, ← Nat.add_assoc]
    refine ih ?_
    cases c with
    | getino inum =>
      rw [DumpCall.given, Nat.mul_zero, Nat.zero_add] at h
      exact h.getino inum
    | call c => exact h.call hpos

/-- The first volume. -/
theorem steadily_firstVolume (hpos : 0 < o.ntrec) (h : Spcl) {reports : List Report} (curino : ℕ)
    (hnoeot : ∀ rep ∈ reports, rep.eot = false)
    (hquiet : o.ntrec = 1 → (true :: reports.map Report.full).IsChain
      fun first full => first = true → full = false)
    (hleft : more + 1 ≤ reports.length) :
    Steadily o (reports.map Report.full) 0 more
      (firstVolume o h ((alloctape reports).setCurino curino)) := by
  set w := (alloctape reports).setCurino curino with hw
  have hfull : w.reports.map Report.full = reports.map Report.full := by
    simp [hw, alloctape, Writer.setCurino, Function.comp_def]
  have hstart (inode : ℕ) :
      Steady o (reports.map Report.full) true 0 (more + 1) w [⟨inode, 0⟩] := by
    refine ⟨rfl, fun blk hblk => absurd hblk List.not_mem_nil, rfl, rfl, fun s hs => ?_, ?_, hfull,
      ?_, ?_, Nat.zero_le _⟩
    · obtain rfl := List.mem_singleton.mp hs
      exact Nat.lt_succ_self 0
    · intro rep hrep
      obtain ⟨r, hr, rfl⟩ := List.mem_map.mp hrep
      exact hnoeot r hr
    · rw [hfull]
      exact hquiet
    · exact hleft.trans (List.length_map _).ge
  let d : Spcl × Writer := ({ h with cTapea := 0 }, w)
  obtain ⟨e, he, -, -, hroom⟩ := Steady.newtape (d := d) hpos (hstart 0) rfl
  obtain ⟨e', he', hmore, hsteady, -⟩ := Steady.newtape (d := d) hpos (hstart e.2.slp.inode) rfl
  obtain rfl := Option.some.inj (he.symm.trans he')
  have hstarts : newtapeStarts o (flushtape o w.reports) (flushStarts o w.reports) d =
      [⟨e.2.slp.inode, 0⟩] := by
    change newtapeStarts o (flushtape o d.2.reports) (flushStarts o d.2.reports) d = _
    rw [newtapeStarts, he]
    dsimp only
    rw [hmore]
    rfl
  refine ⟨e.2, ?_, ?_, hroom⟩
  · have hrun : startnewtape o (flushtape o w.reports) d = some (clearNewheader e.1, e.2) := by
      rw [startnewtape]
      exact congrArg (Option.map _) he
    simp only [firstVolume, onWriter]
    rw [hrun]
  · change Steady o _ false 0 more e.2
      (newtapeStarts o (flushtape o w.reports) (flushStarts o w.reports) d)
    rw [hstarts]
    exact hsteady

end Runs

/-! ## The volumes -/

/-- The number of blocks before a volume. -/
def volumeStart (ss : List Start) (j : ℕ) : ℕ := (ss[j]?.map Start.blocks).getD 0

/-- The number of blocks up to its end, if there are `total`. -/
def volumeEnd (ss : List Start) (total j : ℕ) : ℕ := (ss[j + 1]?.map Start.blocks).getD total

/-- Of a list with an element for each block, those for the blocks of a volume. -/
def onVolume {α : Type*} (ss : List Start) (total j : ℕ) (l : List α) : List α :=
  (l.take (volumeEnd ss total j)).drop (volumeStart ss j)

/-- What is promised of the volumes of a dump: the run goes on, each volume keeps its limit, and all
but the last one have a record after their header. The last one has too, if the last call starts no
volume and leaves nothing in the buffer. -/
structure LimitsKept (o : VolumeOptions) (fs : Ext2Fs) (h : Spcl) (zs : List Work) (curino : ℕ)
    (calls : List DumpCall) (s : DumpState) (w : Writer) : Prop where
  run : s = dumpRun o.toDumpOptions fs h (reports o zs) curino calls
  writer : s.writer = some w
  volumes : s.starts.length ≤ given calls + 2
  limits : ∀ j < s.starts.length,
    (onVolume s.starts w.flushed.length j (sizes o zs)).sum ≤ o.limit j * 1024
  progress : ∀ j, j + 1 < s.starts.length →
    2 ≤ ((onVolume s.starts w.flushed.length j w.flushed).map records).sum
  last : ∀ cs c, calls = cs ++ [.call c] → 0 < c.given → w.trecno = 0 →
    (dumpRun o.toDumpOptions fs h (reports o zs) curino cs).starts = s.starts →
      2 ≤ ((onVolume s.starts w.flushed.length (s.starts.length - 1) w.flushed).map records).sum

section Volumes

variable {ss : List Start} {ps : List (ℕ × Bool)} {j : ℕ}

theorem length_starts (h : ss.map Start.blocks = 0 :: marks 0 (ps.map Prod.snd)) :
    ss.length = (cut ps).length := by
  have hlen := congrArg List.length (h.trans (sum_take_cut 0 ps))
  rwa [List.length_map, List.length_map, List.length_range] at hlen

theorem getElem?_starts (h : ss.map Start.blocks = 0 :: marks 0 (ps.map Prod.snd))
    (hj : j < (cut ps).length) :
    ss[j]?.map Start.blocks = some (((cut ps).map List.length).take j).sum := by
  rw [← List.getElem?_map, h, sum_take_cut, List.getElem?_map, List.getElem?_range hj,
    Option.map_some, Nat.zero_add]

theorem volumeStart_eq (h : ss.map Start.blocks = 0 :: marks 0 (ps.map Prod.snd))
    (hj : j < (cut ps).length) :
    volumeStart ss j = (((cut ps).map List.length).take j).sum := by
  rw [volumeStart, getElem?_starts h hj, Option.getD_some]

theorem volumeEnd_eq (h : ss.map Start.blocks = 0 :: marks 0 (ps.map Prod.snd))
    (hj : j < (cut ps).length) :
    volumeEnd ss ps.length j = (((cut ps).map List.length).take (j + 1)).sum := by
  rw [volumeEnd]
  by_cases hnext : j + 1 < (cut ps).length
  · rw [getElem?_starts h hnext, Option.getD_some]
  · have hnone : ss[j + 1]? = none := by
      rw [List.getElem?_eq_none_iff, length_starts h]
      omega
    rw [hnone, Option.map_none, Option.getD_none, List.take_of_length_le, sum_length_cut]
    rw [List.length_map]
    omega

theorem volumeEnd_le (h : ss.map Start.blocks = 0 :: marks 0 (ps.map Prod.snd))
    (hj : j < (cut ps).length) : volumeEnd ss ps.length j ≤ ps.length := by
  rw [volumeEnd_eq h hj]
  have hsum := List.sum_take_add_sum_drop ((cut ps).map List.length) (j + 1)
  rw [sum_length_cut] at hsum
  omega

/-- The elements for the blocks of a volume are one part of those for what was sent. -/
theorem onVolume_eq (h : ss.map Start.blocks = 0 :: marks 0 (ps.map Prod.snd)) {l c : List ℕ}
    (hl : l.take ps.length = ps.map Prod.fst) (hc : (cut ps)[j]? = some c) :
    onVolume ss ps.length j l = c := by
  have hj := (List.getElem?_eq_some_iff.mp hc).1
  have hend : l.take (volumeEnd ss ps.length j) =
      (ps.map Prod.fst).take (volumeEnd ss ps.length j) := by
    rw [← hl, List.take_take, min_eq_left (volumeEnd_le h hj)]
  rw [onVolume, hend, volumeEnd_eq h hj, volumeStart_eq h hj, drop_take_cut ps hc]

/-- The records of a volume whose blocks are all whole. -/
theorem sum_records_onVolume {n : ℕ} {blks : List (List Req)}
    (hblks : ∀ blk ∈ blks, records blk = n)
    (h : ss.map Start.blocks = 0 :: marks 0 (ps.map Prod.snd)) (hlen : blks.length = ps.length)
    {c : List ℕ} (hc : (cut ps)[j]? = some c) :
    ((onVolume ss ps.length j blks).map records).sum = n * c.length := by
  have hcount : (onVolume ss ps.length j blks).length = c.length := by
    rw [← onVolume_eq h (List.take_of_length_le (List.length_map _).le) hc]
    simp [onVolume, hlen]
  have hall : (onVolume ss ps.length j blks).map records = List.replicate c.length n := by
    rw [List.eq_replicate_iff, List.length_map]
    refine ⟨hcount, fun r hr => ?_⟩
    obtain ⟨blk, hblk, rfl⟩ := List.mem_map.mp hr
    exact hblks blk (List.mem_of_mem_take (List.mem_of_mem_drop hblk))
  rw [hall, List.sum_replicate, smul_eq_mul, Nat.mul_comm]

/-- The blocks of the last volume. -/
theorem length_last (h : ss.map Start.blocks = 0 :: marks 0 (ps.map Prod.snd)) {c : List ℕ}
    (hc : (cut ps)[ss.length - 1]? = some c) : ∃ s ∈ ss, s.blocks + c.length = ps.length := by
  have hj := (List.getElem?_eq_some_iff.mp hc).1
  have hlt : ss.length - 1 < ss.length := by rwa [← length_starts h] at hj
  refine ⟨ss[ss.length - 1], List.getElem_mem hlt, ?_⟩
  have hstart := getElem?_starts h hj
  rw [List.getElem?_eq_getElem hlt, Option.map_some, Option.some.injEq] at hstart
  obtain ⟨-, rfl⟩ := List.getElem?_eq_some_iff.mp hc
  have hsum := List.sum_take_succ ((cut ps).map List.length) (ss.length - 1)
    (by rwa [List.length_map])
  rw [List.take_of_length_le (by rw [List.length_map, ← length_starts h]; omega), sum_length_cut,
    List.getElem_map, ← hstart] at hsum
  exact hsum.symm

/-- Parts that are not the last have two records each. -/
theorem two_mul_length_le {n : ℕ} (cs : List (List ℕ))
    (h : ∀ i c, cs[i]? = some c → i + 1 < cs.length → 2 ≤ n * c.length) :
    2 * (cs.length - 1) ≤ n * (cs.map List.length).sum := by
  induction cs with
  | nil => exact Nat.zero_le _
  | cons c cs ih =>
    cases cs with
    | nil => exact Nat.zero_le _
    | cons c' cs =>
      have hfirst := h 0 c rfl (by simp)
      have hrest := ih fun i c hi hlt => h (i + 1) c hi (Nat.succ_lt_succ hlt)
      rw [List.map_cons, List.sum_cons, Nat.mul_add]
      simp only [List.length_cons] at hrest ⊢
      omega

end Volumes

section Main

variable {o : VolumeOptions} {fs : Ext2Fs} {h : Spcl} {zs : List Work} {curino : ℕ}

theorem reports_eq (hnoeot : ∀ z ∈ zs, z.eot = false) :
    reports o zs = ((firstAccount o).blocks o zs).map fun p => ⟨false, p.2, 0⟩ := by
  rw [reports, Account.run_eq hnoeot, List.map_map]
  rfl

theorem sizes_eq (hnoeot : ∀ z ∈ zs, z.eot = false) :
    sizes o zs = ((firstAccount o).blocks o zs).map Prod.fst := by
  rw [sizes, Account.run_eq hnoeot, List.flatMap_map, List.map_eq_flatMap]

theorem on_firstAccount (hfit : o.Fits) : (firstAccount o).On o 0 :=
  .newtape hfit (Nat.zero_min _).symm

/-- The writer in a dump whose limits fit. -/
theorem steadily_dumpRun (hfit : o.Fits) (hnoeot : ∀ z ∈ zs, z.eot = false) (fs : Ext2Fs) (h : Spcl)
    (curino : ℕ) {calls : List DumpCall} (hlong : 2 * given calls + 1 ≤ zs.length) :
    Steadily o.toDumpOptions (((firstAccount o).blocks o zs).map Prod.snd) (given calls) 0
      (dumpRun o.toDumpOptions fs h (reports o zs) curino calls) := by
  have hfull : (reports o zs).map Report.full = ((firstAccount o).blocks o zs).map Prod.snd := by
    rw [reports_eq hnoeot, List.map_map]
    rfl
  have hlen : (reports o zs).length = zs.length := by
    rw [reports_eq hnoeot, List.length_map, Account.length_blocks]
  have hnone : ∀ rep ∈ reports o zs, rep.eot = false := by
    rw [reports_eq hnoeot]
    intro rep hrep
    obtain ⟨p, -, rfl⟩ := List.mem_map.mp hrep
    rfl
  have hfirst : Steadily o.toDumpOptions ((reports o zs).map Report.full) 0 (2 * given calls + 0)
      (firstVolume o.toDumpOptions h ((alloctape (reports o zs)).setCurino curino)) := by
    refine steadily_firstVolume o.ntrec_pos h curino hnone (fun hsingle => ?_) (by rwa [hlen])
    rw [hfull]
    exact (on_firstAccount hfit).isChain_blocks hfit hsingle zs
  rw [hfull] at hfirst
  rw [← Nat.zero_add (given calls)]
  exact hfirst.foldl o.ntrec_pos

/-- **The limits are kept**, if each one has room for a block and the records that are needed. -/
theorem limits_kept (hfit : o.Fits) (hnoeot : ∀ z ∈ zs, z.eot = false) (calls : List DumpCall)
    (hlong : 2 * given calls + 1 ≤ zs.length) : ∃ s w, LimitsKept o fs h zs curino calls s w := by
  obtain ⟨w, hw, hsteady, -⟩ := steadily_dumpRun hfit hnoeot fs h curino hlong
  set s := dumpRun o.toDumpOptions fs h (reports o zs) curino calls with hs
  set ps := ((firstAccount o).blocks o zs).take w.flushed.length with hps
  have hlen : ps.length = w.flushed.length := by
    have hwithin := hsteady.within
    rw [List.length_map] at hwithin
    exact List.length_take_of_le hwithin
  have hstarts : s.starts.map Start.blocks = 0 :: marks 0 (ps.map Prod.snd) := by
    rw [hps, List.map_take]
    exact hsteady.starts
  have hsizes : (sizes o zs).take ps.length = ps.map Prod.fst := by
    rw [hlen, sizes_eq hnoeot, hps, List.map_take]
  have hkept : ∀ j c, (cut ps)[j]? = some c → c.sum ≤ o.limit j * 1024 ∧
      (j + 1 < (cut ps).length → 2 ≤ o.ntrec * c.length) := by
    intro j c hc
    have hcut : cutFrom (firstAccount o).clens
        ((firstAccount o).blocks o (zs.take w.flushed.length)) = cut ps := by
      rw [← Account.take_blocks]
      exact cutFrom_nil _
    have hblocks := (on_firstAccount hfit).blocks hfit (zs.take w.flushed.length) (i := j) (c := c)
    rw [hcut, Nat.zero_add] at hblocks
    exact hblocks hc
  have hvolume : ∀ j < s.starts.length, ∃ c, (cut ps)[j]? = some c := by
    intro j hj
    rw [length_starts hstarts] at hj
    exact ⟨_, List.getElem?_eq_getElem hj⟩
  have hcount := hsteady.count
  simp only [Bool.toNat_false, Nat.add_zero] at hcount
  refine ⟨s, w, hs, hw, ?_, ?_, ?_, ?_⟩
  · have hmany := two_mul_length_le (n := o.ntrec) (cut ps) fun i c hc => (hkept i c hc).2
    rw [sum_length_cut, hlen, ← length_starts hstarts] at hmany
    omega
  · intro j hj
    obtain ⟨c, hc⟩ := hvolume j hj
    rw [← hlen, onVolume_eq hstarts hsizes hc]
    exact (hkept j c hc).1
  · intro j hj
    obtain ⟨c, hc⟩ := hvolume j (Nat.lt_of_succ_lt hj)
    rw [← hlen, sum_records_onVolume hsteady.blocks hstarts hlen.symm hc]
    exact (hkept j c hc).2 (by rwa [← length_starts hstarts])
  · intro cs c hcalls hgiven hempty hsame
    have hsum : given calls = given cs + c.given := by
      rw [hcalls]
      simp [given, DumpCall.given]
    have hshort : 2 * given cs + 1 ≤ zs.length := by omega
    obtain ⟨v, -, hbefore, -⟩ := steadily_dumpRun hfit hnoeot fs h curino hshort
    have hne : s.starts ≠ [] := fun hnil => by
      rw [hnil] at hstarts
      cases hstarts
    have hpos := List.length_pos_iff.mpr hne
    obtain ⟨c', hc'⟩ := hvolume (s.starts.length - 1) (by omega)
    obtain ⟨last, hlast, hblocks⟩ := length_last hstarts hc'
    rw [← hlen, sum_records_onVolume hsteady.blocks hstarts hlen.symm hc']
    -- The header of the last volume was there before the last call.
    have hopened := hbefore.opened last (hsame ▸ hlast)
    have hcount' := hbefore.count
    rw [hsame] at hcount'
    rw [← hlen, ← hblocks, Nat.mul_add] at hcount
    omega

end Main

/-! ## Limits that are not kept -/

section Failures

/-- The values that `main` accepts. -/
def Accepted (ntrec : ℕ) (perfile : List ℕ) : Prop :=
  0 < ntrec ∧ ntrec ≤ 1024 ∧ perfile ≠ [] ∧ ∀ v ∈ perfile, 0 < v ∧ v < 2 ^ 63

instance (ntrec : ℕ) (perfile : List ℕ) : Decidable (Accepted ntrec perfile) :=
  inferInstanceAs (Decidable (_ ∧ _ ∧ _ ∧ _))

/-- A dump without compression to files. -/
def plainDump (ntrec : ℕ) (perfile : List ℕ) (h : Accepted ntrec perfile) : VolumeOptions where
  ntrec := ntrec
  compressed := false
  pipeout := false
  tsize := 0
  perfile := perfile
  ntrec_pos := h.1
  ntrec_le := h.2.1
  perfile_ne := h.2.2.1
  perfile_range := h.2.2.2

/-- A block that is not compressed. -/
def written (eot : Bool) : Work := ⟨eot, none, fun _ => none⟩

/-- Blocks of two records, in volumes of four. -/
theorem limits_kept_twoBlocks : ∃ s w, LimitsKept (plainDump 2 [4] (by decide)) smallFs default
    (List.replicate 13 (written false)) 2 (List.replicate 6 (.call (.writerec default))) s w :=
  limits_kept ⟨rfl, by decide, by decide, by decide⟩ (by decide) _ (by decide)

theorem startnewtape_eq_none {o : DumpOptions} (hsingle : o.ntrec = 1)
    {flush : Spcl × Writer → Option (Spcl × Writer)} (hflush : ∀ d, flush d = none)
    (d : Spcl × Writer) : startnewtape o flush d = none := by
  have hfull : (newtapeHeader o d).2.trecno ≥ o.ntrec := hsingle ▸ Nat.le_add_left 1 _
  rw [startnewtape, fill, if_pos hfull, hflush]
  rfl

/-- Where a block is one record and each report says that the volume is full, the header of a volume
only starts the next one. -/
theorem flushtape_eq_none {o : DumpOptions} (hsingle : o.ntrec = 1) {reports : List Report}
    (hreports : ∀ rep ∈ reports, rep.eot = false ∧ rep.full = true) (d : Spcl × Writer) :
    flushtape o reports d = none := by
  induction reports generalizing d with
  | nil => rfl
  | cons rep reports ih =>
    obtain ⟨⟨heot, hfull⟩, hreports⟩ := List.forall_mem_cons.mp hreports
    rw [flushtape, if_neg (by simp [heot])]
    dsimp only
    rw [if_pos hfull]
    exact startnewtape_eq_none hsingle (ih hreports) _

theorem full_blocks {o : VolumeOptions} {v : ℕ} {a : Account} (hcurrent : a.current = 1)
    (hblocks : a.blocksthisvol = 0) (hpipeout : o.pipeout = false) (hplain : o.compressed = false)
    (hperfile : o.perfile = [v]) (hle : v ≤ o.ntrec) (hv : v / o.ntrec * o.ntrec ≠ 0)
    (zs : List Work) : ∀ p ∈ a.blocks o zs, p.2 = true := by
  induction zs generalizing a with
  | nil => exact List.forall_mem_nil _
  | cons z zs ih =>
    have hfull : (a.send o z.worklen).full o = true := by
      have hround := Nat.div_mul_le_self v o.ntrec
      have hcurrent' : (a.send o z.worklen).current = 1 := hcurrent
      have hcount : (a.send o z.worklen).blocksthisvol = o.ntrec := by simp [Account.send, hblocks]
      rw [Account.full, hcurrent', hcount]
      simp only [VolumeOptions.blocksperfiles, hpipeout, hplain, hperfile, Bool.not_false,
        Bool.true_and, Bool.false_eq_true, if_false, List.map_cons, List.map_nil,
        List.getD_cons_succ, List.getD_cons_zero, hv, ne_eq, not_false_eq_true, if_true,
        decide_eq_true_eq]
      exact hround.trans hle
    rw [Account.blocks, hfull, List.forall_mem_cons, if_pos rfl]
    refine ⟨rfl, ih ?_ rfl⟩
    change (if a.current < o.blocksperfiles.headD 0 then a.current + 1 else a.current) = 1
    rw [VolumeOptions.blocksperfiles, List.headD_cons, hperfile, if_neg, hcurrent]
    rw [hcurrent]
    exact lt_irrefl _

/-- A volume that is not within its limit. -/
theorem not_limitsKept {o : VolumeOptions} {fs : Ext2Fs} {h : Spcl} {zs : List Work}
    {curino : ℕ} {calls : List DumpCall} (ss : List Start) (total j : ℕ)
    (hstarts : (dumpRun o.toDumpOptions fs h (reports o zs) curino calls).starts = ss)
    (htotal : (dumpRun o.toDumpOptions fs h (reports o zs) curino calls).writer.map
      (fun w => w.flushed.length) = some total)
    (hj : j < ss.length) (hlimit : o.limit j * 1024 < (onVolume ss total j (sizes o zs)).sum) :
    ¬∃ s w, LimitsKept o fs h zs curino calls s w := by
  rintro ⟨s, w, hkept⟩
  obtain rfl := hkept.run
  rw [hkept.writer] at htotal
  have hlen : w.flushed.length = total := Option.some.inj htotal
  have hle := hkept.limits j (by rwa [hstarts])
  rw [hstarts, hlen] at hle
  exact absurd hle (Nat.not_le.mpr hlimit)

/-- A limit of less than a block, one of a block of one record, and a volume that starts at an end
of tape. -/
theorem not_limits_kept :
    (¬∀ (o : VolumeOptions) (fs : Ext2Fs) (h : Spcl) (zs : List Work) (curino : ℕ)
      (calls : List DumpCall), (∀ z ∈ zs, z.eot = false) → 2 * given calls + 1 ≤ zs.length →
        ∃ s w, LimitsKept o fs h zs curino calls s w) ∧
      (∀ zs : List Work, (∀ z ∈ zs, z.eot = false) →
        (dumpRun (plainDump 1 [1] (by decide)).toDumpOptions smallFs default
          (reports (plainDump 1 [1] (by decide)) zs) 2 []).writer = none) ∧
      ¬∃ s w, LimitsKept (plainDump 2 [1000, 4] (by decide)) smallFs default
        ([false, false, true, false, false].map written) 2
        (List.replicate 5 (.call (.writerec default))) s w := by
  refine ⟨fun hall => ?_, fun zs hnoeot => ?_, ?_⟩
  · refine not_limitsKept [⟨0, 0⟩, ⟨2, 1⟩] 1 0 ?_ ?_ (by decide) ?_
      (hall (plainDump 2 [1] (by decide)) smallFs default (List.replicate 3 (written false)) 2
        [.call (.writerec default)] (by decide) (by decide))
    all_goals decide +kernel
  · set w := (alloctape (reports (plainDump 1 [1] (by decide)) zs)).setCurino 2
    have hfull : ∀ rep ∈ w.reports, rep.eot = false ∧ rep.full = true := by
      intro rep hrep
      obtain ⟨r, hr, rfl⟩ := List.mem_map.mp hrep
      rw [alloctape, reports_eq hnoeot] at hr
      obtain ⟨p, hp, rfl⟩ := List.mem_map.mp hr
      exact ⟨rfl, full_blocks (v := 1) rfl rfl rfl rfl rfl le_rfl (by decide) zs p hp⟩
    rw [dumpRun, List.foldl_nil, firstVolume, onWriter]
    dsimp only
    rw [startnewtape_eq_none rfl (flushtape_eq_none rfl hfull)]
  · refine not_limitsKept [⟨0, 0⟩, ⟨0, 3⟩] 6 1 ?_ ?_ (by decide) ?_
    all_goals decide +kernel

end Failures

end DumpRestore
