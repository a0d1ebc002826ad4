import DumpRestore.Dump.WriterInvariant
import Mathlib.Logic.Function.Iterate

/-!
# The trailer of a dump

At the end of a dump `main` writes `TS_END` headers to push the last records out: as many as fill up
a block that has `c_tapea mod ntrec` records. After an end of tape the buffer has one record more
than that. The flush of the block may itself find an end of tape, and then the last header is back
in the buffer.

* `NothingLeft` is what the trailer is for, and `TrailerFits` is when it works.
* `CompleteDump.leavesNothing_iff` is that for all dumps.
-/

namespace DumpRestore

/-- `spcl.c_type = TS_END`. -/
def setEnd (h : Spcl) : Spcl := { h with cType := .end_ }

/-- The trailer of `main`. -/
def trailer (o : DumpOptions) (fs : Ext2Fs) (d : Spcl × Option Writer) : Spcl × Option Writer :=
  (writeheader (writer o fs) (fs.maxino - 1))^[o.ntrec - d.1.cTapea % o.ntrec]
    (modifySpcl setEnd d)

/-- A header of this type. -/
def Req.HasType (t : SpclType) (q : Req) : Prop :=
  ∃ h : Spcl, q.src = .buffer (.spcl h) ∧ h.cType = t

/-- Between the states `w` and `w'` nothing is left behind: every record that `w` had been handed
went to a slave, and a `TS_END` header that was handed in later did too. The blocks that the slaves
had for a volume that has ended do not count. -/
def NothingLeft (w w' : Writer) : Prop :=
  (∀ n < w.handed, w'.Passed n) ∧
    ∃ blk ∈ w'.live, ∃ q ∈ blk, q.HasType .end_ ∧ w.handed ≤ q.first

/-- The next flush finds an end of tape. -/
def Writer.FindsEot (w : Writer) : Prop :=
  w.send.slp.sent = true ∧ ∃ rep ∈ w.reports.head?, rep.eot = true

/-- The writer can be given the trailer: `r` records are in the last block by `c_tapea`, and `k`
more by the volume headers of the ends of tape. -/
structure TrailerFits (ntrec r k : ℕ) (w : Writer) : Prop where
  room : r + k < ntrec
  early : w.early = 0
  eot : w.FindsEot → 2 ≤ w.since ∧
    (r + k + 1 < ntrec ∨ k + 1 = ntrec ∧ ∀ rep ∈ w.reports.tail.head?, rep.eot = false)

section Trailer

variable {o : DumpOptions} {fs : Ext2Fs} {ino : ℕ} {d d' : Spcl × Writer} {h : Spcl}
  {w w' v : Writer} {m n : ℕ}

/-! ## Headers in the buffer -/

/-- The writer `v` has `m` headers of this type more than `w` in its buffer. -/
structure Filled (t : SpclType) (w : Writer) (m : ℕ) (v : Writer) : Prop where
  req : ∃ more : List Req, v.req = w.req ++ more ∧ more.length = m ∧
    ∀ q ∈ more, q.HasType t ∧ w.handed ≤ q.first
  trecno : v.trecno = w.trecno + m
  handed : w.handed ≤ v.handed
  live : v.live = w.live
  others : v.others = w.others
  reports : v.reports = w.reports
  since : v.since = w.since
  early : v.early = w.early

theorem Filled.refl (t : SpclType) (w : Writer) : Filled t w 0 w where
  req := ⟨[], (List.append_nil _).symm, rfl, by simp⟩
  trecno := rfl
  handed := le_rfl
  live := rfl
  others := rfl
  reports := rfl
  since := rfl
  early := rfl

/-- One more header. -/
theorem Filled.putrec (hf : Filled h.cType w m d.2) :
    Filled h.cType w (m + 1) (putrec (.spcl h) d).2 where
  req := by
    obtain ⟨more, hreq, hlen, hmore⟩ := hf.req
    refine ⟨more ++ [⟨.buffer (.spcl h), 1, d.2.handed⟩], ?_, ?_, fun q hq => ?_⟩
    · rw [← List.append_assoc, ← hreq]
      rfl
    · rw [List.length_append, hlen]
      rfl
    · rcases List.mem_append.mp hq with hq | hq
      · exact hmore q hq
      · rw [List.mem_singleton.mp hq]
        exact ⟨⟨h, rfl, rfl⟩, hf.handed⟩
  trecno := congrArg (· + 1) hf.trecno
  handed := hf.handed.trans (Nat.le_succ _)
  live := hf.live
  others := hf.others
  reports := hf.reports
  since := hf.since
  early := hf.early

/-- A header that does not fill the buffer is only added to it. -/
theorem iterate_writeheader_of_room (fs : Ext2Fs) (ino : ℕ) (h : Spcl)
    (hroom : w.trecno + m < o.ntrec) :
    ∃ h' v, (writeheader (writer o fs) ino)^[m] (h, some w) = (h', some v) ∧
      Filled h.cType w m v ∧ h'.cType = h.cType := by
  induction m with
  | zero => exact ⟨h, w, rfl, .refl _ w, rfl⟩
  | succ m ih =>
    obtain ⟨h', v, hv, hfilled, htype⟩ := ih (by omega)
    have hsealed : (sealHeader ino h').cType = h.cType := htype
    rw [← hsealed] at hfilled
    have hfilled' := hfilled.putrec (d := (sealHeader ino h', v))
    let e := putrec (.spcl (sealHeader ino h')) (sealHeader ino h', v)
    have hnot : ¬ e.2.trecno ≥ o.ntrec := by
      have htrecno : e.2.trecno = w.trecno + (m + 1) := hfilled'.trecno
      omega
    refine ⟨e.1, e.2, ?_, hsealed ▸ hfilled', htype⟩
    rw [Function.iterate_succ_apply', hv]
    simp only [writeheader, writer, onWriter, modifySpcl, writerec, fill]
    rw [if_neg hnot]

theorem Between.iterate_writeheader {d : Spcl × Option Writer} (hb : Between o d) (fs : Ext2Fs)
    (ino m : ℕ) : Between o ((DumpRestore.writeheader (writer o fs) ino)^[m] d) := by
  induction m with
  | zero => exact hb
  | succ m ih =>
    rw [Function.iterate_succ_apply']
    exact ih.writeheader ino

/-- The header that fills the buffer has it flushed. -/
theorem iterate_writeheader_of_full (hb : Between o (h, some w)) (fs : Ext2Fs) (ino : ℕ)
    (hfull : w.trecno + (m + 1) = o.ntrec)
    (hw : ((writeheader (writer o fs) ino)^[m + 1] (h, some w)).2 = some w') :
    ∃ d, Level o d ∧ Filled h.cType w (m + 1) d.2 ∧ flushtape o d.2.reports d =
      some (((writeheader (writer o fs) ino)^[m + 1] (h, some w)).1, w') := by
  obtain ⟨h', v, hv, hfilled, htype⟩ :=
    iterate_writeheader_of_room (m := m) fs ino h (by omega : w.trecno + m < o.ntrec)
  rw [Function.iterate_succ_apply', hv] at hw ⊢
  have hmid := hb.iterate_writeheader fs ino m
  rw [hv] at hmid
  obtain ⟨hlevel, -⟩ := hmid.modifySpcl (f := sealHeader ino) rfl v rfl
  have hsealed : (sealHeader ino h').cType = h.cType := htype
  rw [← hsealed] at hfilled ⊢
  have hfilled' := hfilled.putrec (d := (sealHeader ino h', v))
  obtain ⟨v', hv', hrun⟩ := onWriter_eq_some hw
  obtain rfl := Option.some.inj hv'
  refine ⟨_, hlevel.putrec (.spcl (sealHeader ino h')), hfilled', ?_⟩
  have htrecno : (putrec (.spcl (sealHeader ino h')) (sealHeader ino h', v)).2.trecno =
      w.trecno + (m + 1) := hfilled'.trecno
  exact (if_pos (hfull.symm.trans htrecno.symm).le).symm.trans hrun

/-- A writer that is there after some headers was there before them. -/
theorem writer_of_iterate {d : Spcl × Option Writer}
    (hw : ((writeheader (writer o fs) ino)^[m] d).2 = some w') : ∃ v, d.2 = some v := by
  induction m generalizing d with
  | zero => exact ⟨w', hw⟩
  | succ m ih =>
    rw [Function.iterate_succ_apply] at hw
    obtain ⟨u, hu⟩ := ih hw
    obtain ⟨v, hv, -⟩ := onWriter_eq_some hu
    exact ⟨v, hv⟩

/-- A lost record is not found by any headers. -/
theorem Lost.iterate (hn : Lost n w) (hb : Between o (h, some w))
    (hw : ((writeheader (writer o fs) ino)^[m] (h, some w)).2 = some w') : Lost n w' := by
  induction m generalizing w' with
  | zero =>
    obtain rfl := Option.some.inj hw
    exact hn
  | succ m ih =>
    rw [Function.iterate_succ_apply'] at hw
    obtain ⟨v, hv, hrun⟩ := onWriter_eq_some hw
    have hmid := (hb.iterate_writeheader fs ino m).modifySpcl (f := sealHeader ino) rfl
    obtain ⟨hlevel, hroom⟩ := hmid v hv
    exact (ih hv).writerec hlevel hroom hrun

/-- What was sent stays sent in a trailer whose first flush finds no end of tape. -/
theorem Sent.iterate (hs : Sent d d') (hb : Between o (d'.1, some d'.2)) (hm : m < o.ntrec)
    (hw : ((writeheader (writer o fs) ino)^[m] (d'.1, some d'.2)).2 = some w') :
    d.2.live ++ [d.2.req] <+: w'.live := by
  by_cases hroom : d'.2.trecno + m < o.ntrec
  · obtain ⟨h', v, hv, hfilled, -⟩ := iterate_writeheader_of_room fs ino d'.1 hroom
    rw [hv] at hw
    obtain rfl := Option.some.inj hw
    rw [hfilled.live]
    exact hs.live
  · rcases hs.buffer with hzero | ⟨hone, hquiet⟩
    · omega
    · obtain ⟨-, hlt⟩ := hb d'.2 rfl
      obtain ⟨m, rfl⟩ : ∃ k, m = k + 1 := ⟨m - 1, by omega⟩
      obtain ⟨e, hlevel, hfilled, hflush⟩ := iterate_writeheader_of_full hb fs ino (by omega) hw
      obtain ⟨carry, hring⟩ := hlevel.replays
      have hne : e.2.others ≠ [] := by
        rw [← List.length_pos_iff, hring.length_others]
        exact Nat.two_pos
      have hquiet' : e.2.Quiet := fun s hs' => hquiet s (hfilled.others ▸ hs')
      have hsent := sent_flushtape hne (fun _ _ hboth => by
        rw [hquiet'.sent hne] at hboth
        cases hboth.1) hflush
      refine (hs.live.trans ?_).trans hsent.live
      rw [hfilled.live]
      exact List.prefix_append _ _

/-! ## The flush of the trailer -/

theorem not_nothingLeft_of_lost (hn : Lost n w') (hlt : n < w.handed) : ¬ NothingLeft w w' := by
  rintro ⟨hall, -⟩
  obtain ⟨blk, hblk, q, hq, hmem⟩ := hall n hlt
  refine hn.live (mem_numbersOf.mpr ⟨q, List.mem_append_left _ ?_, hmem⟩)
  exact List.mem_flatten_of_mem hblk hq

/-- Nothing is left behind where the records of `w`, and a `TS_END` header behind them, are in
blocks that the slaves got. -/
theorem nothingLeft_of_live (hwhole : Whole w) {more : List Req}
    (hlive : w.live ++ [w.req ++ more] <+: w'.live) (hne : more ≠ [])
    (hmore : ∀ q ∈ more, q.HasType .end_ ∧ w.handed ≤ q.first) : NothingLeft w w' := by
  have hblk := hlive.subset (List.mem_append_right _ List.mem_cons_self)
  refine ⟨fun n hn => ?_, w.req ++ more, hblk, more.head hne,
    List.mem_append_right _ (List.head_mem hne), hmore _ (List.head_mem hne)⟩
  obtain ⟨q, hq, hmem⟩ := mem_numbersOf.mp (hwhole.mem_iff.mpr (List.mem_range.mpr hn))
  rcases List.mem_append.mp hq with hq | hq
  · obtain ⟨blk, hblk', hq⟩ := List.mem_flatten.mp hq
    exact ⟨blk, hlive.subset (List.mem_append_left _ hblk'), q, hq, hmem⟩
  · exact ⟨_, hblk, q, List.mem_append_left _ hq, hmem⟩

/-- The headers of the trailer do not change what the next flush finds. -/
theorem Filled.send_slp {t : SpclType} (hf : Filled t w m v) (hne : w.others ≠ []) :
    v.send.slp = w.send.slp := by
  rw [DumpRestore.slp_send hne, DumpRestore.slp_send (hf.others ▸ hne)]
  simp only [hf.others]

theorem Filled.replays {t : SpclType} (hf : Filled t w m v) {carry : Req} (h : Replays w carry) :
    Replays v carry := by
  obtain ⟨more, hreq, -⟩ := hf.req
  exact h.grow hf.others hf.live hf.since (hreq ▸ List.subset_append_left _ _)

theorem Req.HasType.init_last {t : SpclType} {q : Req} (hq : q.HasType t) :
    q.init = [] ∧ q.last = q := by
  obtain ⟨g, hsrc, -⟩ := hq
  rw [Req.init, Req.last, hsrc]
  exact ⟨rfl, rfl⟩

/-- The last record of a request is a header only if the request is one. -/
theorem Req.HasType.of_last {t : SpclType} {q : Req} (hq : q.last.HasType t) :
    q.HasType t ∧ q.last = q := by
  obtain ⟨g, hsrc, htype⟩ := hq
  rw [Req.last] at hsrc ⊢
  cases hq : q.src with
  | buffer r =>
    simp only [hq] at hsrc ⊢
    exact ⟨⟨g, hq.trans hsrc, htype⟩, trivial⟩
  | device dblk =>
    simp only [hq] at hsrc
    cases hsrc

/-- The records before the last one of a request are not a header. -/
theorem Req.not_hasType_init {t : SpclType} {q q' : Req} (hq' : q' ∈ q.init) : ¬ q'.HasType t := by
  rintro ⟨g, hsrc, -⟩
  rw [Req.init] at hq'
  cases hq : q.src with
  | buffer r => simp [hq] at hq'
  | device dblk =>
    simp only [hq] at hq'
    split at hq'
    · cases hq'
    · obtain rfl := List.mem_singleton.mp hq'
      have hdevice : Source.device dblk = .buffer (.spcl g) := hsrc
      cases hdevice

/-- What is left of the trailer's first block when its flush finds an end of tape: the last header
is in the buffer again. -/
structure Rerolled (w : Writer) (m : ℕ) (v : Writer) : Prop where
  all : ∀ n < w.handed, v.Passed n
  end_ : (∃ blk ∈ v.live, ∃ q ∈ blk, q.HasType .end_ ∧ w.handed ≤ q.first) ↔ 1 < m
  req : ∃ q : Req, v.req = [q] ∧ q.HasType .end_ ∧ w.handed ≤ q.first
  whole : Whole v

theorem Filled.rerolled (hf : Filled .end_ w (m + 1) d.2) (hlevel : Level o (h, w))
    (hd : Level o d) (hearly : w.early = 0) (hsent : d.2.send.slp.sent = true)
    (hsince : 2 ≤ w.since) {rest : List Report} {hdr : Req} {p : List (List Req) × Req}
    (hroll : Rolled o d rest hdr p d') : Rerolled w (m + 1) d'.2 := by
  obtain ⟨carry, hring⟩ := hd.replays
  have hwhole : Whole d'.2 := hring.whole_rolled hd.bounded (hd.whole (hf.early.trans hearly)) hsent
    (hf.since ▸ hsince) hroll
  obtain ⟨more, hreq, hlen, hmore⟩ := hf.req
  obtain ⟨ends, e, rfl⟩ : ∃ ends e, more = ends ++ [e] :=
    ⟨more.dropLast, more.getLast (by rintro rfl; simp at hlen),
      (List.dropLast_concat_getLast _).symm⟩
  rw [List.length_append, List.length_singleton] at hlen
  obtain ⟨he, hefirst⟩ := hmore e (List.mem_append_right _ List.mem_cons_self)
  obtain ⟨heinit, helast⟩ := he.init_last
  have hshift := hroll.shift
  rw [hreq, ← List.append_assoc] at hshift
  have hold : ∀ q : Req, q.Below w.handed → q.HasType .end_ ∧ w.handed ≤ q.first → ends ≠ [] :=
    fun q hq hboth => absurd hboth.2 (by have := hq.1; have := hq.2; omega)
  obtain ⟨hnew, hleft⟩ := @forall_shiftBlocks hdr (d.2.others.map SlaveBuf.req) p
    (fun q => q.HasType .end_ ∧ w.handed ≤ q.first → ends ≠ [])
    (fun q hq hboth => by
      obtain ⟨htype, heq⟩ := hboth.1.of_last
      exact hq ⟨htype, heq ▸ hboth.2⟩)
    (fun q _ q' hq' hboth => absurd hboth.1 (Req.not_hasType_init hq')) e (w.req ++ ends)
    (fun hboth => by
      obtain ⟨g, hsrc, htape⟩ := hroll.header
      obtain ⟨g', hsrc', hend⟩ := hboth.1
      rw [hsrc] at hsrc'
      cases hsrc'
      rw [htape] at hend
      cases hend)
    (fun blk hblk q hq => by
      obtain ⟨s, hs, rfl⟩ := List.mem_map.mp hblk
      exact hold q (hlevel.bounded.others s (hf.others ▸ hs) q hq))
    (fun q hq => by
      rcases List.mem_append.mp hq with hq | hq
      · exact hold q (hlevel.bounded.req q hq)
      · exact fun _ => List.ne_nil_of_mem hq)
    (fun q hq => absurd hq (heinit ▸ List.not_mem_nil)) hshift
  have hreq' : d'.2.req = [e] := by rw [hroll.req, hleft, helast]
  have hefirst' : ∀ n ∈ e.numbers, w.handed ≤ n := fun n hn =>
    hefirst.trans (List.mem_range'_1.mp hn).1
  obtain ⟨left, idle, busy, pre, acts, stale, fresh, hr⟩ := hring
  obtain rfl := hr.idle_eq_nil hsent
  have hlive := hr.live_rolled hroll
  refine ⟨fun n hn => ?_, ⟨?_, fun hlt => ?_⟩, ⟨e, hreq', he, hefirst⟩, hwhole⟩
  · have hmem : n ∈ numbersOf (d'.2.live.flatten ++ d'.2.req) := by
      refine hwhole.mem_iff.mpr (List.mem_range.mpr ?_)
      rw [hroll.handed]
      exact (hn.trans_le hf.handed).trans (Nat.lt_succ_self _)
    rw [hreq', numbersOf_append, List.mem_append] at hmem
    rcases hmem with hmem | hmem
    · obtain ⟨q, hq, hmem⟩ := mem_numbersOf.mp hmem
      obtain ⟨blk, hblk, hq⟩ := List.mem_flatten.mp hq
      exact ⟨blk, hblk, q, hq, hmem⟩
    · rw [numbersOf_cons, numbersOf_nil, List.append_nil] at hmem
      exact absurd (hefirst' n hmem) (by omega)
  · rintro ⟨blk, hblk, q, hq, hboth⟩
    have hne : ends ≠ [] := by
      rw [hlive] at hblk
      rcases List.mem_append.mp hblk with hblk | hblk
      · refine hold q (hlevel.bounded.live blk ?_ q hq) hboth
        rw [← hf.live, hr.live]
        exact List.mem_append_left _ hblk
      · exact hnew blk hblk q hq hboth
    have hpos := List.length_pos_iff.mpr hne
    omega
  · have hne : ends ≠ [] := List.length_pos_iff.mp (by omega)
    obtain ⟨blk, hblk, hmem⟩ := mem_shiftBlocks (List.mem_append_right w.req (List.head_mem hne))
      hshift
    exact ⟨blk, hlive ▸ List.mem_append_right _ hblk, ends.head hne, hmem,
      hmore _ (List.mem_append_left _ (List.head_mem hne))⟩

/-- The rest of the trailer after its first flush found an end of tape. -/
theorem Rerolled.iterate {k : ℕ} (hroll : Rerolled w m v) (hb : Between o (h, some v))
    (hone : v.trecno = 1) (hntrec : 1 < o.ntrec) (hk : k < o.ntrec) (hm : 0 < m)
    (hsum : m + k ≤ o.ntrec) (hsince : v.since = 0) (hearly : v.early = 0)
    (hbusy : ∀ s ∈ v.others, s.sent = true)
    (hlast : ∃ carry : Req, Replays v carry ∧ carry.Below w.handed)
    (hw : ((writeheader (writer o fs) ino)^[k] (h, some v)).2 = some w') :
    NothingLeft w w' ↔
      1 < m ∨ k + 1 = o.ntrec ∧ ∀ rep ∈ v.reports.head?, rep.eot = false := by
  by_cases hroom : 1 + k < o.ntrec
  · -- the last header stays in the buffer
    obtain ⟨h', u, hu, hfilled, -⟩ := iterate_writeheader_of_room (m := k) fs ino h
      (by omega : v.trecno + k < o.ntrec)
    rw [hu] at hw
    obtain rfl := Option.some.inj hw
    have hpassed : ∀ n < w.handed, u.Passed n := fun n hn => by
      rw [Writer.Passed, hfilled.live]
      exact hroll.all n hn
    rw [NothingLeft, hfilled.live, hroll.end_]
    constructor
    · exact fun hn => .inl hn.2
    · rintro (hlt | ⟨heq, -⟩)
      · exact ⟨hpassed, hlt⟩
      · omega
  · -- a second block is full
    obtain ⟨k, rfl⟩ : ∃ j, k = j + 1 := ⟨k - 1, by omega⟩
    obtain rfl : m = 1 := by omega
    obtain ⟨d, hlevel, hfilled, hflush⟩ := iterate_writeheader_of_full hb fs ino (by omega) hw
    obtain ⟨carry, hring, hcarry⟩ := hlast
    have hring' := hfilled.replays hring
    have hne : d.2.others ≠ [] := by
      rw [← List.length_pos_iff, hring'.length_others]
      exact Nat.two_pos
    have hsent : d.2.send.slp.sent = true := by
      rw [DumpRestore.slp_send hne]
      exact hbusy _ (hfilled.others ▸ List.head_mem hne)
    obtain ⟨q, hreq, hq⟩ := hroll.req
    constructor
    · intro hn
      refine .inr ⟨by omega, fun rep hrep => ?_⟩
      by_contra heot
      -- the slaves have got no new blocks
      have hreports : d.2.reports.head? = some rep := hfilled.reports ▸ hrep
      obtain ⟨rest, hrest⟩ : ∃ rest, d.2.reports = rep :: rest := by
        cases hlist : d.2.reports with
        | nil => simp [hlist] at hreports
        | cons r rest =>
          rw [hlist] at hreports
          exact ⟨rest, congrArg (· :: rest) (Option.some.inj hreports)⟩
      rw [hrest, DumpRestore.flushtape, if_pos ⟨hsent, by simpa using heot⟩] at hflush
      obtain ⟨hdr, p, hrolled⟩ := rolled_of_rollforward hflush
      have hzero : d.2.since = 0 := hfilled.since.trans hsince
      have hlost := hring'.lost_rolled hlevel.bounded (hlevel.whole (hfilled.early.trans hearly))
        hsent (by omega) hrolled
      exact not_nothingLeft_of_lost hlost (hcarry.lt hcarry.first_mem) hn
    · rintro (hlt | ⟨-, hnone⟩)
      · omega
      · have hsent := sent_flushtape hne (fun rep hrep hboth => by
          rw [hnone rep (hfilled.reports ▸ hrep)] at hboth
          cases hboth.2) hflush
        have hlive := hsent.live
        rw [hfilled.live] at hlive
        refine ⟨fun n hn => ?_, d.2.req, hlive.subset (List.mem_append_right _ List.mem_cons_self),
          q, ?_, hq⟩
        · obtain ⟨blk, hblk, hmem⟩ := hroll.all n hn
          exact ⟨blk, hlive.subset (List.mem_append_left _ hblk), hmem⟩
        · obtain ⟨more, hmore, -⟩ := hfilled.req
          rw [hmore, hreq]
          exact List.mem_cons_self

/-- **The trailer works** when it fits. -/
theorem Between.trailer_iff (hb : Between o (h, some w))
    (hw : (trailer o fs (h, some w)).2 = some w') :
    NothingLeft w w' ↔ TrailerFits o.ntrec (h.cTapea % o.ntrec) (w.eots % o.ntrec) w := by
  obtain ⟨hlevel, hroom⟩ := hb w rfl
  have htrecno : w.trecno = (h.cTapea % o.ntrec + w.eots % o.ntrec) % o.ntrec := by
    rw [← Nat.add_mod, ← Nat.mod_eq_of_lt hroom]
    exact hlevel.level.symm
  have hr := Nat.mod_lt h.cTapea (Nat.zero_lt_of_lt hroom)
  have hk := Nat.mod_lt w.eots (Nat.zero_lt_of_lt hroom)
  have hstart : Between o (setEnd h, some w) := hb.modifySpcl (f := setEnd) rfl
  change ((DumpRestore.writeheader (writer o fs) (fs.maxino - 1))^[o.ntrec - h.cTapea % o.ntrec]
    (setEnd h, some w)).2 = some w' at hw
  generalize h.cTapea % o.ntrec = r at *
  generalize w.eots % o.ntrec = k at *
  by_cases hfits : r + k < o.ntrec
  case neg =>
    -- A buffer that is not filled keeps the trailer.
    refine ⟨fun hn => ?_, fun hf => absurd hf.room hfits⟩
    have hless : w.trecno + (o.ntrec - r) < o.ntrec := by
      rw [htrecno, Nat.mod_eq_sub_mod (not_lt.mp hfits), Nat.mod_eq_of_lt] <;> omega
    obtain ⟨h', v, hv, hfilled, -⟩ :=
      iterate_writeheader_of_room fs (fs.maxino - 1) (setEnd h) hless
    rw [hv] at hw
    obtain rfl := Option.some.inj hw
    obtain ⟨-, blk, hblk, q, hq, -, hfirst⟩ := hn
    obtain ⟨hpos, hle⟩ := hlevel.bounded.live blk (hfilled.live ▸ hblk) q hq
    exact absurd (hle.trans hfirst) (by omega)
  rw [Nat.mod_eq_of_lt hfits] at htrecno
  rcases Nat.eq_zero_or_pos w.early with hearly | hearly
  case inr =>
    -- What is lost before the trailer stays lost.
    obtain ⟨n, hn⟩ := hlevel.lost hearly
    refine ⟨fun hleft => absurd hleft (not_nothingLeft_of_lost (hn.iterate hstart hw) hn.lt),
      fun hf => absurd hf.early hearly.ne'⟩
  obtain ⟨m, hm⟩ : ∃ m, o.ntrec = w.trecno + (m + 1) := ⟨o.ntrec - w.trecno - 1, by omega⟩
  have hsplit : o.ntrec - r = k + (m + 1) := by omega
  rw [hsplit, Function.iterate_add_apply] at hw
  obtain ⟨v, hv⟩ := writer_of_iterate hw
  obtain ⟨d, hd, hfilled, hflush⟩ :=
    iterate_writeheader_of_full hstart fs (fs.maxino - 1) hm.symm hv
  have hmid := hstart.iterate_writeheader fs (fs.maxino - 1) (m + 1)
  generalize ((DumpRestore.writeheader (writer o fs) (fs.maxino - 1))^[m + 1]
    (setEnd h, some w)) = e at *
  obtain ⟨h', e'⟩ := e
  obtain rfl : e' = some v := hv
  have hreports := hfilled.reports
  obtain ⟨carry, hring⟩ := hlevel.replays
  have hne : w.others ≠ [] := by
    rw [← List.length_pos_iff, hring.length_others]
    exact Nat.two_pos
  have hslp := hfilled.send_slp hne
  cases hlist : d.2.reports with
  | nil =>
    rw [hlist] at hflush
    cases hflush
  | cons rep rest =>
    rw [hlist] at hflush hreports
    by_cases heot : d.2.send.slp.sent = true ∧ rep.eot = true
    case neg =>
      -- the block is sent
      have hnone : ∀ r ∈ (rep :: rest).head?, ¬ (d.2.send.slp.sent = true ∧ r.eot = true) := by
        intro r hr
        obtain rfl := Option.some.inj hr
        exact heot
      have hsent := sent_flushtape (hfilled.others ▸ hne) hnone hflush
      have hlive := hsent.iterate hmid (by omega) hw
      obtain ⟨more, hreq, hlen, hmore⟩ := hfilled.req
      rw [hfilled.live, hreq] at hlive
      have hleft := nothingLeft_of_live (hlevel.whole hearly) hlive
        (List.length_pos_iff.mp (by omega)) hmore
      refine ⟨fun _ => ⟨hfits, hearly, ?_⟩, fun _ => hleft⟩
      rintro ⟨hsent', rep', hrep', hrepEot⟩
      rw [← hreports] at hrep'
      exact absurd ⟨hslp ▸ hsent', Option.some.inj hrep' ▸ hrepEot⟩ heot
    case pos =>
      have hfinds : w.FindsEot := ⟨hslp ▸ heot.1, rep, by rw [← hreports]; rfl, heot.2⟩
      rw [DumpRestore.flushtape, if_pos heot] at hflush
      obtain ⟨hdr, p, hroll⟩ := rolled_of_rollforward hflush
      have hring' := hfilled.replays hring
      rcases Nat.lt_or_ge w.since 2 with hsince | hsince
      · -- an early end of tape loses a record
        have hcarry := hring.carry_below hlevel.bounded (hslp ▸ heot.1) hsince
        have hlost := hring'.lost_rolled hd.bounded (hd.whole (hfilled.early.trans hearly)) heot.1
          (hfilled.since ▸ hsince) hroll
        refine ⟨fun hn => absurd hn (not_nothingLeft_of_lost (hlost.iterate hmid hw)
          (hcarry.lt hcarry.first_mem)), fun hf => absurd (hf.eot hfinds).1 (by omega)⟩
      · have hrerolled := hfilled.rerolled hlevel hd hearly heot.1 hsince hroll
        obtain ⟨s, hs, q, hq, hcarry⟩ := hring'.rolled heot.1 hroll
        have hsince' : ¬ d.2.since < d.2.others.length := by
          rw [hring'.length_others, hfilled.since]
          omega
        have hearly' := hroll.early
        rw [if_neg hsince'] at hearly'
        have hiff := hrerolled.iterate hmid hroll.trecno hroll.ntrec hk (Nat.succ_pos m) (by omega)
          hroll.since (hearly'.trans (hfilled.early.trans hearly)) hroll.sent
          ⟨q.last, hcarry, (hlevel.bounded.others s (hfilled.others ▸ hs) q hq).last⟩ hw
        rw [hiff, hroll.reports]
        constructor
        · intro hcase
          refine ⟨hfits, hearly, fun _ => ⟨hsince, ?_⟩⟩
          rw [← hreports]
          exact hcase.imp_left fun _ => by omega
        · intro hf
          have hcase := (hf.eot hfinds).2
          rw [← hreports] at hcase
          exact hcase.imp_left fun _ => by omega

end Trailer

/-! ## Blocks of one record -/

section Eot

variable (o : DumpOptions)

/-- `fill` comes to a flush, and this finds an end of tape. -/
def fillEot (eot : Spcl × Writer → Bool) (d : Spcl × Writer) : Bool :=
  if d.2.trecno ≥ o.ntrec then eot d else false

/-- `flushtape` finds an end of tape, or a flush that it makes itself does. -/
def flushEot : List Report → Spcl × Writer → Bool
  | [], _ => false
  | rep :: reports, d =>
    let w := { d.2.send with reports := reports }
    if w.slp.sent ∧ rep.eot then true
    else
      let d := nextBuffer o d.2.slp.firstrec rep.curino (d.1, w)
      if rep.full then fillEot o (flushEot reports) (newtapeHeader o d) else false

/-- `writerec` finds an end of tape. -/
def writerecEot (r : Rec) (d : Spcl × Writer) : Bool :=
  fillEot o (flushEot o (putrec r d).2.reports) (putrec r d)

/-- The loop of `dumpblock` finds an end of tape. -/
def dumpblockEot : (fuel dblkno tpblks : ℕ) → Spcl × Writer → Bool
  | 0, _, _, _ => false
  | fuel + 1, dblkno, tpblks, d =>
    let avail := min tpblks (o.ntrec - d.2.trecno)
    if avail > 0 then
      let d := putblocks dblkno avail d
      fillEot o (flushEot o d.2.reports) d ||
        ((fill o (flushtape o d.2.reports) d).map
          (dumpblockEot fuel (dblkno + avail * (tpBsize / devBsize)) (tpblks - avail))).getD false
    else false

/-- A call finds an end of tape. -/
def WriterCall.eot (fs : Ext2Fs) (c : WriterCall) (d : Spcl × Option Writer) : Bool :=
  match d.2 with
  | none => false
  | some w =>
    match c with
    | .assign _ => false
    | .writeheader ino => writerecEot o (.spcl (sealHeader ino d.1)) (sealHeader ino d.1, w)
    | .writerec b => writerecEot o (.data b) (d.1, w)
    | .dumpblock blkno size =>
      dumpblockEot o (size / tpBsize) (fs.fsbtodb blkno) (size / tpBsize) (d.1, w)

variable {o} {fs : Ext2Fs} {d : Spcl × Writer}

theorem fill_of_eot {flush : Spcl × Writer → Option (Spcl × Writer)}
    {eot : Spcl × Writer → Bool} (hflush : eot d = true → flush d = none)
    (heot : fillEot o eot d = true) : fill o flush d = none := by
  rw [fillEot] at heot
  split at heot
  case isTrue hfull =>
    rw [fill, if_pos hfull]
    exact hflush heot
  case isFalse => cases heot

/-- With blocks of one record there is no result where an end of tape is found. -/
theorem flushtape_of_eot (hone : o.ntrec ≤ 1) {reports : List Report}
    (heot : flushEot o reports d = true) : flushtape o reports d = none := by
  induction reports generalizing d with
  | nil => rfl
  | cons rep reports ih =>
    rw [flushEot] at heot
    rw [flushtape]
    split at heot
    case isTrue hfound => rw [if_pos hfound, rollforward, if_pos hone]
    case isFalse hnone =>
      rw [if_neg hnone]
      dsimp only at heot ⊢
      split at heot
      case isTrue hfull =>
        rw [if_pos hfull, startnewtape, fill_of_eot ih heot, Option.map_none]
      case isFalse => cases heot

theorem writerec_of_eot (hone : o.ntrec ≤ 1) {r : Rec} (heot : writerecEot o r d = true) :
    writerec o r d = none :=
  fill_of_eot (flushtape_of_eot hone) heot

theorem dumpblockLoop_of_eot (hone : o.ntrec ≤ 1) {fuel dblkno tpblks : ℕ}
    (heot : dumpblockEot o fuel dblkno tpblks d = true) :
    dumpblockLoop o fuel dblkno tpblks d = none := by
  induction fuel generalizing dblkno tpblks d with
  | zero => cases heot
  | succ fuel ih =>
    simp only [dumpblockEot] at heot
    simp only [dumpblockLoop]
    split at heot
    case isFalse => cases heot
    case isTrue havail =>
      rw [if_pos havail]
      rcases Bool.or_eq_true_iff.mp heot with hfirst | hlater
      · rw [fill_of_eot (flushtape_of_eot hone) hfirst, Option.bind_none]
      · cases hfill : fill o (flushtape o (putblocks dblkno (min tpblks (o.ntrec - d.2.trecno))
            d).2.reports) (putblocks dblkno (min tpblks (o.ntrec - d.2.trecno)) d) with
        | none => rfl
        | some e =>
          rw [hfill] at hlater
          exact ih hlater

theorem WriterCall.exec_of_eot (hone : o.ntrec ≤ 1) {c : WriterCall} {d : Spcl × Option Writer}
    (heot : c.eot o fs d = true) : (c.exec (writer o fs) d).2 = none := by
  obtain ⟨h, w⟩ := d
  cases w with
  | none => cases heot
  | some w =>
    cases c with
    | assign f => cases heot
    | writeheader ino =>
      have hnone := writerec_of_eot hone heot
      simp only [exec, DumpRestore.writeheader, writer, onWriter, modifySpcl]
      rw [hnone]
    | writerec b =>
      have hnone := writerec_of_eot hone heot
      simp only [exec, writer, onWriter]
      rw [hnone]
    | dumpblock blkno size =>
      have hnone := dumpblockLoop_of_eot hone heot
      simp only [exec, writer, onWriter, DumpRestore.dumpblock]
      rw [hnone]

theorem WriterCall.exec_none (c : WriterCall) {d : Spcl × Option Writer} (hd : d.2 = none) :
    (c.exec (writer o fs) d).2 = none := by
  obtain ⟨h, w⟩ := d
  obtain rfl : w = none := hd
  cases c <;> rfl

theorem foldl_exec_none (calls : List WriterCall) {d : Spcl × Option Writer} (hd : d.2 = none) :
    (calls.foldl (fun d c => c.exec (writer o fs) d) d).2 = none := by
  induction calls generalizing d with
  | nil => exact hd
  | cons c calls ih => exact ih (c.exec_none hd)

end Eot

/-! ## Dumps -/

/-- The calls of the trailer. -/
def trailerCalls (o : DumpOptions) (fs : Ext2Fs) (h : Spcl) : List WriterCall :=
  .assign ⟨setEnd, fun _ => rfl⟩ ::
    List.replicate (o.ntrec - h.cTapea % o.ntrec) (.writeheader (fs.maxino - 1))

theorem trailer_eq (o : DumpOptions) (fs : Ext2Fs) (d : Spcl × Option Writer) :
    trailer o fs d = (trailerCalls o fs d.1).foldl (fun d c => c.exec (writer o fs) d) d := by
  rw [trailer, trailerCalls, List.foldl_cons]
  change _ = List.foldl _ (modifySpcl setEnd d) _
  generalize modifySpcl setEnd d = e
  generalize o.ntrec - d.1.cTapea % o.ntrec = m
  induction m generalizing e with
  | zero => rfl
  | succ m ih => exact ih _

/-- A dump that finishes its trailer. With blocks of one record this is one that finds an end of
tape too: what it does from there on depends on where its buffers lie. -/
structure CompleteDump (o : DumpOptions) (fs : Ext2Fs) where
  ntrec_pos : 0 < o.ntrec
  header : Spcl
  reports : List Report
  calls : List WriterCall
  ends :
    (trailer o fs (beforeTrailer o fs header reports calls)).2 ≠ none ∨
      o.ntrec ≤ 1 ∧ ∃ pre c post,
        calls ++ trailerCalls o fs (beforeTrailer o fs header reports calls).1 = pre ++ c :: post ∧
        c.eot o fs (beforeTrailer o fs header reports pre) = true

namespace CompleteDump

variable {o : DumpOptions} {fs : Ext2Fs} (d : CompleteDump o fs)

/-- The state before the trailer. -/
def before : Spcl × Option Writer := beforeTrailer o fs d.header d.reports d.calls

/-- The state after the trailer. -/
def after : Spcl × Option Writer := trailer o fs d.before

/-- The dump finds an end of tape. -/
def FindsEot : Prop :=
  ∃ pre c post, d.calls ++ trailerCalls o fs d.before.1 = pre ++ c :: post ∧
    c.eot o fs (beforeTrailer o fs d.header d.reports pre) = true

/-- The dump leaves nothing behind. -/
def LeavesNothing : Prop :=
  ∃ last done, d.before.2 = some last ∧ d.after.2 = some done ∧ NothingLeft last done

theorem after_eq_none (hone : o.ntrec ≤ 1) (heot : d.FindsEot) : d.after.2 = none := by
  obtain ⟨pre, c, post, hcalls, hc⟩ := heot
  rw [after, trailer_eq, before, beforeTrailer, ← List.foldl_append]
  rw [before, beforeTrailer] at hcalls
  rw [hcalls, List.foldl_append, List.foldl_cons]
  exact foldl_exec_none post (WriterCall.exec_of_eot hone hc)

/-- **Nothing is left behind** at the end of a dump if and only if the blocks have two records, or
no end of tape is found, and the trailer fits. -/
theorem leavesNothing_iff : d.LeavesNothing ↔ (2 ≤ o.ntrec ∨ ¬ d.FindsEot) ∧
    ∃ last, d.before.2 = some last ∧
      TrailerFits o.ntrec (d.before.1.cTapea % o.ntrec) (last.eots % o.ntrec) last := by
  by_cases hgarbled : o.ntrec ≤ 1 ∧ d.FindsEot
  · have hnone := d.after_eq_none hgarbled.1 hgarbled.2
    constructor
    · rintro ⟨last, done, -, hdone, -⟩
      cases hnone.symm.trans hdone
    · rintro ⟨hcond, -⟩
      exact absurd hgarbled.2 (hcond.resolve_left (by omega))
  · have hcond : 2 ≤ o.ntrec ∨ ¬ d.FindsEot := by
      by_contra hboth
      rw [not_or, not_not] at hboth
      exact hgarbled ⟨by omega, hboth.2⟩
    obtain ⟨done, hdone⟩ : ∃ done, d.after.2 = some done :=
      Option.ne_none_iff_exists'.mp (d.ends.resolve_right hgarbled)
    obtain ⟨last, hlast⟩ : ∃ last, d.before.2 = some last := by
      have hrun := hdone
      rw [after, trailer] at hrun
      exact writer_of_iterate (d := modifySpcl setEnd d.before) hrun
    have hbetween : Between o d.before := between_beforeTrailer d.ntrec_pos fs d.reports d.calls
    have hbefore : d.before = (d.before.1, some last) := Prod.ext rfl hlast
    have hrun := hdone
    rw [after, hbefore] at hrun
    rw [hbefore] at hbetween
    have hiff := hbetween.trailer_iff hrun
    constructor
    · rintro ⟨last', done', hlast', hdone', hleft⟩
      obtain rfl := Option.some.inj (hlast.symm.trans hlast')
      obtain rfl := Option.some.inj (hdone.symm.trans hdone')
      exact ⟨hcond, last, hlast, hiff.mp hleft⟩
    · rintro ⟨-, last', hlast', hfits⟩
      obtain rfl := Option.some.inj (hlast.symm.trans hlast')
      exact ⟨last, done, hlast, hdone, hiff.mpr hfits⟩

end CompleteDump

/-! ## A dump that keeps a record back -/

/-- The first end of tape is found when the third block is sent, the second one when the slaves have
got new blocks. -/
def twoEots : List Report :=
  [false, false, true, false, false, true, false].map fun eot => ⟨eot, false, 2⟩

theorem keptBack_ends : (trailer ⟨3, false⟩ smallFs
    (beforeTrailer ⟨3, false⟩ smallFs default twoEots
      (List.replicate 19 (.writerec default)))).2.isSome = true := by decide +kernel

/-- Nineteen records in blocks of three, on three volumes. The trailer has one header, and the last
record stays in the buffer with it. -/
def keptBack : CompleteDump ⟨3, false⟩ smallFs where
  ntrec_pos := Nat.succ_pos 2
  header := default
  reports := twoEots
  calls := List.replicate 19 (.writerec default)
  ends := .inl (Option.isSome_iff_ne_none.mp keptBack_ends)

theorem not_leavesNothing_keptBack : ¬ keptBack.LeavesNothing := by
  rintro ⟨last, done, hlast, hdone, hall, -⟩
  have hhanded : (keptBack.before.2.map fun w => decide (21 < w.handed)) = some true := by
    decide +kernel
  have hkept : (keptBack.after.2.map fun w => w.live.all fun blk => blk.all fun q =>
      decide (21 ∉ q.numbers)) = some true := by
    decide +kernel
  rw [hlast] at hhanded
  rw [hdone] at hkept
  obtain ⟨blk, hblk, q, hq, hmem⟩ := hall 21 (of_decide_eq_true (Option.some.inj hhanded))
  have hnot := List.all_eq_true.mp (List.all_eq_true.mp (Option.some.inj hkept) blk hblk) q hq
  exact of_decide_eq_true hnot hmem

end DumpRestore
