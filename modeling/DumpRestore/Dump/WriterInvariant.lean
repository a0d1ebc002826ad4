import DumpRestore.Dump.Replay
import Mathlib.Data.Nat.ModEq

/-!
# How full the buffer of the writer is

`c_tapea` counts the records of a dump, and the buffer of the current slave has as many as were
added since the last flush. Volume headers count in both, except for those of `rollforward`, which
sets `c_tapea` back.

* `Level` is the law of the two counters and of the places of the records.
* `Level.flushtape` is the law of a flush, and `between_beforeTrailer` that of all calls.
-/

namespace DumpRestore

/-- The buffer has the records that were handed in since the last flush, modulo a block, and one
more for each end of tape. Each record went to a slave or is in the buffer, as long as no end of
tape was early; if one was, a record is lost. -/
structure Level (o : DumpOptions) (d : Spcl × Writer) : Prop where
  level : d.1.cTapea + d.2.eots ≡ d.2.trecno [MOD o.ntrec]
  bounded : Bounded d.2
  replays : ∃ carry, Replays d.2 carry
  whole : d.2.early = 0 → Whole d.2
  lost : 0 < d.2.early → ∃ n, Lost n d.2

section Steps

variable {o : DumpOptions} {d d' : Spcl × Writer}

/-- What is not in these members does not matter. -/
theorem Level.congr (h : Level o d) {hd : Spcl} {w : Writer} (htapea : hd.cTapea = d.1.cTapea)
    (heots : w.eots = d.2.eots) (htrecno : w.trecno = d.2.trecno) (hreq : w.req = d.2.req)
    (hlive : w.live = d.2.live) (hhanded : w.handed = d.2.handed) (hothers : w.others = d.2.others)
    (hsince : w.since = d.2.since) (hearly : w.early = d.2.early) : Level o (hd, w) where
  level := by
    rw [htapea, heots, htrecno]
    exact h.level
  bounded := ⟨hlive ▸ hhanded ▸ h.bounded.live, hreq ▸ hhanded ▸ h.bounded.req,
    hothers ▸ hhanded ▸ h.bounded.others⟩
  replays := h.replays.imp fun _ hr => hr.grow hothers hlive hsince fun _ hq => hreq ▸ hq
  whole hzero := by
    have hwhole := h.whole (hearly ▸ hzero)
    rwa [Whole, hlive, hreq, hhanded]
  lost hpos := by
    obtain ⟨n, hn⟩ := h.lost (hearly ▸ hpos)
    exact ⟨n, hhanded ▸ hn.lt, by rw [hlive, hreq]; exact hn.live, hothers ▸ hn.others⟩

theorem Bounded.put {w : Writer} (h : Bounded w) (src : Source) {count : ℕ} (hpos : 0 < count) :
    Bounded (w.put src count) where
  live blk hblk q hq := (h.live blk hblk q hq).mono (Nat.le_add_right _ _)
  req q hq := by
    rcases List.mem_append.mp hq with hq | hq
    · exact (h.req q hq).mono (Nat.le_add_right _ _)
    · rw [List.mem_singleton.mp hq]
      exact ⟨hpos, le_rfl⟩
  others s hs q hq := (h.others s hs q hq).mono (Nat.le_add_right _ _)

/-- A request more, with the counter of records. -/
theorem Level.put (h : Level o d) (src : Source) {count : ℕ} (hpos : 0 < count) {hd : Spcl}
    (htapea : hd.cTapea = d.1.cTapea + count) : Level o (hd, d.2.put src count) where
  level := by
    have hadd := h.level.add_right count
    rw [Nat.add_right_comm, ← htapea] at hadd
    exact hadd
  bounded := h.bounded.put src hpos
  replays := h.replays.imp fun _ hr => hr.grow rfl rfl rfl (List.subset_append_left _ _)
  whole hzero := (h.whole hzero).put src count
  lost hearly := (h.lost hearly).imp fun _ hn => hn.put src count

theorem Level.putrec (h : Level o d) (r : Rec) : Level o (putrec r d) :=
  (h.put (.buffer r) Nat.one_pos (rfl : (DumpRestore.putrec r d).1.cTapea = _)).congr
    rfl rfl rfl rfl rfl rfl rfl rfl rfl

theorem Lost.enslave {n : ℕ} {w : Writer} (hn : Lost n w) : Lost n w.enslave :=
  ⟨hn.lt, hn.live, fun s hs => by
    obtain ⟨t, ht, rfl⟩ := List.mem_map.mp hs
    exact hn.others t ht⟩

theorem Level.enslave (h : Level o d) : Level o (d.1, d.2.enslave) where
  level := h.level
  bounded := ⟨h.bounded.live, h.bounded.req, fun s hs => by
    obtain ⟨t, ht, rfl⟩ := List.mem_map.mp hs
    exact h.bounded.others t ht⟩
  replays := h.replays.imp fun _ hr => hr.enslave
  whole := h.whole
  lost hearly := (h.lost hearly).imp fun _ hn => hn.enslave

/-- The header of a new volume is a record like any other. -/
theorem Level.newtapeHeader (h : Level o d) : Level o (newtapeHeader o d) :=
  Level.putrec (d := (volumeHeader o _ d.1, d.2.enslave))
    (h.enslave.congr rfl rfl rfl rfl rfl rfl rfl rfl rfl) _

/-! ## A flush -/

theorem mem_others_send {w : Writer} {s : SlaveBuf} (hs : s ∈ w.send.others) :
    s ∈ w.others ∨ s = { w.slp with req := w.req, sent := true } := by
  have hring := ring_send w
  have hmem : s ∈ w.send.slp :: w.send.others := List.mem_cons_of_mem _ hs
  rw [hring] at hmem
  exact (List.mem_append.mp hmem).imp_right List.mem_singleton.mp

theorem Lost.nextBuffer {n : ℕ} (hn : Lost n d.2) (lastfirstrec : ℤ) (curino : ℕ)
    (reports : List Report) : Lost n (nextBuffer o lastfirstrec curino
      (d.1, { d.2.send with reports := reports })).2 := by
  have hlive := hn.live
  refine ⟨hn.lt, ?_, fun s hs => ?_⟩
  · simpa [DumpRestore.nextBuffer, Writer.clear, Writer.send] using hlive
  · rcases mem_others_send hs with hs | rfl
    · exact hn.others s hs
    · rw [numbersOf_append, List.mem_append, not_or] at hlive
      exact hlive.2

/-- A full block goes to a slave, and the next buffer is empty. -/
theorem Level.nextBuffer (h : Level o d) (hfull : d.2.trecno = o.ntrec) (lastfirstrec : ℤ)
    (curino : ℕ) (reports : List Report) :
    Level o (nextBuffer o lastfirstrec curino
      (d.1, { d.2.send with reports := reports })) where
  level := h.level.trans (by rw [hfull]; exact Nat.modEq_zero_iff_dvd.mpr dvd_rfl)
  bounded := by
    refine ⟨fun blk hblk => ?_, fun q hq => absurd hq List.not_mem_nil, fun s hs => ?_⟩
    · rcases List.mem_append.mp hblk with hblk | hblk
      · exact h.bounded.live blk hblk
      · rw [List.mem_singleton.mp hblk]
        exact h.bounded.req
    · rcases mem_others_send hs with hs | rfl
      · exact h.bounded.others s hs
      · exact h.bounded.req
  replays := by
    obtain ⟨carry, hr⟩ := h.replays
    exact hr.nextBuffer lastfirstrec curino reports
  whole hzero := by
    have hwhole := h.whole hzero
    simpa [Whole, DumpRestore.nextBuffer, Writer.clear, Writer.send] using hwhole
  lost hearly := (h.lost hearly).imp fun _ hn => hn.nextBuffer lastfirstrec curino reports

/-- **An end of tape** leaves one record more in the buffer than `c_tapea` counts. -/
theorem Level.rolled (h : Level o d) (hfull : d.2.trecno = o.ntrec)
    (hsent : d.2.send.slp.sent = true) {rest : List Report} {hdr : Req}
    {p : List (List Req) × Req} (hroll : Rolled o d rest hdr p d') : Level o d' where
  level := by
    rw [hroll.cTapea, hroll.eots, hroll.trecno]
    exact (h.level.trans (by rw [hfull]; exact Nat.modEq_zero_iff_dvd.mpr dvd_rfl)).add_right 1
  bounded := h.bounded.rolled hroll
  replays := by
    obtain ⟨carry, hr⟩ := h.replays
    obtain ⟨-, -, q, -, hr'⟩ := hr.rolled hsent hroll
    exact ⟨q.last, hr'⟩
  whole hzero := by
    obtain ⟨carry, hr⟩ := h.replays
    have hlen := hr.length_others
    rw [hroll.early, hlen] at hzero
    split at hzero
    · cases hzero
    · exact hr.whole_rolled h.bounded (h.whole hzero) hsent (by omega) hroll
  lost hpos := by
    obtain ⟨carry, hr⟩ := h.replays
    have hlen := hr.length_others
    rcases Nat.eq_zero_or_pos d.2.early with hzero | hearly
    · have hsince : d.2.since < 2 := by
        rw [hroll.early, hlen, hzero] at hpos
        split at hpos
        · assumption
        · cases hpos
      exact ⟨carry.first, hr.lost_rolled h.bounded (h.whole hzero) hsent hsince hroll⟩
    · obtain ⟨n, hn⟩ := h.lost hearly
      exact ⟨n, hn.rolled hr h.bounded hsent hroll⟩

/-! ## The calls -/

/-- What a call of the writer leaves: the level is right and the buffer is not full. -/
structure Ready (o : DumpOptions) (d d' : Spcl × Writer) : Prop where
  level : Level o d'
  room : d'.2.trecno < o.ntrec
  handed : d.2.handed ≤ d'.2.handed

theorem Level.fill (h : Level o d) (hle : d.2.trecno ≤ o.ntrec)
    {flush : Spcl × Writer → Option (Spcl × Writer)}
    (hflush : d.2.trecno = o.ntrec → flush d = some d' → Ready o d d')
    (hd : fill o flush d = some d') : Ready o d d' := by
  rw [DumpRestore.fill] at hd
  split at hd
  · exact hflush (by omega) hd
  · obtain rfl := Option.some.inj hd
    exact ⟨h, by omega, le_rfl⟩

/-- The first record of a volume is its header. -/
theorem Level.startnewtape (h : Level o d) (hempty : d.2.trecno = 0) (hpos : 0 < o.ntrec)
    {flush : Spcl × Writer → Option (Spcl × Writer)}
    (hflush : ∀ e e', Level o e → e.2.trecno = o.ntrec → flush e = some e' → Ready o e e')
    (hd : startnewtape o flush d = some d') : Ready o d d' := by
  obtain ⟨e, he, rfl⟩ := Option.map_eq_some_iff.mp hd
  have hheader := h.newtapeHeader
  have hone : (DumpRestore.newtapeHeader o d).2.trecno = d.2.trecno + 1 := rfl
  have hready := hheader.fill (by omega) (fun hfull hfl => hflush _ e hheader hfull hfl) he
  exact ⟨hready.level.congr rfl rfl rfl rfl rfl rfl rfl rfl rfl, hready.room,
    (Nat.le_succ _).trans hready.handed⟩

/-- **A flush** of a full buffer makes room. -/
theorem Level.flushtape (h : Level o d) (hfull : d.2.trecno = o.ntrec) (hpos : 0 < o.ntrec)
    {reports : List Report} (hd : flushtape o reports d = some d') : Ready o d d' := by
  induction reports generalizing d d' with
  | nil => cases hd
  | cons rep reports ih =>
    rw [DumpRestore.flushtape] at hd
    split at hd
    case isTrue heot =>
      obtain ⟨hdr, p, hroll⟩ := rolled_of_rollforward hd
      refine ⟨h.rolled hfull heot.1 hroll, ?_, ?_⟩
      · rw [hroll.trecno]
        exact hroll.ntrec
      · rw [hroll.handed]
        exact Nat.le_succ _
    case isFalse =>
      have hnext := h.nextBuffer hfull d.2.slp.firstrec rep.curino reports
      dsimp only at hd
      split at hd
      · have hready := hnext.startnewtape rfl hpos (fun _ _ hlevel hfull' => ih hlevel hfull') hd
        exact ⟨hready.level, hready.room, hready.handed⟩
      · obtain rfl := Option.some.inj hd
        exact ⟨hnext, hpos, le_rfl⟩

theorem Level.writerec (h : Level o d) (hroom : d.2.trecno < o.ntrec) {r : Rec}
    (hd : writerec o r d = some d') : Ready o d d' := by
  have hput := h.putrec r
  have hready := hput.fill hroom
    (fun hfull hflush => hput.flushtape hfull (Nat.zero_lt_of_lt hroom) hflush) hd
  exact ⟨hready.level, hready.room, (Nat.le_succ _).trans hready.handed⟩

theorem Lost.putrec {n : ℕ} (hn : Lost n d.2) (r : Rec) : Lost n (DumpRestore.putrec r d).2 :=
  have hput := hn.put (.buffer r) 1
  ⟨hput.lt, hput.live, hput.others⟩

theorem Lost.newtapeHeader {n : ℕ} (hn : Lost n d.2) : Lost n (DumpRestore.newtapeHeader o d).2 :=
  Lost.putrec (d := (volumeHeader o _ d.1, d.2.enslave)) hn.enslave _

theorem Lost.fill {n : ℕ} (hn : Lost n d.2) {flush : Spcl × Writer → Option (Spcl × Writer)}
    (hflush : d.2.trecno ≥ o.ntrec → flush d = some d' → Lost n d'.2)
    (hd : DumpRestore.fill o flush d = some d') : Lost n d'.2 := by
  rw [DumpRestore.fill] at hd
  split at hd
  case isTrue hfull => exact hflush hfull hd
  case isFalse =>
    obtain rfl := Option.some.inj hd
    exact hn

/-- A record that is lost stays lost. -/
theorem Lost.flushtape {n : ℕ} (hn : Lost n d.2) (h : Level o d) (hfull : d.2.trecno = o.ntrec)
    (hpos : 0 < o.ntrec) {reports : List Report} (hd : flushtape o reports d = some d') :
    Lost n d'.2 := by
  induction reports generalizing d d' with
  | nil => cases hd
  | cons rep reports ih =>
    rw [DumpRestore.flushtape] at hd
    split at hd
    case isTrue heot =>
      obtain ⟨hdr, p, hroll⟩ := rolled_of_rollforward hd
      obtain ⟨carry, hring⟩ := h.replays
      exact hn.rolled hring h.bounded heot.1 hroll
    case isFalse =>
      have hnext := h.nextBuffer hfull d.2.slp.firstrec rep.curino reports
      have hlost := hn.nextBuffer (o := o) d.2.slp.firstrec rep.curino reports
      dsimp only at hd
      split at hd
      · obtain ⟨e, he, rfl⟩ := Option.map_eq_some_iff.mp hd
        have hheader := hnext.newtapeHeader
        have hfilled : Lost n e.2 := hlost.newtapeHeader.fill (fun hroom hflush =>
          ih hlost.newtapeHeader hheader (Nat.le_antisymm hpos hroom) hflush) he
        exact hfilled
      · obtain rfl := Option.some.inj hd
        exact hlost

theorem Lost.writerec {n : ℕ} (hn : Lost n d.2) (h : Level o d) (hroom : d.2.trecno < o.ntrec)
    {r : Rec} (hd : DumpRestore.writerec o r d = some d') : Lost n d'.2 :=
  (hn.putrec r).fill (fun hfull hflush => (hn.putrec r).flushtape (h.putrec r)
    (Nat.le_antisymm hroom hfull) (Nat.zero_lt_of_lt hroom) hflush) hd

/-! ## Flushes that do not end a volume -/

/-- No slave behind the current one has a block whose result has not been read. -/
def Writer.Quiet (w : Writer) : Prop := ∀ s ∈ w.others, s.sent = false

theorem Writer.Quiet.sent {w : Writer} (hquiet : w.Quiet) (hne : w.others ≠ []) :
    w.send.slp.sent = false := by
  rw [slp_send hne]
  exact hquiet _ (List.head_mem hne)

theorem quiet_newtapeHeader : (newtapeHeader o d).2.Quiet := by
  intro s hs
  obtain ⟨t, -, rfl⟩ := List.mem_map.mp hs
  rfl

/-- What a flush leaves that finds no end of tape: the buffer was sent, and the next one is empty or
has the header of a new volume. -/
structure Sent (d d' : Spcl × Writer) : Prop where
  live : d.2.live ++ [d.2.req] <+: d'.2.live
  buffer : d'.2.trecno = 0 ∨ (d'.2.trecno = 1 ∧ d'.2.Quiet)

/-- A flush that finds no end of tape. In the flushes that it makes itself no results are read. -/
theorem sent_flushtape (hne : d.2.others ≠ []) {reports : List Report}
    (heot : ∀ rep ∈ reports.head?, ¬ (d.2.send.slp.sent = true ∧ rep.eot = true))
    (hd : flushtape o reports d = some d') : Sent d d' := by
  induction reports generalizing d d' with
  | nil => cases hd
  | cons rep reports ih =>
    rw [DumpRestore.flushtape, if_neg (heot rep rfl)] at hd
    dsimp only at hd
    set e := DumpRestore.nextBuffer o d.2.slp.firstrec rep.curino
      (d.1, { d.2.send with reports := reports })
    have hlive : e.2.live = d.2.live ++ [d.2.req] := rfl
    split at hd
    case isTrue =>
      obtain ⟨e', he', rfl⟩ := Option.map_eq_some_iff.mp hd
      have hquiet : (DumpRestore.newtapeHeader o e).2.Quiet := quiet_newtapeHeader
      have hothers : (DumpRestore.newtapeHeader o e).2.others ≠ [] := by
        have hlen : (DumpRestore.newtapeHeader o e).2.others.length = d.2.others.length := by
          have hring := congrArg List.length (ring_send d.2)
          simp only [List.length_cons, List.length_append, List.length_nil] at hring
          exact (List.length_map _).trans (Nat.succ_injective hring)
        rw [← List.length_pos_iff, hlen]
        exact List.length_pos_iff.mpr hne
      rw [DumpRestore.fill] at he'
      split at he'
      case isTrue =>
        have hmore := ih hothers (fun _ _ hboth => by
          rw [hquiet.sent hothers] at hboth
          cases hboth.1) he'
        exact ⟨(List.prefix_append _ _).trans hmore.live, hmore.buffer⟩
      case isFalse =>
        obtain rfl := Option.some.inj he'
        exact ⟨List.prefix_rfl, .inr ⟨rfl, hquiet⟩⟩
    case isFalse =>
      obtain rfl := Option.some.inj hd
      exact ⟨List.prefix_rfl, .inl rfl⟩

theorem Level.putblocks (h : Level o d) (dblkno : ℕ) {avail : ℕ} (hpos : 0 < avail) :
    Level o (putblocks dblkno avail d) := h.put _ hpos rfl

theorem Level.dumpblockLoop (h : Level o d) (hroom : d.2.trecno < o.ntrec)
    {fuel dblkno tpblks : ℕ} (hd : dumpblockLoop o fuel dblkno tpblks d = some d') :
    Ready o d d' := by
  induction fuel generalizing dblkno tpblks d with
  | zero =>
    obtain rfl := Option.some.inj hd
    exact ⟨h, hroom, le_rfl⟩
  | succ fuel ih =>
    simp only [DumpRestore.dumpblockLoop] at hd
    split at hd
    · rename_i havail
      obtain ⟨e, he, hrest⟩ := Option.bind_eq_some_iff.mp hd
      have hput := h.putblocks dblkno havail
      have hle : (DumpRestore.putblocks dblkno (min tpblks (o.ntrec - d.2.trecno)) d).2.trecno ≤
          o.ntrec := by
        simp only [DumpRestore.putblocks, Writer.put]
        omega
      have hready := hput.fill hle
        (fun hfull hflush => hput.flushtape hfull (Nat.zero_lt_of_lt hroom) hflush) he
      have hloop := ih hready.level hready.room hrest
      exact ⟨hloop.level, hloop.room,
        (Nat.le_add_right _ _).trans (hready.handed.trans hloop.handed)⟩
    · obtain rfl := Option.some.inj hd
      exact ⟨h, hroom, le_rfl⟩

end Steps

/-! ## Runs -/

section Runs

variable {o : DumpOptions} {fs : Ext2Fs} {d : Spcl × Option Writer} {h : Spcl} {w : Writer}

/-- What holds between the calls of the producers. -/
def Between (o : DumpOptions) (d : Spcl × Option Writer) : Prop :=
  ∀ w, d.2 = some w → Level o (d.1, w) ∧ w.trecno < o.ntrec

theorem onWriter_eq_some {f : Spcl × Writer → Option (Spcl × Writer)}
    (hf : (onWriter f d).2 = some w) :
    ∃ v, d.2 = some v ∧ f (d.1, v) = some ((onWriter f d).1, w) := by
  rw [onWriter] at hf ⊢
  cases hd : d.2 with
  | none => simp [hd] at hf
  | some v =>
    simp only [hd] at hf ⊢
    cases hfv : f (d.1, v) with
    | none => simp [hfv] at hf
    | some d' =>
      simp only [hfv, Option.some.injEq] at hf ⊢
      exact ⟨v, rfl, by rw [hfv, ← hf]⟩

theorem Between.onWriter (hb : Between o d) {f : Spcl × Writer → Option (Spcl × Writer)}
    (hf : ∀ e e', Level o e → e.2.trecno < o.ntrec → f e = some e' → Ready o e e') :
    Between o (onWriter f d) := by
  intro w hw
  obtain ⟨v, hv, hfv⟩ := onWriter_eq_some hw
  obtain ⟨hlevel, hroom⟩ := hb v hv
  have hready := hf _ _ hlevel hroom hfv
  exact ⟨hready.level, hready.room⟩

theorem Between.modifySpcl (hb : Between o d) {f : Spcl → Spcl}
    (hf : (f d.1).cTapea = d.1.cTapea) : Between o (modifySpcl f d) := by
  intro w hw
  obtain ⟨hlevel, hroom⟩ := hb w hw
  exact ⟨hlevel.congr hf rfl rfl rfl rfl rfl rfl rfl rfl, hroom⟩

theorem Between.writeheader (hb : Between o d) (ino : ℕ) :
    Between o (writeheader (writer o fs) ino d) :=
  (hb.modifySpcl (f := sealHeader ino) rfl).onWriter fun _ _ hlevel hroom => hlevel.writerec hroom

/-- One call of the producers. -/
theorem Between.exec (hb : Between o d) (c : WriterCall) :
    Between o (c.exec (writer o fs) d) := by
  cases c with
  | assign f => exact hb.modifySpcl (f.property d.1)
  | writeheader ino => exact hb.writeheader ino
  | writerec b => exact hb.onWriter fun _ _ hlevel hroom => hlevel.writerec hroom
  | dumpblock blkno size => exact hb.onWriter fun _ _ hlevel hroom => hlevel.dumpblockLoop hroom

/-- A writer that was handed nothing. -/
theorem level_alloctape (o : DumpOptions) (h : Spcl) (reports : List Report) :
    Level o ({ h with cTapea := 0 }, alloctape reports) where
  level := rfl
  bounded := by
    constructor <;> simp [alloctape, default, instInhabitedSlaveBuf.default]
  replays := ⟨⟨.device 0, 0, 0⟩, replays_alloctape reports _⟩
  whole _ := List.Perm.refl _
  lost hpos := absurd hpos (Nat.lt_irrefl 0)

/-- **All calls of the producers.** -/
theorem between_beforeTrailer (hpos : 0 < o.ntrec) (fs : Ext2Fs) (reports : List Report)
    (calls : List WriterCall) : Between o (beforeTrailer o fs h reports calls) := by
  induction calls using List.reverseRecOn with
  | nil =>
    intro w hw
    rw [beforeTrailer, List.foldl_nil] at hw
    obtain ⟨v, hv, hfv⟩ := onWriter_eq_some hw
    obtain rfl := Option.some.inj hv
    have hready := (level_alloctape o h reports).startnewtape rfl hpos
      (fun _ _ hlevel hfull hflush => hlevel.flushtape hfull hpos hflush) hfv
    exact ⟨hready.level, hready.room⟩
  | append_singleton calls c ih =>
    rw [beforeTrailer, List.foldl_append]
    exact ih.exec c

end Runs

end DumpRestore
