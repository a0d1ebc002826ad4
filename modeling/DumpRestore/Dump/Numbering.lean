import DumpRestore.Dump.WriterInvariant

/-!
# The numbers of the records

`c_firstrec` of a volume is the number of its first record. The writer numbers the records by the
blocks it has handed to the slaves, and the records in the buffer after them. A volume header counts
if it was started by a full volume; `rollforward` puts one in front of records that have their
numbers already, so that these and all later ones move on by one.

* `Writer.number` is the number of the next record.
* `numbered_beforeTrailer`: it is `c_tapea`, and one more for each end of tape.
* `number_writeheader`: what that says about a header that restore has looked for.
-/

namespace DumpRestore

/-- The number of the next record. -/
def Writer.number (w : Writer) : ℤ := w.slp.firstrec + w.trecno

/-- The number of the next record is `c_tapea`, and one more for each end of tape. -/
def Numbered (d : Spcl × Writer) : Prop := d.2.number = (d.1.cTapea : ℤ) + d.2.eots

section Steps

variable {o : DumpOptions} {d d' : Spcl × Writer}

theorem Numbered.put (h : Numbered d) (src : Source) (count : ℕ) {hd : Spcl}
    (htapea : hd.cTapea = d.1.cTapea + count) : Numbered (hd, d.2.put src count) := by
  simp only [Numbered, Writer.number, Writer.put, htapea] at h ⊢
  push_cast
  omega

theorem Numbered.putrec (h : Numbered d) (r : Rec) : Numbered (putrec r d) :=
  h.put (.buffer r) 1 (rfl : (DumpRestore.putrec r d).1.cTapea = _)

theorem Numbered.newtapeHeader (h : Numbered d) : Numbered (newtapeHeader o d) :=
  Numbered.putrec (d := (volumeHeader o _ d.1, d.2.enslave)) h _

theorem Numbered.nextBuffer (h : Numbered d) (hfull : d.2.trecno = o.ntrec) (curino : ℕ)
    (reports : List Report) :
    Numbered
      (nextBuffer o d.2.slp.firstrec curino (d.1, { d.2.send with reports := reports })) := by
  rw [Numbered, Writer.number, hfull] at h
  simp only [Numbered, Writer.number, DumpRestore.nextBuffer, Writer.clear, Writer.send]
  omega

/-- The last slave of the ring is the one that was handed a block. -/
theorem getLastD_send (w : Writer) (s : SlaveBuf) :
    (w.send.slp :: w.send.others).getLastD s = { w.slp with req := w.req, sent := true } := by
  simp only [Writer.send]
  cases hothers : w.others with
  | nil => rfl
  | cons t ts =>
    simp only [List.cons_append, List.headD_cons, List.tail_cons]
    rw [List.getLastD_cons, List.getLastD_concat]

theorem Numbered.rollforward (h : Numbered d) (hfull : d.2.trecno = o.ntrec) {curino : ℕ}
    {reports : List Report}
    (hd : rollforward o curino (d.1, { d.2.send with reports := reports }) = some d') :
    Numbered d' := by
  rw [Numbered, Writer.number, hfull] at h
  rw [DumpRestore.rollforward] at hd
  split at hd
  · cases hd
  · dsimp only at hd
    split at hd
    · cases hd
    · obtain ⟨p, -, rfl⟩ := Option.map_eq_some_iff.mp hd
      have heots : d.2.send.eots = d.2.eots := rfl
      simp only [Numbered, Writer.number, getLastD_send, heots]
      push_cast
      omega

/-- What a flush keeps, if the buffer was full. -/
def KeepsNumbers (o : DumpOptions) (flush : Spcl × Writer → Option (Spcl × Writer)) : Prop :=
  ∀ d d', Level o d → Numbered d → d.2.trecno = o.ntrec → flush d = some d' → Numbered d'

theorem Numbered.fill (h : Numbered d) (hlevel : Level o d) (hle : d.2.trecno ≤ o.ntrec)
    {flush : Spcl × Writer → Option (Spcl × Writer)} (hflush : KeepsNumbers o flush)
    (hd : fill o flush d = some d') : Numbered d' := by
  rw [DumpRestore.fill] at hd
  split at hd
  · exact hflush d d' hlevel h (by omega) hd
  · obtain rfl := Option.some.inj hd
    exact h

theorem Numbered.startnewtape (h : Numbered d) (hlevel : Level o d) (hempty : d.2.trecno = 0)
    (hpos : 0 < o.ntrec) {flush : Spcl × Writer → Option (Spcl × Writer)}
    (hflush : KeepsNumbers o flush) (hd : startnewtape o flush d = some d') : Numbered d' := by
  obtain ⟨e, he, rfl⟩ := Option.map_eq_some_iff.mp hd
  have hone : (DumpRestore.newtapeHeader o d).2.trecno = d.2.trecno + 1 := rfl
  have hfilled : Numbered e := h.newtapeHeader.fill hlevel.newtapeHeader (by omega) hflush he
  exact hfilled

theorem keepsNumbers_flushtape (hpos : 0 < o.ntrec) (reports : List Report) :
    KeepsNumbers o (flushtape o reports) := by
  induction reports with
  | nil => exact fun _ _ _ _ _ hd => by cases hd
  | cons rep reports ih =>
    intro d d' hlevel h hfull hd
    rw [DumpRestore.flushtape] at hd
    split at hd
    · exact h.rollforward hfull hd
    · have hnext := h.nextBuffer hfull rep.curino reports
      have hlevel' := hlevel.nextBuffer hfull d.2.slp.firstrec rep.curino reports
      split at hd
      · exact hnext.startnewtape hlevel' rfl hpos ih hd
      · obtain rfl := Option.some.inj hd
        exact hnext

theorem Numbered.writerec (h : Numbered d) (hlevel : Level o d) (hroom : d.2.trecno < o.ntrec)
    {r : Rec} (hd : writerec o r d = some d') : Numbered d' :=
  (h.putrec r).fill (hlevel.putrec r) hroom
    (keepsNumbers_flushtape (Nat.zero_lt_of_lt hroom) _) hd

theorem Numbered.dumpblockLoop (h : Numbered d) (hlevel : Level o d)
    (hroom : d.2.trecno < o.ntrec) {fuel dblkno tpblks : ℕ}
    (hd : dumpblockLoop o fuel dblkno tpblks d = some d') : Numbered d' := by
  induction fuel generalizing dblkno tpblks d with
  | zero =>
    obtain rfl := Option.some.inj hd
    exact h
  | succ fuel ih =>
    simp only [DumpRestore.dumpblockLoop] at hd
    split at hd
    · rename_i havail
      obtain ⟨e, he, hrest⟩ := Option.bind_eq_some_iff.mp hd
      have hput : Level o (putblocks dblkno (min tpblks (o.ntrec - d.2.trecno)) d) :=
        hlevel.putblocks dblkno havail
      have hle : (putblocks dblkno (min tpblks (o.ntrec - d.2.trecno)) d).2.trecno ≤ o.ntrec := by
        simp only [putblocks, Writer.put]
        omega
      have hready := hput.fill hle
        (fun hfull hflush => hput.flushtape hfull (Nat.zero_lt_of_lt hroom) hflush) he
      have hnumbers : Numbered (putblocks dblkno (min tpblks (o.ntrec - d.2.trecno)) d) :=
        h.put _ _ rfl
      exact ih (hnumbers.fill hput hle (keepsNumbers_flushtape (Nat.zero_lt_of_lt hroom) _) he)
        hready.level hready.room hrest
    · obtain rfl := Option.some.inj hd
      exact h

end Steps

/-! ## Runs -/

section Runs

variable {o : DumpOptions} {fs : Ext2Fs} {h : Spcl} {w : Writer}

/-- What holds of the numbers between the calls of the producers. -/
def BetweenNumbers (d : Spcl × Option Writer) : Prop := ∀ w, d.2 = some w → Numbered (d.1, w)

theorem BetweenNumbers.onWriter {d : Spcl × Option Writer} (hn : BetweenNumbers d)
    (hb : Between o d) {f : Spcl × Writer → Option (Spcl × Writer)}
    (hf : ∀ e e', Numbered e → Level o e → e.2.trecno < o.ntrec → f e = some e' → Numbered e') :
    BetweenNumbers (onWriter f d) := by
  intro w hw
  obtain ⟨v, hv, hfv⟩ := onWriter_eq_some hw
  exact hf _ _ (hn v hv) (hb v hv).1 (hb v hv).2 hfv

/-- One call of the producers. -/
theorem BetweenNumbers.exec {d : Spcl × Option Writer} (hn : BetweenNumbers d) (hb : Between o d)
    (c : WriterCall) : BetweenNumbers (c.exec (writer o fs) d) := by
  cases c with
  | assign f =>
    intro w hw
    have hkept := hn w hw
    rw [Numbered] at hkept ⊢
    rw [hkept]
    exact congrArg (fun n : ℕ => (n : ℤ) + w.eots) (f.property d.1).symm
  | writeheader ino =>
    have hsealed : BetweenNumbers (modifySpcl (sealHeader ino) d) := hn
    exact hsealed.onWriter (hb.modifySpcl (f := sealHeader ino) rfl) fun _ _ h hlevel hroom =>
      h.writerec hlevel hroom
  | writerec b => exact hn.onWriter hb fun _ _ h hlevel hroom => h.writerec hlevel hroom
  | dumpblock blkno size =>
    exact hn.onWriter hb fun _ _ h hlevel hroom => h.dumpblockLoop hlevel hroom

/-- **The number of the next record**, between any calls of the producers. -/
theorem numbered_beforeTrailer (hpos : 0 < o.ntrec) (fs : Ext2Fs) (reports : List Report)
    (calls : List WriterCall) : BetweenNumbers (beforeTrailer o fs h reports calls) := by
  induction calls using List.reverseRecOn with
  | nil =>
    intro w hw
    rw [beforeTrailer, List.foldl_nil] at hw
    obtain ⟨v, hv, hfv⟩ := onWriter_eq_some hw
    obtain rfl := Option.some.inj hv
    exact Numbered.startnewtape (d := ({ h with cTapea := 0 }, alloctape reports)) rfl
      (level_alloctape o h reports) rfl hpos (keepsNumbers_flushtape hpos _) hfv
  | append_singleton calls c ih =>
    rw [beforeTrailer, List.foldl_append]
    exact BetweenNumbers.exec ih (between_beforeTrailer hpos fs reports calls) c

/-- A header that goes on tape between these calls: what restore makes of `c_tapea` and `c_volume`
is the number of the next record if all volumes but the first were started at an end of tape. -/
theorem number_writeheader (hpos : 0 < o.ntrec) {reports : List Report} {calls : List WriterCall}
    (hw : (beforeTrailer o fs h reports calls).2 = some w) :
    ((beforeTrailer o fs h reports calls).1.cTapea : ℤ) +
        (beforeTrailer o fs h reports calls).1.cVolume = w.number + 1 ↔
      (beforeTrailer o fs h reports calls).1.cVolume = w.eots + 1 := by
  have hnumber : w.number = ((beforeTrailer o fs h reports calls).1.cTapea : ℤ) + w.eots :=
    numbered_beforeTrailer hpos fs reports calls w hw
  omega

end Runs

end DumpRestore
