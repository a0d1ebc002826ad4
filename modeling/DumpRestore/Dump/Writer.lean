import DumpRestore.Dump.Producer

/-!
# The writer

`writerec` and `dumpblock` collect requests in the buffer of the current slave. `flushtape` hands a
full buffer to that slave and looks at the result of the next one. It starts a new volume when the
volume is full; when the result is an end of tape, `rollforward` starts one and hands the blocks of
all slaves out again, behind the header of the new volume.

* What the program learns from outside at a `flushtape` is a `Report`. A slave that reports an
  error, or an end of tape in the first block of a volume, ends the process; such runs have no
  result here.
* Requests number the records they stand for in the order in which `writerec` and `dumpblock` got
  them, headers of volumes included. The program keeps no such numbers, and no list of the blocks
  that went to a slave.
* With blocks of one record `rollforward` measures the request from the buffers of two slaves. What
  it sends then depends on where they lie in memory; there is no result either.
-/

namespace DumpRestore

/-- `SLAVES`. -/
def slavesMax : ℕ := 3

/-- Where the records of a request are: in the buffer (`dblk = 0`), or on the device. -/
inductive Source
  | buffer (r : Rec)
  | device (dblk : ℕ)

/-- `struct req`, with the number of its first record. -/
structure Req where
  src : Source
  count : ℕ
  first : ℕ

namespace Req

/-- The records that a request stands for. -/
def numbers (q : Req) : List ℕ := List.range' q.first q.count

/-- The last record of a request, as a request of its own. -/
def last (q : Req) : Req :=
  match q.src with
  | .buffer _ => q
  | .device dblk =>
    ⟨.device (dblk + (q.count - 1) * (tpBsize / devBsize)), 1, q.first + (q.count - 1)⟩

/-- A request without its last record. -/
def init (q : Req) : List Req :=
  match q.src with
  | .buffer _ => []
  | .device _ => if q.count - 1 = 0 then [] else [{ q with count := q.count - 1 }]

end Req

/-- The part of `struct slave` that the master keeps. -/
structure SlaveBuf where
  req : List Req
  sent : Bool
  count : ℤ
  tapea : ℕ
  firstrec : ℤ
  inode : ℕ
  deriving Inhabited

/-- What happens at a `flushtape`: whether the result that is read is an end of tape, whether the
volume is full after it, and the inode that is being dumped (`curino`). -/
structure Report where
  eot : Bool
  full : Bool
  curino : ℕ

/-- The state of the writer. `req` and `trecno` are the buffer of the current slave as far as it is
filled; `others` are the slaves after it, in the order of the ring.

The members from `handed` on are not in the program: the number of records handed in, the number of
ends of tape, the blocks that went to a slave, those of them that a volume has or can still get, the
number of blocks since the last end of tape, and the number of ends of tape that came before each
slave had got a new block. -/
structure Writer where
  req : List Req
  trecno : ℕ
  slp : SlaveBuf
  others : List SlaveBuf
  lastspclrec : ℤ
  reports : List Report
  handed : ℕ
  eots : ℕ
  flushed : List (List Req)
  live : List (List Req)
  since : ℕ
  early : ℕ

namespace Writer

/-- The record with this number went to a slave, for a volume that did not end before it. -/
def Passed (w : Writer) (n : ℕ) : Prop := ∃ blk ∈ w.live, ∃ q ∈ blk, n ∈ q.numbers

/-- Add a request to the buffer. -/
def put (w : Writer) (src : Source) (count : ℕ) : Writer :=
  { w with
    req := w.req ++ [⟨src, count, w.handed⟩]
    trecno := w.trecno + count
    handed := w.handed + count }

/-- Hand the buffer to the current slave, and go to the next one. -/
def send (w : Writer) : Writer :=
  let ring := w.others ++ [{ w.slp with req := w.req, sent := true }]
  { w with
    slp := ring.headD w.slp
    others := ring.tail
    flushed := w.flushed ++ [w.req]
    live := w.live ++ [w.req]
    since := w.since + 1 }

/-- `enslave`: new processes, with nothing sent to them. -/
def enslave (w : Writer) : Writer :=
  { w with
    slp := { w.slp with sent := false }
    others := w.others.map fun s => { s with sent := false } }

/-- Leave the buffer empty. -/
def clear (w : Writer) : Writer := { w with req := [], trecno := 0 }

end Writer

/-- The records that are left of the object of the global header when it goes on tape: those of a
map, or those that the address map announces. -/
def pendingBlks (maps : Bool) (h : Spcl) : ℤ :=
  if maps ∧ (h.cType = .clri ∨ h.cType = .bits) then h.cCount
  else if h.cType ≠ .end_ then
    ((List.range h.cCount.toNat).filter fun i => h.cAddr i ≠ 0).length
  else 0

section Calls

variable (o : DumpOptions)

/-- The part of `writerec` before `flushtape`. -/
def putrec (r : Rec) (d : Spcl × Writer) : Spcl × Writer :=
  ({ d.1 with cTapea := d.1.cTapea + 1 },
    { d.2.put (.buffer r) 1 with
      lastspclrec := match r with
        | .spcl _ => d.1.cTapea
        | .data _ => d.2.lastspclrec })

/-- `if (trecno >= ntrec) flushtape()`. -/
def fill (flush : Spcl × Writer → Option (Spcl × Writer)) (d : Spcl × Writer) :
    Option (Spcl × Writer) :=
  if d.2.trecno ≥ o.ntrec then flush d else some d

/-- `startnewtape` up to the call of `writerec` for the volume header, and that call without its
`flushtape`. -/
def newtapeHeader (d : Spcl × Writer) : Spcl × Writer :=
  let w := d.2.enslave
  let h := volumeHeader o ⟨w.slp.count, w.slp.firstrec, w.slp.inode⟩ d.1
  putrec (.spcl h) (h, w)

/-- `spcl.c_flags &=~ DR_NEWHEADER`. -/
def clearNewheader (h : Spcl) : Spcl := { h with cFlags := h.cFlags &&& ~~~drNewheader }

/-- `startnewtape`. -/
def startnewtape (flush : Spcl × Writer → Option (Spcl × Writer)) (d : Spcl × Writer) :
    Option (Spcl × Writer) :=
  (fill o flush (newtapeHeader o d)).map (modifySpcl clearNewheader)

/-- The requests that `rollforward` sends: each block starts with the last record of the one before
it. The last record of all is left. -/
def shiftBlocks : Req → List (List Req) → Option (List (List Req) × Req)
  | carry, [] => some ([], carry)
  | carry, blk :: blks =>
    match blk.getLast? with
    | none => none
    | some q => (shiftBlocks q.last blks).map fun p =>
      ((carry :: (blk.dropLast ++ q.init)) :: p.1, p.2)

/-- `rollforward`. The volume that ended has none of the blocks that the slaves have last been sent.
The buffers of the slaves keep the requests as they were. -/
def rollforward (curino : ℕ) (d : Spcl × Writer) : Option (Spcl × Writer) :=
  if o.ntrec ≤ 1 then none
  else
    let old := d.2.slp :: d.2.others
    let p := newtapeHeader o ({ d.1 with cTapea := d.2.slp.tapea }, d.2.clear)
    let h := { clearNewheader p.1 with cTapea := d.1.cTapea }
    let lastspclrec := (d.1.cTapea : ℤ) - 1
    match p.2.req.head? with
    | none => none
    | some hdr => (shiftBlocks hdr (old.map SlaveBuf.req)).map fun blks =>
      (h, { p.2 with
        req := [blks.2]
        trecno := 1
        slp := { p.2.slp with
          sent := false
          firstrec := (old.getLastD d.2.slp).firstrec + o.ntrec
          count := lastspclrec + pendingBlks false h + 1 - h.cTapea
          inode := curino }
        others := p.2.others.map fun s => { s with sent := true }
        lastspclrec := lastspclrec
        eots := d.2.eots + 1
        flushed := d.2.flushed ++ blks.1
        live := d.2.live.take (d.2.live.length - old.length) ++ blks.1
        since := 0
        early := if d.2.since < old.length then d.2.early + 1 else d.2.early })

/-- What `flushtape` stores in the slave whose buffer is filled next. -/
def nextBuffer (lastfirstrec : ℤ) (curino : ℕ) (d : Spcl × Writer) : Spcl × Writer :=
  (d.1, { d.2.clear with
    slp := { d.2.slp with
      sent := false
      count := d.2.lastspclrec + pendingBlks true d.1 + 1 - d.1.cTapea
      tapea := d.1.cTapea
      firstrec := lastfirstrec + o.ntrec
      inode := curino } })

/-- `flushtape`, with the reports of this call and of those it makes itself. -/
def flushtape : List Report → Spcl × Writer → Option (Spcl × Writer)
  | [], _ => none
  | rep :: reports, d =>
    let w := { d.2.send with reports := reports }
    if w.slp.sent ∧ rep.eot then rollforward o rep.curino (d.1, w)
    else
      let d := nextBuffer o d.2.slp.firstrec rep.curino (d.1, w)
      if rep.full then startnewtape o (flushtape reports) d else some d

/-- `writerec`. -/
def writerec (r : Rec) (d : Spcl × Writer) : Option (Spcl × Writer) :=
  let d := putrec r d
  fill o (flushtape o d.2.reports) d

/-- The part of the loop of `dumpblock` before `flushtape`. -/
def putblocks (dblkno avail : ℕ) (d : Spcl × Writer) : Spcl × Writer :=
  ({ d.1 with cTapea := d.1.cTapea + avail }, d.2.put (.device dblkno) avail)

/-- The loop of `dumpblock`, which makes at most `tpblks` turns. -/
def dumpblockLoop : (fuel dblkno tpblks : ℕ) → Spcl × Writer → Option (Spcl × Writer)
  | 0, _, _, d => some d
  | fuel + 1, dblkno, tpblks, d =>
    let avail := min tpblks (o.ntrec - d.2.trecno)
    if avail > 0 then
      let d := putblocks dblkno avail d
      (fill o (flushtape o d.2.reports) d).bind
        (dumpblockLoop fuel (dblkno + avail * (tpBsize / devBsize)) (tpblks - avail))
    else some d

/-- `dumpblock`. -/
def dumpblock (fs : Ext2Fs) (blkno size : ℕ) (d : Spcl × Writer) : Option (Spcl × Writer) :=
  dumpblockLoop o (size / tpBsize) (fs.fsbtodb blkno) (size / tpBsize) d

/-- A call on a writer that is still there. -/
def onWriter (f : Spcl × Writer → Option (Spcl × Writer)) (d : Spcl × Option Writer) :
    Spcl × Option Writer :=
  match d.2 with
  | none => d
  | some w =>
    match f (d.1, w) with
    | none => (d.1, none)
    | some d' => (d'.1, some d'.2)

/-- The tape layer of `dump/tape.c`. -/
def writer (fs : Ext2Fs) : TapeLayer (Option Writer) where
  writerec r := onWriter (writerec o r)
  dumpblock blkno size := onWriter (dumpblock o fs blkno size)

/-- `alloctape`. -/
def alloctape (reports : List Report) : Writer where
  req := []
  trecno := 0
  slp := { (default : SlaveBuf) with count := 1 }
  others := List.replicate (slavesMax - 1) default
  lastspclrec := 0
  reports := reports
  handed := 0
  eots := 0
  flushed := []
  live := []
  since := 0
  early := 0

end Calls

/-! ## Runs of the writer -/

/-- An assignment to members of the global header other than `c_tapea`. -/
def Assignment : Type := { f : Spcl → Spcl // ∀ h, (f h).cTapea = h.cTapea }

/-- What the producers do with the global header and the tape layer. -/
inductive WriterCall
  | assign (f : Assignment)
  | writeheader (ino : ℕ)
  | writerec (b : Block)
  | dumpblock (blkno size : ℕ)

/-- A call on a tape layer. -/
def WriterCall.exec {τ : Type*} (L : TapeLayer τ) : WriterCall → Spcl × τ → Spcl × τ
  | .assign f => modifySpcl f.val
  | .writeheader ino => DumpRestore.writeheader L ino
  | .writerec b => L.writerec (.data b)
  | .dumpblock blkno size => L.dumpblock blkno size

/-- A dump up to its trailer: `alloctape`, the first `startnewtape`, and calls of the producers. -/
def beforeTrailer (o : DumpOptions) (fs : Ext2Fs) (h : Spcl) (reports : List Report)
    (calls : List WriterCall) : Spcl × Option Writer :=
  calls.foldl (fun d c => c.exec (writer o fs) d)
    (onWriter (fun d => startnewtape o (flushtape o d.2.reports) d)
      ({ h with cTapea := 0 }, some (alloctape reports)))

end DumpRestore
