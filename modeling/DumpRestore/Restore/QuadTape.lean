import DumpRestore.Restore.Convert
import DumpRestore.Restore.FileStream

/-!
# Reading with exchanged halves

`converthead` takes the header of a directory of more than `0xfffffff` bytes for one whose `di_size`
has its halves exchanged, sets `Qcvt`, and exchanges the halves in this header and in all headers
after it. `QuadTape` is one volume of a tape that is read with this variable.

* `convertheadBytes_quad`: its conversion of a header is that of the bytes.
* `extract_singles`: what `getfile` makes of a file whose headers have one block each.
-/

namespace DumpRestore

open ByteOrder

/-- What is left of the volume, and the variables `readmapflag`, `Qcvt` and `dumpdate`. -/
structure QuadTape where
  recs : List Rec
  readmapflag : Bool
  qcvt : Bool
  dumpdate : ℤ
  deriving Inhabited

namespace QuadTape

/-- The value of `Qcvt` after the header `h`. -/
def qcvtAfter (t : QuadTape) (h : Spcl) : Bool := t.qcvt || decide h.QuadSwapped

/-- `di_size` of the header `h` when it is converted. -/
def sizeOf (t : QuadTape) (h : Spcl) : ℕ :=
  if t.qcvtAfter h then quadSwap h.cDinode.diSize else h.cDinode.diSize

/-- `converthead`. A block of data is not a header. -/
def converthead (r : Rec) (t : QuadTape) : Option Spcl × QuadTape :=
  match r with
  | .spcl h =>
    if h.accepted then
      (some (if t.qcvtAfter h then h.quadSwap else h).patch,
        { t with readmapflag := h.isLongMap, qcvt := t.qcvtAfter h })
    else (none, t)
  | .data _ => (none, t)

/-- `readtape`. -/
def readtape (t : QuadTape) : Option (Rec × QuadTape) :=
  match t.recs with
  | r :: rs => some (r, { t with recs := rs })
  | [] => none

instance source : TapeSource QuadTape where
  readBlock t := t.readtape.map fun p => (p.1.block, p.2)
  gethead t := t.readtape.map fun p => converthead p.1 p.2
  readmapflag := QuadTape.readmapflag
  dumpdate := QuadTape.dumpdate
  total t := t.recs.length

end QuadTape

theorem members_quadSwap {g h : Spcl} (hm : g.members = h.members) :
    g.quadSwap.members = h.quadSwap.members := by
  have hset (h : Spcl) : h.quadSwap.members = h.members.quadSwap := rfl
  rw [hset, hm, ← hset]

/-- The conversion of the bytes of a header is that of the header itself. -/
theorem convertheadBytes_quad (m : Order) (e : Emitted) {g : Cvt}
    (hg : g.bcvt = true → Order.little = m.other) (hold : g.oldinofmt = false) {t : QuadTape}
    (hq : t.qcvt = g.qcvt) :
    ∃ h h', (convertheadBytes m ((e.header .little).image .little) g).1 = some h ∧
      (t.converthead (.spcl (e.header .little))).1 = some h' ∧ h.members = h'.members ∧
      (t.converthead (.spcl (e.header .little))).2.qcvt =
        (convertheadBytes m ((e.header .little).image .little) g).2.qcvt := by
  obtain ⟨h, hmembers, heq⟩ := convertheadBytes_eq m .little e hg
  have hflags : h.cFlags = e.spcl.cFlags := eq_of_members hmembers Spcl.cFlags fun _ => rfl
  have hswap : decide h.QuadSwapped = decide (e.header .little).QuadSwapped :=
    decide_eq_decide.mpr (Spcl.QuadSwapped.congr hmembers)
  have hdinode : h.cDinode = (e.header .little).cDinode :=
    eq_of_members hmembers Spcl.cDinode fun _ => rfl
  have haccepted : (e.header .little).accepted = true := by
    rw [Spcl.accepted, Bool.and_eq_true]
    exact ⟨decide_eq_true rfl, checksum_mkchecksum ..⟩
  rw [heq, convertheadGood_eq (g := { g with bcvt := decide (Order.little = m.other) })
    (by rw [hflags]; exact e.newinodefmt) hold, QuadTape.converthead, if_pos haccepted,
    QuadTape.qcvtAfter, hq]
  dsimp only
  rw [hswap]
  refine ⟨_, _, rfl, rfl, members_patch ?_, rfl⟩
  split
  · exact members_quadSwap hmembers
  · exact hmembers

/-! ## Headers with one block each -/

theorem ite_quadSwap (q : Bool) (h : Spcl) : (if q then h.quadSwap else h) =
    h.setSize (if q then quadSwap h.cDinode.diSize else h.cDinode.diSize) := by
  cases q <;> rfl

theorem cMagic_setSize_patch (h : Spcl) (n : ℕ) : (h.setSize n).patch.cMagic = h.cMagic :=
  (h.setSize n).patch_cMagic

section Singles

variable {t : QuadTape} {h next : Spcl} {rest : List Rec} {s : FileState} {fssize : ℕ} {b : Block}

/-- The tape after the header `h`. -/
def QuadTape.after (t : QuadTape) (h : Spcl) (rest : List Rec) : QuadTape :=
  { t with recs := rest, readmapflag := h.isLongMap, qcvt := t.qcvtAfter h }

theorem gethead_quad (hacc : h.accepted = true) (hrecs : t.recs = .spcl h :: rest) :
    TapeSource.gethead t = some (some (h.setSize (t.sizeOf h)).patch, t.after h rest) := by
  simp only [TapeSource.gethead, QuadTape.readtape, hrecs, Option.map_some, QuadTape.converthead,
    hacc, if_true]
  rw [ite_quadSwap]
  rfl

theorem nextHeader_quad (date : Bool) (fuel : ℕ) (hacc : h.accepted = true)
    (hdate : h.cDate = t.dumpdate) (hrecs : t.recs = .spcl h :: rest) :
    nextHeader date (fuel + 1) t = some ((h.setSize (t.sizeOf h)).patch, t.after h rest) := by
  have hpatch : (h.setSize (t.sizeOf h)).patch.cDate = t.dumpdate := by
    rw [Spcl.patch]
    split <;> exact hdate
  have hkeep : TapeSource.dumpdate (t.after h rest) = t.dumpdate := rfl
  simp [nextHeader, gethead_quad hacc hrecs, hpatch, hkeep]

/-- The block of a header. -/
theorem fileBlocks_single (hcount : h.cCount = 1) (haddr : h.cAddr 0 ≠ 0)
    (hrecs : t.recs = .data b :: rest) :
    fileBlocks fssize h h.cCount.toNat 0 (s, t) =
      some (s.block fssize (some b), { t with recs := rest }) := by
  have hread : readEntry true h 0 t = some (some b, { t with recs := rest }) := by
    simp [readEntry, haddr, TapeSource.readBlock, QuadTape.readtape, hrecs, Rec.block]
  have hone : h.cCount.toNat = 0 + 1 := by rw [hcount]; rfl
  rw [hone, fileBlocks, hread]
  simp only [Option.bind_some, discard, fileBlocks, Option.map_some, ite_self]

/-- The headers after `gs` have one block each. -/
def Singles (gs : List Segment) : Prop := ∀ g ∈ gs, ∃ b, g.blocks = [some b]

theorem Segment.single {g : Segment} (hg : g.blocks = [some b]) :
    g.header.cCount = 1 ∧ g.header.cAddr 0 ≠ 0 ∧ g.recs = [.spcl g.header, .data b] := by
  have haddr := g.addr
  rw [hg] at haddr
  refine ⟨by rw [g.count, hg]; rfl, by simpa using haddr.head, ?_⟩
  rw [Segment.recs, hg]
  rfl

/-- The loop of `getfile` over headers with one block each, if the file does not end before the last
of them. -/
theorem fileLoop_singles {gs : List Segment} {fuel : ℕ} (hfuel : gs.length < fuel)
    (hcount : h.cCount = 1) (haddr : h.cAddr 0 ≠ 0) (hgs : ∀ g ∈ gs, g.Continues t.dumpdate)
    (hsingles : Singles gs) (hnext : Follows t.dumpdate next)
    (hsize : (gs.length : ℤ) * tpBsize < s.size)
    (hrecs : t.recs = .data b :: (gs.flatMap Segment.recs ++ .spcl next :: rest)) :
    ∃ hd t', fileLoop fssize fuel h (s, t) =
        some (hd, (gs.flatMap Segment.blocks).foldl (FileState.block fssize)
          (s.block fssize (some b)), t') ∧
      t'.recs = rest ∧ hd.cType = next.cType ∧ hd.cMagic = nfsMagic := by
  induction gs generalizing fuel h s t b with
  | nil =>
    obtain ⟨fuel, rfl⟩ : ∃ k, fuel = k + 1 := ⟨fuel - 1, by simp at hfuel; omega⟩
    have htype : (next.setSize (QuadTape.sizeOf { t with recs := .spcl next :: rest }
        next)).patch.cType = next.cType := cType_patch _
    have hnot := hnext.type.1
    rw [fileLoop, fileBlocks_single hcount haddr hrecs]
    simp only [Option.bind_eq_bind, Option.bind_some, List.flatMap_nil, List.nil_append]
    rw [nextHeader_quad (t := { t with recs := .spcl next :: rest }) false _ hnext.accepted
      hnext.date rfl, Option.bind_some]
    dsimp only
    rw [if_neg (by rw [htype]; exact fun hand => hnot hand.2)]
    exact ⟨_, _, rfl, rfl, htype,
      (cMagic_setSize_patch ..).trans (cMagic_of_accepted hnext.accepted)⟩
  | cons g gs ih =>
    obtain ⟨fuel, rfl⟩ : ∃ k, fuel = k + 1 := ⟨fuel - 1, by simp at hfuel; omega⟩
    obtain ⟨hg, hgs⟩ := List.forall_mem_cons.mp hgs
    obtain ⟨⟨b', hb'⟩, hsingles⟩ := List.forall_mem_cons.mp hsingles
    obtain ⟨hcount', haddr', hrecs'⟩ := Segment.single hb'
    let rs : List Rec := .data b' :: (gs.flatMap Segment.recs ++ .spcl next :: rest)
    have hfirst : t.recs = .data b :: .spcl g.header :: rs := by
      rw [hrecs, List.flatMap_cons, hrecs']
      rfl
    let t₁ : QuadTape := { t with recs := .spcl g.header :: rs }
    let t₂ := t₁.after g.header rs
    have hpatch : (g.header.setSize (t₁.sizeOf g.header)).patch =
        g.header.setSize (t₁.sizeOf g.header) := patch_of_addr hg.type
    rw [List.length_cons] at hsize hfuel
    push_cast at hsize
    have hleft : (gs.length : ℤ) * tpBsize < (s.block fssize (some b)).size := by
      rw [size_block]
      rw [tpBsize] at *
      omega
    have hmore : (s.block fssize (some b)).size > 0 :=
      (by positivity : (0 : ℤ) ≤ gs.length * tpBsize).trans_lt hleft
    have hlen : gs.length < fuel := by omega
    obtain ⟨hd, t', hloop, hrest, htype⟩ := ih (t := t₂)
      (h := g.header.setSize (t₁.sizeOf g.header)) (s := s.block fssize (some b)) hlen
      hcount' haddr' hgs hsingles hnext hleft rfl
    refine ⟨hd, t', ?_, hrest, htype⟩
    rw [fileLoop, fileBlocks_single hcount haddr hfirst]
    simp only [Option.bind_eq_bind, Option.bind_some]
    rw [nextHeader_quad (t := t₁) false _ hg.accepted hg.date rfl, Option.bind_some, hpatch]
    dsimp only
    rw [if_pos ⟨hmore, hg.type⟩, hloop, List.flatMap_cons, hb']
    rfl

/-- **`getfile` on headers with one block each.** The size of the file is that of the first header,
with its halves exchanged if `Qcvt` says so. -/
theorem extract_singles {g : Segment} {gs : List Segment} (hacc : g.header.accepted = true)
    (htype : g.header.cType = .inode) (hgs : ∀ g' ∈ gs, g'.Continues t.dumpdate)
    (hsingles : Singles (g :: gs)) (hnext : Follows t.dumpdate next)
    {size : ℤ} (hdi : (t.sizeOf g.header : ℤ).bmod (2 ^ 64) = size)
    (hsize : (gs.length : ℤ) * tpBsize < size)
    (hrecs : t.recs = (g :: gs).flatMap Segment.recs ++ .spcl next :: rest) :
    ∃ hd t', extract fssize t =
        some ((((g :: gs).flatMap Segment.blocks).foldl (FileState.block fssize)
          ⟨[], size, false, []⟩).finish size, hd, t') ∧ t'.recs = rest := by
  obtain ⟨⟨b, hb⟩, hsingles⟩ := List.forall_mem_cons.mp hsingles
  obtain ⟨hcount, haddr, hgrecs⟩ := Segment.single hb
  have hfirst : t.recs =
      .spcl g.header :: .data b :: (gs.flatMap Segment.recs ++ .spcl next :: rest) := by
    rw [hrecs, List.flatMap_cons, hgrecs]
    rfl
  let t₁ := t.after g.header (.data b :: (gs.flatMap Segment.recs ++ .spcl next :: rest))
  have hpatch : (g.header.setSize (t.sizeOf g.header)).patch =
      g.header.setSize (t.sizeOf g.header) := by
    rw [Spcl.patch, show (g.header.setSize (t.sizeOf g.header)).cType = .inode from htype]
  have hmagic : g.header.cMagic = nfsMagic := cMagic_of_accepted hacc
  have hlen : gs.length < TapeSource.total t₁ + 1 := by
    have hle := length_le_recs gs
    change gs.length < (Rec.data b :: (gs.flatMap Segment.recs ++ .spcl next :: rest)).length + 1
    simp only [List.length_cons, List.length_append]
    omega
  obtain ⟨hd, t', hloop, hrest, hdtype, hdmagic⟩ := fileLoop_singles (t := t₁)
    (h := g.header.setSize (t.sizeOf g.header)) (s := ⟨[], size, false, []⟩) hlen hcount haddr hgs
    hsingles hnext hsize rfl
  have hfind :=
    findinode_of_type hdmagic (by rw [hdtype]; exact hnext.type) (TapeSource.total t') t'
  refine ⟨hd, t', ?_, hrest⟩
  rw [extract, gethead_quad hacc hfirst]
  simp only [Option.bind_eq_bind, Option.bind_some, hpatch]
  have hgood : ¬((g.header.setSize (t.sizeOf g.header)).cType = .end_ ∨
      (g.header.setSize (t.sizeOf g.header)).cMagic ≠ nfsMagic) := by
    rintro (hend | hne)
    · exact absurd (htype.symm.trans hend) (by decide)
    · exact hne hmagic
  rw [getfile, if_neg hgood]
  dsimp only
  rw [show (g.header.setSize (t.sizeOf g.header)).cDinode.diSize = t.sizeOf g.header from rfl,
    hdi, hloop]
  simp only [Option.bind_eq_bind, Option.bind_some, Bool.false_eq_true, if_false, hfind,
    List.flatMap_cons, hb, List.singleton_append, List.foldl_cons]

end Singles

end DumpRestore
