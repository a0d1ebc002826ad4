import DumpRestore.Restore.Convert
import DumpRestore.Restore.FileStream

/-!
# The inode maps in setup

After the volume header `setup` reads the map of the inodes that were not in use and the map of
those in the dump. `getfile` hands the records to `xtrmap`, which moves the pointer `map` through
the allocated memory. A map is one header with its records, and headers `TS_ADDR` with theirs.

* `Tape.Gives` and `Tape.Stream`: what `readtape` returns next, on one volume or on several.
* `getMap_eq`: one header and its records.
* `setupMaps_eq`: the two maps, where the first is one header with its records.
-/

namespace DumpRestore

/-! ## The memory of a map -/

/-- Memory from `calloc`, and the offset in it to which `map` points. -/
structure MapArea where
  bytes : List UInt8
  map : ℕ

namespace MapArea

/-- `xtrmap`, which has to stay inside the memory. -/
def xtrmap (buf : List UInt8) (a : MapArea) : Option MapArea :=
  if a.map + buf.length ≤ a.bytes.length then
    some ⟨a.bytes.take a.map ++ buf ++ a.bytes.drop (a.map + buf.length), a.map + buf.length⟩
  else none

/-- What `getfile` does to the memory. `xtrmapskip` ends the run, and the length of the output file
is no matter here. -/
def call (a : MapArea) (c : Call) : Option MapArea :=
  match c with
  | .fill .. => a.xtrmap c.bytes
  | .skip _ => none
  | .ftruncate _ => some a

end MapArea

/-- `spcl.c_count * TP_BSIZE * NBBY + 1`, as a `dump_ino_t`. -/
def mapBits (count : ℤ) : ℕ := ((count * tpBsize * 8 + 1) % 2 ^ 32).toNat

/-- `howmany(maxino, NBBY)`. -/
def mapBytes (maxino : ℕ) : ℕ := (maxino + 7) % 2 ^ 32 / 8

/-- `calloc(1, howmany(maxino, NBBY))`. -/
def MapArea.calloc (maxino : ℕ) : MapArea := ⟨List.replicate (mapBytes maxino) 0, 0⟩

/-- `resizemaps` while there is no `dumpmap`, and `map = usedinomap`. -/
def resizemaps (oldmax newmax : ℕ) (usedinomap : List UInt8) : Option MapArea :=
  if mapBytes oldmax ≤ mapBytes newmax then
    some ⟨usedinomap.take (mapBytes oldmax) ++
      List.replicate (mapBytes newmax - mapBytes oldmax) 0, 0⟩
  else none

/-- `SETINO(ino, map)`. -/
def setino (ino : ℕ) (map : List UInt8) : List UInt8 :=
  map.modify ((ino - 1) / 8) (· ||| UInt8.ofNat (2 ^ ((ino - 1) % 8)))

/-! ## Reading the maps -/

/-- `usedinomap`, `dumpmap` and `maxino`. -/
structure Maps where
  usedinomap : List UInt8
  dumpmap : List UInt8
  maxino : ℕ

section Setup

variable (fssize : ℕ)

/-- `getfile(xtrmap, xtrmapskip)`. -/
def getMap (h : Spcl) (t : Tape) (a : MapArea) : Option (MapArea × Spcl × Tape) := do
  let (calls, h, t) ← getfile fssize true h t
  let a ← calls.foldlM MapArea.call a
  return (a, h, t)

/-- `spcl.c_dinode.di_size = spcl.c_count * TP_BSIZE`. -/
def Spcl.sizeOfCount (h : Spcl) : Spcl := h.setSize (h.cCount * tpBsize % 2 ^ 64).toNat

/-- The loop over the headers `TS_ADDR` of the first map. -/
def moreClri : (fuel maxino : ℕ) → MapArea → Spcl → Tape → Option (ℕ × MapArea × Spcl × Tape)
  | 0, _, _, _, _ => none
  | fuel + 1, maxino, a, h, t =>
    if h.cType = .addr then do
      let oldmaxino := maxino
      let maxino := (maxino + mapBits h.cCount) % 2 ^ 32
      let a ← resizemaps oldmaxino maxino a.bytes
      let (a, h, t) ← getMap fssize h.sizeOfCount t a
      moreClri fuel maxino a h t
    else some (maxino, a, h, t)

/-- The loop over those of the second map. -/
def moreBits : (fuel : ℕ) → MapArea → Spcl → Tape → Option (MapArea × Spcl × Tape)
  | 0, _, _, _ => none
  | fuel + 1, a, h, t =>
    if h.cType = .addr then do
      let (a, h, t) ← getMap fssize h.sizeOfCount t a
      moreBits fuel a h t
    else some (a, h, t)

/-- `setup` from the record after the volume header to the header after the maps. -/
def setupMaps (oldinofmt : Bool) (t : Tape) : Option (Maps × Spcl × Tape) := do
  let (h, t) ← gethead t
  let h ← h
  let (h, t) ← findinode (t.total + 1) h t
  if h.cType ≠ .clri then none
  else
    let maxino := mapBits h.cCount
    let (a, h, t) ← getMap fssize h t (.calloc maxino)
    let (maxino, a, h, t) ← moreClri fssize (t.total + 1) maxino a h t
    if h.cType ≠ .bits then none
    else
      let (d, h, t) ← getMap fssize h t (.calloc maxino)
      let (d, h, t) ← moreBits fssize (t.total + 1) d h t
      let dumpmap := if oldinofmt then d.bytes else setino wino d.bytes
      return (⟨a.bytes, dumpmap, maxino⟩, h, t)

end Setup

/-! ## What comes next on tape -/

/-- The next calls of `readtape` return `rs`, and `readmapflag` stays as it is. -/
def Tape.Gives : Tape → List Rec → Tape → Prop
  | t, [], t' => t' = t
  | t, r :: rs, t' => ∃ s, readtape t = some (r, s) ∧ s.readmapflag = t.readmapflag ∧ s.Gives rs t'

/-- A header of a map and its records. All the records are announced: by `readmapflag` in a header
with more of them than `c_addr` has entries, and by entries of `c_addr` in another. -/
structure MapPart where
  header : Spcl
  blocks : List Block
  accepted : header.accepted = true
  count : header.cCount = blocks.length
  announced : header.isLongMap = true ∨
    blocks.length ≤ tpNindir ∧ ∀ i < blocks.length, header.patch.cAddr i ≠ 0

/-- The bytes of the records. -/
def MapPart.data (p : MapPart) : List UInt8 := p.blocks.flatMap Block.bytes

@[simp] theorem MapPart.length_data (p : MapPart) : p.data.length = p.blocks.length * tpBsize :=
  length_bytes_buf p.blocks

/-- The parts of maps come next, then the header `next`. -/
def Tape.Stream : Tape → List MapPart → Spcl → Tape → Prop
  | t, [], next, t' =>
    ∃ s, readtape t = some (.spcl next, s) ∧ t' = { s with readmapflag := next.isLongMap }
  | t, p :: ps, next, t' =>
    ∃ s s', readtape t = some (.spcl p.header, s) ∧
      Tape.Gives { s with readmapflag := p.header.isLongMap } (p.blocks.map .data) s' ∧
      s'.Stream ps next t'

/-! ### The number of records -/

theorem Tape.total_next {t s : Tape} {r : Rec} (h : t.next = some (r, s)) : s.total < t.total := by
  cases hrecs : t.recs with
  | nil => simp [Tape.next, hrecs] at h
  | cons x xs =>
    simp only [Tape.next, hrecs] at h
    obtain ⟨rfl, rfl⟩ := Prod.mk.inj (Option.some.inj h)
    simp only [Tape.total, hrecs, List.length_cons]
    omega

theorem total_skiprecs {readtape : Tape → Option (Rec × Tape)}
    (hread : ∀ {t r s}, readtape t = some (r, s) → s.total < t.total) {i : ℕ} {t s : Tape}
    (h : skiprecs readtape i t = some s) : s.total ≤ t.total := by
  induction i generalizing t with
  | zero => exact (Option.some.inj h ▸ le_rfl)
  | succ i ih =>
    obtain ⟨⟨r, s₁⟩, hfirst, hrest⟩ := Option.bind_eq_some_iff.mp h
    exact (ih hrest).trans (hread hfirst).le

theorem total_getvol {readtape : Tape → Option (Rec × Tape)}
    (hread : ∀ {t r s}, readtape t = some (r, s) → s.total < t.total) {newvol : ℤ} {t s : Tape}
    (h : getvol readtape newvol t = some s) : s.total ≤ t.total := by
  obtain ⟨⟨hd, s₁⟩, hhead, h⟩ := Option.bind_eq_some_iff.mp h
  obtain ⟨⟨r, s₂⟩, hfirst, hconv⟩ := Option.bind_eq_some_iff.mp hhead
  have htotal : s₁.total ≤ t.total := by
    have hlt : s₂.total < Tape.total { t with volno := newvol } := hread hfirst
    change s₂.total < t.total at hlt
    have heq : s₁.total = s₂.total := by
      have hsnd : (converthead r s₂).2 = s₁ := congrArg Prod.snd (Option.some.inj hconv)
      rw [← hsnd]
      cases r with
      | data b => rfl
      | spcl hd =>
        dsimp only [converthead]
        split <;> rfl
    omega
  obtain ⟨hd, -, h⟩ := Option.bind_eq_some_iff.mp h
  split at h
  · cases h
  · split at h
    · exact (total_skiprecs hread h).trans htotal
    · exact (Option.some.inj h) ▸ htotal

/-- A call of `readtape` uses up at least one record. -/
theorem total_readtapeN {n : ℕ} {t s : Tape} {r : Rec} (h : readtapeN n t = some (r, s)) :
    s.total < t.total := by
  induction n generalizing t r s with
  | zero => exact Tape.total_next h
  | succ n ih =>
    rw [readtapeN] at h
    split at h
    · next v vs hrecs hvols =>
      obtain ⟨t₁, hvol, h⟩ := Option.bind_eq_some_iff.mp h
      have hle := total_getvol ih hvol
      have hlt := ih h
      have heq : Tape.total { t with recs := v, vols := vs } = t.total := by
        simp only [Tape.total, hrecs, hvols, List.map_cons, List.sum_cons, List.length_nil]
        omega
      omega
    · exact Tape.total_next h

theorem Tape.Gives.total_le {t t' : Tape} {rs : List Rec} (h : t.Gives rs t') :
    t'.total ≤ t.total := by
  induction rs generalizing t with
  | nil => exact (h : t' = t) ▸ le_rfl
  | cons r rs ih =>
    obtain ⟨s, hread, -, hrest⟩ := h
    exact (ih hrest).trans (total_readtapeN hread).le

theorem Tape.Stream.length_lt {t t' : Tape} {ps : List MapPart} {next : Spcl}
    (h : t.Stream ps next t') : ps.length < t.total := by
  induction ps generalizing t with
  | nil =>
    obtain ⟨s, hread, -⟩ := h
    exact (Nat.zero_le _).trans_lt (total_readtapeN hread)
  | cons p ps ih =>
    obtain ⟨s, s', hread, hgives, hrest⟩ := h
    have hlt : s.total < t.total := total_readtapeN hread
    have hle : s'.total ≤ s.total := hgives.total_le
    have := ih hrest
    rw [List.length_cons]
    omega

section Volume

/-- On one volume. -/
theorem gives_of_recs {t : Tape} {rs rest : List Rec} (h : t.recs = rs ++ rest) :
    t.Gives rs (t.at rs.length rest) := by
  induction rs generalizing t with
  | nil => exact t.at_zero h
  | cons r rs ih =>
    refine ⟨t.at 1 (rs ++ rest), readtape_at h, rfl, ?_⟩
    have hrest := ih (t := t.at 1 (rs ++ rest)) rfl
    rwa [Tape.at_at, Nat.add_comm] at hrest

/-- The records of a part. -/
def MapPart.recs (p : MapPart) : List Rec := .spcl p.header :: p.blocks.map .data

theorem exists_stream {t : Tape} {ps : List MapPart} {next : Spcl} {rest : List Rec}
    (h : t.recs = ps.flatMap MapPart.recs ++ .spcl next :: rest) :
    ∃ t', t.Stream ps next t' ∧ t'.recs = rest := by
  induction ps generalizing t with
  | nil => exact ⟨_, ⟨_, readtape_at h, rfl⟩, rfl⟩
  | cons p ps ih =>
    rw [List.flatMap_cons, MapPart.recs, List.append_assoc, List.cons_append] at h
    obtain ⟨t', hstream, hrest⟩ := ih (t := Tape.at
      { t.at 1 (p.blocks.map .data ++ (ps.flatMap MapPart.recs ++ .spcl next :: rest)) with
        readmapflag := p.header.isLongMap } (p.blocks.map Rec.data).length
      (ps.flatMap MapPart.recs ++ .spcl next :: rest)) rfl
    exact ⟨t', ⟨_, _, readtape_at h, gives_of_recs rfl, hstream⟩, hrest⟩

end Volume

/-! ## One header and its records -/

section Part

variable {h : Spcl} {t t' : Tape} {blocks : List Block}

theorem readEntry_present {i : ℕ} {b : Block} {s : Tape}
    (hpresent : t.readmapflag = true ∨ h.cAddr i ≠ 0) (hread : readtape t = some (.data b, s)) :
    readEntry true h i t = some (some b, s) := by
  have hcond : ((true && t.readmapflag) || h.cAddr i != 0) = true := by simpa using hpresent
  rw [readEntry_tape, if_pos hcond, hread]
  rfl

/-- The loop over the entries reads the announced records. -/
theorem fileBlocks_gives (fssize : ℕ) {i : ℕ} {s : FileState}
    (hpresent : t.readmapflag = true ∨ ∀ k < blocks.length, h.cAddr (i + k) ≠ 0)
    (hsize : s.size = blocks.length * tpBsize) (hgives : t.Gives (blocks.map .data) t') :
    fileBlocks fssize h blocks.length i (s, t) =
      some ((blocks.map some).foldl (FileState.block fssize) s, t') := by
  induction blocks generalizing i s t with
  | nil =>
    obtain rfl : t' = t := hgives
    rfl
  | cons b bs ih =>
    obtain ⟨t₁, hread, hflag, hgives⟩ := hgives
    have hfirst : t.readmapflag = true ∨ h.cAddr i ≠ 0 :=
      hpresent.imp_right fun haddr => haddr 0 (Nat.zero_lt_succ _)
    have hrest : t₁.readmapflag = true ∨ ∀ k < bs.length, h.cAddr (i + 1 + k) ≠ 0 := by
      refine hpresent.imp (fun hmap => hflag.trans hmap) fun haddr k hk => ?_
      rw [Nat.add_assoc, Nat.add_comm 1]
      exact haddr (k + 1) (Nat.succ_lt_succ hk)
    have hsize' : (s.block fssize (some b)).size = bs.length * tpBsize := by
      rw [size_block, hsize, List.length_cons]
      push_cast
      ring
    simp only [List.length_cons, fileBlocks, readEntry_present hfirst hread, Option.bind_some]
    by_cases hlast : (s.block fssize (some b)).size ≤ 0
    · have hnil : bs = [] := by
        refine List.eq_nil_of_length_eq_zero ?_
        rw [hsize', tpBsize] at hlast
        omega
      subst hnil
      obtain rfl : t' = t₁ := hgives
      rw [if_pos hlast]
      rfl
    · rw [if_neg hlast, ih hrest hsize' hgives]
      rfl

/-- The next header, wherever it is. -/
theorem nextHeader_of_readtape {next : Spcl} {s : Tape} (fuel : ℕ)
    (hread : readtape t = some (.spcl next, s)) (hacc : next.accepted = true) :
    nextHeader false (fuel + 1) t =
      some (next.patch, { s with readmapflag := next.isLongMap }) := by
  simp [nextHeader, gethead, getheadWith, hread, converthead, hacc]

/-! ### The calls -/

/-- All calls so far were calls of `fill`. -/
def OnlyFills (s : FileState) : Prop :=
  s.lastWriteWasHole = false ∧ ∀ c ∈ s.calls, ∃ buf size, c = .fill buf size

theorem onlyFills_nil (size : ℤ) : OnlyFills ⟨[], size, false, []⟩ := ⟨rfl, nofun⟩

theorem OnlyFills.block {fssize : ℕ} {s : FileState} (hs : OnlyFills s) (b : Block) :
    OnlyFills (s.block fssize (some b)) := by
  simp only [FileState.block, FileState.store, FileState.advance]
  split
  · refine ⟨rfl, fun c hc => ?_⟩
    rcases List.mem_append.mp hc with hc | hc
    · exact hs.2 c hc
    · exact ⟨_, _, List.mem_singleton.mp hc⟩
  · exact hs

theorem OnlyFills.foldl {fssize : ℕ} {s : FileState} (hs : OnlyFills s) (blocks : List Block) :
    OnlyFills ((blocks.map some).foldl (FileState.block fssize) s) := by
  induction blocks generalizing s with
  | nil => exact hs
  | cons b bs ih => exact ih (hs.block b)

theorem OnlyFills.finish {s : FileState} (hs : OnlyFills s) (hsize : s.size ≤ 0) (origsize : ℤ) :
    ∀ c ∈ s.finish origsize, ∃ buf size, c = .fill buf size := by
  have hflush : OnlyFills s.lastFlush ∧ s.lastFlush.size ≤ 0 := by
    rw [FileState.lastFlush]
    split
    · refine ⟨⟨rfl, fun c hc => ?_⟩, hsize⟩
      rcases List.mem_append.mp hc with hc | hc
      · exact hs.2 c hc
      · exact ⟨_, _, List.mem_singleton.mp hc⟩
    · exact ⟨hs, hsize⟩
  rw [FileState.finish, FileState.assumeHole, if_neg (Int.not_lt.mpr hflush.2)]
  simp only [hflush.1.1, Bool.false_eq_true, if_false]
  exact hflush.1.2

/-- Two calls of `xtrmap` write one after the other. -/
theorem MapArea.xtrmap_append {a : MapArea} {x y : List UInt8}
    (hfits : a.map + (x ++ y).length ≤ a.bytes.length) :
    ∃ a' : MapArea, a.xtrmap x = some a' ∧ a'.map + y.length ≤ a'.bytes.length ∧
      a'.xtrmap y = a.xtrmap (x ++ y) := by
  have hlen : (x ++ y).length = x.length + y.length := List.length_append
  have hstart : (a.bytes.take a.map ++ x).length = a.map + x.length := by
    rw [List.length_append, List.length_take_of_le (by omega)]
  have hbytes : (a.bytes.take a.map ++ x ++ a.bytes.drop (a.map + x.length)).length =
      a.bytes.length := by
    rw [List.length_append, hstart, List.length_drop]
    omega
  refine ⟨_, if_pos (by omega), ?_, ?_⟩
  · dsimp only
    omega
  · rw [xtrmap, xtrmap, if_pos (by dsimp only; omega), if_pos hfits]
    dsimp only
    rw [List.take_left' hstart, ← List.drop_drop, List.drop_left' hstart, List.drop_drop, hlen,
      List.append_assoc (a.bytes.take a.map), ← Nat.add_assoc]

/-- Calls of `fill` write one after the other. -/
theorem foldlM_call {calls : List Call} {a : MapArea}
    (hcalls : ∀ c ∈ calls, ∃ buf size, c = .fill buf size)
    (hfits : a.map + (delivered calls).length ≤ a.bytes.length) :
    calls.foldlM MapArea.call a = a.xtrmap (delivered calls) := by
  induction calls generalizing a with
  | nil =>
    rw [MapArea.xtrmap, if_pos hfits]
    simp
  | cons c cs ih =>
    obtain ⟨buf, size, rfl⟩ := hcalls c List.mem_cons_self
    have hdel : delivered (.fill buf size :: cs) = (Call.fill buf size).bytes ++ delivered cs := rfl
    rw [hdel] at hfits ⊢
    obtain ⟨a', hfirst, hfits', hrest⟩ := MapArea.xtrmap_append hfits
    have hcall : a.call (.fill buf size) = some a' := hfirst
    rw [List.foldlM_cons, hcall, ← hrest]
    exact ih (fun c hc => hcalls c (List.mem_cons_of_mem _ hc)) hfits'

theorem expand_map_some (blocks : List Block) :
    expand (blocks.map some) = blocks.flatMap Block.bytes := by
  rw [expand, Sparse.expand, List.flatMap_map]
  rfl

/-- What `getfile` delivers of a map. -/
theorem delivered_map {cap : ℕ} (hcap : 0 < cap) (blocks : List Block) :
    delivered (((blocks.map some).foldl (FileState.block (cap * tpBsize))
        ⟨[], (blocks.length * tpBsize : ℕ), false, []⟩).finish (blocks.length * tpBsize : ℕ)) =
      blocks.flatMap Block.bytes := by
  have hlast : lastIndex (blocks.length * tpBsize : ℕ) = (blocks.map some).length := by
    rw [lastIndex, howmany, tpBsize, List.length_map]
    omega
  have hloses : ¬LosesTail cap (blocks.length * tpBsize) (blocks.map some) := fun h =>
    h.1 (Nat.mul_mod_left ..)
  have hdel := (delivered_eq_iff hcap hlast.le).mpr hloses
  rw [hlast, List.take_length, expand_map_some] at hdel
  rw [hdel]
  exact List.take_of_length_le (length_bytes_buf blocks).le

/-- **One header and its records.** If the records are announced and there is room for them, they
go to where `map` points, and `map` moves on. -/
theorem getMap_eq {cap : ℕ} {next : Spcl} {s : Tape} {a : MapArea} (hcap : 0 < cap)
    (htype : h.cType ≠ .end_) (hmagic : h.cMagic = nfsMagic) (hcount : h.cCount = blocks.length)
    (hsize : h.cDinode.diSize = blocks.length * tpBsize) (hbound : blocks.length < 2 ^ 31)
    (hpresent : t.readmapflag = true ∨ ∀ i < blocks.length, h.cAddr i ≠ 0)
    (hgives : t.Gives (blocks.map .data) t') (hread : readtape t' = some (.spcl next, s))
    (hacc : next.accepted = true)
    (hfits : a.map + blocks.length * tpBsize ≤ a.bytes.length) :
    ∃ a', a.xtrmap (blocks.flatMap Block.bytes) = some a' ∧
      getMap (cap * tpBsize) h t a =
        some (a', next.patch, { s with readmapflag := next.isLongMap }) := by
  have horig : (h.cDinode.diSize : ℤ).bmod (2 ^ 64) = (blocks.length * tpBsize : ℕ) := by
    rw [hsize, tpBsize, Int.bmod_eq_of_le] <;> omega
  have hblocks := fileBlocks_gives (cap * tpBsize) (i := 0)
    (s := ⟨[], (blocks.length * tpBsize : ℕ), false, []⟩) (by simpa using hpresent)
    (by push_cast; rfl) hgives
  have hdone := size_foldl_block (cap * tpBsize) (blocks.map some)
    ⟨[], (blocks.length * tpBsize : ℕ), false, []⟩
  rw [List.length_map] at hdone
  have hle : ((blocks.map some).foldl (FileState.block (cap * tpBsize))
      ⟨[], (blocks.length * tpBsize : ℕ), false, []⟩).size ≤ 0 := by
    rw [hdone]
    push_cast
    omega
  have hnot : ¬(h.cType = .end_ ∨ h.cMagic ≠ nfsMagic) := by simp [htype, hmagic]
  have hfills := ((onlyFills_nil (blocks.length * tpBsize : ℕ)).foldl blocks).finish hle
    (blocks.length * tpBsize : ℕ)
  have hdel := delivered_map hcap blocks
  rw [← length_bytes_buf, ← hdel] at hfits
  refine ⟨_, if_pos (by rwa [← hdel]), ?_⟩
  simp only [getMap, getfile, if_neg hnot, horig, fileLoop, hcount, Int.toNat_natCast, hblocks,
    nextHeader_of_readtape _ hread hacc, Option.bind_eq_bind, Option.bind_some, if_true,
    Int.not_lt.mpr hle, gt_iff_lt, false_and, if_false, foldlM_call hfills hfits, hdel]
  rw [MapArea.xtrmap, if_pos (by rwa [← hdel])]
  rfl

end Part

/-! ## The two maps -/

section Maps

variable {cap : ℕ} {next : Spcl} {t t' : Tape}

theorem cCount_patch (h : Spcl) : h.patch.cCount = h.cCount := by
  rw [Spcl.patch]
  split <;> rfl

/-- The size of a map, in its header and in the headers `TS_ADDR`. -/
theorem toNat_size {n : ℕ} (hn : n < 2 ^ 31) :
    ((n : ℤ) * tpBsize % 2 ^ 64).toNat = n * tpBsize := by
  rw [tpBsize]
  omega

theorem diSize_patch_of_isMap {p : MapPart} (htype : p.header.cType.isMap = true)
    (hn : p.blocks.length < 2 ^ 31) :
    p.header.patch.cDinode.diSize = p.blocks.length * tpBsize := by
  rw [← toNat_size hn, ← p.count, Spcl.patch]
  cases hc : p.header.cType <;> first | rfl | simp [hc, SpclType.isMap] at htype

/-- The records of a part are announced when its header was the last one read. -/
theorem MapPart.present (p : MapPart) (s : Tape) :
    ({ s with readmapflag := p.header.isLongMap } : Tape).readmapflag = true ∨
      ∀ i < p.blocks.length, p.header.patch.cAddr i ≠ 0 :=
  p.announced.imp id And.right

section

variable {s : Tape} {hd : Spcl} {a : MapArea} {p : MapPart}

/-- The records after a header `TS_CLRI` or `TS_BITS`. -/
theorem MapPart.getMap_header (p : MapPart) (hcap : 0 < cap) (htype : p.header.cType.isMap = true)
    (hn : p.blocks.length < 2 ^ 31)
    (hgives : Tape.Gives { t with readmapflag := p.header.isLongMap } (p.blocks.map .data) t')
    (hread : readtape t' = some (.spcl hd, s)) (hacc : hd.accepted = true)
    (hfits : a.map + p.data.length ≤ a.bytes.length) :
    ∃ a', a.xtrmap p.data = some a' ∧
      getMap (cap * tpBsize) p.header.patch { t with readmapflag := p.header.isLongMap } a =
        some (a', hd.patch, { s with readmapflag := hd.isLongMap }) := by
  rw [p.length_data] at hfits
  refine getMap_eq hcap ?_ (cMagic_patch p.accepted) ((cCount_patch _).trans p.count)
    (diSize_patch_of_isMap htype hn) hn (p.present t) hgives hread hacc hfits
  rw [cType_patch]
  rintro hend
  rw [hend] at htype
  cases htype

/-- The records after a header `TS_ADDR`. -/
theorem MapPart.getMap_addr (p : MapPart) (hcap : 0 < cap) (htype : p.header.cType = .addr)
    (hn : p.blocks.length < 2 ^ 31)
    (hgives : Tape.Gives { t with readmapflag := p.header.isLongMap } (p.blocks.map .data) t')
    (hread : readtape t' = some (.spcl hd, s)) (hacc : hd.accepted = true)
    (hfits : a.map + p.data.length ≤ a.bytes.length) :
    ∃ a', a.xtrmap p.data = some a' ∧
      getMap (cap * tpBsize) p.header.patch.sizeOfCount
          { t with readmapflag := p.header.isLongMap } a =
        some (a', hd.patch, { s with readmapflag := hd.isLongMap }) := by
  rw [p.length_data] at hfits
  have htype' : p.header.patch.sizeOfCount.cType = .addr := (cType_patch _).trans htype
  have hsize : p.header.patch.sizeOfCount.cDinode.diSize = p.blocks.length * tpBsize := by
    change (p.header.patch.cCount * tpBsize % 2 ^ 64).toNat = _
    rw [cCount_patch, p.count, toNat_size hn]
  exact getMap_eq hcap (by rw [htype']; nofun) (cMagic_patch p.accepted)
    ((cCount_patch _).trans p.count) hsize hn (p.present t) hgives hread hacc hfits

/-- Records that go to the start of the memory. -/
theorem MapArea.prefix_xtrmap {a' : MapArea} {data : List UInt8} (hmap : a.map = 0)
    (h : a.xtrmap data = some a') : data <+: a'.bytes := by
  rw [xtrmap, hmap] at h
  split at h
  · rw [← Option.some.inj h]
    exact List.prefix_append ..
  · cases h

/-- `setup` begins with the header of the first map. -/
theorem gethead_part (hread : readtape t = some (.spcl p.header, s)) :
    gethead t = some (some p.header.patch, { s with readmapflag := p.header.isLongMap }) := by
  simp [gethead, getheadWith, hread, converthead, p.accepted]

theorem findinode_clri (hp : p.header.cType = .clri) (fuel : ℕ) (t : Tape) :
    findinode (fuel + 1) p.header.patch t = some (p.header.patch, t) :=
  findinode_of_type (cMagic_patch p.accepted)
    (by rw [cType_patch, hp]; exact ⟨by decide, by decide⟩) fuel t

end

/-- The parts of the second map that come after its header. -/
theorem moreBits_stream {ps : List MapPart} {d : MapArea} (hcap : 0 < cap)
    (hps : ∀ p ∈ ps, p.header.cType = .addr) (hacc : next.accepted = true)
    (hnext : next.cType ≠ .addr) (hstream : t.Stream ps next t')
    (hfits : d.map + (ps.flatMap MapPart.data).length ≤ d.bytes.length)
    (hbound : ∀ p ∈ ps, p.blocks.length < 2 ^ 31) :
    ∃ hd s d', readtape t = some (.spcl hd, s) ∧ hd.accepted = true ∧ ps.length ≤ s.total ∧
      d.xtrmap (ps.flatMap MapPart.data) = some d' ∧ ∀ fuel, ps.length < fuel →
        moreBits (cap * tpBsize) fuel d hd.patch { s with readmapflag := hd.isLongMap } =
          some (d', next.patch, t') := by
  induction ps generalizing t d with
  | nil =>
    obtain ⟨s, hread, rfl⟩ := hstream
    refine ⟨next, s, d, hread, hacc, Nat.zero_le _, ?_, fun fuel hfuel => ?_⟩
    · rw [MapArea.xtrmap, if_pos hfits]
      simp
    · obtain ⟨fuel, rfl⟩ := Nat.exists_eq_succ_of_ne_zero (Nat.ne_zero_of_lt hfuel)
      rw [moreBits, if_neg (by rwa [cType_patch])]
  | cons p ps ih =>
    obtain ⟨s, s', hread, hgives, hrest⟩ := hstream
    have htype := hps p List.mem_cons_self
    have hn := hbound p List.mem_cons_self
    have htotal : ps.length + 1 ≤ s.total := hrest.length_lt.trans_le hgives.total_le
    rw [List.flatMap_cons] at hfits ⊢
    obtain ⟨d₁, hfirst, hfits₁, happend⟩ := MapArea.xtrmap_append hfits
    obtain ⟨hd, s₁, d', hread', hacc', -, hxtr, hmore⟩ :=
      ih (fun q hq => hps q (List.mem_cons_of_mem _ hq)) hrest hfits₁
        fun q hq => hbound q (List.mem_cons_of_mem _ hq)
    obtain ⟨d₁', hfirst', hmap⟩ := p.getMap_addr (a := d) hcap htype hn hgives hread' hacc'
      (by rw [List.length_append] at hfits; omega)
    obtain rfl : d₁ = d₁' := Option.some.inj (hfirst.symm.trans hfirst')
    refine ⟨p.header, s, d', hread, p.accepted, htotal, happend ▸ hxtr, fun fuel hfuel => ?_⟩
    obtain ⟨fuel, rfl⟩ := Nat.exists_eq_succ_of_ne_zero (Nat.ne_zero_of_lt hfuel)
    rw [moreBits, if_pos ((cType_patch _).trans htype), hmap, Option.bind_eq_bind,
      Option.bind_some]
    exact hmore fuel (Nat.lt_of_succ_lt_succ hfuel)

/-! ### Sizes -/

theorem mapBits_eq {n : ℕ} (hn : 8 * (n * tpBsize) < 2 ^ 32) :
    mapBits n = 8 * (n * tpBsize) + 1 := by
  rw [mapBits, tpBsize] at *
  omega

theorem mapBytes_eq {len : ℕ} (hlen : 8 * len < 2 ^ 32) (hdvd : tpBsize ∣ len) :
    mapBytes (8 * len + 1) = len + 1 := by
  rw [mapBytes, tpBsize] at *
  omega

/-- The memory for a map of one header. -/
theorem calloc_mapBits {p : MapPart} (hlong : 8 * p.data.length < 2 ^ 32) :
    mapBits p.header.cCount = 8 * p.data.length + 1 ∧
      MapArea.calloc (mapBits p.header.cCount) =
        ⟨List.replicate (p.data.length + 1) 0, 0⟩ := by
  have hbits : mapBits p.header.cCount = 8 * p.data.length + 1 := by
    rw [p.length_data] at hlong ⊢
    rw [p.count, mapBits_eq hlong]
  refine ⟨hbits, ?_⟩
  rw [MapArea.calloc, hbits, mapBytes_eq hlong ⟨_, p.length_data.trans (Nat.mul_comm ..)⟩]

/-- The first bytes of new memory. -/
theorem xtrmap_replicate {n : ℕ} (data : List UInt8) (hfits : data.length ≤ n) :
    (⟨List.replicate n 0, 0⟩ : MapArea).xtrmap data =
      some ⟨data ++ List.replicate (n - data.length) 0, data.length⟩ := by
  rw [MapArea.xtrmap, if_pos (by simpa using hfits)]
  simp

/-- The maps that `setup` makes of the records of the two maps on tape: a byte more than the first
map has, and in the second map the inode of whiteouts, unless inodes are in the old format. -/
structure Maps.Of (oldinofmt : Bool) (clri bits : List UInt8) (maps : Maps) : Prop where
  maxino : maps.maxino = 8 * clri.length + 1
  usedinomap : maps.usedinomap = clri ++ [0]
  dumpmap : maps.dumpmap =
    if oldinofmt then bits ++ List.replicate (clri.length + 1 - bits.length) 0
    else setino wino (bits ++ List.replicate (clri.length + 1 - bits.length) 0)
  length_usedinomap : maps.usedinomap.length = howmany maps.maxino 8
  length_dumpmap : maps.dumpmap.length = howmany maps.maxino 8

/-- **The inode maps.** The first map is one header with its records, of fewer than `2 ^ 32` bits,
and the second map has no more records than the first, in any number of parts. -/
theorem setupMaps_eq (oldinofmt : Bool) {clri bits : MapPart} {conts : List MapPart}
    (hcap : 0 < cap) (hclri : clri.header.cType = .clri) (hbits : bits.header.cType = .bits)
    (hconts : ∀ p ∈ conts, p.header.cType = .addr) (hacc : next.accepted = true)
    (hnext : next.cType ≠ .addr) (hstream : t.Stream (clri :: bits :: conts) next t')
    (hlong : 8 * clri.data.length < 2 ^ 32)
    (hle : ((bits :: conts).flatMap MapPart.data).length ≤ clri.data.length) :
    ∃ maps : Maps, setupMaps (cap * tpBsize) oldinofmt t = some (maps, next.patch, t') ∧
      maps.Of oldinofmt clri.data ((bits :: conts).flatMap MapPart.data) := by
  obtain ⟨hmaxino, hcalloc⟩ := calloc_mapBits hlong
  rw [hmaxino] at hcalloc
  have hbound (p : MapPart) (hp : p.data.length ≤ clri.data.length) :
      p.blocks.length < 2 ^ 31 := by
    rw [p.length_data] at hp
    rw [tpBsize] at hp
    omega
  have hconts' (p : MapPart) (hp : p ∈ bits :: conts) : p.data.length ≤ clri.data.length :=
    (List.sublist_flatten_of_mem (List.mem_map_of_mem hp)).length_le.trans hle
  rw [List.flatMap_cons] at hle ⊢
  -- the first map
  obtain ⟨s, s₁, hread, hgives, s₂, s₃, hread₂, hgives₂, hrest⟩ := hstream
  have hn := hbound clri le_rfl
  obtain ⟨a, hxtr, hmapA⟩ := clri.getMap_header
    (a := ⟨List.replicate (clri.data.length + 1) 0, 0⟩) hcap (by rw [hclri]; rfl) hn hgives hread₂
    bits.accepted (by simp)
  have ha : a = ⟨clri.data ++ [0], clri.data.length⟩ := by
    have := hxtr.symm.trans (xtrmap_replicate clri.data (by omega))
    simpa using this
  -- the second map, and then its other parts
  have hfits : (⟨List.replicate (clri.data.length + 1) 0, 0⟩ : MapArea).map +
      (bits.data ++ conts.flatMap MapPart.data).length ≤
        (⟨List.replicate (clri.data.length + 1) 0, 0⟩ : MapArea).bytes.length := by
    rw [List.length_replicate, Nat.zero_add]
    omega
  obtain ⟨d, hxtrD, hfitsD, happend⟩ := MapArea.xtrmap_append hfits
  obtain ⟨hd, s₄, d', hread₄, hacc₄, htotal, hxtrD', hmore⟩ := moreBits_stream hcap hconts hacc
    hnext hrest hfitsD fun p hp => hbound p (hconts' p (List.mem_cons_of_mem _ hp))
  have hn := hbound bits (hconts' bits List.mem_cons_self)
  obtain ⟨d₁, hxtrD₁, hmapD⟩ := bits.getMap_header
    (a := ⟨List.replicate (clri.data.length + 1) 0, 0⟩) hcap (by rw [hbits]; rfl) hn hgives₂ hread₄
    hacc₄ (by rw [List.length_append] at hle; simp only [List.length_replicate]; omega)
  obtain rfl : d = d₁ := Option.some.inj (hxtrD.symm.trans hxtrD₁)
  have hd' : d'.bytes = bits.data ++ conts.flatMap MapPart.data ++ List.replicate
      (clri.data.length + 1 - (bits.data ++ conts.flatMap MapPart.data).length) 0 := by
    have hall := (happend.symm.trans hxtrD').symm.trans
      (xtrmap_replicate (bits.data ++ conts.flatMap MapPart.data) (by omega))
    rw [Option.some.inj hall]
  have hmore' := hmore (Tape.total { s₄ with readmapflag := hd.isLongMap } + 1)
    (Nat.lt_succ_of_le htotal)
  have hmore₁ (fuel maxino : ℕ) (a : MapArea) (t : Tape) :
      moreClri (cap * tpBsize) (fuel + 1) maxino a bits.header.patch t =
        some (maxino, a, bits.header.patch, t) := by
    rw [moreClri, if_neg (by rw [cType_patch, hbits]; decide)]
  refine ⟨⟨a.bytes, if oldinofmt then d'.bytes else setino wino d'.bytes, 8 * clri.data.length + 1⟩,
    ?_, ?_⟩
  · simp only [setupMaps, gethead_part hread, Option.bind_eq_bind, Option.bind_some,
      findinode_clri hclri, cType_patch, hclri, ne_eq, not_true_eq_false, if_false, cCount_patch,
      hcalloc, hmapA, hmore₁, hbits, hmapD, hmore', hmaxino]
    rfl
  · have hsize : howmany (8 * clri.data.length + 1) 8 = clri.data.length + 1 := by
      rw [howmany]
      omega
    rw [hd', ha]
    refine ⟨rfl, rfl, rfl, ?_, ?_⟩
    · dsimp only
      rw [hsize, List.length_append, List.length_singleton]
    · dsimp only
      split
      · rw [hsize, List.length_append, List.length_replicate, Nat.add_sub_cancel' (by omega)]
      · rw [hsize, setino, List.length_modify, List.length_append, List.length_replicate,
          Nat.add_sub_cancel' (by omega)]

/-! ### Where the maps differ from the records -/

/-- In a dump with inodes in the new format, `setup` adds the inode of whiteouts. -/
theorem exists_setino {fssize : ℕ} {maps : Maps} {h : Spcl} {s : Tape}
    (hrun : setupMaps fssize false t = some (maps, h, s)) : ∃ d, maps.dumpmap = setino wino d := by
  obtain ⟨⟨h₀, t₀⟩, -, hrun⟩ := Option.bind_eq_some_iff.mp hrun
  obtain ⟨h₁, -, hrun⟩ := Option.bind_eq_some_iff.mp hrun
  obtain ⟨⟨h₂, t₂⟩, -, hrun⟩ := Option.bind_eq_some_iff.mp hrun
  dsimp only at hrun
  split at hrun
  · cases hrun
  obtain ⟨⟨a, h₃, t₃⟩, -, hrun⟩ := Option.bind_eq_some_iff.mp hrun
  obtain ⟨⟨maxino, a₁, h₄, t₄⟩, -, hrun⟩ := Option.bind_eq_some_iff.mp hrun
  dsimp only at hrun
  split at hrun
  · cases hrun
  obtain ⟨⟨d, h₅, t₅⟩, -, hrun⟩ := Option.bind_eq_some_iff.mp hrun
  obtain ⟨⟨d₁, h₆, t₆⟩, -, hrun⟩ := Option.bind_eq_some_iff.mp hrun
  obtain ⟨hmaps, -⟩ := Prod.mk.inj (Option.some.inj hrun)
  exact ⟨d₁.bytes, by rw [← hmaps]; rfl⟩

/-- The records of a header `TS_ADDR` of the first map go to the start of the memory, over those of
the header before. -/
theorem prefix_usedinomap {oldinofmt : Bool} {clri p bits : MapPart} {rest : List MapPart}
    {maps : Maps} {h : Spcl} {s : Tape} (hcap : 0 < cap) (hclri : clri.header.cType = .clri)
    (hp : p.header.cType = .addr) (hbits : bits.header.cType = .bits)
    (hstream : t.Stream (clri :: p :: bits :: rest) next t')
    (hlong : 8 * (clri.data.length + p.data.length + 1) < 2 ^ 32)
    (hrun : setupMaps (cap * tpBsize) oldinofmt t = some (maps, h, s)) :
    p.data <+: maps.usedinomap := by
  obtain ⟨hmaxino, hcalloc⟩ := calloc_mapBits (p := clri) (by omega)
  rw [hmaxino] at hcalloc
  have hmaxino' := (calloc_mapBits (p := p) (by omega)).1
  have hbound (q : MapPart) (hq : q.data.length ≤ clri.data.length + p.data.length) :
      q.blocks.length < 2 ^ 31 := by
    rw [q.length_data] at hq
    rw [tpBsize] at hq
    omega
  obtain ⟨s₀, s₁, hread, hgives, s₂, s₃, hread₂, hgives₂, s₄, s₅, hread₄, hgives₄, -⟩ := hstream
  have hn := hbound clri (Nat.le_add_right ..)
  have hn' := hbound p (Nat.le_add_left ..)
  obtain ⟨a, hxtr, hmapA⟩ := clri.getMap_header
    (a := ⟨List.replicate (clri.data.length + 1) 0, 0⟩) hcap (by rw [hclri]; rfl) hn hgives hread₂
    p.accepted (by simp)
  have ha : a.bytes = clri.data ++ [0] := by
    have hdata := xtrmap_replicate (n := clri.data.length + 1) clri.data (by omega)
    rw [Option.some.inj (hxtr.symm.trans hdata), Nat.add_sub_cancel_left]
    rfl
  -- the new memory, which has room for both
  have hresize : resizemaps (8 * clri.data.length + 1)
      ((8 * clri.data.length + 1 + (8 * p.data.length + 1)) % 2 ^ 32) a.bytes =
      some ⟨a.bytes ++ List.replicate p.data.length 0, 0⟩ := by
    have hdvd : tpBsize ∣ clri.data.length := ⟨_, clri.length_data.trans (Nat.mul_comm ..)⟩
    have hold : mapBytes (8 * clri.data.length + 1) = clri.data.length + 1 :=
      mapBytes_eq (by omega) hdvd
    have hnew : mapBytes ((8 * clri.data.length + 1 + (8 * p.data.length + 1)) % 2 ^ 32) =
        clri.data.length + p.data.length + 1 := by
      rw [mapBytes]
      omega
    have hlen : a.bytes.length = clri.data.length + 1 := by rw [ha]; simp
    rw [resizemaps, hold, hnew, if_pos (by omega), ← hlen, List.take_length]
    congr 4
    omega
  obtain ⟨a', hxtr', hmapA'⟩ := p.getMap_addr
    (a := ⟨a.bytes ++ List.replicate p.data.length 0, 0⟩) hcap hp hn' hgives₂ hread₄ bits.accepted
    (by simp)
  simp only [setupMaps, gethead_part hread, Option.bind_eq_bind, Option.bind_some,
    findinode_clri hclri, cType_patch, hclri, ne_eq, not_true_eq_false, if_false, cCount_patch,
    hmaxino, hcalloc, hmapA, moreClri, hp, if_true, hmaxino', hresize, hmapA'] at hrun
  obtain ⟨⟨maxino, a'', hd, s₆⟩, hmore, hrun⟩ := Option.bind_eq_some_iff.mp hrun
  -- the loop ends at the header of the second map
  have hend : a'' = a' := by
    generalize Tape.total _ = fuel at hmore
    cases fuel with
    | zero => cases hmore
    | succ fuel =>
      rw [moreClri, if_neg (by rw [cType_patch, hbits]; decide)] at hmore
      exact (congrArg (fun q => q.2.1) (Option.some.inj hmore)).symm
  split at hrun
  · cases hrun
  obtain ⟨⟨d, h₅, t₅⟩, -, hrun⟩ := Option.bind_eq_some_iff.mp hrun
  obtain ⟨⟨d₁, h₆, t₆⟩, -, hrun⟩ := Option.bind_eq_some_iff.mp hrun
  obtain ⟨hmaps, -⟩ := Prod.mk.inj (Option.some.inj hrun)
  rw [← hmaps, hend]
  exact MapArea.prefix_xtrmap rfl hxtr'

end Maps

/-! ## Heads of dumps -/

/-- A header of a map or of the end of the dump. -/
def mapHeader (type : SpclType) (count : ℕ) : Spcl := mkchecksum .little { (default : Spcl) with
  cType := type
  cMagic := nfsMagic
  cCount := count
  cAddr := fun _ => 1 }

theorem accepted_mapHeader (type : SpclType) (count : ℕ) :
    (mapHeader type count).accepted = true := by
  rw [Spcl.accepted, Bool.and_eq_true]
  exact ⟨decide_eq_true rfl, checksum_mkchecksum ..⟩

/-- A part of one record, which is filled with a byte. -/
def recordPart (type : SpclType) (b : UInt8) : MapPart where
  header := mapHeader type 1
  blocks := [⟨List.replicate tpBsize b, List.length_replicate⟩]
  accepted := accepted_mapHeader ..
  count := rfl
  announced := by
    refine .inr ⟨(by decide : 1 ≤ tpNindir), fun i hi => ?_⟩
    obtain rfl : i = 0 := Nat.lt_one_iff.mp hi
    cases type <;> decide

theorem data_recordPart (type : SpclType) (b : UInt8) :
    (recordPart type b).data = List.replicate tpBsize b :=
  List.append_nil _

/-- A tape that has the parts, and then the end of the dump. -/
def headTape (ps : List MapPart) : Tape :=
  { (default : Tape) with recs := ps.flatMap MapPart.recs ++ [.spcl (mapHeader .end_ 0)] }

/-- Two maps of one record each. -/
theorem setupMaps_recordPart : ∃ maps h t,
    setupMaps (4 * tpBsize) false (headTape [recordPart .clri 255, recordPart .bits 8]) =
      some (maps, h, t) ∧
    maps.Of false (recordPart .clri 255).data ([recordPart .bits 8].flatMap MapPart.data) := by
  obtain ⟨t', hstream, -⟩ := exists_stream (rfl :
    (headTape [recordPart .clri 255, recordPart .bits 8]).recs =
      [recordPart .clri 255, recordPart .bits 8].flatMap MapPart.recs ++
        [.spcl (mapHeader .end_ 0)])
  have hend : (mapHeader .end_ 0).cType ≠ .addr := (by decide : SpclType.end_ ≠ .addr)
  have hlen (type : SpclType) (b : UInt8) : (recordPart type b).data.length = tpBsize := by
    rw [data_recordPart, List.length_replicate]
  obtain ⟨maps, hsetup, hof⟩ := setupMaps_eq false (by decide : 0 < 4) rfl rfl
    (List.forall_mem_nil _) (accepted_mapHeader ..) hend hstream (by rw [hlen]; decide)
    (by rw [List.flatMap_singleton, hlen, hlen])
  exact ⟨maps, _, _, hsetup, hof⟩

/-- The first byte of a map that starts with such a record. -/
theorem head_of_starts {type : SpclType} {b : UInt8} {rest map : List UInt8}
    (h : (recordPart type b).data ++ rest <+: map) : map.head? = some b := by
  rw [data_recordPart, tpBsize, List.replicate_succ, List.cons_append] at h
  obtain ⟨more, rfl⟩ := h
  rfl

/-- The inode of whiteouts in a map in which it is not set, the first map of two parts, and the
number of bits in a map of `2 ^ 32`. -/
theorem not_concatenated :
    (¬∃ maps h t, setupMaps (4 * tpBsize) false
        (headTape [recordPart .clri 0, recordPart .bits 0]) =
        some (maps, h, t) ∧ (recordPart .bits 0).data <+: maps.dumpmap) ∧
      (¬∃ maps h t, setupMaps (4 * tpBsize) false (headTape
          [recordPart .clri 255, recordPart .addr 1, recordPart .bits 255, recordPart .addr 1]) =
        some (maps, h, t) ∧
          [recordPart .clri 255, recordPart .addr 1].flatMap MapPart.data <+: maps.usedinomap) ∧
      mapBits (2 ^ 19) = 1 := by
  refine ⟨?_, ?_, by decide⟩
  · rintro ⟨maps, h, t, hrun, hstart⟩
    obtain ⟨d, hd⟩ := exists_setino hrun
    rw [← List.append_nil (recordPart .bits 0).data] at hstart
    have hhead := head_of_starts hstart
    rw [hd] at hhead
    cases d with
    | nil => cases hhead
    | cons c cs =>
      have hzero : c ||| 1 = 0 := Option.some.inj hhead
      have hbit := congrArg (fun b => b.toNat.testBit 0) hzero
      simp at hbit
  · rintro ⟨maps, h, t, hrun, hstart⟩
    let ps := [recordPart .clri 255, recordPart .addr 1, recordPart .bits 255, recordPart .addr 1]
    obtain ⟨t', hstream, -⟩ := exists_stream (rfl : (headTape ps).recs =
      ps.flatMap MapPart.recs ++ [.spcl (mapHeader .end_ 0)])
    have hover := prefix_usedinomap (by decide) rfl rfl rfl hstream
      (by simp only [data_recordPart, List.length_replicate]; decide) hrun
    rw [← List.append_nil (recordPart .addr 1).data] at hover
    have hhead := (head_of_starts hover).symm.trans (head_of_starts hstart)
    exact absurd (Option.some.inj hhead) (by decide)

end DumpRestore
