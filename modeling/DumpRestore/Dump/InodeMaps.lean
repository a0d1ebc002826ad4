import DumpRestore.Dump.Directory
import Mathlib.Data.Finset.Basic
import Mathlib.Data.Finset.Card

/-!
# The maps of inodes

The mapping passes of `dump/traverse.c` decide which inodes go on tape. `mapfiles` scans all inodes
and fills the bit maps, and `mapdirs` is repeated as long as it returns nonzero: it adds the
directories above what is dumped, and takes out what is below directories that are not to be
dumped. Bit maps are sets of inode numbers; where the source holds a byte of a map in a variable
while the map changes, so does the model.

`mapStep_mapdir` lists what one turn of the loop of `mapdirs` can do.
-/

namespace DumpRestore

/-! ## The filesystem and the maps -/

/-- `UF_NODUMP`. -/
def ufNodump : ℕ := 0x40

/-- `NDADDR`. -/
def ndaddr : ℕ := 12

/-- What the passes read of the filesystem, and the options that they honour: the base date
`spcl.c_ddate` and whether `UF_NODUMP` is ignored. -/
structure MapFs where
  fs : Ext2Fs
  getino : ℕ → Dinode
  dirents : ℕ → List Ext2DirEntry
  ddate : ℕ
  nonodump : Bool

/-- The maps, the map of excluded inodes, and the estimated size of the dump. -/
structure InodeMaps where
  usedinomap : Finset ℕ
  dumpdirmap : Finset ℕ
  dumpinomap : Finset ℕ
  metainomap : Finset ℕ
  excluded : Finset ℕ
  tapesize : ℤ

/-- `blockest`. The blocks of the data are counted without a sign, those of the indirect blocks
with one. -/
def blockest (fs : Ext2Fs) (dp : Dinode) : ℤ :=
  let sizeest := howmany dp.iSize fs.blocksize * fs.tbperdb
  let blkest := min (howmany (dp.diBlocks * 512) fs.blocksize * fs.tbperdb) sizeest
  let isdir := ifmt dp.diMode = ifDir
  let blkest := if isdir then blkest / 2 else blkest
  let sizeest := if isdir then sizeest / 2 else sizeest
  let indirect : ℤ := if dp.iSize > fs.blocksize * ndaddr then
    ((sizeest : ℤ) - (ndaddr * fs.blocksize / tpBsize : ℕ) + (tpNindir - 1)).tdiv tpNindir else 0
  blkest + indirect + 1

namespace MapFs

variable (t : MapFs)

/-- `(mode & IFMT) == IFDIR` for an inode. -/
def isDir (ino : ℕ) : Bool := ifmt (t.getino ino).diMode = ifDir

/-- `NODUMP_FLAG`. -/
def nodumpFlag (ino : ℕ) : Bool := !t.nonodump && (t.getino ino).diFlags &&& ufNodump = ufNodump

/-- `CSINCE`. -/
def csince (ino : ℕ) : Bool := t.ddate ≤ (t.getino ino).diCtime

/-- `MSINCE`. -/
def msince (ino : ℕ) : Bool := t.ddate ≤ (t.getino ino).diMtime

/-- `WANTTODUMP`. -/
def wanttodump (ino : ℕ) (excluded : Finset ℕ) : Bool :=
  t.csince ino && !t.nodumpFlag ino && decide (ino ∉ excluded)

/-! ## The first pass -/

/-- `mapfileino`. The flag is `*dirskipped`. -/
def mapfileino (ino : ℕ) (p : Bool × InodeMaps) : Bool × InodeMaps :=
  let (dirskipped, m) := p
  if ino ∈ m.usedinomap then p
  else
    let dp := t.getino ino
    let mode := ifmt dp.diMode
    if mode = 0 then p
    else if dp.diNlink = 0 ∨ dp.diDtime ≠ 0 then p
    else
      let m := { m with usedinomap := insert ino m.usedinomap }
      let m := if t.nodumpFlag ino then { m with excluded := insert ino m.excluded } else m
      let m := if mode = ifDir then { m with dumpdirmap := insert ino m.dumpdirmap } else m
      if t.wanttodump ino m.excluded then
        let m := { m with dumpinomap := insert ino m.dumpinomap }
        let m := if t.msince ino then m else { m with metainomap := insert ino m.metainomap }
        let size := if mode ≠ ifReg ∧ mode ≠ ifDir ∧ mode ≠ ifLnk then 1 else blockest t.fs dp
        (dirskipped, { m with tapesize := m.tapesize + size })
      else if mode = ifDir then
        (true, if ino ∈ m.excluded then { m with usedinomap := m.usedinomap.erase ino } else m)
      else (dirskipped, m)

/-- The maps before the first pass. -/
def nomaps (excluded : Finset ℕ) : InodeMaps := ⟨∅, ∅, ∅, ∅, excluded, 0⟩

/-- The scan of `mapfiles`, up to inode `n`. -/
def scan (excluded : Finset ℕ) (n : ℕ) : Bool × InodeMaps :=
  (List.range' 1 n).foldl (fun p ino => t.mapfileino ino p) (false, nomaps excluded)

/-- `mapfiles`. -/
def mapfiles (excluded : Finset ℕ) : Bool × InodeMaps :=
  let (anydirskipped, m) := t.scan excluded t.fs.sInodesCount
  (anydirskipped, { m with dumpinomap := insert rootino m.dumpinomap })

/-! ## The other passes -/

/-- `HASDUMPEDFILE` and `HASSUBDIRS`, as bits of `ret`. -/
structure SearchRet where
  hasdumpedfile : Bool
  hassubdirs : Bool

/-- The entries that `searchdir` leaves out: unused ones, `.` and `..`. -/
def skipped (dp : Ext2DirEntry) : Bool :=
  dp.inode = 0 || dp.name = [46] || dp.name = [46, 46]

/-- `searchdir`. The flag says that the iteration is aborted. -/
def searchdir (nodump : Bool) (dp : Ext2DirEntry) (p : SearchRet × InodeMaps) :
    Bool × SearchRet × InodeMaps :=
  let (ret, m) := p
  if skipped dp then (false, p)
  else if nodump then
    let m := if dp.inode ∈ m.dumpinomap then
        { m with
          dumpinomap := m.dumpinomap.erase dp.inode
          tapesize := m.tapesize - blockest t.fs (t.getino dp.inode) }
      else m
    if t.isDir dp.inode then
      (false, { ret with hassubdirs := true },
        { m with
          dumpdirmap := insert dp.inode m.dumpdirmap
          usedinomap := m.usedinomap.erase dp.inode })
    else (false, ret, m)
  else
    let ret := if dp.inode ∈ m.dumpinomap then { ret with hasdumpedfile := true } else ret
    if dp.inode ∈ m.dumpinomap ∧ ret.hassubdirs then (true, ret, m)
    else
      let ret := if dp.inode ∈ m.dumpdirmap then { ret with hassubdirs := true } else ret
      (decide (dp.inode ∈ m.dumpdirmap) && ret.hasdumpedfile, ret, m)

/-- `ext2fs_dir_iterate`. -/
def dirIterate {σ : Type*} (f : Ext2DirEntry → σ → Bool × σ) : List Ext2DirEntry → σ → σ
  | [], s => s
  | dp :: dps, s => if (f dp s).1 then (f dp s).2 else dirIterate f dps (f dp s).2

/-- One turn of the loop of `mapdirs` for an inode whose bit is set. The flag is `change`. -/
def mapdir (ino : ℕ) (p : Bool × InodeMaps) : Bool × InodeMaps :=
  let (change, m) := p
  let nodump := decide (ino ∉ m.usedinomap)
  if ino ∈ m.dumpinomap ∧ nodump = false then p
  else
    let (ret, m) := dirIterate (t.searchdir nodump) (t.dirents ino) (⟨false, false⟩, m)
    if ret.hasdumpedfile then
      (true, { m with
        dumpinomap := insert ino m.dumpinomap
        tapesize := m.tapesize + blockest t.fs (t.getino ino) })
    else if nodump then
      (change || ret.hassubdirs, { m with dumpdirmap := m.dumpdirmap.erase ino })
    else if ret.hassubdirs = false ∧ ino ∉ m.dumpinomap then
      (true, { m with dumpdirmap := m.dumpdirmap.erase ino })
    else (change, m)

/-- The bits of the byte of a map that starts with the bit of inode `ino`. -/
def mapByte (map : Finset ℕ) (ino : ℕ) : List Bool :=
  (List.range 8).map fun k => decide (ino + k ∈ map)

/-- One turn of the loop of `mapdirs`. The variable `isdir` has a byte of the map, shifted so that
the bit of the inode comes first. -/
def mapdirsStep (p : List Bool × (Bool × InodeMaps)) (ino : ℕ) : List Bool × (Bool × InodeMaps) :=
  let isdir := if (ino - 1) % 8 = 0 then mapByte p.2.2.dumpdirmap ino else p.1.tail
  (isdir, if isdir.headD false then t.mapdir ino p.2 else p.2)

/-- The loop of `mapdirs`, up to inode `n`. -/
def mapdirsLoop (n : ℕ) (m : InodeMaps) : List Bool × (Bool × InodeMaps) :=
  (List.range' 1 n).foldl t.mapdirsStep ([], false, m)

/-- `mapdirs`. -/
def mapdirs (m : InodeMaps) : Bool × InodeMaps := (t.mapdirsLoop t.fs.sInodesCount m).2

/-- The loop `while (anydirskipped) anydirskipped = mapdirs(maxino, &tapesize)`. -/
def mapPasses : (fuel : ℕ) → Bool × InodeMaps → Option InodeMaps
  | 0, _ => none
  | _ + 1, (false, m) => some m
  | fuel + 1, (true, m) => mapPasses fuel (t.mapdirs m)

/-! ## What one turn can do -/

/-- The inodes that `searchdir` looks at in a directory. -/
def entries (dps : List Ext2DirEntry) : List ℕ :=
  (dps.filter fun dp => !skipped dp).map Ext2DirEntry.inode

/-- The entries of a directory other than `.` and `..`. -/
def children (ino : ℕ) : Finset ℕ := (entries (t.dirents ino)).toFinset

/-- The directories among them. -/
def subdirs (ino : ℕ) : Finset ℕ := (t.children ino).filter fun c => t.isDir c

/-- A search that does not take anything out looks for dumped files and for directories. -/
theorem dirIterate_searchdir_false (m : InodeMaps) (dps : List Ext2DirEntry) (ret : SearchRet) :
    dirIterate (t.searchdir false) dps (ret, m) =
      (⟨ret.hasdumpedfile || (entries dps).any (· ∈ m.dumpinomap),
        ret.hassubdirs || (entries dps).any (· ∈ m.dumpdirmap)⟩, m) := by
  induction dps generalizing ret with
  | nil => simp [dirIterate, entries]
  | cons dp dps ih =>
    obtain ⟨d, s⟩ := ret
    rw [dirIterate]
    by_cases hskip : skipped dp = true
    · simp [searchdir, hskip, ih, entries]
    · have hentries : entries (dp :: dps) = dp.inode :: entries dps := by simp [entries, hskip]
      rw [hentries]
      by_cases hd : dp.inode ∈ m.dumpinomap <;> by_cases hs : dp.inode ∈ m.dumpdirmap <;>
        cases d <;> cases s <;> simp [searchdir, hskip, hd, hs, ih]

/-- The maps after everything in `kids` was taken out, the directories `subs` among them. -/
def inherit (m : InodeMaps) (kids subs : Finset ℕ) (tapesize : ℤ) : InodeMaps :=
  { m with
    usedinomap := m.usedinomap \ subs
    dumpdirmap := m.dumpdirmap ∪ subs
    dumpinomap := m.dumpinomap \ kids
    tapesize := tapesize }

theorem inherit_inherit (m : InodeMaps) (kids subs kids' subs' : Finset ℕ) (n n' : ℤ) :
    inherit (inherit m kids subs n) kids' subs' n' =
      inherit m (kids ∪ kids') (subs ∪ subs') n' := by
  simp only [inherit, sdiff_sdiff, Finset.sup_eq_union, Finset.union_assoc]

theorem exists_searchdir_true (m : InodeMaps) {dp : Ext2DirEntry} (hskip : skipped dp = false)
    (ret : SearchRet) :
    ∃ tapesize, t.searchdir true dp (ret, m) =
      (false, ⟨ret.hasdumpedfile, ret.hassubdirs || t.isDir dp.inode⟩,
        inherit m {dp.inode} (if t.isDir dp.inode then {dp.inode} else ∅) tapesize) := by
  obtain ⟨d, s⟩ := ret
  have herase : m.dumpinomap \ {dp.inode} = m.dumpinomap.erase dp.inode :=
    Finset.sdiff_singleton_eq_erase ..
  have hinsert : m.dumpdirmap ∪ {dp.inode} = insert dp.inode m.dumpdirmap := by
    rw [Finset.union_comm, Finset.insert_eq]
  have hused : m.usedinomap \ {dp.inode} = m.usedinomap.erase dp.inode :=
    Finset.sdiff_singleton_eq_erase ..
  by_cases hd : dp.inode ∈ m.dumpinomap
  · refine ⟨m.tapesize - blockest t.fs (t.getino dp.inode), ?_⟩
    cases hdir : t.isDir dp.inode <;>
      simp [searchdir, hskip, hd, hdir, inherit, herase, hinsert, hused]
  · refine ⟨m.tapesize, ?_⟩
    cases hdir : t.isDir dp.inode <;>
      simp [searchdir, hskip, hd, hdir, inherit, herase, hinsert, hused]

/-- A search below a directory that is not to be dumped takes its entries out. -/
theorem exists_dirIterate_searchdir_true (m : InodeMaps) (dps : List Ext2DirEntry)
    (ret : SearchRet) :
    ∃ tapesize, dirIterate (t.searchdir true) dps (ret, m) =
      (⟨ret.hasdumpedfile, ret.hassubdirs || (entries dps).any t.isDir⟩,
        inherit m (entries dps).toFinset ((entries dps).filter t.isDir).toFinset tapesize) := by
  induction dps generalizing ret m with
  | nil => exact ⟨m.tapesize, by simp [dirIterate, entries, inherit]⟩
  | cons dp dps ih =>
    rw [dirIterate]
    by_cases hskip : skipped dp = true
    · simpa [searchdir, hskip, entries] using ih m ret
    · have hentries : entries (dp :: dps) = dp.inode :: entries dps := by simp [entries, hskip]
      obtain ⟨n, hstep⟩ := t.exists_searchdir_true m (by simpa using hskip) ret
      obtain ⟨n', hrest⟩ := ih (inherit m {dp.inode}
        (if t.isDir dp.inode then {dp.inode} else ∅) n)
        ⟨ret.hasdumpedfile, ret.hassubdirs || t.isDir dp.inode⟩
      refine ⟨n', ?_⟩
      rw [hstep, if_neg (by simp), hrest, inherit_inherit, hentries]
      cases hdir : t.isDir dp.inode <;> simp [hdir]

theorem any_entries (ino : ℕ) (s : Finset ℕ) :
    (entries (t.dirents ino)).any (· ∈ s) = true ↔ ∃ c ∈ t.children ino, c ∈ s := by
  simp [children]

/-- What one turn of the loop of `mapdirs` does to the maps and to `change`. -/
inductive MapStep (ino : ℕ) : Bool × InodeMaps → Bool × InodeMaps → Prop
  /-- It leaves a directory that is dumped, or may come to be. -/
  | keep (p : Bool × InodeMaps) (hused : ino ∈ p.2.usedinomap)
      (hchildren : ino ∉ p.2.dumpinomap → (∀ c ∈ t.children ino, c ∉ p.2.dumpinomap) ∧
        ∃ c ∈ t.children ino, c ∈ p.2.dumpdirmap) :
      MapStep ino p p
  /-- It adds a directory with something to dump below it. -/
  | dump (change : Bool) (m : InodeMaps) (tapesize : ℤ) (hused : ino ∈ m.usedinomap)
      (hdump : ino ∉ m.dumpinomap) (hchild : ∃ c ∈ t.children ino, c ∈ m.dumpinomap) :
      MapStep ino (change, m)
        (true, { m with dumpinomap := insert ino m.dumpinomap, tapesize := tapesize })
  /-- It forgets a directory with nothing to dump below it. -/
  | drop (change : Bool) (m : InodeMaps) (hused : ino ∈ m.usedinomap) (hdump : ino ∉ m.dumpinomap)
      (hchildren : ∀ c ∈ t.children ino, c ∉ m.dumpinomap ∧ c ∉ m.dumpdirmap) :
      MapStep ino (change, m) (true, { m with dumpdirmap := m.dumpdirmap.erase ino })
  /-- It takes out what is below a directory that is not to be dumped. -/
  | nodump (change : Bool) (m : InodeMaps) (tapesize : ℤ) (hused : ino ∉ m.usedinomap) :
      MapStep ino (change, m) (change || decide (t.subdirs ino).Nonempty,
        { inherit m (t.children ino) (t.subdirs ino) tapesize with
          dumpdirmap := (m.dumpdirmap ∪ t.subdirs ino).erase ino })

/-- **One turn of the loop of `mapdirs`.** -/
theorem mapStep_mapdir (ino : ℕ) (p : Bool × InodeMaps) : t.MapStep ino p (t.mapdir ino p) := by
  obtain ⟨change, m⟩ := p
  by_cases hused : ino ∈ m.usedinomap
  case pos =>
    by_cases hdump : ino ∈ m.dumpinomap
    · have hkeep : t.mapdir ino (change, m) = (change, m) := by simp [mapdir, hused, hdump]
      rw [hkeep]
      exact .keep _ hused (absurd hdump)
    · have hsearch := t.dirIterate_searchdir_false m (t.dirents ino) ⟨false, false⟩
      simp only [Bool.false_or] at hsearch
      by_cases hd : ∃ c ∈ t.children ino, c ∈ m.dumpinomap
      · have hany := (t.any_entries ino m.dumpinomap).mpr hd
        have hturn : t.mapdir ino (change, m) = (true, { m with
            dumpinomap := insert ino m.dumpinomap
            tapesize := m.tapesize + blockest t.fs (t.getino ino) }) := by
          simp [mapdir, hused, hdump, hsearch, hany]
        rw [hturn]
        exact .dump change m _ hused hdump hd
      · have hany : (entries (t.dirents ino)).any (· ∈ m.dumpinomap) = false :=
          Bool.eq_false_iff.mpr (mt (t.any_entries ino m.dumpinomap).mp hd)
        by_cases hs : ∃ c ∈ t.children ino, c ∈ m.dumpdirmap
        · have hany' := (t.any_entries ino m.dumpdirmap).mpr hs
          have hkeep : t.mapdir ino (change, m) = (change, m) := by
            simp [mapdir, hused, hdump, hsearch, hany, hany']
          rw [hkeep]
          exact .keep _ hused fun _ => ⟨fun c hc hin => hd ⟨c, hc, hin⟩, hs⟩
        · have hany' : (entries (t.dirents ino)).any (· ∈ m.dumpdirmap) = false :=
            Bool.eq_false_iff.mpr (mt (t.any_entries ino m.dumpdirmap).mp hs)
          have hturn : t.mapdir ino (change, m) =
              (true, { m with dumpdirmap := m.dumpdirmap.erase ino }) := by
            simp [mapdir, hused, hdump, hsearch, hany, hany']
          rw [hturn]
          exact .drop change m hused hdump fun c hc =>
            ⟨fun hin => hd ⟨c, hc, hin⟩, fun hin => hs ⟨c, hc, hin⟩⟩
  case neg =>
    obtain ⟨n, hsearch⟩ := t.exists_dirIterate_searchdir_true m (t.dirents ino) ⟨false, false⟩
    have hsubdirs : ((entries (t.dirents ino)).filter t.isDir).toFinset = t.subdirs ino := by
      rw [subdirs, children, List.toFinset_filter]
    have hany : (entries (t.dirents ino)).any t.isDir = decide (t.subdirs ino).Nonempty := by
      rw [Bool.eq_iff_iff, decide_eq_true_iff, List.any_eq_true, ← hsubdirs]
      simp [Finset.Nonempty]
    have hturn : t.mapdir ino (change, m) = (change || decide (t.subdirs ino).Nonempty,
        { inherit m (t.children ino) (t.subdirs ino) n with
          dumpdirmap := (m.dumpdirmap ∪ t.subdirs ino).erase ino }) := by
      simp only [mapdir, hused, not_false_eq_true, decide_true, Bool.true_eq_false, and_false,
        if_false, hsearch, Bool.false_eq_true, if_true, hsubdirs, Bool.false_or, hany]
      rfl
    rw [hturn]
    exact .nodump change m n hused

end MapFs

end DumpRestore
