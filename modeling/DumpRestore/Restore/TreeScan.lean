import DumpRestore.Restore.Effects
import DumpRestore.Restore.ReadDir

/-!
# Walking the directories

`treescan` walks the directories that `extractdirs` has stored and calls a function for every name,
and `pathsearch` looks a path up. Both read through the one descriptor and the one buffer of
`ReadDir`. A directory is scanned while its subdirectories are scanned too, so that the reader goes
away in the middle of it and comes back to an offset that `rst_telldir` has returned. `rst_seekdir`
does nothing where `rst_telldir` returns this offset already.

* `Dirs` is what the file stands for: the entries of the directory with an inode number.
* `visit` and `resolve` are the walk and the search in these terms.
* `treescan_eq` and `pathLoop_eq`: `treescan` and `pathsearch` are that, if no directory ends,
  rounded up to whole blocks, where its own entry in the parent does (`Clear`).
* `runUses_eq`: the same for searches and walks one after the other.
-/

namespace DumpRestore

namespace TreeScan

open ByteOrder Mem Restore

/-! ## The table of directories -/

/-- `HASHSIZE`. -/
def hashsize : ℕ := 1000

/-- `allocinotab`, with the size that `extractdirs` stores at the end of the directory. -/
def allocinotab (itp : Inotab) (inotab : ℕ → List Inotab) : ℕ → List Inotab :=
  Function.update inotab (itp.tIno % hashsize) (itp :: inotab (itp.tIno % hashsize))

/-- `inotablookup`. -/
def inotablookup (inotab : ℕ → List Inotab) (ino : ℕ) : Option Inotab :=
  (inotab (ino % hashsize)).find? (·.tIno == ino)

/-- The loop of `extractdirs`, given the inode number of each directory and the calls that `getfile`
makes for it. -/
def extractdirs (junk : Mem) (dirs : List (ℕ × List Call)) :
    (ℕ → List Inotab) × DirFile → (ℕ → List Inotab) × DirFile :=
  dirs.foldl fun p dir =>
    let q := storeDir junk dir.1 dir.2 p.2
    (allocinotab q.1 p.1, q.2)

theorem inotablookup_allocinotab (itp : Inotab) (inotab : ℕ → List Inotab) (ino : ℕ) :
    inotablookup (allocinotab itp inotab) ino =
      if itp.tIno = ino then some itp else inotablookup inotab ino := by
  rw [inotablookup, allocinotab, inotablookup]
  by_cases hhash : ino % hashsize = itp.tIno % hashsize
  · rw [hhash, Function.update_self, List.find?_cons]
    by_cases hino : itp.tIno = ino
    · rw [if_pos hino, beq_iff_eq.mpr hino]
    · rw [if_neg hino, beq_eq_false_iff_ne.mpr hino]
  · rw [Function.update_of_ne hhash, if_neg]
    rintro rfl
    exact hhash rfl

/-! ## The reader -/

/-- `MAXPATHLEN`. -/
def maxpathlen : ℕ := 4096

section Reader

variable (file : List UInt8) (inotab : ℕ → List Inotab) (maxino : ℕ)

/-- The loop of `searchdir`. -/
def searchLoop (name : List UInt8) : (fuel : ℕ) → RstDir → Option (Option Direct × RstDir)
  | 0, _ => none
  | fuel + 1, d =>
    match rstReaddir file maxino d with
    | (none, d) => some (none, d)
    | (some dp, d) => if dp.dName = name then some (some dp, d) else searchLoop name fuel d

/-- `searchdir`. Each turn of the loop reads an entry. -/
def searchdir (inum : ℕ) (name : List UInt8) (d : RstDir) : Option (Option Direct × RstDir) :=
  match inotablookup inotab inum with
  | none => some (none, d)
  | some itp =>
    searchLoop file maxino name (file.length + 1) (rstSeekdir file itp.tSeekpt itp.tSeekpt d)

/-- The names that `pathsearch` gets from `strsep`: it ends with the path, or with an empty name. -/
def names (path : List UInt8) : List (List UInt8) :=
  ((path.dropWhile (· == 47)).splitOn 47).takeWhile (· ≠ [])

/-- The loop of `pathsearch`. -/
def pathLoop : (ino : ℕ) → (dp : Option Direct) → List (List UInt8) → RstDir →
    Option (Option Direct × RstDir)
  | _, dp, [], d => some (dp, d)
  | ino, _, name :: names, d =>
    match searchdir file inotab maxino ino name d with
    | none => none
    | some (none, d) => some (none, d)
    | some (some dp, d) => pathLoop dp.dIno (some dp) names d

/-- `pathsearch`. There is no result where the path is too long for the buffer. -/
def pathsearch (pathname : List UInt8) (d : RstDir) : Option (Option Direct × RstDir) :=
  if pathname.length < maxpathlen then pathLoop file inotab maxino rootino none (names pathname) d
  else none

variable {σ : Type} (todo : List UInt8 → ℕ → EntryType → σ → Bool × σ)

/-- An entry with this name is passed over: `.` or `..`. -/
def skipEntry (name : List UInt8) (p : Option Direct × RstDir) : Option Direct × RstDir :=
  match p.1 with
  | some dp => if dp.dName = name then rstReaddir file maxino p.2 else p
  | none => p

/-- The loop of `treescan` in the directory at `base`, with `locname` up to `namelen`. The function
`scan` is `treescan` itself. -/
def scanLoop (scan : List UInt8 → ℕ → σ → RstDir → Option (σ × RstDir)) (base : ℕ)
    (locname : List UInt8) :
    (fuel : ℕ) → Option Direct → (bpt : ℤ) → σ → RstDir → Option (σ × RstDir)
  | _, none, _, s, d => some (s, d)
  | 0, some _, _, _, _ => none
  | fuel + 1, some dp, bpt, s, d =>
    let scanned :=
      if locname.length + dp.dNamlen ≥ maxpathlen + 1 then some (s, d)
      else (scan (locname ++ dp.dName) dp.dIno s d).map fun p => (p.1, rstSeekdir file bpt base p.2)
    scanned.bind fun p =>
      let q := rstReaddir file maxino p.2
      scanLoop scan base locname fuel q.1 (rstTelldir q.2) p.1 q.2

/-- `locname` as `snprintf` leaves it: the path and a slash, as far as there is room for them. -/
def slashed (pname : List UInt8) : List UInt8 := (pname ++ [47]).take maxpathlen

/-- `treescan`, for `fuel` levels of directories. The function `todo` does not read the directory
file; its value says whether to descend. -/
def treescan : (fuel : ℕ) → (pname : List UInt8) → (ino : ℕ) → σ → RstDir → Option (σ × RstDir)
  | 0, _, _, _, _ => none
  | fuel + 1, pname, ino, s, d =>
    match inotablookup inotab ino with
    | none => some ((todo pname ino .leaf s).2, d)
    | some itp =>
      let r := todo pname ino .node s
      if r.1 then
        let p := skipEntry file maxino [46, 46] (skipEntry file maxino [46]
          (rstReaddir file maxino (rstSeekdir file itp.tSeekpt itp.tSeekpt d)))
        scanLoop file maxino (treescan fuel) itp.tSeekpt (slashed pname) (file.length + 1) p.1
          (rstTelldir p.2) r.2 p.2
      else some (r.2, d)

end Reader

/-! ## What the file stands for -/

/-- The entries of the directory with an inode number. -/
abbrev Dirs := ℕ → Option (List Direct)

/-- Without a first entry of this name. -/
def skipName (name : List UInt8) : List Direct → List Direct
  | [] => []
  | e :: es => if e.dName = name then es else e :: es

/-- The entries behind `.` and `..`. -/
def realEntries (es : List Direct) : List Direct := skipName [46, 46] (skipName [46] es)

section Abstract

variable (dirs : Dirs)

/-- The entry for a path: each name is looked up in the directory before it. -/
def resolve : (ino : ℕ) → (dp : Option Direct) → List (List UInt8) → Option Direct
  | _, dp, [] => dp
  | ino, _, name :: names =>
    ((dirs ino).bind (·.find? (·.dName = name))).bind fun dp => resolve dp.dIno (some dp) names

variable {σ : Type} (todo : List UInt8 → ℕ → EntryType → σ → Bool × σ)

/-- The walk: the function is called for a name, and if it is that of a directory and the walk goes
on, for the entries behind `.` and `..` whose paths are not too long. -/
def visit : (fuel : ℕ) → (pname : List UInt8) → (ino : ℕ) → σ → σ
  | 0, _, _, s => s
  | fuel + 1, pname, ino, s =>
    match dirs ino with
    | none => (todo pname ino .leaf s).2
    | some es =>
      let r := todo pname ino .node s
      if r.1 then
        (realEntries es).foldl (fun s e =>
          if (slashed pname).length + e.dNamlen ≤ maxpathlen then
            visit fuel (slashed pname ++ e.dName) e.dIno s
          else s) r.2
      else r.2

end Abstract

/-! ## Directories in the file -/

/-- A directory of the table is in the file. -/
structure InFile (file : List UInt8) (itp : Inotab) (es : List Direct) : Prop where
  le : itp.tSeekpt + itp.tSize ≤ file.length
  whole : StoredWhole ((ofList file).shift itp.tSeekpt) es itp.tSize

/-- Where the reader is when it has read the end of a directory: behind its last block, also where
this block is not full. -/
def stop (itp : Inotab) : ℕ := itp.tSeekpt + howmany itp.tSize rstDirblksiz * rstDirblksiz

/-- The offset `q` of a directory is behind one of its entries. -/
def Behind (file : List UInt8) (itp : Inotab) (es : List Direct) (q : ℕ) : Prop :=
  ∃ pre, pre ≠ [] ∧ pre <+: es ∧ Lays ((ofList file).shift itp.tSeekpt) rstDirblksiz 0 pre q

/-- The table and the file stand for these directories, which do not overlap. -/
structure Filed (file : List UInt8) (inotab : ℕ → List Inotab) (maxino : ℕ) (dirs : Dirs) :
    Prop where
  leaf : ∀ ino, dirs ino = none → inotablookup inotab ino = none
  node : ∀ ino es, dirs ino = some es →
    ∃ itp, inotablookup inotab ino = some itp ∧ InFile file itp es
  entries : ∀ ino es, dirs ino = some es → ∀ e ∈ es, e.Valid ∧ e.dIno ≠ 0 ∧ e.dIno < maxino
  apart : ∀ i j a b, inotablookup inotab i = some a → inotablookup inotab j = some b → i ≠ j →
    a.tSeekpt + a.tSize ≤ b.tSeekpt ∨ b.tSeekpt + b.tSize ≤ a.tSeekpt

/-- The offset `q` of a directory is behind the entry `e`, which is not `.` or `..`. -/
def Resumes (file : List UInt8) (itp : Inotab) (es : List Direct) (e : Direct) (q : ℕ) : Prop :=
  ∃ pre rest, es = pre ++ e :: rest ∧ e :: rest <:+ realEntries es ∧
    Lays ((ofList file).shift itp.tSeekpt) rstDirblksiz 0 (pre ++ [e]) q

/-- No directory ends, rounded up to whole blocks, where the walk goes on in its parent: behind the
entry of this directory. A walk that has read the directory would not seek there. -/
def Clear (file : List UInt8) (inotab : ℕ → List Inotab) (dirs : Dirs) : Prop :=
  ∀ ino itp es e q child, inotablookup inotab ino = some itp → dirs ino = some es →
    Resumes file itp es e q → inotablookup inotab e.dIno = some child →
    stop child ≠ itp.tSeekpt + q

/-- The reader is behind an entry of a directory, or at the end of one. -/
def Idle (file : List UInt8) (inotab : ℕ → List Inotab) (dirs : Dirs) (d : RstDir) : Prop :=
  ∃ ino itp es, inotablookup inotab ino = some itp ∧ dirs ino = some es ∧
    ((∃ q, Behind file itp es q ∧ At file itp.tSeekpt q d) ∨
      At file itp.tSeekpt (stop itp - itp.tSeekpt) d)

/-- The reader after a walk from `ino`: it did not move, or it has read the end of the directory. -/
def Left (file : List UInt8) (inotab : ℕ → List Inotab) (dirs : Dirs) (ino : ℕ)
    (d d' : RstDir) : Prop :=
  d' = d ∨ ∃ itp es, inotablookup inotab ino = some itp ∧ dirs ino = some es ∧
    At file itp.tSeekpt (stop itp - itp.tSeekpt) d'

section Reading

variable {file : List UInt8} {inotab : ℕ → List Inotab} {maxino : ℕ} {dirs : Dirs} {itp : Inotab}
  {es l : List Direct} {d d' : RstDir} {ino q : ℕ} {e : Direct}

/-- The reader is behind the last block when it has read the entry that ends the directory. -/
theorem stop_sub_tSeekpt {p n : ℕ} (hn : p + 10 ≤ n)
    (hle : n ≤ p + (rstDirblksiz - p % rstDirblksiz)) :
    howmany n rstDirblksiz * rstDirblksiz = p + (rstDirblksiz - p % rstDirblksiz) := by
  rw [howmany, rstDirblksiz] at *
  omega

theorem Behind.lt (hfile : InFile file itp es) (h : Behind file itp es q) :
    0 < q ∧ q + 10 ≤ itp.tSize := by
  obtain ⟨pre, hne, ⟨rest, rfl⟩, hpre⟩ := h
  obtain ⟨p, hlays, -, -, hn, -⟩ := hfile.whole
  obtain ⟨b, hb, hrest⟩ := hlays.of_append
  obtain rfl := hpre.unique (by decide) hb
  have hlen := hpre.length_le
  have hpos := List.length_pos_iff.mpr hne
  have hle := hrest.le
  omega

theorem Left.idle (h : Left file inotab dirs ino d d') (hd : Idle file inotab dirs d) :
    Idle file inotab dirs d' := by
  rcases h with rfl | ⟨itp, es, hitp, hes, hat⟩
  · exact hd
  · exact ⟨ino, itp, es, hitp, hes, .inr hat⟩

/-- The seek back to a directory after the walk below one of its entries. -/
theorem Left.seek_back (hclear : Clear file inotab dirs) (hitp : inotablookup inotab ino = some itp)
    (hes : dirs ino = some es) (hq : Resumes file itp es e q) (hat : At file itp.tSeekpt q d)
    (h : Left file inotab dirs e.dIno d d') :
    Positioned file itp.tSeekpt q
      (rstSeekdir file ((itp.tSeekpt + q : ℕ) : ℤ) itp.tSeekpt d') := by
  refine positioned_rstSeekdir fun htell => ?_
  rcases h with rfl | ⟨child, ces, hchild, -, hend⟩
  · exact hat.positioned
  · rw [hend.telldir] at htell
    have hle : child.tSeekpt ≤ stop child := Nat.le_add_right _ _
    exact absurd (by omega) (hclear ino itp es e q child hitp hes hq hchild)

/-- A seek to the start of a directory, where a block may also end that is used up. -/
theorem Idle.seek_base (hfiled : Filed file inotab maxino dirs) (hd : Idle file inotab dirs d)
    (hitp : inotablookup inotab ino = some itp) (hes : dirs ino = some es) :
    ∃ d₁, Positioned file itp.tSeekpt 0 d₁ ∧
      rstReaddir file maxino (rstSeekdir file itp.tSeekpt itp.tSeekpt d) =
        rstReaddir file maxino d₁ := by
  by_cases htell : (itp.tSeekpt : ℤ) = rstTelldir d
  · rw [rstSeekdir, if_pos htell]
    obtain ⟨b, hb, hfile'⟩ := hfiled.node ino es hes
    obtain rfl := Option.some.inj (hitp.symm.trans hb)
    obtain ⟨i, a, es', ha, hes', ⟨q', hq', hat⟩ | hat⟩ := hd
    · obtain ⟨b, hb, hfile⟩ := hfiled.node i es' hes'
      obtain rfl := Option.some.inj (ha.symm.trans hb)
      have hlt := hq'.lt hfile
      rw [hat.telldir] at htell
      by_cases hi : i = ino
      · obtain rfl := hi
        obtain rfl := Option.some.inj (ha.symm.trans hitp)
        omega
      · have hapart := hfiled.apart i ino a itp ha hitp hi
        obtain ⟨p, -, -, -, hn, -⟩ := hfile'.whole
        omega
    · rw [hat.telldir] at htell
      obtain ⟨blk, n, hload, hstop, hpos, hle⟩ := hat
      have hmod := hload.blk_mod
      have hcount := hload.count
      have hfd := hload.ddFd
      have hroom := hfile'.le
      rw [stop, Nat.add_sub_cancel_left] at hstop htell
      rw [rstDirblksiz] at *
      have hloc : d.ddLoc = 1024 := by omega
      refine ⟨{ d with ddLoc := 0 }, .inl ⟨rfl, ?_, rfl⟩, rstReaddir_reset hpos.ne' ?_⟩
      · change d.ddFd = itp.tSeekpt + 0
        omega
      · rw [hload.ddSize]
        omega
  · have hpos := @positioned_rstSeekdir file itp.tSeekpt 0 d fun h => absurd h.symm htell
    exact ⟨_, hpos, rfl⟩

/-- What `rst_readdir` has returned, and where the reader is, with the entries `l` to come. -/
def Cursor (file : List UInt8) (itp : Inotab) (es : List Direct) :
    List Direct → Option Direct → RstDir → Prop
  | [], dp, d => dp = none ∧ At file itp.tSeekpt (stop itp - itp.tSeekpt) d
  | e :: rest, dp, d => dp = some e ∧ ∃ pre q, es = pre ++ e :: rest ∧
      Lays ((ofList file).shift itp.tSeekpt) rstDirblksiz 0 (pre ++ [e]) q ∧
      At file itp.tSeekpt q d

/-- The next entry. -/
theorem cursor_rstReaddir (hfile : InFile file itp es)
    (hentries : ∀ e ∈ es, e.Valid ∧ e.dIno ≠ 0 ∧ e.dIno < maxino) {pre : List Direct}
    (hpre : es = pre ++ l) (hlays : Lays ((ofList file).shift itp.tSeekpt) rstDirblksiz 0 pre q)
    (hd : Positioned file itp.tSeekpt q d) :
    Cursor file itp es l (rstReaddir file maxino d).1 (rstReaddir file maxino d).2 := by
  obtain ⟨p, hall, hnull, hr, hn, hle⟩ := hfile.whole
  have hroom := hfile.le
  rw [hpre] at hall
  obtain ⟨b, hb, hrest⟩ := hall.of_append
  obtain rfl := hlays.unique (by decide) hb
  cases l with
  | nil =>
    obtain rfl : q = p := hrest
    obtain ⟨d', hread, hat⟩ := hd.rstReaddir_nulldir_at maxino hnull hr
      (by rw [rstDirblksiz] at *; omega) (by omega)
    rw [hread]
    refine ⟨rfl, ?_⟩
    rwa [stop, Nat.add_sub_cancel_left, stop_sub_tSeekpt hn hle]
  | cons e rest =>
    obtain ⟨r, hentry, hfits, htail⟩ := hrest
    have hlast := htail.le
    obtain ⟨he, hino, hmax⟩ := hentries e (hpre ▸ List.mem_append_right _ List.mem_cons_self)
    obtain ⟨d', hread, hat⟩ := hd.rstReaddir_at hentry hfits (by omega) he hino hmax
    rw [hread]
    exact ⟨rfl, pre, q + r, hpre, hlays.append ⟨r, hentry, hfits, rfl⟩, hat⟩

theorem Cursor.behind {rest : List Direct} {dp : Option Direct}
    (h : Cursor file itp es (e :: rest) dp d) :
    dp = some e ∧ ∃ q, Behind file itp es q ∧ At file itp.tSeekpt q d := by
  obtain ⟨hdp, pre, q, hpre, hlays, hat⟩ := h
  exact ⟨hdp, q, ⟨pre ++ [e], by simp, ⟨rest, by rw [hpre, List.append_assoc]; rfl⟩, hlays⟩, hat⟩

theorem Cursor.idle {dp : Option Direct} (h : Cursor file itp es l dp d)
    (hitp : inotablookup inotab ino = some itp) (hes : dirs ino = some es) :
    Idle file inotab dirs d := by
  refine ⟨ino, itp, es, hitp, hes, ?_⟩
  cases l with
  | nil => exact .inr h.2
  | cons e rest => exact .inl h.behind.2

/-- The entry after the one that was returned. -/
theorem Cursor.next (hfile : InFile file itp es)
    (hentries : ∀ e ∈ es, e.Valid ∧ e.dIno ≠ 0 ∧ e.dIno < maxino) {rest : List Direct}
    {dp : Option Direct} (h : Cursor file itp es (e :: rest) dp d) :
    Cursor file itp es rest (rstReaddir file maxino d).1 (rstReaddir file maxino d).2 := by
  obtain ⟨-, pre, q, hpre, hlays, hat⟩ := h
  exact cursor_rstReaddir hfile hentries (by rw [hpre, List.append_assoc]; rfl) hlays hat.positioned

theorem Cursor.skipEntry (hfile : InFile file itp es)
    (hentries : ∀ e ∈ es, e.Valid ∧ e.dIno ≠ 0 ∧ e.dIno < maxino) (name : List UInt8)
    {p : Option Direct × RstDir} (h : Cursor file itp es l p.1 p.2) :
    Cursor file itp es (skipName name l) (skipEntry file maxino name p).1
      (skipEntry file maxino name p).2 := by
  cases l with
  | nil =>
    rw [TreeScan.skipEntry, h.1]
    exact h
  | cons e rest =>
    rw [TreeScan.skipEntry, h.1, skipName]
    dsimp only
    split
    · exact h.next hfile hentries
    · exact h

end Reading

/-! ## The walk and the search -/

section Walk

variable {file : List UInt8} {inotab : ℕ → List Inotab} {maxino : ℕ} {dirs : Dirs} {itp : Inotab}
  {es l : List Direct} {d : RstDir} {ino : ℕ}

theorem InFile.length_lt (hfile : InFile file itp es) : es.length < file.length := by
  obtain ⟨p, hlays, -, -, hn, -⟩ := hfile.whole
  have hlen := hlays.length_le
  have hle := hfile.le
  omega

/-- The first entry of a directory. -/
theorem Idle.first (hfiled : Filed file inotab maxino dirs) (hd : Idle file inotab dirs d)
    (hitp : inotablookup inotab ino = some itp) (hes : dirs ino = some es) :
    InFile file itp es ∧ Cursor file itp es es
      (rstReaddir file maxino (rstSeekdir file itp.tSeekpt itp.tSeekpt d)).1
      (rstReaddir file maxino (rstSeekdir file itp.tSeekpt itp.tSeekpt d)).2 := by
  obtain ⟨b, hb, hfile⟩ := hfiled.node ino es hes
  obtain rfl := Option.some.inj (hitp.symm.trans hb)
  obtain ⟨d₁, hpos, hread⟩ := hd.seek_base hfiled hitp hes
  rw [hread]
  have hentries := hfiled.entries ino es hes
  exact ⟨hfile, cursor_rstReaddir hfile hentries (List.nil_append es).symm rfl hpos⟩

theorem length_skipName_le (name : List UInt8) (es : List Direct) :
    (skipName name es).length ≤ es.length := by
  cases es with
  | nil => exact le_rfl
  | cons e es =>
    rw [skipName, List.length_cons]
    split
    · exact Nat.le_succ _
    · exact le_rfl

theorem mem_of_mem_skipName {name : List UInt8} {e : Direct} (h : e ∈ skipName name es) :
    e ∈ es := by
  cases es with
  | nil => cases h
  | cons e' es =>
    rw [skipName] at h
    split at h
    · exact List.mem_cons_of_mem _ h
    · exact h

section Scan

variable {σ : Type} {todo : List UInt8 → ℕ → EntryType → σ → Bool × σ}
  {scan : List UInt8 → ℕ → σ → RstDir → Option (σ × RstDir)} {f : List UInt8 → ℕ → σ → σ}

/-- The loop over the entries, given what `scan` does for a longer path. -/
theorem scanLoop_eq (hfiled : Filed file inotab maxino dirs) (hclear : Clear file inotab dirs)
    (hitp : inotablookup inotab ino = some itp) (hes : dirs ino = some es)
    {locname : List UInt8} (hscan : ∀ name, 0 < name.length →
      locname.length + name.length ≤ maxpathlen → ∀ ino s d, Idle file inotab dirs d →
        ∃ d', scan (locname ++ name) ino s d = some (f (locname ++ name) ino s, d') ∧
          Left file inotab dirs ino d d')
    {dp : Option Direct} (hcur : Cursor file itp es l dp d) (hl : l <:+ realEntries es) {fuel : ℕ}
    (hfuel : l.length < fuel) (s : σ) :
    ∃ d', scanLoop file maxino scan itp.tSeekpt locname fuel dp (rstTelldir d) s d =
        some (l.foldl (fun s e =>
          if locname.length + e.dNamlen ≤ maxpathlen then f (locname ++ e.dName) e.dIno s else s) s,
        d') ∧ At file itp.tSeekpt (stop itp - itp.tSeekpt) d' := by
  obtain ⟨b, hb, hfile⟩ := hfiled.node ino es hes
  obtain rfl := Option.some.inj (hitp.symm.trans hb)
  have hentries := hfiled.entries ino es hes
  induction l generalizing fuel dp s d with
  | nil =>
    obtain ⟨rfl, hend⟩ := hcur
    obtain ⟨fuel, rfl⟩ : ∃ n, fuel = n + 1 := ⟨fuel - 1, by omega⟩
    exact ⟨d, rfl, hend⟩
  | cons e rest ih =>
    obtain ⟨fuel, rfl⟩ : ∃ n, fuel = n + 1 := ⟨fuel - 1, by omega⟩
    rw [List.length_cons] at hfuel
    have hrest := (List.suffix_cons e rest).trans hl
    have hidle := hcur.idle hitp hes
    have hnext := hcur.next hfile hentries
    obtain ⟨rfl, pre, q, hpre, hlays, hat⟩ := hcur
    have hmem : e ∈ es := hpre ▸ List.mem_append_right _ List.mem_cons_self
    rw [scanLoop, List.foldl_cons]
    by_cases hlong : locname.length + e.dNamlen ≤ maxpathlen
    · rw [if_neg (by omega), if_pos hlong]
      obtain ⟨d', hd', hleft⟩ := hscan e.dName (hentries e hmem).1.dName_pos hlong e.dIno s d hidle
      have hback := hleft.seek_back hclear hitp hes ⟨pre, rest, hpre, hl, hlays⟩ hat
      have hafter := cursor_rstReaddir (l := rest) hfile hentries
        (by rw [hpre, List.append_assoc]; rfl) hlays hback
      rw [hd', hat.telldir]
      exact ih hafter hrest (by omega) _
    · rw [if_pos (by omega), if_neg hlong]
      exact ih hnext hrest (by omega) s

variable (todo) in
/-- **`treescan` walks as `visit` does**, and leaves the reader where it was or at the end of the
directory. -/
theorem treescan_eq (hfiled : Filed file inotab maxino dirs) (hclear : Clear file inotab dirs)
    {fuel : ℕ} {pname : List UInt8} (hlen : pname.length ≤ maxpathlen)
    (hfuel : maxpathlen < pname.length + fuel) (ino : ℕ) (s : σ) {d : RstDir}
    (hd : Idle file inotab dirs d) :
    ∃ d', treescan file inotab maxino todo fuel pname ino s d =
        some (visit dirs todo fuel pname ino s, d') ∧ Left file inotab dirs ino d d' := by
  induction fuel generalizing pname ino s d with
  | zero => omega
  | succ fuel ih =>
    rw [treescan, visit]
    cases hes : dirs ino with
    | none =>
      rw [hfiled.leaf ino hes]
      exact ⟨d, rfl, .inl rfl⟩
    | some es =>
      obtain ⟨itp, hitp, -⟩ := hfiled.node ino es hes
      rw [hitp]
      dsimp only
      by_cases hdescend : (todo pname ino .node s).1 = true
      · rw [if_pos hdescend, if_pos hdescend]
        obtain ⟨hfile, hfirst⟩ := hd.first hfiled hitp hes
        have hentries := hfiled.entries ino es hes
        have hreal := (hfirst.skipEntry hfile hentries [46]).skipEntry hfile hentries [46, 46]
        have hshort := (length_skipName_le [46, 46] _).trans (length_skipName_le [46] es)
        have hbelow : ∀ name, 0 < name.length →
            (slashed pname).length + name.length ≤ maxpathlen → ∀ ino s d, Idle file inotab dirs d →
            ∃ d', treescan file inotab maxino todo fuel (slashed pname ++ name) ino s d =
              some (visit dirs todo fuel (slashed pname ++ name) ino s, d') ∧
              Left file inotab dirs ino d d' := by
          intro name hname hroom ino s d hidle
          have hslashed : slashed pname = pname ++ [47] := by
            rw [slashed, List.take_of_length_le]
            rw [slashed, List.length_take] at hroom
            simp only [List.length_append, List.length_singleton] at hroom ⊢
            omega
          have hlong : (slashed pname ++ name).length = pname.length + 1 + name.length := by
            rw [hslashed, List.length_append, List.length_append, List.length_singleton]
          refine ih ?_ ?_ ino s hidle
          · rwa [List.length_append]
          · omega
        obtain ⟨d', hscan, hend⟩ := scanLoop_eq hfiled hclear hitp hes hbelow hreal List.suffix_rfl
          (hshort.trans_lt (Nat.lt_succ_of_lt hfile.length_lt)) (todo pname ino .node s).2
        exact ⟨d', hscan, .inr ⟨itp, es, hitp, hes, hend⟩⟩
      · rw [if_neg hdescend, if_neg hdescend]
        exact ⟨d, rfl, .inl rfl⟩

end Scan

/-- The loop of `searchdir` finds the first entry with the name. -/
theorem searchLoop_eq (hfiled : Filed file inotab maxino dirs)
    (hitp : inotablookup inotab ino = some itp) (hes : dirs ino = some es) (name : List UInt8)
    {pre : List Direct} {q : ℕ} (hpre : es = pre ++ l)
    (hlays : Lays ((ofList file).shift itp.tSeekpt) rstDirblksiz 0 pre q)
    {d₁ : RstDir} (hd : Positioned file itp.tSeekpt q d₁)
    (hread : rstReaddir file maxino d = rstReaddir file maxino d₁) {fuel : ℕ}
    (hfuel : l.length < fuel) :
    ∃ d', searchLoop file maxino name fuel d = some (l.find? (·.dName = name), d') ∧
      Idle file inotab dirs d' := by
  obtain ⟨b, hb, hfile⟩ := hfiled.node ino es hes
  obtain rfl := Option.some.inj (hitp.symm.trans hb)
  have hentries := hfiled.entries ino es hes
  induction l generalizing fuel pre q d d₁ with
  | nil =>
    obtain ⟨fuel, rfl⟩ : ∃ n, fuel = n + 1 := ⟨fuel - 1, by omega⟩
    have hcur := cursor_rstReaddir hfile hentries hpre hlays hd
    have hidle := hcur.idle hitp hes
    rw [searchLoop, hread]
    revert hcur hidle
    cases rstReaddir file maxino d₁ with
    | mk dp d' =>
      rintro hcur hidle
      obtain rfl : dp = none := hcur.1
      exact ⟨d', rfl, hidle⟩
  | cons e rest ih =>
    obtain ⟨fuel, rfl⟩ : ∃ n, fuel = n + 1 := ⟨fuel - 1, by omega⟩
    have hcur := cursor_rstReaddir hfile hentries hpre hlays hd
    have hidle := hcur.idle hitp hes
    rw [searchLoop, hread, List.find?_cons]
    revert hcur hidle
    cases rstReaddir file maxino d₁ with
    | mk dp d' =>
      rintro ⟨hdp, pre', q', hpre', hlays', hat⟩ hidle
      obtain rfl : dp = some e := hdp
      by_cases hname : e.dName = name
      · simp only [hname, if_true, decide_true]
        exact ⟨d', rfl, hidle⟩
      · simp only [hname, if_false, decide_false]
        exact ih (by rw [hpre', List.append_assoc]; rfl) hlays' hat.positioned rfl
          (Nat.lt_of_succ_lt_succ hfuel)

theorem searchdir_eq (hfiled : Filed file inotab maxino dirs) (inum : ℕ) (name : List UInt8)
    (hd : Idle file inotab dirs d) :
    ∃ d', searchdir file inotab maxino inum name d =
        some ((dirs inum).bind (·.find? (·.dName = name)), d') ∧ Idle file inotab dirs d' := by
  rw [searchdir]
  cases hes : dirs inum with
  | none =>
    rw [hfiled.leaf inum hes]
    exact ⟨d, rfl, hd⟩
  | some es =>
    obtain ⟨itp, hitp, hfile⟩ := hfiled.node inum es hes
    obtain ⟨d₁, hpos, hread⟩ := hd.seek_base hfiled hitp hes
    rw [hitp]
    exact searchLoop_eq hfiled hitp hes name (List.nil_append es).symm rfl hpos hread
      (Nat.lt_succ_of_lt hfile.length_lt)

theorem pathLoop_eq (hfiled : Filed file inotab maxino dirs) (names : List (List UInt8)) (ino : ℕ)
    (dp : Option Direct) (hd : Idle file inotab dirs d) :
    ∃ d', pathLoop file inotab maxino ino dp names d = some (resolve dirs ino dp names, d') ∧
      Idle file inotab dirs d' := by
  induction names generalizing ino dp d with
  | nil => exact ⟨d, rfl, hd⟩
  | cons name names ih =>
    obtain ⟨d', hsearch, hd'⟩ := searchdir_eq hfiled ino name hd
    rw [pathLoop, hsearch, resolve]
    cases (dirs ino).bind (·.find? (·.dName = name)) with
    | none => exact ⟨d', rfl, hd'⟩
    | some dp' => exact ih dp'.dIno (some dp') hd'

end Walk

/-! ## Searches and walks in any order -/

section Uses

variable (file : List UInt8) (inotab : ℕ → List Inotab) (maxino : ℕ) (dirs : Dirs) {σ : Type}
  (todo : List UInt8 → ℕ → EntryType → σ → Bool × σ)

/-- What restore does with the stored directories. The names have room for a null character. -/
inductive Use
  | pathsearch (pathname : List UInt8) (h : pathname.length < maxpathlen)
  | treescan (pname : List UInt8) (h : pname.length < maxpathlen) (ino : ℕ)

/-- A search, with its result, or a walk. -/
def Use.exec (p : σ × RstDir) : Use → Option (Option Direct × (σ × RstDir))
  | .pathsearch pathname _ =>
    (TreeScan.pathsearch file inotab maxino pathname p.2).map fun q => (q.1, (p.1, q.2))
  | .treescan pname _ ino =>
    (TreeScan.treescan file inotab maxino todo (maxpathlen + 1) pname ino p.1 p.2).map
      fun q => (none, q)

/-- Searches and walks one after the other, with their results. -/
def runUses : σ × RstDir → List Use → Option (List (Option Direct) × (σ × RstDir))
  | p, [] => some ([], p)
  | p, use :: uses =>
    (use.exec file inotab maxino todo p).bind fun q =>
      (runUses q.2 uses).map fun r => (q.1 :: r.1, r.2)

/-- What a search or a walk is for. -/
def Use.meaning (s : σ) : Use → Option Direct × σ
  | .pathsearch pathname _ => (resolve dirs rootino none (names pathname), s)
  | .treescan pname _ ino => (none, visit dirs todo (maxpathlen + 1) pname ino s)

/-- What searches and walks one after the other are for. -/
def meanings : σ → List Use → List (Option Direct) × σ
  | s, [] => ([], s)
  | s, use :: uses =>
    let r := meanings (use.meaning dirs todo s).2 uses
    ((use.meaning dirs todo s).1 :: r.1, r.2)

variable {file inotab maxino dirs todo}

theorem Use.exec_eq (hfiled : Filed file inotab maxino dirs) (hclear : Clear file inotab dirs)
    (use : Use) (s : σ) {d : RstDir} (hd : Idle file inotab dirs d) :
    ∃ d', use.exec file inotab maxino todo (s, d) = some ((use.meaning dirs todo s).1,
        ((use.meaning dirs todo s).2, d')) ∧ Idle file inotab dirs d' := by
  cases use with
  | pathsearch pathname h =>
    obtain ⟨d', hpath, hd'⟩ := pathLoop_eq hfiled (names pathname) rootino none hd
    exact ⟨d', by simp only [exec, TreeScan.pathsearch, if_pos h, hpath, Option.map_some, meaning],
      hd'⟩
  | treescan pname h ino =>
    have hfuel := Nat.lt_add_left pname.length (Nat.lt_succ_self maxpathlen)
    obtain ⟨d', hscan, hd'⟩ := treescan_eq todo hfiled hclear h.le hfuel ino s hd
    exact ⟨d', by simp only [exec, hscan, Option.map_some, meaning], hd'.idle hd⟩

variable (todo) in
/-- Searches and walks, one after the other, are as `resolve` and `visit` say. -/
theorem runUses_eq (hfiled : Filed file inotab maxino dirs) (hclear : Clear file inotab dirs)
    (uses : List Use) (s : σ) {d : RstDir} (hd : Idle file inotab dirs d) :
    ∃ d', runUses file inotab maxino todo (s, d) uses =
        some ((meanings dirs todo s uses).1, ((meanings dirs todo s uses).2, d')) ∧
      Idle file inotab dirs d' := by
  induction uses generalizing s d with
  | nil => exact ⟨d, rfl, hd⟩
  | cons use uses ih =>
    obtain ⟨d', hexec, hd'⟩ := use.exec_eq hfiled hclear s hd
    obtain ⟨d'', hrun, hd''⟩ := ih (use.meaning dirs todo s).2 hd'
    refine ⟨d'', ?_, hd''⟩
    rw [runUses, hexec, Option.bind_some, hrun, Option.map_some, meanings]

end Uses

end TreeScan

end DumpRestore
