import DumpRestore.Restore.DirFile

/-!
# Reading restore's directory file

All directories are read through one descriptor and one buffer of `DIRBLKSIZ` bytes. `rst_seekdir`
positions the reader relative to the start of a directory, and `rst_readdir` returns the next entry.
`Positioned` is the state of a reader that stands before an entry of a directory, and
`rstReaddir_of_positioned` the step that reads it.
-/

namespace DumpRestore

open ByteOrder Mem

/-! ## The reader -/

/-- `struct rstdirdesc`, with the offset of the descriptor in the file. -/
structure RstDir where
  ddFd : ℕ
  ddLoc : ℕ
  ddSize : ℤ
  ddBuf : Mem

section Reader

variable (file : List UInt8)

/-- `dirp->dd_size = read(dirp->dd_fd, dirp->dd_buf, DIRBLKSIZ)`. -/
def RstDir.fill (d : RstDir) : RstDir :=
  let n := min rstDirblksiz (file.length - d.ddFd)
  { d with
    ddFd := d.ddFd + n
    ddSize := n
    ddBuf := d.ddBuf.write 0 ((ofList file).read d.ddFd n) }

/-- The read at the start of a block. -/
def RstDir.refill (d : RstDir) : RstDir := if d.ddLoc = 0 then d.fill file else d

/-- `rst_telldir`. -/
def rstTelldir (d : RstDir) : ℤ := d.ddFd - d.ddSize + d.ddLoc

/-- `rst_seekdir`. A seek to a negative offset fails and leaves the descriptor where it is. -/
def rstSeekdir (loc base : ℤ) (d : RstDir) : RstDir :=
  if loc = rstTelldir d then d
  else
    let loc := loc - base
    let pos := base + (loc - loc % rstDirblksiz)
    let d := { d with
      ddFd := if 0 ≤ pos then pos.toNat else d.ddFd
      ddLoc := (loc % rstDirblksiz).toNat }
    if d.ddLoc ≠ 0 then d.fill file else d

/-- A bound on the turns that the loop of `rst_readdir` has left. -/
def RstDir.measure (d : RstDir) : ℕ :=
  2000 * (file.length - d.ddFd) + (if d.ddLoc = 0 then 0 else 1 + (1500 - d.ddLoc))

theorem RstDir.measure_reset {d : RstDir} (h : d.ddLoc ≠ 0) :
    RstDir.measure file { d with ddLoc := 0 } < d.measure file := by
  simp only [measure, if_true, if_neg h]
  omega

theorem RstDir.measure_skip {d : RstDir} {r : ℕ} (hsize : ¬ (d.refill file).ddSize ≤ d.ddLoc)
    (hr : r ≠ 0) (hle : ¬ r > rstDirblksiz + 1 - d.ddLoc) :
    RstDir.measure file { d.refill file with ddLoc := d.ddLoc + r } < d.measure file := by
  rw [rstDirblksiz] at hle
  by_cases hloc : d.ddLoc = 0
  · simp only [refill, hloc, if_true, fill, rstDirblksiz] at hsize
    simp only [measure, refill, hloc, if_true, fill, rstDirblksiz, Nat.zero_add, if_neg hr]
    omega
  · simp only [measure, refill, if_neg hloc, Nat.add_eq_zero_iff, hr, and_false, if_false]
    omega

/-- `dp->d_ino == 0 && strcmp(dp->d_name, "/") == 0`. -/
def isNulldir (m : Mem) (a : ℕ) : Bool :=
  dIno m a = 0 && m (a + 8) = 47 && m (a + 9) = 0

/-- `rst_readdir`. -/
def rstReaddir (maxino : ℕ) (d : RstDir) : Option Direct × RstDir :=
  if d.ddLoc = 0 ∧ (d.refill file).ddSize ≤ 0 then (none, d.refill file)
  else if (d.refill file).ddSize ≤ d.ddLoc then rstReaddir maxino { d with ddLoc := 0 }
  else
    let buf := (d.refill file).ddBuf
    let reclen := dReclen buf d.ddLoc
    if reclen = 0 ∨ reclen > rstDirblksiz + 1 - d.ddLoc then (none, d.refill file)
    else
      let d' := { d.refill file with ddLoc := d.ddLoc + reclen }
      if isNulldir buf d.ddLoc then (none, d')
      else if dIno buf d.ddLoc ≥ maxino then rstReaddir maxino d'
      else (some (directAt buf d.ddLoc), d')
termination_by d.measure file
decreasing_by
  · rename_i hempty hsize
    refine RstDir.measure_reset file fun hloc => hempty ⟨hloc, ?_⟩
    rw [hloc] at hsize
    exact_mod_cast hsize
  · rename_i hsize hreclen _ _
    exact RstDir.measure_skip file hsize (fun h => hreclen (.inl h)) fun h => hreclen (.inr h)

end Reader

/-! ## A reader inside a directory -/

/-- The buffer has the block at offset `blk` of the directory that starts at `base`: `n` bytes. -/
structure Loaded (file : List UInt8) (base blk n : ℕ) (d : RstDir) : Prop where
  blk_mod : blk % rstDirblksiz = 0
  count : n = min rstDirblksiz (file.length - (base + blk))
  ddSize : d.ddSize = n
  ddFd : d.ddFd = base + blk + n
  ddBuf : Agree d.ddBuf ((ofList file).shift (base + blk)) 0 n

/-- The reader of a directory that starts at `base` stands at offset `q` of it: at the start of a
block that is not read yet, or in the block that is in the buffer. -/
def Positioned (file : List UInt8) (base q : ℕ) (d : RstDir) : Prop :=
  d.ddLoc = 0 ∧ d.ddFd = base + q ∧ q % rstDirblksiz = 0 ∨
    ∃ blk n, Loaded file base blk n d ∧ q = blk + d.ddLoc ∧ 0 < d.ddLoc ∧ d.ddLoc ≤ rstDirblksiz

/-- The reader has read up to offset `q` of the directory that starts at `base`. -/
def At (file : List UInt8) (base q : ℕ) (d : RstDir) : Prop :=
  ∃ blk n, Loaded file base blk n d ∧ q = blk + d.ddLoc ∧ 0 < d.ddLoc ∧ d.ddLoc ≤ rstDirblksiz

section Positioned

variable {file : List UInt8} {base q maxino : ℕ} {d : RstDir}

/-- Reading the block at the descriptor. -/
theorem loaded_fill {blk : ℕ} (hfd : d.ddFd = base + blk) (hblk : blk % rstDirblksiz = 0) :
    Loaded file base blk (min rstDirblksiz (file.length - (base + blk))) (d.fill file) where
  blk_mod := hblk
  count := rfl
  ddSize := by rw [← hfd]; rfl
  ddFd := by rw [← hfd]; rfl
  ddBuf := by
    intro i _ hi
    have hread := read_write d.ddBuf 0
      ((ofList file).read d.ddFd (min rstDirblksiz (file.length - d.ddFd)))
    rw [length_read] at hread
    have := congrArg (fun l => l[i]?) hread
    rw [← hfd] at hi ⊢
    simpa [Mem.read, hi, RstDir.fill, Mem.shift] using this

theorem At.telldir (h : At file base q d) : rstTelldir d = base + q := by
  obtain ⟨blk, n, hload, rfl, -, -⟩ := h
  rw [rstTelldir, hload.ddFd, hload.ddSize]
  push_cast
  omega

/-- A seek to an offset of a directory, unless `rst_telldir` returns it by chance. -/
theorem positioned_rstSeekdir
    (h : rstTelldir d = ((base + q : ℕ) : ℤ) → Positioned file base q d) :
    Positioned file base q (rstSeekdir file ((base + q : ℕ) : ℤ) base d) := by
  rw [rstSeekdir]
  split
  case isTrue heq => exact h heq.symm
  case isFalse =>
    have hloc : ((base + q : ℕ) : ℤ) - base = (q : ℕ) := by
      push_cast
      omega
    have hmod : ((q : ℤ) % (rstDirblksiz : ℕ)).toNat = q % rstDirblksiz := by
      rw [← Int.natCast_mod, Int.toNat_natCast]
    have hblk : (base : ℤ) + ((q : ℤ) - (q : ℤ) % (rstDirblksiz : ℕ)) =
        ((base + (q - q % rstDirblksiz) : ℕ) : ℤ) := by
      have hle := Nat.mod_le q rstDirblksiz
      push_cast [Nat.cast_sub hle]
      rfl
    simp only [hloc, hmod, hblk, Int.natCast_nonneg, if_true, Int.toNat_natCast]
    have hle := Nat.mod_le q rstDirblksiz
    have hlt : q % rstDirblksiz < rstDirblksiz := Nat.mod_lt _ (by decide)
    split
    case isTrue hne =>
      have hload := @loaded_fill file base
        { d with ddFd := base + (q - q % rstDirblksiz), ddLoc := q % rstDirblksiz }
        (q - q % rstDirblksiz) rfl (Nat.sub_mod_eq_zero_of_mod_eq (Nat.mod_mod q rstDirblksiz).symm)
      refine .inr ⟨_, _, hload, ?_, Nat.pos_of_ne_zero hne, hlt.le⟩
      exact (Nat.sub_add_cancel hle).symm
    case isFalse hzero =>
      have hzero : q % rstDirblksiz = 0 := not_not.mp hzero
      exact .inl ⟨hzero, by rw [hzero, Nat.sub_zero], hzero⟩

/-- When the block is used up, the loop goes round once more. -/
theorem rstReaddir_reset (hloc : d.ddLoc ≠ 0) (hsize : d.ddSize ≤ d.ddLoc) :
    rstReaddir file maxino d = rstReaddir file maxino { d with ddLoc := 0 } := by
  have hkeep : d.refill file = d := if_neg hloc
  conv_lhs => rw [rstReaddir]
  rw [hkeep, if_neg fun h => hloc h.1, if_pos hsize]

/-- Before an entry the reader loads its block, unless it has it. -/
theorem Positioned.load (h : Positioned file base q d) (hq : base + q < file.length) :
    ∃ d₁ blk n, rstReaddir file maxino d = rstReaddir file maxino d₁ ∧
      Loaded file base blk n (d₁.refill file) ∧ q = blk + d₁.ddLoc ∧ d₁.ddLoc < n := by
  have hread : ∀ d₁ : RstDir, d₁.ddLoc = 0 → d₁.ddFd = base + q → q % rstDirblksiz = 0 →
      ∃ blk n, Loaded file base blk n (d₁.refill file) ∧ q = blk + d₁.ddLoc ∧ d₁.ddLoc < n := by
    intro d₁ hloc hfd hmod
    refine ⟨q, min rstDirblksiz (file.length - (base + q)), ?_, by rw [hloc]; rfl, ?_⟩
    · rw [RstDir.refill, if_pos hloc]
      exact loaded_fill hfd hmod
    · rw [hloc, rstDirblksiz]
      omega
  rcases h with ⟨hloc, hfd, hmod⟩ | ⟨blk, n, hload, hqblk, hpos, hle⟩
  · obtain ⟨blk, n, hblk⟩ := hread d hloc hfd hmod
    exact ⟨d, blk, n, rfl, hblk⟩
  · have hkeep : d.refill file = d := if_neg hpos.ne'
    have hcount := hload.count
    have hmod := hload.blk_mod
    rcases hle.lt_or_eq with hlt | hend
    · refine ⟨d, blk, n, rfl, by rwa [hkeep], hqblk, ?_⟩
      omega
    · have hsize : d.ddSize ≤ d.ddLoc := by
        rw [hload.ddSize]
        omega
      have hreset := @rstReaddir_reset file maxino d hpos.ne' hsize
      obtain ⟨blk', n', hblk⟩ := hread { d with ddLoc := 0 } rfl
        (by
          show d.ddFd = base + q
          rw [hload.ddFd]
          omega)
        (by rw [hqblk, hend, Nat.add_mod, hmod]; rfl)
      exact ⟨_, blk', n', hreset, hblk⟩

theorem At.positioned (h : At file base q d) : Positioned file base q d := .inr h

/-- The loop reaches the entry before which the reader stands. -/
theorem Positioned.exists_entry_at (h : Positioned file base q d) {e : Direct} {r : ℕ}
    (hentry : EntryAt ((ofList file).shift base) q e r) (hr : 0 < r)
    (hblock : q % rstDirblksiz + r ≤ rstDirblksiz) (hcover : e.dNamlen + 9 ≤ r)
    (hlen : base + q + e.dNamlen + 9 ≤ file.length) :
    ∃ m a d', EntryAt m a e r ∧ At file base (q + r) d' ∧
      rstReaddir file maxino d =
        if isNulldir m a then (none, d')
        else if dIno m a ≥ maxino then rstReaddir file maxino d'
        else (some (directAt m a), d') := by
  obtain ⟨d₁, blk, n, hsame, hload, hqblk, hloc⟩ := h.load (by omega)
  have hmod := hload.blk_mod
  have hcount := hload.count
  have hin : q % rstDirblksiz = d₁.ddLoc := by
    rw [hqblk, Nat.add_mod, hmod, Nat.zero_add, Nat.mod_mod, Nat.mod_eq_of_lt]
    omega
  have hbuf : EntryAt (d₁.refill file).ddBuf d₁.ddLoc e r := by
    have hshift : EntryAt ((ofList file).shift (base + blk)) d₁.ddLoc e r := by
      rw [EntryAt, read_shift] at hentry ⊢
      rwa [Nat.add_assoc, ← hqblk]
    exact hshift.congr (b := n) (by omega) (hload.ddBuf.mono (Nat.zero_le _) le_rfl)
  have hreclen : dReclen (d₁.refill file).ddBuf d₁.ddLoc = r :=
    hbuf.dReclen_eq (by rw [rstDirblksiz] at hblock; omega)
  refine ⟨_, _, { d₁.refill file with ddLoc := d₁.ddLoc + r }, hbuf, ⟨blk, n, ?_, ?_, ?_, ?_⟩, ?_⟩
  · exact ⟨hmod, hcount, hload.ddSize, hload.ddFd, hload.ddBuf⟩
  · rw [hqblk, Nat.add_assoc]
  · exact Nat.add_pos_right _ hr
  · show d₁.ddLoc + r ≤ rstDirblksiz
    omega
  · have hfull : ¬ (d₁.refill file).ddSize ≤ d₁.ddLoc := by
      rw [hload.ddSize]
      omega
    have hgood : ¬ (r = 0 ∨ r > rstDirblksiz + 1 - d₁.ddLoc) := by omega
    rw [hsame, rstReaddir, if_neg (fun h => hfull (by rw [h.1]; exact h.2)), if_neg hfull]
    simp only [hreclen, if_neg hgood]

/-- Reading an entry, and where the reader is then. -/
theorem Positioned.rstReaddir_at (h : Positioned file base q d) {e : Direct} {r : ℕ}
    (hentry : EntryAt ((ofList file).shift base) q e r) (hfits : Fits rstDirblksiz q e r)
    (hlen : base + q + r ≤ file.length) (he : e.Valid) (hino : e.dIno ≠ 0)
    (hmax : e.dIno < maxino) :
    ∃ d', DumpRestore.rstReaddir file maxino d = (some e, d') ∧ At file base (q + r) d' := by
  have hpos := hfits.pos
  obtain ⟨m, a, d', hm, hd', hread⟩ := h.exists_entry_at hentry (by omega)
    hfits.block hpos (by omega)
  have hnot : isNulldir m a = false := by
    rw [isNulldir, hm.dIno_eq he]
    simp [hino]
  have hlt : ¬ dIno m a ≥ maxino := by
    rw [hm.dIno_eq he]
    omega
  refine ⟨d', ?_, hd'⟩
  rw [hread, hnot, if_neg hlt, hm.directAt_eq he]
  rfl

/-- **Reading an entry.** -/
theorem Positioned.rstReaddir (h : Positioned file base q d) {e : Direct} {r : ℕ}
    (hentry : EntryAt ((ofList file).shift base) q e r) (hfits : Fits rstDirblksiz q e r)
    (hlen : base + q + r ≤ file.length) (he : e.Valid) (hino : e.dIno ≠ 0)
    (hmax : e.dIno < maxino) :
    ∃ d', DumpRestore.rstReaddir file maxino d = (some e, d') ∧
      Positioned file base (q + r) d' := by
  obtain ⟨d', hread, hd'⟩ := h.rstReaddir_at hentry hfits hlen he hino hmax
  exact ⟨d', hread, hd'.positioned⟩

/-- Reading the end of a directory, and where the reader is then. -/
theorem Positioned.rstReaddir_nulldir_at (h : Positioned file base q d) (maxino : ℕ) {r : ℕ}
    (hentry : EntryAt ((ofList file).shift base) q nulldir r) (hr : 10 ≤ r)
    (hblock : q % rstDirblksiz + r ≤ rstDirblksiz) (hlen : base + q + 10 ≤ file.length) :
    ∃ d', DumpRestore.rstReaddir file maxino d = (none, d') ∧ At file base (q + r) d' := by
  obtain ⟨m, a, d', hm, hd', hread⟩ := h.exists_entry_at hentry (by omega) hblock hr
    hlen
  have hnull : isNulldir m a = true := by
    obtain ⟨hname, hnul⟩ := hm.name
    have hslash : m (a + 8) = 47 := (List.cons.inj hname).1
    have hend : m (a + 9) = 0 := hnul
    rw [isNulldir, hm.dIno_eq nulldir_valid, hslash, hend]
    rfl
  exact ⟨d', by rw [hread, hnull]; rfl, hd'⟩

/-- **Reading the end of a directory.** -/
theorem Positioned.rstReaddir_nulldir (h : Positioned file base q d) (maxino : ℕ) {r : ℕ}
    (hentry : EntryAt ((ofList file).shift base) q nulldir r) (hr : 10 ≤ r)
    (hblock : q % rstDirblksiz + r ≤ rstDirblksiz) (hlen : base + q + 10 ≤ file.length) :
    ∃ d', DumpRestore.rstReaddir file maxino d = (none, d') ∧ Positioned file base (q + r) d' := by
  obtain ⟨d', hread, hd'⟩ := h.rstReaddir_nulldir_at maxino hentry hr hblock hlen
  exact ⟨d', hread, hd'.positioned⟩

end Positioned

/-! ## A whole directory -/

/-- The results of `n` calls of `rst_readdir`. -/
def rstReaddirs (file : List UInt8) (maxino : ℕ) : (n : ℕ) → RstDir → List (Option Direct)
  | 0, _ => []
  | n + 1, d =>
    (rstReaddir file maxino d).1 :: rstReaddirs file maxino n (rstReaddir file maxino d).2

/-- The directory that starts at `base` of the file has the entries `es`. -/
def HasDir (file : List UInt8) (base : ℕ) (es : List Direct) : Prop :=
  base ≤ file.length ∧ Stored ((ofList file).shift base) es (file.length - base)

theorem hasDir_append {df stored later : List UInt8} {es : List Direct}
    (h : Stored (ofList stored) es stored.length) :
    HasDir (df ++ stored ++ later) df.length es := by
  obtain ⟨p, r, hlays, hentry, hr, hblock, hn⟩ := h
  have hagree : Agree (ofList (stored ++ later)) (ofList stored) 0 stored.length :=
    ofList_append_left _ _
  have hp := hlays.le
  refine ⟨by simp, p, r, ?_, ?_, hr, hblock, ?_⟩
  · rw [List.append_assoc, shift_ofList_append]
    exact hlays.congr (hagree.mono le_rfl (by omega))
  · rw [List.append_assoc, shift_ofList_append]
    exact hentry.congr (b := stored.length) hn (hagree.mono (Nat.zero_le _) le_rfl)
  · simp only [List.length_append]
    omega

/-- The entries that a reader inside a directory returns, and the end. -/
theorem Positioned.rstReaddirs {file : List UInt8} {base q p r maxino : ℕ} {es : List Direct}
    {d : RstDir} (h : Positioned file base q d)
    (hlays : Lays ((ofList file).shift base) rstDirblksiz q es p)
    (hentry : EntryAt ((ofList file).shift base) p nulldir r) (hr : 10 ≤ r)
    (hblock : p % rstDirblksiz + r ≤ rstDirblksiz) (hlen : base + p + 10 ≤ file.length)
    (hes : ∀ e ∈ es, e.Valid ∧ e.dIno ≠ 0 ∧ e.dIno < maxino) :
    rstReaddirs file maxino (es.length + 1) d = es.map some ++ [none] := by
  induction es generalizing q d with
  | nil =>
    obtain rfl : q = p := hlays
    obtain ⟨d', hread, -⟩ := h.rstReaddir_nulldir maxino hentry hr hblock hlen
    simp [DumpRestore.rstReaddirs, hread]
  | cons e es ih =>
    obtain ⟨k, hfirst, hfits, hrest⟩ := hlays
    obtain ⟨he, hino, hmax⟩ := hes e List.mem_cons_self
    have := hrest.le
    obtain ⟨d', hread, hd'⟩ := h.rstReaddir hfirst hfits (by omega) he hino hmax
    have htail := ih hd' hrest fun e' he' => hes e' (List.mem_cons_of_mem _ he')
    rw [List.length_cons, DumpRestore.rstReaddirs, hread, htail, List.map_cons, List.cons_append]

end DumpRestore
