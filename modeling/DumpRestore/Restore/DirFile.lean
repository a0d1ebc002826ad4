import DumpRestore.Protocol.Direct
import DumpRestore.Restore.GetFile

/-!
# Restore's directory file

`extractdirs` of `restore/dirs.c` copies the directories on tape to a temporary file, one after the
other. `putdir` takes the entries from the data that `getfile` delivers, `putent` lays them out
again in blocks of `DIRBLKSIZ` bytes, and `flushent` ends a directory, whose last block is written
only as far as it is used. So a directory starts at any multiple of four in the file.

`stored_storeDir` says what the file has for a directory.
-/

namespace DumpRestore

open ByteOrder Mem

/-- `DIRBLKSIZ` as `restore/dirs.c` defines it. -/
def rstDirblksiz : ℕ := 1024

/-! ## Storing directories -/

/-- The file `df` and the variables `seekpt`, `dirbuf`, `dirloc` and `prev`. -/
structure DirFile where
  df : List UInt8
  seekpt : ℕ
  dirbuf : Mem
  dirloc : ℕ
  prev : ℕ

/-- `((struct direct *)(dirbuf + prev))->d_reclen = DIRBLKSIZ - prev`. -/
def DirFile.stretch (s : DirFile) : DirFile :=
  { s with dirbuf := setReclen s.dirbuf s.prev (rstDirblksiz - s.prev) }

/-- `fwrite(dirbuf, n, 1, df)` and `dirloc = 0`. -/
def DirFile.emit (s : DirFile) (n : ℕ) : DirFile :=
  { s with df := s.df ++ s.dirbuf.read 0 n, dirloc := 0 }

@[simp] theorem DirFile.dirloc_emit (s : DirFile) (n : ℕ) : (s.emit n).dirloc = 0 := rfl

/-- Copy an entry of record length `reclen` to `dirbuf`. -/
def DirFile.add (s : DirFile) (m : Mem) (a reclen : ℕ) : DirFile :=
  { s with
    dirbuf := s.dirbuf.write s.dirloc (m.read a reclen)
    prev := s.dirloc
    dirloc := s.dirloc + reclen }

/-- `putent` on the entry at address `a`. -/
def putent (m : Mem) (a : ℕ) (s : DirFile) : DirFile :=
  let reclen := dirsiz (dNamlen m a)
  let s := if s.dirloc + reclen > rstDirblksiz then s.stretch.emit rstDirblksiz else s
  s.add (setReclen m a reclen) a reclen

/-- `flushent`. -/
def flushent (s : DirFile) : DirFile :=
  let s := s.stretch.emit s.dirloc
  { s with seekpt := s.df.length }

/-- The loop of `putdir` from `loc` on. Each turn advances `loc`, so that there are at most `size`
of them. -/
def putdirFrom (buf : Mem) (size : ℕ) : (fuel loc : ℕ) → DirFile → DirFile
  | 0, _, s => s
  | fuel + 1, loc, s =>
    if loc < size then
      let i := rstDirblksiz - loc % rstDirblksiz
      if dReclen buf loc % 4 ≠ 0 ∨ dReclen buf loc > i ∨
          dReclen buf loc < dirsiz (dNamlen buf loc) then
        putdirFrom buf size fuel (loc + i) s
      else
        let s' := if dIno buf loc ≠ 0 then putent buf loc s else s
        putdirFrom buf size fuel (loc + dReclen buf loc) s'
    else s

/-- `putdir`. -/
def putdir (buf : Mem) (size : ℕ) (s : DirFile) : DirFile := putdirFrom buf size size 0 s

/-- A call that `getfile(putdir, xtrnull)` makes. -/
def putCall (s : DirFile) (c : Call) : DirFile :=
  match c with
  | .fill buf size => putdir (ofList (buf.flatMap Block.bytes)) size.toNat s
  | .skip _ | .ftruncate _ => s

/-- The entry that ends a directory. -/
def nulldir : Direct := ⟨0, 4, [47]⟩

/-- `struct inotab`. -/
structure Inotab where
  tIno : ℕ
  tSeekpt : ℕ
  tSize : ℕ

/-- What `extractdirs` does for the directory `ino`, given the calls that `getfile` makes for it
and the contents of the memory in which `nulldir` is built. -/
def storeDir (junk : Mem) (ino : ℕ) (calls : List Call) (s : DirFile) : Inotab × DirFile :=
  let seekpt := s.seekpt
  let s := calls.foldl putCall s
  let s := flushent (putent (junk.write 0 (nulldir.bytes (dirsiz nulldir.dNamlen))) 0 s)
  (⟨ino, seekpt, s.seekpt - seekpt⟩, s)

/-! ## The law of the writers -/

theorem nulldir_valid : nulldir.Valid where
  dIno_lt := by decide
  dType_lt := by decide
  dName_pos := by decide
  dName_lt := by decide
  dName_ne_nul := by simp [nulldir]

/-- A directory that starts at the end of the file `df` and has the entries `es` so far: whole
blocks are in the file, the last block is in `dirbuf`. -/
def Storing (df : List UInt8) (s : DirFile) (es : List Direct) : Prop :=
  ∃ stored done cur, s.df = df ++ stored ∧ es = done ++ cur ∧ stored.length % rstDirblksiz = 0 ∧
    Lays (ofList stored) rstDirblksiz 0 done stored.length ∧
    (s.dirloc = 0 ∧ es = [] ∨
      LaysLast s.dirbuf rstDirblksiz 0 cur s.prev s.dirloc ∧ s.dirloc ≤ rstDirblksiz)

section Storing

variable {df : List UInt8} {s : DirFile} {es : List Direct} {e : Direct} {m : Mem} {a r : ℕ}

/-- A directory before its first entry. -/
theorem storing_nil (h : s.dirloc = 0) : Storing s.df s [] :=
  ⟨[], [], [], by simp, rfl, rfl, rfl, .inl ⟨h, rfl⟩⟩

/-- Writing out a block whose last entry is stretched. -/
theorem LaysLast.emit {stored : List UInt8} {done cur : List Direct}
    (hdf : s.df = df ++ stored) (hmod : stored.length % rstDirblksiz = 0)
    (hdone : Lays (ofList stored) rstDirblksiz 0 done stored.length)
    (hcur : LaysLast s.dirbuf rstDirblksiz 0 cur s.prev rstDirblksiz) :
    ∃ stored', (s.emit rstDirblksiz).df = df ++ stored' ∧ stored'.length % rstDirblksiz = 0 ∧
      Lays (ofList stored') rstDirblksiz 0 (done ++ cur) stored'.length := by
  refine ⟨stored ++ s.dirbuf.read 0 rstDirblksiz, ?_, ?_, ?_⟩
  · rw [DirFile.emit, hdf, List.append_assoc]
  · rw [List.length_append, length_read, Nat.add_mod, hmod]
    rfl
  · rw [List.length_append, length_read]
    refine (hdone.congr (ofList_append_left _ _)).append ?_
    have hshift : Lays (ofList (stored ++ s.dirbuf.read 0 rstDirblksiz)) rstDirblksiz
        (stored.length + 0) cur (stored.length + rstDirblksiz) := by
      refine (lays_shift_iff hmod).mp ?_
      rw [shift_ofList_append]
      exact hcur.lays.congr (agree_ofList_read _ _)
    exact hshift

/-- One call of `putent`. -/
theorem Storing.putent (h : Storing df s es) (he : e.Valid) (hm : EntryAt m a e r) :
    Storing df (putent m a s) (es ++ [e]) := by
  have hsiz := he.dirsiz_le
  have hlen : dNamlen m a = e.dNamlen := hm.dNamlen_eq he
  have hcopy : ∀ b (m' : Mem),
      EntryAt (m'.write b ((setReclen m a (dirsiz e.dNamlen)).read a (dirsiz e.dNamlen))) b e
        (dirsiz e.dNamlen) :=
    fun b m' => (hm.setReclen _).copy m' b (dirsiz_ge _)
  obtain ⟨stored, done, cur, hdf, rfl, hmod, hdone, hcur⟩ := h
  simp only [DumpRestore.putent, hlen]
  split
  case isTrue hfull =>
    obtain ⟨hcur, hle⟩ := hcur.resolve_left fun h => by
      rw [h.1, rstDirblksiz] at hfull
      omega
    have hfour := hcur.lays.mod_four
    obtain ⟨-, hprev⟩ := hcur.prev_le
    have hstretch : LaysLast s.stretch.dirbuf rstDirblksiz 0 cur s.prev rstDirblksiz := by
      have := hcur.stretch (rstDirblksiz - s.dirloc) (by rw [rstDirblksiz]; omega)
        (by rw [rstDirblksiz] at *; omega)
      rwa [show s.dirloc - s.prev + (rstDirblksiz - s.dirloc) = rstDirblksiz - s.prev by omega,
        Nat.add_sub_of_le hle] at this
    obtain ⟨stored', hdf', hmod', hdone'⟩ := LaysLast.emit (s := s.stretch) hdf hmod hdone hstretch
    refine ⟨stored', done ++ cur, [e], hdf', rfl, hmod', hdone', .inr ⟨?_, ?_⟩⟩
    · have hnone : Lays s.stretch.dirbuf rstDirblksiz 0 [] 0 := rfl
      exact hnone.snoc (by rw [rstDirblksiz]; omega) (hcopy _ _)
    · show 0 + dirsiz e.dNamlen ≤ 1024
      omega
  case isFalse hroom =>
    have hlays : Lays s.dirbuf rstDirblksiz 0 cur s.dirloc := by
      rcases hcur with ⟨hloc, hnil⟩ | ⟨hcur, -⟩
      · rw [List.append_eq_nil_iff] at hnil
        rw [hnil.2, hloc]
        rfl
      · exact hcur.lays
    refine ⟨stored, done, cur ++ [e], hdf, List.append_assoc .., hmod, hdone, .inr ⟨?_, ?_⟩⟩
    · exact hlays.snoc (by rw [rstDirblksiz] at *; omega) (hcopy _ _)
    · exact Nat.not_lt.mp hroom

/-- The entries that `putdir` takes from a layout. -/
theorem Storing.putdirFrom {buf : Mem} {size fuel loc : ℕ} {more : List Direct}
    (h : Storing df s es) (hlays : Lays buf 512 loc more size) (hfuel : size ≤ loc + fuel)
    (hmore : ∀ e ∈ more, e.Valid ∧ e.dIno ≠ 0) :
    Storing df (putdirFrom buf size fuel loc s) (es ++ more) := by
  induction more generalizing fuel loc s es with
  | nil =>
    obtain rfl : loc = size := hlays
    cases fuel <;> simpa [DumpRestore.putdirFrom] using h
  | cons e more ih =>
    obtain ⟨r, hentry, hfits, hrest⟩ := hlays
    obtain ⟨he, hino⟩ := hmore e List.mem_cons_self
    have hpos := hfits.pos
    have hle := hrest.le
    have hblock := hfits.block
    obtain ⟨fuel, rfl⟩ : ∃ n, fuel = n + 1 := ⟨fuel - 1, by omega⟩
    have hgood : ¬ (r % 4 ≠ 0 ∨ r > rstDirblksiz - loc % rstDirblksiz ∨ r < dirsiz e.dNamlen) := by
      have := hfits.aligned
      have := hfits.covers
      rw [rstDirblksiz]
      omega
    simp only [DumpRestore.putdirFrom, if_pos (show loc < size by omega),
      hentry.dReclen_eq (show r < 2 ^ 16 by omega), hentry.dNamlen_eq he, if_neg hgood,
      hentry.dIno_eq he, if_pos hino]
    have hfuel' : size ≤ loc + r + fuel := by omega
    have := ih (h.putent he hentry) hrest hfuel' fun e' he' =>
      hmore e' (List.mem_cons_of_mem _ he')
    rwa [List.append_assoc] at this

end Storing

/-! ## Data in pieces -/

/-- A call of `fill` with whole blocks of 512 bytes from its buffer. -/
def WholeBlocks (c : Call) : Prop :=
  ∃ (buf : List Block) (size : ℕ), c = .fill buf size ∧ size % 512 = 0 ∧
    size ≤ buf.length * tpBsize

/-- `putdir` is called for each piece that `getfile` delivers. -/
theorem Storing.putCalls {df : List UInt8} {s : DirFile} {es more : List Direct}
    {calls : List Call} (h : Storing df s es) (hcalls : ∀ c ∈ calls, WholeBlocks c)
    (hlays : Lays (ofList (delivered calls)) 512 0 more (delivered calls).length)
    (hmore : ∀ e ∈ more, e.Valid ∧ e.dIno ≠ 0) :
    Storing df (calls.foldl putCall s) (es ++ more) := by
  induction calls generalizing s es more with
  | nil =>
    cases more with
    | nil => simpa using h
    | cons e more =>
      obtain ⟨r, -, hfits, hrest⟩ := hlays
      have := hrest.le
      have := hfits.pos
      simp only [delivered_nil, List.length_nil] at *
      omega
  | cons c calls ih =>
    obtain ⟨buf, size, rfl, hmod, hsize⟩ := hcalls c List.mem_cons_self
    have hbytes : (buf.flatMap Block.bytes).length = buf.length * tpBsize :=
      Sparse.length_flatMap_bytes Block.length_bytes buf
    have hcons : delivered (.fill buf size :: calls) =
        (buf.flatMap Block.bytes).take size ++ delivered calls := by
      simp [delivered, Call.bytes]
    have hlen : ((buf.flatMap Block.bytes).take size).length = size := by
      rw [List.length_take, hbytes, Nat.min_eq_left hsize]
    rw [hcons, List.length_append, hlen] at hlays
    obtain ⟨first, rest, rfl, hfirst, hrest⟩ :=
      hlays.split (c := size) hmod (Nat.zero_le _) (Nat.le_add_right ..)
    have hagree : Agree (ofList (buf.flatMap Block.bytes))
        (ofList ((buf.flatMap Block.bytes).take size ++ delivered calls)) 0 size := by
      have htake := ofList_append_left ((buf.flatMap Block.bytes).take size)
        ((buf.flatMap Block.bytes).drop size)
      have happend := ofList_append_left ((buf.flatMap Block.bytes).take size) (delivered calls)
      rw [List.take_append_drop, hlen] at htake
      rw [hlen] at happend
      exact htake.trans happend.symm
    have hstep : Storing df (putCall s (.fill buf size)) (es ++ first) :=
      h.putdirFrom (hfirst.congr hagree) (by simp)
        fun e he => hmore e (List.mem_append_left _ he)
    have hshift := (lays_shift_iff (a := 0) (b := (delivered calls).length) hmod).mpr hrest
    have hpiece : (ofList ((buf.flatMap Block.bytes).take size ++ delivered calls)).shift size =
        ofList (delivered calls) := by
      have := shift_ofList_append ((buf.flatMap Block.bytes).take size) (delivered calls)
      rwa [hlen] at this
    rw [hpiece] at hshift
    have := ih hstep (fun c hc => hcalls c (List.mem_cons_of_mem _ hc)) hshift
      fun e he => hmore e (List.mem_append_right _ he)
    rwa [List.append_assoc] at this

/-! ## A directory in the file -/

/-- Memory has a directory with the entries `es` and the entry that ends it, in its first `n`
bytes. -/
def Stored (m : Mem) (es : List Direct) (n : ℕ) : Prop :=
  ∃ p r, Lays m rstDirblksiz 0 es p ∧ EntryAt m p nulldir r ∧ 10 ≤ r ∧
    p % rstDirblksiz + r ≤ rstDirblksiz ∧ p + 10 ≤ n

/-- The entry that ends the directory reaches to the end of its block, and the directory has no
bytes after this block. -/
def StoredWhole (m : Mem) (es : List Direct) (n : ℕ) : Prop :=
  ∃ p, Lays m rstDirblksiz 0 es p ∧ EntryAt m p nulldir (rstDirblksiz - p % rstDirblksiz) ∧
    10 ≤ rstDirblksiz - p % rstDirblksiz ∧ p + 10 ≤ n ∧ n ≤ p + (rstDirblksiz - p % rstDirblksiz)

theorem StoredWhole.stored {m : Mem} {es : List Direct} {n : ℕ} (h : StoredWhole m es n) :
    Stored m es n := by
  obtain ⟨p, hlays, hentry, hr, hn, -⟩ := h
  exact ⟨p, _, hlays, hentry, hr, by rw [rstDirblksiz] at *; omega, hn⟩

/-- The end of a directory. -/
theorem Storing.flushent_whole {df : List UInt8} {s : DirFile} {es : List Direct}
    (h : Storing df s (es ++ [nulldir])) :
    ∃ stored, (flushent s).df = df ++ stored ∧ StoredWhole (ofList stored) es stored.length ∧
      (flushent s).seekpt = (flushent s).df.length ∧ (flushent s).dirloc = 0 := by
  obtain ⟨stored, done, cur, hdf, hes, hmod, hdone, hcur⟩ := h
  obtain ⟨⟨init, last, rfl, hinit, r, hentry, hfits, hr⟩, hle⟩ :=
    hcur.resolve_left fun h => by simp at h
  obtain ⟨rfl, hlast⟩ : es = done ++ init ∧ nulldir = last := by
    rw [← List.append_assoc] at hes
    obtain ⟨hes, hlast⟩ := List.append_inj' hes rfl
    exact ⟨hes, by simpa using hlast⟩
  obtain rfl := hlast
  have hpos := hfits.pos
  have hnull : nulldir.dNamlen = 1 := rfl
  have hprev : s.prev + r = s.dirloc := hr
  let dirbuf := setReclen s.dirbuf s.prev (rstDirblksiz - s.prev)
  let chunk := dirbuf.read 0 s.dirloc
  have hchunk : Agree (ofList chunk) dirbuf 0 s.dirloc := agree_ofList_read _ _
  have hshift : (ofList (stored ++ chunk)).shift stored.length = ofList chunk :=
    shift_ofList_append ..
  have hbelow : Agree dirbuf s.dirbuf 0 s.prev := agree_write_below _ _ _ _ (by omega)
  have hmodp : (stored.length + s.prev) % rstDirblksiz = s.prev := by
    rw [rstDirblksiz] at *
    omega
  refine ⟨stored ++ chunk, ?_, ⟨stored.length + s.prev, ?_, ?_, ?_, ?_, ?_⟩, rfl, rfl⟩
  · rw [← List.append_assoc, ← hdf]
    rfl
  · refine (hdone.congr (ofList_append_left _ _)).append ?_
    refine (lays_shift_iff (a := 0) hmod).mp ?_
    rw [hshift]
    exact hinit.congr ((hchunk.mono le_rfl (by omega)).trans hbelow)
  · rw [hmodp]
    have hset : EntryAt dirbuf s.prev nulldir (rstDirblksiz - s.prev) := hentry.setReclen _
    have := hset.congr (b := s.dirloc) (by omega) (hchunk.mono (Nat.zero_le _) le_rfl)
    rwa [← hshift, EntryAt, read_shift] at this
  · rw [hmodp, rstDirblksiz] at *
    omega
  · rw [List.length_append, length_read]
    omega
  · rw [hmodp, List.length_append, length_read, rstDirblksiz] at *
    omega

theorem Storing.flushent {df : List UInt8} {s : DirFile} {es : List Direct}
    (h : Storing df s (es ++ [nulldir])) :
    ∃ stored, (flushent s).df = df ++ stored ∧ Stored (ofList stored) es stored.length ∧
      (flushent s).seekpt = (flushent s).df.length ∧ (flushent s).dirloc = 0 := by
  obtain ⟨stored, hdf, hstored, hrest⟩ := h.flushent_whole
  exact ⟨stored, hdf, hstored.stored, hrest⟩

/-- What `extractdirs` stores for a directory whose data has the entries `es`, to the byte. -/
theorem storedWhole_storeDir {s : DirFile} {es : List Direct} {calls : List Call} {junk : Mem}
    {ino : ℕ} (hloc : s.dirloc = 0) (hseek : s.seekpt = s.df.length)
    (hcalls : ∀ c ∈ calls, WholeBlocks c)
    (hlays : Lays (ofList (delivered calls)) 512 0 es (delivered calls).length)
    (hes : ∀ e ∈ es, e.Valid ∧ e.dIno ≠ 0) :
    ∃ stored, (storeDir junk ino calls s).2.df = s.df ++ stored ∧
      StoredWhole (ofList stored) es stored.length ∧
      (storeDir junk ino calls s).1 = ⟨ino, s.df.length, stored.length⟩ ∧
      (storeDir junk ino calls s).2.seekpt = (storeDir junk ino calls s).2.df.length ∧
      (storeDir junk ino calls s).2.dirloc = 0 := by
  have hstoring := (storing_nil hloc).putCalls hcalls hlays hes
  rw [List.nil_append] at hstoring
  obtain ⟨stored, hdf, hstored, hseekpt, hdirloc⟩ :=
    (hstoring.putent nulldir_valid (entryAt_write junk 0 nulldir _)).flushent_whole
  refine ⟨stored, hdf, hstored, ?_, hseekpt, hdirloc⟩
  rw [storeDir, hseekpt, hdf, hseek]
  simp

/-- **What `extractdirs` stores for a directory** whose data has the entries `es`: the file grows
by that directory, which starts at the seek point that is entered in the table. -/
theorem stored_storeDir {s : DirFile} {es : List Direct} {calls : List Call} {junk : Mem} {ino : ℕ}
    (hloc : s.dirloc = 0) (hseek : s.seekpt = s.df.length) (hcalls : ∀ c ∈ calls, WholeBlocks c)
    (hlays : Lays (ofList (delivered calls)) 512 0 es (delivered calls).length)
    (hes : ∀ e ∈ es, e.Valid ∧ e.dIno ≠ 0) :
    ∃ stored, (storeDir junk ino calls s).2.df = s.df ++ stored ∧
      Stored (ofList stored) es stored.length ∧
      (storeDir junk ino calls s).1 = ⟨ino, s.df.length, stored.length⟩ ∧
      (storeDir junk ino calls s).2.seekpt = (storeDir junk ino calls s).2.df.length ∧
      (storeDir junk ino calls s).2.dirloc = 0 := by
  obtain ⟨stored, hdf, hstored, hrest⟩ := storedWhole_storeDir hloc hseek hcalls hlays hes
  exact ⟨stored, hdf, hstored.stored, hrest⟩

end DumpRestore
