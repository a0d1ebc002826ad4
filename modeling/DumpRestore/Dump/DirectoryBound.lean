import DumpRestore.Dump.Directory
import DumpRestore.Foundations.Bins
import Mathlib.Algebra.Order.BigOperators.Group.List

/-!
# The buffer of a converted directory

`dumpdirino` converts a directory in a buffer of twice its size. Converted entries are longer than
those of ext2 and may not cross a multiple of `DIRBLKSIZ`, so that space is lost at the ends of
blocks: an entry goes into the last output block if it fits there.

* `Ext2Dir`: the contents of a directory, with what ext2 allows.
* `fits_iff`: the conversion stays in the buffer exactly if the converted entries can be cut into as
  many output blocks as the buffer has.
* `Packing`: the least room that entries take in the filesystem when their conversion starts a
  number of output blocks. The potential of an output block is what its contents have cost beyond
  254 bytes for each block before it.
* `fits_of_le`: directories in blocks of at most 16 KiB stay in the buffer.
-/

namespace DumpRestore.ConvertDir

open Bins

/-! ## Offsets -/

/-- Where an entry of a record length ends. -/
def place (o r : ℕ) : ℕ :=
  (if (o + r - 1) / cdcBs ≠ o / cdcBs then o + (cdcBs - o % cdcBs) else o) + r

/-- The output blocks that have been started. -/
def started (o : ℕ) : ℕ := (o + 511) / 512

/-- The bytes of the last output block that are in use. -/
def fill (o : ℕ) : ℕ := (o + 511) % 512 + 1

theorem offset_convertDir {excludeIno : ℕ → Bool} {e : Ext2DirEntry}
    (h : excludeIno e.inode = false) (p : ConvertDirContext) :
    (convertDir excludeIno p e).offset = place p.offset (dirsiz e.name.length) := by
  have hreclen : ext2DirRecLen (e.name.length + 1) = dirsiz e.name.length := rfl
  rw [convertDir, if_neg (by simp [h]), place]
  simp only [hreclen, ConvertDirContext.add, ConvertDirContext.int,
    apply_ite ConvertDirContext.offset]
  rfl

/-- Entries that are converted one after the other. -/
theorem offset_foldl (excludeIno : ℕ → Bool) (dirents : List Ext2DirEntry) (p : ConvertDirContext) :
    (dirents.foldl (convertDir excludeIno) p).offset =
      ((kept excludeIno dirents).map fun e => dirsiz e.dNamlen).foldl place p.offset := by
  induction dirents generalizing p with
  | nil => rfl
  | cons e dirents ih =>
    rw [List.foldl_cons, ih]
    by_cases hex : excludeIno e.inode = true
    · rw [convertDir, if_pos hex]
      simp [kept, hex]
    · rw [offset_convertDir (by simpa using hex)]
      simp [kept, hex, Ext2DirEntry.direct, Direct.dNamlen]

/-- An entry goes into the last output block, or starts a block because it does not fit. -/
theorem place_cases {o r : ℕ} (ho : o % 4 = 0) (hr : r % 4 = 0) (hpos : 0 < r) (hle : r ≤ 512) :
    place o r % 4 = 0 ∧
    (started (place o r) = started o ∧ fill (place o r) = fill o + r ∨
      started (place o r) = started o + 1 ∧ fill (place o r) = r ∧ 516 ≤ fill o + r) := by
  rw [place, cdcBs_eq]
  unfold started fill
  split <;> omega

theorem fill_le (o : ℕ) : fill o ≤ 512 := by
  unfold fill
  omega

theorem le_started (o : ℕ) : o ≤ 512 * started o := by
  unfold started
  omega

theorem place_ge (o r : ℕ) : o + r ≤ place o r := by
  rw [place]
  split <;> omega

theorem foldl_place_ge (rs : List ℕ) (o : ℕ) : o ≤ rs.foldl place o := by
  induction rs generalizing o with
  | nil => exact le_rfl
  | cons r rs ih =>
    have := place_ge o r
    have := ih (place o r)
    rw [List.foldl_cons]
    omega

/-- **Entries that follow one another fill the output blocks in order.** -/
theorem started_foldl_place {rs : List ℕ} (hrs : ∀ r ∈ rs, r % 4 = 0 ∧ 0 < r ∧ r ≤ 512) {o : ℕ}
    (ho : o % 4 = 0) :
    started (rs.foldl place o) = started o + nextFit 512 (512 - fill o) rs := by
  induction rs generalizing o with
  | nil => rfl
  | cons r rs ih =>
    obtain ⟨⟨hmod, hpos, hle⟩, hrs⟩ := List.forall_mem_cons.mp hrs
    obtain ⟨hfour, ⟨hsame, hfill⟩ | ⟨hnext, hfill, hfull⟩⟩ := place_cases ho hmod hpos hle
    · have hroom := fill_le (place o r)
      rw [List.foldl_cons, ih hrs hfour, nextFit, if_pos (by omega), hsame, hfill, Nat.sub_sub]
    · rw [List.foldl_cons, ih hrs hfour, nextFit, if_neg (by omega), hnext, hfill]
      omega

/-! ## What is undefined -/

/-- The last offset that the buffer and the `int` allow. -/
def limit (p : ConvertDirContext) : ℕ := min p.size (intCount - 1)

/-- Nothing undefined has happened, and the output ends in the buffer. -/
structure Within (p : ConvertDirContext) : Prop where
  defined : p.undefined = false
  offset_le : p.offset ≤ p.size

/-- An entry that is converted. -/
theorem undefined_convertDir {excludeIno : ℕ → Bool} {e : Ext2DirEntry}
    (h : excludeIno e.inode = false) (p : ConvertDirContext) :
    (convertDir excludeIno p e).undefined = false ↔
      p.undefined = false ∧ place p.offset (dirsiz e.name.length) ≤ limit p := by
  have hreclen : ext2DirRecLen (e.name.length + 1) = dirsiz e.name.length := rfl
  have hlen : e.direct.dNamlen = e.name.length := rfl
  rw [convertDir, if_neg (by simp [h]), place, limit]
  simp only [hreclen, offset_int]
  by_cases hcross : (p.offset + dirsiz e.name.length - 1) / cdcBs ≠ p.offset / cdcBs
  · simp only [if_pos hcross, undefined_add, undefined_int, undefined_stretch, hlen, offset_int,
      size_int, pad_int, offset_stretch, size_stretch, intCount]
    rw [ConvertDirContext.pad]
    constructor
    · rintro ⟨⟨⟨⟨hp, _⟩, _⟩, hint⟩, hsize⟩
      exact ⟨hp, by omega⟩
    · rintro ⟨hp, hle⟩
      exact ⟨⟨⟨⟨hp, by omega⟩, by omega⟩, by omega⟩, by omega⟩
  · simp only [if_neg hcross, undefined_add, undefined_int, hlen, offset_int, size_int, intCount]
    constructor
    · rintro ⟨⟨⟨hp, _⟩, hint⟩, hsize⟩
      exact ⟨hp, by omega⟩
    · rintro ⟨hp, hle⟩
      exact ⟨⟨⟨hp, by omega⟩, by omega⟩, by omega⟩

theorem size_convertDir (excludeIno : ℕ → Bool) (p : ConvertDirContext) (e : Ext2DirEntry) :
    (convertDir excludeIno p e).size = p.size := by
  rw [convertDir]
  split
  · rfl
  · dsimp only
    split <;> simp

theorem size_foldl (excludeIno : ℕ → Bool) (dirents : List Ext2DirEntry) (p : ConvertDirContext) :
    (dirents.foldl (convertDir excludeIno) p).size = p.size := by
  induction dirents generalizing p with
  | nil => rfl
  | cons e dirents ih => rw [List.foldl_cons, ih, size_convertDir]

/-- All calls of `convert_dir` are defined exactly if the last offset is in bounds. -/
theorem undefined_foldl {p : ConvertDirContext} (hp : p.undefined = false)
    (hoffset : p.offset ≤ limit p) (excludeIno : ℕ → Bool) (dirents : List Ext2DirEntry) :
    (dirents.foldl (convertDir excludeIno) p).undefined = false ↔
      (dirents.foldl (convertDir excludeIno) p).offset ≤ limit p := by
  induction dirents using List.reverseRecOn with
  | nil => exact iff_of_true hp hoffset
  | append_singleton dirents e ih =>
    have hlimit : limit (dirents.foldl (convertDir excludeIno) p) = limit p := by
      rw [limit, size_foldl, limit]
    rw [List.foldl_append, List.foldl_cons, List.foldl_nil]
    cases hex : excludeIno e.inode with
    | true =>
      rw [convertDir, if_pos hex]
      exact ih
    | false =>
      rw [undefined_convertDir hex, hlimit, ih, offset_convertDir hex]
      have := place_ge (dirents.foldl (convertDir excludeIno) p).offset (dirsiz e.name.length)
      omega

section Fix

variable (excludeIno : ℕ → Bool) (diSize : ℕ) (junk : Mem) (dirents : List Ext2DirEntry)

/-- The output blocks of a directory. -/
def outputBlocks : ℕ :=
  started (dirents.foldl (convertDir excludeIno) (.start junk diSize)).offset

/-- The fix of the last entry ends the last output block. -/
theorem offset_convertDirs :
    (convertDirs excludeIno diSize junk dirents).offset =
      512 * outputBlocks excludeIno diSize junk dirents := by
  rw [convertDirs, outputBlocks]
  generalize dirents.foldl (convertDir excludeIno) (.start junk diSize) = p
  unfold started
  split
  · next h =>
    simp only [ConvertDirContext.stretch, ConvertDirContext.pad, cdcBs_eq] at h ⊢
    omega
  · next h =>
    rw [cdcBs_eq] at h
    omega

theorem size_convertDirs :
    (convertDirs excludeIno diSize junk dirents).size = cdcSize diSize := by
  have hsize := size_foldl excludeIno dirents (.start junk diSize)
  rw [convertDirs]
  split
  · exact hsize
  · exact hsize

theorem start_le_limit : (ConvertDirContext.start junk diSize).offset ≤
    limit (.start junk diSize) :=
  Nat.zero_le _

/-- The fix of the last entry decides. -/
theorem within_convertDirs :
    Within (convertDirs excludeIno diSize junk dirents) ↔
      512 * outputBlocks excludeIno diSize junk dirents ≤ limit (.start junk diSize) := by
  have hundefined := undefined_foldl (p := .start junk diSize) rfl (start_le_limit diSize junk)
    excludeIno dirents
  have hblocks := offset_convertDirs excludeIno diSize junk dirents
  have hle := le_started (dirents.foldl (convertDir excludeIno) (.start junk diSize)).offset
  have hsize := size_foldl excludeIno dirents (.start junk diSize)
  rw [← outputBlocks] at hle
  rw [← hblocks] at hle ⊢
  rw [convertDirs] at hle ⊢
  generalize dirents.foldl (convertDir excludeIno) (.start junk diSize) = p at *
  constructor
  · rintro ⟨hdefined, hend⟩
    split at hdefined
    case isTrue hpart =>
      obtain ⟨-, hint⟩ := undefined_stretch.mp hdefined
      rw [if_pos hpart] at hend ⊢
      simp only [ConvertDirContext.stretch, ConvertDirContext.int, limit, ← hsize] at hend ⊢
      omega
    case isFalse hwhole =>
      rw [if_neg hwhole]
      exact hundefined.mp hdefined
  · intro h
    have hdefined := hundefined.mpr (hle.trans h)
    split
    case isTrue hpart =>
      rw [if_pos hpart] at h
      simp only [ConvertDirContext.stretch, limit, ← hsize] at h
      refine ⟨undefined_stretch.mpr ⟨hdefined, ?_⟩, h.trans (min_le_left ..)⟩
      unfold intCount at *
      omega
    case isFalse hwhole =>
      rw [if_neg hwhole] at h
      exact ⟨hdefined, (h.trans (min_le_left ..)).trans_eq hsize.symm⟩

/-- Then it was in bounds after every entry. -/
theorem within_foldl (h : 512 * outputBlocks excludeIno diSize junk dirents ≤
    limit (.start junk diSize)) (n : ℕ) :
    Within ((dirents.take n).foldl (convertDir excludeIno) (.start junk diSize)) := by
  have hle : ((dirents.take n).foldl (convertDir excludeIno) (.start junk diSize)).offset ≤
      limit (.start junk diSize) := by
    refine le_trans ?_ ((le_started _).trans h)
    conv_rhs => rw [← List.take_append_drop n dirents, List.foldl_append, offset_foldl]
    exact foldl_place_ge _ _
  refine ⟨(undefined_foldl rfl (start_le_limit diSize junk) excludeIno _).mpr hle, ?_⟩
  rw [size_foldl]
  exact hle.trans (min_le_left ..)

end Fix

/-! ## What a number of output blocks costs -/

/-- Four times what the contents of an output block have cost. An entry is at least three quarters
of its converted form; one of two long entries that share no block is cheaper. -/
def potential (p : ℕ) : ℤ := min (3 * p - 1016) (max (2 * p - 764) (3 * p - 1028))

/-- Entries of `cost` bytes in ext2 that start `starts` output blocks and fill the last one up to
`p`. -/
structure Packing (starts cost p : ℕ) : Prop where
  paid : 1 ≤ starts → 1016 * (starts : ℤ) + potential p ≤ 4 * cost
  bound : 2 ≤ starts → 1016 * starts ≤ 4 * cost + 496

/-- One more entry of `e` bytes in ext2, and of `r` bytes when it is converted. -/
theorem Packing.step {starts cost p starts' p' r e : ℕ} (h : Packing starts cost p)
    (hle : p ≤ 512) (hr : 12 ≤ r ∧ r ≤ 264) (he : 12 ≤ e ∧ r ≤ e + 4)
    (hstep : starts' = starts ∧ p' = p + r ∨ starts' = starts + 1 ∧ p' = r ∧ 516 ≤ p + r) :
    Packing starts' (cost + e) p' := by
  obtain ⟨hcost, hbound⟩ := h
  unfold potential at hcost
  rcases hstep with ⟨rfl, rfl⟩ | ⟨rfl, rfl, hfull⟩
  · refine ⟨fun h1 => ?_, fun h2 => ?_⟩
    · have hcost := hcost h1
      unfold potential
      push_cast
      omega
    · have := hbound h2
      omega
  · refine ⟨fun _ => ?_, fun h2 => ?_⟩
    · unfold potential
      by_cases h0 : starts = 0
      · subst h0
        push_cast
        omega
      · have hcost := hcost (by omega)
        push_cast
        omega
    · have hcost := hcost (by omega)
      omega

/-- The record lengths of a name. -/
theorem reclen_range {n : ℕ} (h : 1 ≤ n ∧ n ≤ 255) : dirsiz n % 4 = 0 ∧ (12 ≤ dirsiz n ∧
    dirsiz n ≤ 264) ∧ 12 ≤ ext2DirRecLen n ∧ dirsiz n ≤ ext2DirRecLen n + 4 := by
  unfold dirsiz ext2DirRecLen
  omega

/-- **The packing** of the entries of one block of the filesystem. -/
theorem packing_foldl {ns : List ℕ} (hns : ∀ n ∈ ns, 1 ≤ n ∧ n ≤ 255) {o : ℕ} (ho : o % 4 = 0) :
    (ns.map dirsiz).foldl place o % 4 = 0 ∧
    started o ≤ started ((ns.map dirsiz).foldl place o) ∧
    Packing (started ((ns.map dirsiz).foldl place o) - started o) (ns.map ext2DirRecLen).sum
      (fill ((ns.map dirsiz).foldl place o)) := by
  induction ns using List.reverseRecOn with
  | nil => exact ⟨ho, le_rfl, fun h => by simp at h, fun h => by simp at h⟩
  | append_singleton ns n ih =>
    obtain ⟨hfour, hle, hpack⟩ := ih fun m hm => hns m (List.mem_append_left _ hm)
    obtain ⟨hmod, hr, he⟩ := reclen_range
      (hns n (List.mem_append_right _ (List.mem_singleton_self _)))
    rw [List.map_append, List.map_append, List.foldl_append, List.sum_append]
    simp only [List.map_cons, List.map_nil, List.foldl_cons, List.foldl_nil, List.sum_cons,
      List.sum_nil, add_zero]
    obtain ⟨hfour', hcases⟩ := place_cases hfour hmod (by omega) (by omega)
    refine ⟨hfour', by omega, hpack.step (fill_le _) hr he (by omega)⟩

/-- A block of the filesystem of at most 16 KiB starts at most one output block for every 256 bytes
of it. -/
theorem started_le {ns : List ℕ} (hns : ∀ n ∈ ns, 1 ≤ n ∧ n ≤ 255) {o k : ℕ} (ho : o % 4 = 0)
    (hk : 1 ≤ k ∧ k ≤ 64) (hcost : (ns.map ext2DirRecLen).sum ≤ 256 * k) :
    started ((ns.map dirsiz).foldl place o) ≤ started o + k := by
  obtain ⟨-, hle, -, hbound⟩ := packing_foldl hns ho
  by_contra hgt
  have := hbound (by omega)
  omega

/-! ## Directories -/

section Fits

variable (excludeIno : ℕ → Bool) (diSize : ℕ) (junk : Mem) {dirents : List Ext2DirEntry}

/-- The lengths of the converted entries. -/
def reclens (dirents : List Ext2DirEntry) : List ℕ :=
  (kept excludeIno dirents).map fun e => dirsiz e.dNamlen

/-- The output blocks that are in the buffer and end before the last offset of type `int`. -/
def room : ℕ := min (cdcSize diSize / cdcBs) ((intCount - 1) / cdcBs)

theorem reclens_eq (dirents : List Ext2DirEntry) : reclens excludeIno dirents =
    ((dirents.filter fun e => !excludeIno e.inode).map fun e => e.name.length).map dirsiz := by
  rw [reclens, kept, List.map_map, List.map_map]
  rfl

theorem reclens_range (hnames : ∀ e ∈ dirents, 1 ≤ e.name.length ∧ e.name.length ≤ 255) {r : ℕ}
    (h : r ∈ reclens excludeIno dirents) : r % 4 = 0 ∧ 0 < r ∧ r ≤ 512 := by
  rw [reclens_eq, List.mem_map] at h
  obtain ⟨n, hn, rfl⟩ := h
  obtain ⟨e, he, rfl⟩ := List.mem_map.mp hn
  obtain ⟨hmod, hr, -⟩ := reclen_range (hnames e (List.mem_of_mem_filter he))
  omega

theorem outputBlocks_eq (hnames : ∀ e ∈ dirents, 1 ≤ e.name.length ∧ e.name.length ≤ 255) :
    outputBlocks excludeIno diSize junk dirents = nextFit cdcBs 0 (reclens excludeIno dirents) := by
  rw [outputBlocks, offset_foldl]
  refine (started_foldl_place (fun r hr => reclens_range excludeIno hnames hr) rfl).trans ?_
  have hstarted : started (ConvertDirContext.start junk diSize).offset = 0 := by
    change (0 + 511) / 512 = 0
    decide
  have hfill : fill (ConvertDirContext.start junk diSize).offset = 512 := by
    change (0 + 511) % 512 + 1 = 512
    decide
  rw [hstarted, hfill, Nat.zero_add]
  rfl

theorem within_iff_outputBlocks : Within (convertDirs excludeIno diSize junk dirents) ↔
    outputBlocks excludeIno diSize junk dirents ≤ room diSize := by
  rw [within_convertDirs]
  simp only [limit, room, ConvertDirContext.start, intCount, cdcBs_eq]
  omega

/-- The conversion stays in the buffer exactly if the converted entries can be cut into the output
blocks that it has room for. -/
theorem within_iff_packs (hnames : ∀ e ∈ dirents, 1 ≤ e.name.length ∧ e.name.length ≤ 255) :
    Within (convertDirs excludeIno diSize junk dirents) ↔
      Packs cdcBs (room diSize) (reclens excludeIno dirents) := by
  rw [within_iff_outputBlocks, outputBlocks_eq _ _ _ hnames]
  exact (packs_iff fun r hr => (reclens_range excludeIno hnames hr).2).symm

end Fits

/-- The contents of a directory: the entries of its blocks, which may leave any room unused, and
whose names are all different. Its size has 32 bits. -/
structure Ext2Dir (fs : Ext2Fs) where
  blocks : List (List Ext2DirEntry)
  names : ∀ b ∈ blocks, ∀ e ∈ b, 1 ≤ e.name.length ∧ e.name.length ≤ 255
  packed : ∀ b ∈ blocks, (b.map fun e => ext2DirRecLen e.name.length).sum ≤ fs.blocksize
  distinct : (blocks.flatten.map Ext2DirEntry.name).Nodup
  size_lt : fs.blocksize * blocks.length < 2 ^ 32

namespace Ext2Dir

variable {fs : Ext2Fs} (d : Ext2Dir fs) (excludeIno : ℕ → Bool) (junk : Mem)

/-- What `ext2fs_dir_iterate` passes to `convert_dir`. -/
def dirents : List Ext2DirEntry := d.blocks.flatten

/-- `di_size`. -/
def diSize : ℕ := fs.blocksize * d.blocks.length

/-- The output stays in the buffer, after every entry and after the fix of the last one, and no sum
overflows. -/
def Fits : Prop :=
  (∀ n, Within ((d.dirents.take n).foldl (convertDir excludeIno) (.start junk d.diSize))) ∧
    Within (convertDirs excludeIno d.diSize junk d.dirents)

theorem fits_iff_within : d.Fits excludeIno junk ↔
    Within (convertDirs excludeIno d.diSize junk d.dirents) :=
  ⟨And.right, fun h => ⟨within_foldl _ _ _ _ ((within_convertDirs ..).mp h), h⟩⟩

theorem names_dirents : ∀ e ∈ d.dirents, 1 ≤ e.name.length ∧ e.name.length ≤ 255 := by
  intro e he
  obtain ⟨b, hb, heb⟩ := List.mem_flatten.mp he
  exact d.names b hb e heb

end Ext2Dir

/-- **The directories that fit the buffer** are those whose converted entries can be cut into the
output blocks that it has room for. -/
theorem fits_iff {fs : Ext2Fs} (d : Ext2Dir fs) (excludeIno : ℕ → Bool) (junk : Mem) :
    d.Fits excludeIno junk ↔
      Packs cdcBs (room d.diSize) (reclens excludeIno d.dirents) := by
  rw [d.fits_iff_within]
  exact within_iff_packs excludeIno d.diSize junk d.names_dirents

/-! ## Blocks of at most 16 KiB -/

/-- All blocks of a directory. -/
theorem started_foldl_le (excludeIno : ℕ → Bool) {k : ℕ} (hk : 1 ≤ k ∧ k ≤ 64)
    {blocks : List (List Ext2DirEntry)}
    (hnames : ∀ b ∈ blocks, ∀ e ∈ b, 1 ≤ e.name.length ∧ e.name.length ≤ 255)
    (hpacked : ∀ b ∈ blocks, (b.map fun e => ext2DirRecLen e.name.length).sum ≤ 256 * k)
    (p : ConvertDirContext) (hp : p.offset % 4 = 0) :
    started (blocks.flatten.foldl (convertDir excludeIno) p).offset ≤
      started p.offset + k * blocks.length := by
  induction blocks generalizing p with
  | nil => exact le_rfl
  | cons b blocks ih =>
    obtain ⟨hb, hnames⟩ := List.forall_mem_cons.mp hnames
    obtain ⟨hsum, hpacked⟩ := List.forall_mem_cons.mp hpacked
    have hns : ∀ n ∈ (b.filter fun e => !excludeIno e.inode).map fun e => e.name.length,
        1 ≤ n ∧ n ≤ 255 := by
      intro n hn
      obtain ⟨e, he, rfl⟩ := List.mem_map.mp hn
      exact hb e (List.mem_of_mem_filter he)
    have hcost : (((b.filter fun e => !excludeIno e.inode).map fun e => e.name.length).map
        ext2DirRecLen).sum ≤ 256 * k := by
      refine le_trans ?_ hsum
      rw [List.map_map]
      exact (List.filter_sublist.map _).sum_le_sum fun _ _ => Nat.zero_le _
    have hoffset := offset_foldl excludeIno b p
    rw [← reclens, reclens_eq] at hoffset
    have hfour := (packing_foldl hns hp).1
    have hle := started_le hns hp hk hcost
    rw [← hoffset] at hfour hle
    rw [List.flatten_cons, List.foldl_append, List.length_cons]
    have := ih hnames hpacked _ hfour
    rw [Nat.mul_add_one]
    omega

/-- **Directories in small blocks fit**, if they have less than 1 GiB. -/
theorem fits_of_le {fs : Ext2Fs} (hfs : fs.blocksize ≤ 16384) (d : Ext2Dir fs)
    (hsize : d.diSize < 2 ^ 30) (excludeIno : ℕ → Bool) (junk : Mem) : d.Fits excludeIno junk := by
  have hpow : fs.blocksize = 256 * (4 * 2 ^ fs.sLogBlockSize) := by
    rw [Ext2Fs.blocksize, tpBsize]
    omega
  have hk : 1 ≤ 4 * 2 ^ fs.sLogBlockSize ∧ 4 * 2 ^ fs.sLogBlockSize ≤ 64 := by
    have := Nat.two_pow_pos fs.sLogBlockSize
    omega
  have hpacked := d.packed
  rw [hpow] at hpacked
  have hle := started_foldl_le excludeIno hk d.names hpacked (.start junk d.diSize) rfl
  have hzero : started (ConvertDirContext.start junk d.diSize).offset = 0 := by
    change (0 + 511) / 512 = 0
    decide
  rw [d.fits_iff_within, within_iff_outputBlocks, outputBlocks, room, cdcSize, intCount, cdcBs_eq,
    Ext2Dir.dirents]
  rw [hzero] at hle
  generalize started _ = n at hle ⊢
  rw [Ext2Dir.diSize, hpow, Nat.mul_assoc 256] at hsize ⊢
  omega

/-! ## Directories that do not fit -/

/-- A name of `n + 2` letters. -/
def longName (n i : ℕ) : List UInt8 :=
  List.replicate n 120 ++ [UInt8.ofNat (97 + i / 16), UInt8.ofNat (97 + i % 16)]

/-- A regular file. -/
def file (name : List UInt8) : Ext2DirEntry := ⟨12, 1, name⟩

/-- The first entries: two directories, and short names that fill half of an output block. -/
def firstEntries : List Ext2DirEntry :=
  ⟨2, 2, [46]⟩ :: ⟨2, 2, [46, 46]⟩ :: (List.range 15).map fun i => file (longName 2 i)

/-- Two entries that do not fit one output block together. -/
def pair (i : ℕ) : List Ext2DirEntry := [file (longName 250 i), file (longName 238 i)]

/-- One block with many pairs. -/
def wideEntries (j : ℕ) : List Ext2DirEntry := firstEntries ++ (List.range j).flatMap pair

theorem length_longName (n i : ℕ) : (longName n i).length = n + 2 := by
  simp [longName]

theorem longName_inj {n m i j : ℕ} (hi : i < 256) (hj : j < 256)
    (h : longName n i = longName m j) : n = m ∧ i = j := by
  have hlen := congrArg List.length h
  rw [length_longName, length_longName] at hlen
  obtain rfl : n = m := by omega
  obtain ⟨hhigh, hlow⟩ := List.cons.inj (List.append_cancel_left h)
  have hhigh := congrArg UInt8.toNat hhigh
  have hlow := congrArg UInt8.toNat (List.cons.inj hlow).1
  simp only [UInt8.toNat_ofNat'] at hhigh hlow
  exact ⟨rfl, by omega⟩

theorem nodup_wideEntries {j : ℕ} (hj : j ≤ 256) :
    ((wideEntries j).map Ext2DirEntry.name).Nodup := by
  rw [wideEntries, List.map_append, List.map_flatMap, List.nodup_append]
  refine ⟨by decide, ?_, ?_⟩
  · rw [List.nodup_flatMap]
    refine ⟨fun i hi => ?_, ?_⟩
    · simp only [pair, file, List.map_cons, List.map_nil, List.nodup_cons, List.mem_singleton]
      have hi := List.mem_range.mp hi
      refine ⟨fun h => ?_, by simp⟩
      exact absurd (longName_inj (by omega) (by omega) h).1 (by decide)
    · refine List.nodup_range.imp_of_mem fun {a b} ha hb hne => ?_
      have ha := List.mem_range.mp ha
      have hb := List.mem_range.mp hb
      simp only [Function.onFun, pair, file, List.map_cons, List.map_nil, List.disjoint_left,
        List.mem_cons, List.not_mem_nil, or_false]
      rintro name (rfl | rfl) (h | h) <;> exact hne (longName_inj (by omega) (by omega) h).2
  · intro name hname name' hname' heq
    subst heq
    have hshort : ∀ name ∈ firstEntries.map Ext2DirEntry.name, name.length ≤ 4 := by decide
    have hle := hshort name hname
    obtain ⟨i, -, hi⟩ := List.mem_flatMap.mp hname'
    simp only [pair, file, List.map_cons, List.map_nil, List.mem_cons, List.not_mem_nil,
      or_false] at hi
    rcases hi with rfl | rfl <;> rw [length_longName] at hle <;> omega

theorem wideEntries_sizes (j : ℕ) : (wideEntries j).map (fun e => e.name.length) =
    (1 :: 2 :: List.replicate 15 4) ++ (List.range j).flatMap fun _ => [252, 240] := by
  rw [wideEntries, List.map_append, List.map_flatMap]
  simp only [pair, file, List.map_cons, List.map_nil, length_longName]
  rfl

theorem forall_wideEntries {j : ℕ} :
    ∀ e ∈ wideEntries j, 1 ≤ e.name.length ∧ e.name.length ≤ 255 := by
  intro e he
  have hmem := List.mem_map_of_mem (f := fun e : Ext2DirEntry => e.name.length) he
  rw [wideEntries_sizes, List.mem_append, List.mem_flatMap] at hmem
  rcases hmem with hmem | ⟨i, -, hmem⟩
  · exact (by decide : ∀ n ∈ 1 :: 2 :: List.replicate 15 4, 1 ≤ n ∧ n ≤ 255) _ hmem
  · exact (by decide : ∀ n ∈ [252, 240], 1 ≤ n ∧ n ≤ 255) _ hmem

theorem sum_pairs (j : ℕ) :
    (((List.range j).flatMap fun _ => [252, 240]).map ext2DirRecLen).sum = 508 * j := by
  induction j with
  | zero => rfl
  | succ j ih =>
    rw [List.range_succ, List.flatMap_append, List.map_append, List.sum_append, ih, Nat.mul_succ]
    rfl

theorem sum_wideEntries (j : ℕ) :
    ((wideEntries j).map fun e => ext2DirRecLen e.name.length).sum = 204 + 508 * j := by
  have hsizes : (wideEntries j).map (fun e => ext2DirRecLen e.name.length) =
      ((wideEntries j).map fun e => e.name.length).map ext2DirRecLen := by
    rw [List.map_map]
    rfl
  rw [hsizes, wideEntries_sizes, List.map_append, List.sum_append, sum_pairs]
  rfl

theorem five_logBlockSize_le : 5 ≤ 6 := by decide

theorem sInodeSize_128_le_32768 : 128 ≤ tpBsize * 2 ^ 5 := by decide

/-- Blocks of 32 KiB. -/
def wideFs : Ext2Fs := { smallFs with
  sLogBlockSize := 5
  sLogBlockSize_le := five_logBlockSize_le
  sInodeSize_le := sInodeSize_128_le_32768 }

theorem forall_wideDir : ∀ b ∈ [wideEntries 64], ∀ e ∈ b,
    1 ≤ e.name.length ∧ e.name.length ≤ 255 := by
  intro b hb
  rw [List.mem_singleton.mp hb]
  exact forall_wideEntries

theorem packed_wideDir : ∀ b ∈ [wideEntries 64],
    (b.map fun e => ext2DirRecLen e.name.length).sum ≤ wideFs.blocksize := by
  intro b hb
  rw [List.mem_singleton.mp hb, sum_wideEntries]
  decide

theorem nodup_wideDir : ([wideEntries 64].flatten.map Ext2DirEntry.name).Nodup := by
  rw [List.flatten_singleton]
  exact nodup_wideEntries (by decide)

theorem size_wideDir_lt : wideFs.blocksize * [wideEntries 64].length < 2 ^ 32 := by decide

/-- A directory of one block with 64 pairs. -/
def wideDir : Ext2Dir wideFs where
  blocks := [wideEntries 64]
  names := forall_wideDir
  packed := packed_wideDir
  distinct := nodup_wideDir
  size_lt := size_wideDir_lt

theorem reclens_wideEntries : reclens (fun _ => false) (wideEntries 64) =
    (12 :: 12 :: List.replicate 15 16) ++ (List.range 64).flatMap fun _ => [264, 252] := by
  have hall : (wideEntries 64).filter (fun _ => !false) = wideEntries 64 :=
    List.filter_eq_self.mpr fun _ _ => rfl
  rw [reclens_eq, hall, wideEntries_sizes]
  decide

/-- The conversion has two output blocks for every pair and one for the first entries, one more
than there is room for. -/
theorem not_within_wideEntries (junk : Mem) :
    ¬Within (convertDirs (fun _ => false) 32768 junk (wideEntries 64)) := by
  rw [within_iff_outputBlocks, outputBlocks_eq _ _ _ forall_wideEntries, reclens_wideEntries]
  decide +kernel

theorem not_fits : ¬∀ (fs : Ext2Fs) (d : Ext2Dir fs) (excludeIno : ℕ → Bool) (junk : Mem),
    d.Fits excludeIno junk := by
  intro hall
  have hdirents : wideDir.dirents = wideEntries 64 := List.flatten_singleton
  have hwithin := (wideDir.fits_iff_within (fun _ => false) default).mp (hall wideFs wideDir _ _)
  rw [hdirents] at hwithin
  exact not_within_wideEntries default hwithin

end DumpRestore.ConvertDir
