import DumpRestore.Foundations.Memory
import Mathlib.Algebra.Order.Group.Nat

/-!
# Directory entries

A directory on tape, and in restore's directory file, is a sequence of `struct direct` in blocks:
no entry crosses the end of a block, and the last entry of a block is stretched to its end.
`Lays m bs a es b` says that memory `m` has the entries `es` from address `a` to address `b` in
blocks of `bs` bytes. The bytes between the end of a name and the next entry are arbitrary.

* `Lays.append` and `Lays.split` put layouts together and cut them at the end of a block;
* `LaysLast.snoc` adds an entry, and `LaysLast.stretch` stretches the last one, which are the two
  things that the writers of directories do.
-/

namespace DumpRestore

open ByteOrder Mem

/-! ## Entries -/

/-- The members of `struct direct` that describe an entry. -/
structure Direct where
  dIno : ℕ
  dType : ℕ
  dName : List UInt8
  deriving DecidableEq

namespace Direct

/-- The values that fit the members: a name has `1` to `MAXNAMLEN` bytes and no NUL. -/
structure Valid (e : Direct) : Prop where
  dIno_lt : e.dIno < 2 ^ 32
  dType_lt : e.dType < 2 ^ 8
  dName_pos : 0 < e.dName.length
  dName_lt : e.dName.length < 2 ^ 8
  dName_ne_nul : ∀ c ∈ e.dName, c ≠ 0

/-- `d_namlen`. -/
def dNamlen (e : Direct) : ℕ := e.dName.length

/-- The bytes of an entry with `d_reclen = r`, as far as the NUL after its name. -/
def bytes (e : Direct) (r : ℕ) : List UInt8 :=
  bytesLE 4 e.dIno ++ (bytesLE 2 r ++ (bytesLE 1 e.dType ++ (bytesLE 1 e.dNamlen ++
    (e.dName ++ [0]))))

@[simp] theorem length_bytes (e : Direct) (r : ℕ) : (e.bytes r).length = e.dNamlen + 9 := by
  simp only [bytes, List.length_append, length_bytesLE, List.length_singleton, dNamlen]
  omega

end Direct

/-- `EXT2_DIR_REC_LEN`. -/
def ext2DirRecLen (n : ℕ) : ℕ := (n + 8 + 3) / 4 * 4

/-- `DIRSIZ`. -/
def dirsiz (namlen : ℕ) : ℕ := ext2DirRecLen (namlen + 1)

theorem dirsiz_ge (n : ℕ) : n + 9 ≤ dirsiz n := by
  rw [dirsiz, ext2DirRecLen]
  omega

theorem dirsiz_le (n : ℕ) : dirsiz n ≤ n + 12 := by
  rw [dirsiz, ext2DirRecLen]
  omega

theorem dirsiz_mod (n : ℕ) : dirsiz n % 4 = 0 := by
  rw [dirsiz, ext2DirRecLen]
  omega

theorem Direct.Valid.dirsiz_le {e : Direct} (he : e.Valid) : dirsiz e.dNamlen ≤ 264 := by
  have : e.dNamlen < 256 := he.dName_lt
  rw [dirsiz, ext2DirRecLen]
  omega

/-! ## Reading the members -/

/-- `dp->d_ino` of the entry at address `a`. -/
def dIno (m : Mem) (a : ℕ) : ℕ := m.num a 4

/-- `dp->d_reclen`. -/
def dReclen (m : Mem) (a : ℕ) : ℕ := m.num (a + 4) 2

/-- `dp->d_type`. -/
def dType (m : Mem) (a : ℕ) : ℕ := m.num (a + 6) 1

/-- `dp->d_namlen`. -/
def dNamlen (m : Mem) (a : ℕ) : ℕ := m.num (a + 7) 1

/-- The first `d_namlen` bytes of `dp->d_name`. -/
def dName (m : Mem) (a : ℕ) : List UInt8 := m.read (a + 8) (dNamlen m a)

/-- `dp->d_reclen = r`. -/
def setReclen (m : Mem) (a r : ℕ) : Mem := m.write (a + 4) (bytesLE 2 r)

/-- The entry at address `a`. -/
def directAt (m : Mem) (a : ℕ) : Direct := ⟨dIno m a, dType m a, dName m a⟩

/-- Memory has the entry `e`, of record length `r`, at address `a`. -/
def EntryAt (m : Mem) (a : ℕ) (e : Direct) (r : ℕ) : Prop :=
  m.read a (e.dNamlen + 9) = e.bytes r

theorem EntryAt.congr {m m' : Mem} {a r : ℕ} {e : Direct} (h : EntryAt m a e r) {b : ℕ}
    (hb : a + e.dNamlen + 9 ≤ b) (hm : Agree m' m a b) : EntryAt m' a e r :=
  (hm.read le_rfl (by omega)).trans h

theorem entryAt_write (m : Mem) (a : ℕ) (e : Direct) (r : ℕ) :
    EntryAt (m.write a (e.bytes r)) a e r := by
  have h := read_write m a (e.bytes r)
  rwa [Direct.length_bytes] at h

section Entry

variable {m : Mem} {a r : ℕ} {e : Direct}

/-- The parts of the memory that holds an entry. -/
theorem entryAt_iff :
    EntryAt m a e r ↔ m.read a 4 = bytesLE 4 e.dIno ∧ m.read (a + 4) 2 = bytesLE 2 r ∧
      m.read (a + 6) 1 = bytesLE 1 e.dType ∧ m.read (a + 7) 1 = bytesLE 1 e.dNamlen ∧
      m.read (a + 8) (e.dNamlen + 1) = e.dName ++ [0] := by
  have hsplit : m.read a (e.dNamlen + 9) = m.read a 4 ++ (m.read (a + 4) 2 ++
      (m.read (a + 6) 1 ++ (m.read (a + 7) 1 ++ m.read (a + 8) (e.dNamlen + 1)))) := by
    rw [show e.dNamlen + 9 = 4 + (2 + (1 + (1 + (e.dNamlen + 1)))) by omega, read_add _ _ 4,
      read_add _ _ 2, read_add _ _ 1, read_add _ _ 1]
  rw [EntryAt, hsplit, Direct.bytes]
  constructor
  · intro h
    obtain ⟨hino, h⟩ := List.append_inj h (by simp)
    obtain ⟨hreclen, h⟩ := List.append_inj h (by simp)
    obtain ⟨htype, h⟩ := List.append_inj h (by simp)
    obtain ⟨hnamlen, hname⟩ := List.append_inj h (by simp)
    exact ⟨hino, hreclen, htype, hnamlen, hname⟩
  · rintro ⟨hino, hreclen, htype, hnamlen, hname⟩
    rw [hino, hreclen, htype, hnamlen, hname]

theorem EntryAt.name (h : EntryAt m a e r) :
    m.read (a + 8) e.dNamlen = e.dName ∧ m (a + 8 + e.dNamlen) = 0 := by
  have hname := (entryAt_iff.mp h).2.2.2.2
  rw [read_add] at hname
  obtain ⟨hname, hnul⟩ := List.append_inj hname (by simp [Direct.dNamlen])
  exact ⟨hname, by simpa [Mem.read] using hnul⟩

/-- Changing the record length of an entry. -/
theorem EntryAt.setReclen (h : EntryAt m a e r) (r' : ℕ) : EntryAt (setReclen m a r') a e r' := by
  obtain ⟨hino, -, htype, hnamlen, hname⟩ := entryAt_iff.mp h
  have hbelow := agree_write_below m (bytesLE 2 r') a (a + 4) le_rfl
  have habove :=
    agree_write_above m (n := a + 4) (bytesLE 2 r') (a + 6) (a + e.dNamlen + 9) (by simp)
  refine entryAt_iff.mpr ⟨?_, ?_, ?_, ?_, ?_⟩
  · rw [← hino, DumpRestore.setReclen, hbelow.read le_rfl le_rfl]
  · have hwrite := read_write m (a + 4) (bytesLE 2 r')
    rwa [length_bytesLE] at hwrite
  · rw [← htype, DumpRestore.setReclen, habove.read (by omega) (by omega)]
  · rw [← hnamlen, DumpRestore.setReclen, habove.read (by omega) (by omega)]
  · rw [← hname, DumpRestore.setReclen, habove.read (by omega) (by omega)]

theorem EntryAt.dIno_eq (h : EntryAt m a e r) (he : e.Valid) : dIno m a = e.dIno := by
  rw [dIno, num, (entryAt_iff.mp h).1, ofBytesLE_bytesLE]
  exact Nat.mod_eq_of_lt he.dIno_lt

theorem EntryAt.dReclen_eq (h : EntryAt m a e r) (hr : r < 2 ^ 16) : dReclen m a = r := by
  rw [dReclen, num, (entryAt_iff.mp h).2.1, ofBytesLE_bytesLE]
  exact Nat.mod_eq_of_lt hr

theorem EntryAt.dNamlen_eq (h : EntryAt m a e r) (he : e.Valid) : dNamlen m a = e.dNamlen := by
  rw [dNamlen, num, (entryAt_iff.mp h).2.2.2.1, ofBytesLE_bytesLE]
  exact Nat.mod_eq_of_lt he.dName_lt

theorem EntryAt.directAt_eq (h : EntryAt m a e r) (he : e.Valid) : directAt m a = e := by
  have htype : dType m a = e.dType := by
    rw [dType, num, (entryAt_iff.mp h).2.2.1, ofBytesLE_bytesLE]
    exact Nat.mod_eq_of_lt he.dType_lt
  rw [directAt, h.dIno_eq he, htype, dName, h.dNamlen_eq he, h.name.1]

end Entry

theorem EntryAt.copy {m : Mem} {a r : ℕ} {e : Direct} (h : EntryAt m a e r) (m' : Mem) (b : ℕ)
    {k : ℕ} (hk : e.dNamlen + 9 ≤ k) : EntryAt (m'.write b (m.read a k)) b e r := by
  obtain ⟨j, rfl⟩ := Nat.exists_eq_add_of_le hk
  have hwrite := read_write m' b (m.read a (e.dNamlen + 9 + j))
  rw [length_read, read_add _ b] at hwrite
  rw [read_add m a] at hwrite ⊢
  exact (List.append_inj hwrite (by simp)).1.trans h

/-! ## Layouts -/

/-- An entry of a layout: its record length covers the entry, is a multiple of four, and does not
go beyond the end of the block. -/
structure Fits (bs a : ℕ) (e : Direct) (r : ℕ) : Prop where
  covers : dirsiz e.dNamlen ≤ r
  aligned : r % 4 = 0
  block : a % bs + r ≤ bs

/-- Memory has the entries `es` from address `a` to address `b`, in blocks of `bs` bytes. -/
def Lays (m : Mem) (bs : ℕ) : (a : ℕ) → List Direct → (b : ℕ) → Prop
  | a, [], b => a = b
  | a, e :: es, b => ∃ r, EntryAt m a e r ∧ Fits bs a e r ∧ Lays m bs (a + r) es b

/-- A layout whose last entry is at address `prev`. -/
def LaysLast (m : Mem) (bs a : ℕ) (es : List Direct) (prev b : ℕ) : Prop :=
  ∃ init last, es = init ++ [last] ∧ Lays m bs a init prev ∧ Lays m bs prev [last] b

section Layout

variable {m m' : Mem} {bs a b c prev : ℕ} {es es' : List Direct} {e : Direct}

theorem Fits.pos {r : ℕ} (h : Fits bs a e r) : e.dNamlen + 9 ≤ r :=
  (dirsiz_ge _).trans h.covers

theorem Lays.le (h : Lays m bs a es b) : a ≤ b := by
  induction es generalizing a with
  | nil => exact le_of_eq h
  | cons e es ih =>
    obtain ⟨r, _, _, hrest⟩ := h
    have := ih hrest
    omega

theorem Lays.congr (h : Lays m bs a es b) (hm : Agree m' m a b) : Lays m' bs a es b := by
  induction es generalizing a with
  | nil => exact h
  | cons e es ih =>
    obtain ⟨r, hentry, hfits, hrest⟩ := h
    have hle := hrest.le
    have hpos := hfits.pos
    exact ⟨r, hentry.congr (by omega) hm, hfits, ih hrest (hm.mono (by omega) le_rfl)⟩

theorem Lays.append (h : Lays m bs a es b) (h' : Lays m bs b es' c) :
    Lays m bs a (es ++ es') c := by
  induction es generalizing a with
  | nil =>
    obtain rfl : a = b := h
    exact h'
  | cons e es ih =>
    obtain ⟨r, hentry, hfits, hrest⟩ := h
    exact ⟨r, hentry, hfits, ih hrest⟩

theorem LaysLast.lays (h : LaysLast m bs a es prev b) : Lays m bs a es b := by
  obtain ⟨init, last, rfl, hinit, hlast⟩ := h
  exact hinit.append hlast

/-- A layout is cut at the end of a block. -/
theorem Lays.split (h : Lays m bs a es b) (hc : c % bs = 0) (hac : a ≤ c)
    (hcb : c ≤ b) :
    ∃ es₁ es₂, es = es₁ ++ es₂ ∧ Lays m bs a es₁ c ∧ Lays m bs c es₂ b := by
  induction es generalizing a with
  | nil =>
    obtain rfl : a = b := h
    obtain rfl : a = c := le_antisymm hac hcb
    exact ⟨[], [], rfl, rfl, rfl⟩
  | cons e es ih =>
    rcases hac.eq_or_lt with rfl | hlt
    · exact ⟨[], e :: es, rfl, rfl, h⟩
    · obtain ⟨r, hentry, hfits, hrest⟩ := h
      -- The entry ends in the block that it starts in, hence not after `c`.
      have hle : a + r ≤ c := by
        have hdiv := Nat.div_add_mod a bs
        have hcdiv := Nat.div_add_mod c bs
        have hblock := hfits.block
        have hnext : a / bs + 1 ≤ c / bs :=
          Nat.div_lt_div_of_lt_of_dvd (Nat.dvd_of_mod_eq_zero hc) hlt
        have := Nat.mul_le_mul_left bs hnext
        rw [Nat.mul_add] at this
        omega
      obtain ⟨es₁, es₂, rfl, h₁, h₂⟩ := ih hrest hle
      exact ⟨e :: es₁, es₂, rfl, ⟨r, hentry, hfits, h₁⟩, h₂⟩

/-- A layout seen from the start of a block. -/
theorem lays_shift_iff (hc : c % bs = 0) :
    Lays (m.shift c) bs a es b ↔ Lays m bs (c + a) es (c + b) := by
  induction es generalizing a with
  | nil => exact (Nat.add_left_cancel_iff).symm
  | cons e es ih =>
    have hmod : (c + a) % bs = a % bs := by rw [Nat.add_mod, hc, Nat.zero_add, Nat.mod_mod]
    refine exists_congr fun r => and_congr ?_ (and_congr ?_ ?_)
    · rw [EntryAt, EntryAt, read_shift]
    · exact ⟨fun h => ⟨h.covers, h.aligned, by rw [hmod]; exact h.block⟩,
        fun h => ⟨h.covers, h.aligned, by rw [← hmod]; exact h.block⟩⟩
    · rw [ih, Nat.add_assoc]

/-- The end of a layout is aligned like its start. -/
theorem Lays.mod_four (h : Lays m bs a es b) : b % 4 = a % 4 := by
  induction es generalizing a with
  | nil =>
    obtain rfl : a = b := h
    rfl
  | cons e es ih =>
    obtain ⟨r, _, hfits, hrest⟩ := h
    have := ih hrest
    have := hfits.aligned
    omega

/-- Adding an entry after a layout. -/
theorem Lays.snoc (h : Lays m bs a es b) (he : b % bs + dirsiz e.dNamlen ≤ bs) {w : List UInt8}
    (hw : EntryAt (m.write b w) b e (dirsiz e.dNamlen)) :
    LaysLast (m.write b w) bs a (es ++ [e]) b (b + dirsiz e.dNamlen) := by
  refine ⟨es, e, rfl, h.congr (agree_write_below _ _ _ _ le_rfl), ?_⟩
  exact ⟨_, hw, ⟨le_rfl, dirsiz_mod _, he⟩, rfl⟩

theorem LaysLast.prev_le (h : LaysLast m bs a es prev b) : a ≤ prev ∧ prev + 9 ≤ b := by
  obtain ⟨init, last, -, hinit, r, -, hfits, hr⟩ := h
  have := hfits.pos
  obtain rfl : prev + r = b := hr
  exact ⟨hinit.le, by omega⟩

/-- Stretching the last entry of a layout. -/
theorem LaysLast.stretch (h : LaysLast m bs a es prev b) (pad : ℕ) (hpad : pad % 4 = 0)
    (hblock : prev % bs + (b - prev) + pad ≤ bs) :
    LaysLast (setReclen m prev (b - prev + pad)) bs a es prev (b + pad) := by
  obtain ⟨init, last, rfl, hinit, r, hentry, hfits, hr⟩ := h
  obtain rfl : prev + r = b := hr
  rw [Nat.add_sub_cancel_left] at hblock ⊢
  refine ⟨init, last, rfl, hinit.congr (agree_write_below _ _ _ _ (by omega)),
    r + pad, hentry.setReclen _, ⟨?_, ?_, ?_⟩, (Nat.add_assoc ..).symm⟩
  · exact hfits.covers.trans (Nat.le_add_right ..)
  · have := hfits.aligned
    omega
  · omega

/-- The record length of the last entry. -/
theorem LaysLast.dReclen_eq (h : LaysLast m bs a es prev b) (hbs : bs < 2 ^ 16) :
    dReclen m prev = b - prev := by
  obtain ⟨init, last, -, -, r, hentry, hfits, hr⟩ := h
  obtain rfl : prev + r = b := hr
  have := hfits.block
  rw [hentry.dReclen_eq (by omega), Nat.add_sub_cancel_left]

theorem Lays.length_le (h : Lays m bs a es b) : a + es.length ≤ b := by
  induction es generalizing a with
  | nil => exact (show a = b from h).le
  | cons e es ih =>
    obtain ⟨r, -, hfits, hrest⟩ := h
    have hpos := hfits.pos
    have hle := ih hrest
    rw [List.length_cons]
    omega

/-- A layout of some entries and more. -/
theorem Lays.of_append {es' : List Direct} {c : ℕ} (h : Lays m bs a (es ++ es') c) :
    ∃ b, Lays m bs a es b ∧ Lays m bs b es' c := by
  induction es generalizing a with
  | nil => exact ⟨a, rfl, h⟩
  | cons e es ih =>
    obtain ⟨r, hentry, hfits, hrest⟩ := h
    obtain ⟨b, hes, hes'⟩ := ih hrest
    exact ⟨b, ⟨r, hentry, hfits, hes⟩, hes'⟩

/-- Where the entries end depends on the memory only. -/
theorem Lays.unique (hbs : bs < 2 ^ 16) {b' : ℕ} (h : Lays m bs a es b) (h' : Lays m bs a es b') :
    b = b' := by
  induction es generalizing a with
  | nil => exact (show a = b from h).symm.trans h'
  | cons e es ih =>
    obtain ⟨r, hentry, hfits, hrest⟩ := h
    obtain ⟨r', hentry', hfits', hrest'⟩ := h'
    have hblock := hfits.block
    have hblock' := hfits'.block
    obtain rfl : r = r' :=
      (hentry.dReclen_eq (by omega)).symm.trans (hentry'.dReclen_eq (by omega))
    exact ih hrest hrest'

end Layout

end DumpRestore
