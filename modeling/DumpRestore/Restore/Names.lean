import DumpRestore.Foundations.Memory
import Mathlib.Data.List.Nodup
import Mathlib.Data.List.Pairwise
import Mathlib.Data.List.TakeWhile

/-!
# The memory of names

`savename` of `restore/symtab.c` puts a name into a block of memory, and `freename` puts the block
on a list of free blocks for the next name of about the same length. Which list this is follows from
the length of the name both times, and the pointer to the next block of the list lies in the block.

The symbol table has the names of its entries there, and `ls` those that it lists: of a directory
with what cannot be printed replaced by `?`, and of a single file under the path that was asked for.

* The memory is one of bytes, and `malloc` is an argument, of which `Malloc` says what is relied on.
  What `malloc` handed out, and the names that are in use, are not in the program. A run stops at
  an access outside of `strtblhdr`, and where there is no memory left.
* `Layout` is the invariant, `Sound` what it is for.
* `names_sound` is the main theorem.
-/

namespace DumpRestore.Names

open ByteOrder

/-! ## Strings -/

/-- A string: its characters without the NUL. -/
structure Name where
  chars : List UInt8
  no_nul : 0 ∉ chars

/-- The length of a name. -/
abbrev Name.length (s : Name) : ℕ := s.chars.length

/-- The string at the start of a buffer. -/
def Name.ofBuffer (buf : List UInt8) : Name where
  chars := buf.takeWhile (· ≠ 0)
  no_nul h := by simpa using List.mem_takeWhile_imp h

/-- A memory has a name at an address. -/
def HasName (m : Mem) (p : ℕ) (name : Name) : Prop :=
  m.read p (name.length + 1) = name.chars ++ [0]

/-- `strlen`. -/
def strlen (m : Mem) : (fuel a : ℕ) → Option ℕ
  | 0, _ => none
  | fuel + 1, a => if m a = 0 then some 0 else (strlen m fuel (a + 1)).map (· + 1)

/-! ## The functions -/

/-- `STRTBLINCR`. -/
def strtblincr : ℕ := 8

/-- `MAXNAMLEN`. -/
def maxnamlen : ℕ := 255

/-- `allocsize`. -/
def allocsize (size : ℕ) : ℕ := (size + 1 + strtblincr - 1) / strtblincr * strtblincr

/-- Why a run stopped. -/
inductive Stop
  | outside
  | exit
  deriving DecidableEq, Repr

/-- A run of a function. -/
abbrev Run := Except Stop

/-- The memory, the heads of the free lists, the blocks that `malloc` handed out with their sizes,
and the names in use, the last one first. -/
structure NameTable where
  mem : Mem
  strtblhdr : List ℕ
  blocks : List (ℕ × ℕ)
  held : List ℕ

/-- The tables at the start of the program. -/
def NameTable.empty (m : Mem) : NameTable :=
  ⟨m, List.replicate (allocsize maxnamlen / strtblincr) 0, [], []⟩

/-- A name in a block of its own. -/
def NameTable.place (t : NameTable) (cp : ℕ) (name : Name) : NameTable :=
  { t with
    mem := t.mem.write cp (name.chars ++ [0])
    blocks := (cp, allocsize name.length) :: t.blocks
    held := cp :: t.held }

section Functions

variable (malloc : (blocks : List (ℕ × ℕ)) → (size : ℕ) → Option ℕ)

/-- `savename`. -/
def savename (name : Name) (t : NameTable) : Run NameTable :=
  let len := name.length
  match t.strtblhdr[len / strtblincr]? with
  | none => .error .outside
  | some np =>
    if np ≠ 0 then
      .ok { t with
        strtblhdr := t.strtblhdr.set (len / strtblincr) (t.mem.num np 8)
        mem := t.mem.write np (name.chars ++ [0])
        held := np :: t.held }
    else
      match malloc t.blocks (allocsize len) with
      | none => .error .exit
      | some cp => .ok (t.place cp name)

/-- `freename` of the `i`-th name in use. -/
def freename (i : ℕ) (t : NameTable) : Run NameTable :=
  match t.held[i]? with
  | none => .ok t
  | some name =>
    match strlen t.mem (2 ^ 64) name with
    | none => .error .outside
    | some len =>
      match t.strtblhdr[len / strtblincr]? with
      | none => .error .outside
      | some next => .ok { t with
          mem := t.mem.write name (bytesLE 8 next)
          strtblhdr := t.strtblhdr.set (len / strtblincr) name
          held := t.held.eraseIdx i }

/-- `*cp < ' ' || *cp >= 0177`, where characters are signed. -/
def unprintable (c : UInt8) : Bool := c.toBitVec.toInt < 32 || c.toBitVec.toInt ≥ 127

/-- The loop of `mkentry`. -/
def cleanLoop (vflag : Bool) : (fuel : ℕ) → Mem → (cp : ℕ) → Option Mem
  | 0, _, _ => none
  | fuel + 1, m, cp =>
    if m cp = 0 then some m
    else cleanLoop vflag fuel (if !vflag && unprintable (m cp) then m.write cp [63] else m) (cp + 1)

/-- What `mkentry` does to the `i`-th name in use. -/
def clean (vflag : Bool) (i : ℕ) (t : NameTable) : Run NameTable :=
  match t.held[i]? with
  | none => .ok t
  | some name =>
    match cleanLoop vflag (2 ^ 64) t.mem name with
    | none => .error .outside
    | some m => .ok { t with mem := m }

/-- The calls, and a pointer that goes out of scope. -/
inductive NameCall
  | savename (name : Name)
  | freename (i : ℕ)
  | clean (vflag : Bool) (i : ℕ)
  | forget (i : ℕ)

/-- One call. -/
def NameCall.exec (t : NameTable) : NameCall → Run NameTable
  | .savename name => Names.savename malloc name t
  | .freename i => Names.freename i t
  | .clean vflag i => Names.clean vflag i t
  | .forget i => .ok { t with held := t.held.eraseIdx i }

/-- Calls, one after the other. -/
def run (t : NameTable) (calls : List NameCall) : Run NameTable :=
  calls.foldlM (NameCall.exec malloc) t

end Functions

/-! ## The program -/

/-- The names of a symbol table that `initsymtable` has read from a file to the address `base`. Each
of them has the room that `dumpsymtable` wrote. -/
def initsymtable (t : NameTable) : (base : ℕ) → List Name → NameTable
  | _, [] => t
  | base, name :: names => initsymtable (t.place base name) (base + allocsize name.length) names

/-- What the program does with names: new and old entries of the symbol table, entries that get
another name (`moveentry` and `mktempname`), and the listings of `printlist`. The names of a listed
directory are sorted before they are freed, in any order here. -/
inductive NameOp
  | addentry (name : Name)
  | freeentry (i : ℕ)
  | rename (i : ℕ) (name : Name)
  | listdir (vflag : Bool) (dNames : List Name) (order : List ℕ)
  | listfile (vflag : Bool) (dName : Name) (name : List UInt8) (basename : Name)

/-- The calls of an operation. `name` of `printlist` is the buffer in which the path lies. -/
def NameOp.calls : NameOp → List NameCall
  | .addentry name => [.savename name]
  | .freeentry i => [.freename i]
  | .rename i name => [.freename i, .savename name]
  | .listdir vflag dNames order =>
    dNames.flatMap (fun dName => [.savename dName, .clean vflag 0]) ++ order.map .freename
  | .listfile vflag dName name basename =>
    let len := basename.length + 1
    let longer := (2 ^ 64 + (Name.ofBuffer name).length - len) % 2 ^ 64 > dName.length
    [.savename dName, .clean vflag 0] ++
      (if longer then [.freename 0, .savename (.ofBuffer (name.drop len))] else []) ++ [.forget 0]

/-! ## The invariant -/

/-- Two blocks do not overlap. -/
def Apart (b c : ℕ × ℕ) : Prop := b.1 + b.2 ≤ c.1 ∨ c.1 + c.2 ≤ b.1

/-- What is relied on of `malloc`. -/
def Malloc (malloc : List (ℕ × ℕ) → ℕ → Option ℕ) : Prop :=
  ∀ blocks size a, malloc blocks size = some a →
    0 < a ∧ a + size ≤ 2 ^ 64 ∧ ∀ b ∈ blocks, Apart (a, size) b

/-- The blocks on a list that begins with the pointer `head`. -/
inductive FreeList (m : Mem) : (head : ℕ) → List ℕ → Prop
  | nil : FreeList m 0 []
  | cons {a : ℕ} {l : List ℕ} : a ≠ 0 → FreeList m (m.num a 8) l → FreeList m a (a :: l)

/-- The invariant, with the blocks of each list. A block on the list `k` has room for the longest
names of that list; a name in use has a block of the size for its length. -/
structure Layout (t : NameTable) (free : ℕ → List ℕ) : Prop where
  hdr : t.strtblhdr.length = 32
  chains : ∀ (k : ℕ) head, t.strtblhdr[k]? = some head → FreeList t.mem head (free k)
  unused : ∀ k, ∀ a ∈ free k, (a, 8 * (k + 1)) ∈ t.blocks ∧ a ∉ t.held
  names : ∀ p ∈ t.held, ∃ name, HasName t.mem p name ∧ name.length ≤ maxnamlen ∧
    (p, allocsize name.length) ∈ t.blocks
  held_nodup : t.held.Nodup
  free_nodup : ∀ k, (free k).Nodup
  apart : t.blocks.Pairwise Apart
  bounds : ∀ b ∈ t.blocks, 0 < b.1 ∧ 8 ≤ b.2 ∧ b.1 + b.2 ≤ 2 ^ 64

/-- **What the names are to be like**: each one in use lies in a block that has room for it and its
NUL, and no two of them lie in the same block, or in blocks that overlap. -/
structure Sound (t : NameTable) : Prop where
  room : ∀ p ∈ t.held, ∃ name size, HasName t.mem p name ∧ (p, size) ∈ t.blocks ∧
    name.length + 1 ≤ size
  distinct : t.held.Nodup
  apart : t.blocks.Pairwise Apart

/-- A run does not access `strtblhdr` outside of it. If there is memory enough, its result has the
property `P`. -/
def Safe (P : NameTable → Prop) : Run NameTable → Prop
  | .ok t => P t
  | .error .exit => True
  | .error .outside => False

/-! ## Strings in memory -/

section Strings

variable {m m' : Mem} {a p n : ℕ} {name : Name} {l : List UInt8}

theorem allocsize_eq (n : ℕ) : allocsize n = 8 * (n / 8 + 1) := by
  simp only [allocsize, strtblincr]
  omega

theorem lt_allocsize (n : ℕ) : n + 1 ≤ allocsize n := by
  rw [allocsize_eq]
  omega

theorem read_succ (m : Mem) (a n : ℕ) : m.read a (n + 1) = m a :: m.read (a + 1) n := by
  rw [Mem.read, List.range'_succ, List.map_cons, Mem.read]

theorem strlen_eq (hl : 0 ∉ l) (hread : m.read a (l.length + 1) = l ++ [0]) {fuel : ℕ}
    (hfuel : l.length < fuel) : strlen m fuel a = some l.length := by
  induction l generalizing a fuel with
  | nil =>
    obtain ⟨k, rfl⟩ : ∃ k, fuel = k + 1 := ⟨fuel - 1, by simp at hfuel; omega⟩
    rw [List.length_nil, read_succ] at hread
    rw [strlen, if_pos (List.cons.inj hread).1, List.length_nil]
  | cons c l ih =>
    obtain ⟨k, rfl⟩ : ∃ k, fuel = k + 1 := ⟨fuel - 1, by omega⟩
    rw [List.length_cons, read_succ] at hread
    obtain ⟨hc, hread⟩ := List.cons.inj hread
    have hne : m a ≠ 0 := fun h0 => hl (h0 ▸ hc ▸ List.mem_cons_self)
    rw [List.length_cons] at hfuel
    rw [strlen, if_neg hne, ih (List.not_mem_of_not_mem_cons hl) hread (by omega), Option.map_some,
      List.length_cons]

theorem HasName.strlen_eq (h : HasName m p name) (hlen : name.length ≤ maxnamlen) :
    strlen m (2 ^ 64) p = some name.length :=
  Names.strlen_eq name.no_nul h (hlen.trans_lt (by decide))

theorem HasName.congr (h : HasName m p name) (hagree : Mem.Agree m' m p (p + n))
    (hn : name.length + 1 ≤ n) : HasName m' p name := by
  rw [HasName, hagree.read le_rfl (by omega), h]

/-- A write leaves the blocks alone that are apart from the one that is written to. -/
theorem agree_of_apart (m : Mem) {b : ℕ × ℕ} {bs : List UInt8} (h : Apart b (a, n))
    (hbs : bs.length ≤ n) : Mem.Agree (m.write a bs) m b.1 (b.1 + b.2) := by
  obtain h | h := h
  · exact Mem.agree_write_below m bs _ _ h
  · exact Mem.agree_write_above m bs _ _ (by dsimp only at h; omega)

theorem hasName_write (m : Mem) (p : ℕ) (name : Name) :
    HasName (m.write p (name.chars ++ [0])) p name := by
  have hread := Mem.read_write m p (name.chars ++ [0])
  rwa [List.length_append, List.length_singleton] at hread

theorem FreeList.congr {head : ℕ} {blks : List ℕ} (h : FreeList m head blks)
    (hagree : ∀ a ∈ blks, Mem.Agree m' m a (a + 8)) : FreeList m' head blks := by
  induction h with
  | nil => exact .nil
  | @cons a l hne hrest ih =>
    obtain ⟨ha, hl⟩ := List.forall_mem_cons.mp hagree
    have hread : m'.read a 8 = m.read a 8 := ha.read le_rfl le_rfl
    have hnum : m'.num a 8 = m.num a 8 := congrArg ofBytesLE hread
    exact .cons hne (by rw [hnum]; exact ih hl)

end Strings

/-! ## Blocks -/

section Blocks

variable {t : NameTable} {free : ℕ → List ℕ} {a k n : ℕ} {name : Name}

theorem Apart.symm {b c : ℕ × ℕ} (h : Apart b c) : Apart c b := Or.symm h

instance : Std.Symm Apart := ⟨fun _ _ => Apart.symm⟩

theorem Layout.apart_of_ne (h : Layout t free) {b c : ℕ × ℕ} (hb : b ∈ t.blocks) (hc : c ∈ t.blocks)
    (hne : b.1 ≠ c.1) : Apart b c :=
  h.apart.forall hb hc fun heq => hne (heq ▸ rfl)

/-- A block has one size. -/
theorem Layout.size_unique (h : Layout t free) {m n : ℕ} (hm : (a, m) ∈ t.blocks)
    (hn : (a, n) ∈ t.blocks) : m = n := by
  by_contra hne
  have hm8 := (h.bounds _ hm).2.1
  have hn8 := (h.bounds _ hn).2.1
  have := h.apart.forall hm hn fun heq => hne (Prod.mk.inj heq).2
  simp only [Apart] at this hm8 hn8
  omega

/-- A block is on one list. -/
theorem Layout.list_unique (h : Layout t free) {k' : ℕ} (hk : a ∈ free k) (hk' : a ∈ free k') :
    k = k' := by
  have := h.size_unique (h.unused k a hk).1 (h.unused k' a hk').1
  omega

/-- **A block of `malloc`** with a name in it. -/
theorem Layout.place (h : Layout t free) (hlen : name.length ≤ maxnamlen) (hpos : 0 < a)
    (hend : a + allocsize name.length ≤ 2 ^ 64)
    (hnew : ∀ b ∈ t.blocks, Apart (a, allocsize name.length) b) :
    Layout (t.place a name) free := by
  have hsize := allocsize_eq name.length
  have hfits : (name.chars ++ [0]).length ≤ allocsize name.length := by
    rw [List.length_append, List.length_singleton]
    exact lt_allocsize name.length
  have hkeep : ∀ b ∈ t.blocks,
      Mem.Agree (t.mem.write a (name.chars ++ [0])) t.mem b.1 (b.1 + b.2) :=
    fun b hb => agree_of_apart t.mem (hnew b hb).symm hfits
  have hother : ∀ p n, (p, n) ∈ t.blocks → p ≠ a := by
    rintro p n hp rfl
    have hsep := hnew _ hp
    have hbounds := (h.bounds _ hp).2.1
    simp only [Apart] at hsep hbounds
    omega
  refine ⟨h.hdr, fun k head hk => ?_, fun k p hp => ?_, fun p hp => ?_, ?_, h.free_nodup, ?_, ?_⟩
  · refine (h.chains k head hk).congr fun p hp => ?_
    exact (hkeep _ (h.unused k p hp).1).mono le_rfl (by dsimp only; omega)
  · obtain ⟨hblock, hheld⟩ := h.unused k p hp
    exact ⟨List.mem_cons_of_mem _ hblock,
      List.not_mem_cons_of_ne_of_not_mem (hother p _ hblock) hheld⟩
  · rcases List.mem_cons.mp hp with rfl | hp
    · exact ⟨name, hasName_write t.mem p name, hlen, List.mem_cons_self⟩
    · obtain ⟨s, hs, hslen, hblock⟩ := h.names p hp
      exact ⟨s, hs.congr (hkeep _ hblock) (lt_allocsize _), hslen, List.mem_cons_of_mem _ hblock⟩
  · refine List.nodup_cons.mpr ⟨fun ha => ?_, h.held_nodup⟩
    obtain ⟨s, -, -, hblock⟩ := h.names a ha
    exact hother a _ hblock rfl
  · exact List.pairwise_cons.mpr ⟨hnew, h.apart⟩
  · exact List.forall_mem_cons.mpr ⟨⟨hpos, by dsimp only; omega, hend⟩, h.bounds⟩

theorem length_div_lt (hlen : name.length ≤ maxnamlen) : name.length / strtblincr < 32 := by
  rw [maxnamlen] at hlen
  rw [strtblincr]
  omega

theorem Layout.getElem?_hdr (h : Layout t free) {k : ℕ} (hk : k < 32) :
    ∃ head, t.strtblhdr[k]? = some head :=
  ⟨_, List.getElem?_eq_getElem (h.hdr ▸ hk)⟩

/-- **A block of a free list** with a name in it. -/
theorem Layout.reuse (h : Layout t free) (hlen : name.length ≤ maxnamlen) {np : ℕ}
    (hnp : t.strtblhdr[name.length / strtblincr]? = some np) (hne : np ≠ 0) :
    ∃ free', Layout { t with
      strtblhdr := t.strtblhdr.set (name.length / strtblincr) (t.mem.num np 8)
      mem := t.mem.write np (name.chars ++ [0])
      held := np :: t.held } free' := by
  set k := name.length / strtblincr with hk
  have hsize : allocsize name.length = 8 * (k + 1) := allocsize_eq name.length
  obtain ⟨rest, hfree, hrest⟩ : ∃ rest, free k = np :: rest ∧
      FreeList t.mem (t.mem.num np 8) rest := by
    have hchain := h.chains k np hnp
    generalize free k = l at hchain
    cases hchain with
    | nil => exact absurd rfl hne
    | cons _ hrest => exact ⟨_, rfl, hrest⟩
  have hmem : np ∈ free k := hfree ▸ List.mem_cons_self
  obtain ⟨hblock, hheld⟩ := h.unused k np hmem
  have hnodup := h.free_nodup k
  rw [hfree, List.nodup_cons] at hnodup
  have hfits : (name.chars ++ [0]).length ≤ 8 * (k + 1) := by
    rw [List.length_append, List.length_singleton, ← hsize]
    exact lt_allocsize name.length
  have hkeep : ∀ b ∈ t.blocks, b.1 ≠ np →
      Mem.Agree (t.mem.write np (name.chars ++ [0])) t.mem b.1 (b.1 + b.2) :=
    fun b hb hb' => agree_of_apart t.mem (h.apart_of_ne hb hblock hb') hfits
  -- The other blocks of all lists.
  have hothers : ∀ k', ∀ a ∈ Function.update free k rest k', a ∈ free k' ∧ a ≠ np := by
    intro k' a ha
    by_cases hk' : k' = k
    · subst hk'
      rw [Function.update_self] at ha
      exact ⟨hfree ▸ List.mem_cons_of_mem np ha, fun heq => hnodup.1 (heq ▸ ha)⟩
    · rw [Function.update_of_ne hk'] at ha
      exact ⟨ha, fun heq => hk' (h.list_unique ha (heq ▸ hmem))⟩
  have hchain : ∀ k' head l, FreeList t.mem head l → (∀ a ∈ l, a ∈ free k' ∧ a ≠ np) →
      FreeList (t.mem.write np (name.chars ++ [0])) head l := by
    intro k' head l hl hmem
    refine hl.congr fun a ha => ?_
    exact (hkeep _ (h.unused k' a (hmem a ha).1).1 (hmem a ha).2).mono le_rfl (by dsimp only; omega)
  refine ⟨Function.update free k rest, by rw [List.length_set, h.hdr], fun k' head hhead => ?_,
    fun k' a ha => ?_, fun p hp => ?_, List.nodup_cons.mpr ⟨hheld, h.held_nodup⟩, fun k' => ?_,
    h.apart, h.bounds⟩
  · refine hchain k' head _ ?_ (hothers k')
    by_cases hk' : k' = k
    · subst hk'
      rw [List.getElem?_set_self (List.getElem?_eq_some_iff.mp hnp).1] at hhead
      rw [Function.update_self, ← Option.some.inj hhead]
      exact hrest
    · rw [List.getElem?_set_ne (Ne.symm hk')] at hhead
      rw [Function.update_of_ne hk']
      exact h.chains k' head hhead
  · obtain ⟨ha, hane⟩ := hothers k' a ha
    obtain ⟨hb, hnot⟩ := h.unused k' a ha
    exact ⟨hb, List.not_mem_cons_of_ne_of_not_mem hane hnot⟩
  · rcases List.mem_cons.mp hp with rfl | hp
    · exact ⟨name, hasName_write t.mem p name, hlen, hsize ▸ hblock⟩
    · obtain ⟨s, hs, hslen, hb⟩ := h.names p hp
      have hpne : p ≠ np := fun heq => hheld (heq ▸ hp)
      exact ⟨s, hs.congr (hkeep _ hb hpne) (lt_allocsize _), hslen, hb⟩
  · by_cases hk' : k' = k
    · subst hk'
      rw [Function.update_self]
      exact hnodup.2
    · rw [Function.update_of_ne hk']
      exact h.free_nodup k'

end Blocks

/-! ## The calls -/

section Calls

variable {malloc : List (ℕ × ℕ) → ℕ → Option ℕ} {t : NameTable} {free : ℕ → List ℕ} {name : Name}

/-- The invariant, with some free lists. -/
def Laid (t : NameTable) : Prop := ∃ free, Layout t free

/-- **`savename`.** -/
theorem savename_safe (hmalloc : Malloc malloc) (h : Laid t) (hlen : name.length ≤ maxnamlen) :
    Safe Laid (savename malloc name t) := by
  obtain ⟨free, h⟩ := h
  obtain ⟨np, hnp⟩ := h.getElem?_hdr (length_div_lt hlen)
  rw [savename, hnp]
  dsimp only
  split
  case isTrue hne => exact h.reuse hlen hnp hne
  case isFalse =>
    cases hm : malloc t.blocks (allocsize name.length) with
    | none => trivial
    | some cp =>
      obtain ⟨hpos, hend, hnew⟩ := hmalloc _ _ _ hm
      exact ⟨free, h.place hlen hpos hend hnew⟩

/-- A longer name has its list behind the table. -/
theorem savename_outside (h : Laid t) (hlen : maxnamlen < name.length) :
    savename malloc name t = .error .outside := by
  obtain ⟨free, h⟩ := h
  have hindex : t.strtblhdr.length ≤ name.length / strtblincr := by
    rw [h.hdr, strtblincr]
    rw [maxnamlen] at hlen
    omega
  rw [savename, List.getElem?_eq_none hindex]

theorem not_mem_eraseIdx {l : List ℕ} (hl : l.Nodup) {i p : ℕ} (hi : l[i]? = some p) :
    p ∉ l.eraseIdx i := by
  obtain ⟨hlt, rfl⟩ := List.getElem?_eq_some_iff.mp hi
  have hsplit : l = l.take i ++ l[i] :: l.drop (i + 1) := by
    rw [← List.drop_eq_getElem_cons hlt, List.take_append_drop]
  rw [hsplit, List.nodup_middle] at hl
  rw [List.eraseIdx_eq_take_drop_succ]
  exact (List.nodup_cons.mp hl).1

/-- **`freename`.** -/
theorem freename_safe (h : Laid t) (i : ℕ) : Safe Laid (freename i t) := by
  obtain ⟨free, h⟩ := h
  rw [freename]
  cases hi : t.held[i]? with
  | none => exact ⟨free, h⟩
  | some p =>
    have hp := List.mem_of_getElem? hi
    obtain ⟨name, hname, hlen, hblock⟩ := h.names p hp
    set k := name.length / strtblincr with hk
    have hsize : allocsize name.length = 8 * (k + 1) := allocsize_eq name.length
    obtain ⟨head, hhead⟩ := h.getElem?_hdr (length_div_lt hlen)
    dsimp only
    rw [hname.strlen_eq hlen]
    dsimp only
    rw [hhead]
    dsimp only
    have hbounds := h.bounds _ hblock
    have hkeep : ∀ b ∈ t.blocks, b.1 ≠ p →
        Mem.Agree (t.mem.write p (bytesLE 8 head)) t.mem b.1 (b.1 + b.2) :=
      fun b hb hne => agree_of_apart t.mem (h.apart_of_ne hb hblock hne)
        (by rw [length_bytesLE]; exact hbounds.2.1)
    have hne : ∀ k', ∀ a ∈ free k', a ≠ p := fun k' a ha heq => (h.unused k' a ha).2 (heq ▸ hp)
    have hchain : ∀ k' q, t.strtblhdr[k']? = some q →
        FreeList (t.mem.write p (bytesLE 8 head)) q (free k') := by
      intro k' q hq
      refine (h.chains k' q hq).congr fun a ha => ?_
      exact (hkeep _ (h.unused k' a ha).1 (hne k' a ha)).mono le_rfl (by dsimp only; omega)
    -- The pointer fits the eight bytes that hold it.
    have hword : head < 256 ^ 8 := by
      have hlist := h.chains k head hhead
      generalize hl : free k = l at hlist
      cases hlist with
      | nil => decide
      | cons _ _ =>
        have hb := h.bounds _ (h.unused k head (hl ▸ List.mem_cons_self)).1
        dsimp only at hb
        omega
    have hnum : (t.mem.write p (bytesLE 8 head)).num p 8 = head := by
      have hread := Mem.read_write t.mem p (bytesLE 8 head)
      rw [length_bytesLE] at hread
      rw [Mem.num, hread, ofBytesLE_bytesLE, Nat.mod_eq_of_lt hword]
    refine ⟨Function.update free k (p :: free k), by rw [List.length_set, h.hdr],
      fun k' q hq => ?_, fun k' a ha => ?_, fun q hq => ?_, h.held_nodup.eraseIdx i, fun k' => ?_,
      h.apart, h.bounds⟩
    · by_cases hk' : k' = k
      · subst hk'
        rw [List.getElem?_set_self (List.getElem?_eq_some_iff.mp hhead).1] at hq
        rw [Function.update_self, ← Option.some.inj hq]
        exact .cons hbounds.1.ne' (by rw [hnum]; exact hchain _ head hhead)
      · rw [List.getElem?_set_ne (Ne.symm hk')] at hq
        rw [Function.update_of_ne hk']
        exact hchain k' q hq
    · have hold : ∀ a ∈ free k', (a, 8 * (k' + 1)) ∈ t.blocks ∧ a ∉ t.held.eraseIdx i := fun a ha =>
        ⟨(h.unused k' a ha).1, fun hmem => (h.unused k' a ha).2 (List.mem_of_mem_eraseIdx hmem)⟩
      by_cases hk' : k' = k
      · subst hk'
        rw [Function.update_self] at ha
        rcases List.mem_cons.mp ha with rfl | ha
        · exact ⟨hsize ▸ hblock, not_mem_eraseIdx h.held_nodup hi⟩
        · exact hold a ha
      · rw [Function.update_of_ne hk'] at ha
        exact hold a ha
    · obtain ⟨s, hs, hslen, hb⟩ := h.names q (List.mem_of_mem_eraseIdx hq)
      have hqne : q ≠ p := fun heq => not_mem_eraseIdx h.held_nodup hi (heq ▸ hq)
      exact ⟨s, hs.congr (hkeep _ hb hqne) (lt_allocsize _), hslen, hb⟩
    · by_cases hk' : k' = k
      · subst hk'
        rw [Function.update_self]
        exact List.nodup_cons.mpr ⟨fun hmem => hne _ p hmem rfl, h.free_nodup _⟩
      · rw [Function.update_of_ne hk']
        exact h.free_nodup k'

/-- A character after `mkentry`. -/
def shown (vflag : Bool) (c : UInt8) : UInt8 := if !vflag && unprintable c then 63 else c

/-- The loop of `mkentry` changes the characters, but not the length. -/
theorem cleanLoop_eq (vflag : Bool) {m : Mem} {cp fuel : ℕ} {l : List UInt8} (hl : 0 ∉ l)
    (hread : m.read cp (l.length + 1) = l ++ [0]) (hfuel : l.length < fuel) :
    ∃ m', cleanLoop vflag fuel m cp = some m' ∧
      m'.read cp (l.length + 1) = l.map (shown vflag) ++ [0] ∧
      ∀ i, i < cp ∨ cp + l.length ≤ i → m' i = m i := by
  induction l generalizing m cp fuel with
  | nil =>
    obtain ⟨k, rfl⟩ : ∃ k, fuel = k + 1 := ⟨fuel - 1, by simp at hfuel; omega⟩
    refine ⟨m, ?_, hread, fun i _ => rfl⟩
    rw [List.length_nil, read_succ] at hread
    rw [cleanLoop, if_pos (List.cons.inj hread).1]
  | cons c l ih =>
    obtain ⟨k, rfl⟩ : ∃ k, fuel = k + 1 := ⟨fuel - 1, by omega⟩
    rw [List.length_cons, read_succ] at hread
    obtain ⟨hc, hrest⟩ := List.cons.inj hread
    have hne : m cp ≠ 0 := fun h0 => hl (h0 ▸ hc ▸ List.mem_cons_self)
    rw [List.length_cons] at hfuel
    rw [cleanLoop, if_neg hne, hc]
    set m₁ := if !vflag && unprintable c then m.write cp [63] else m with hm₁
    have hhere : m₁ cp = shown vflag c := by
      rw [hm₁, shown]
      split
      · simp [Mem.write]
      · exact hc
    have hthere : ∀ i, i ≠ cp → m₁ i = m i := by
      intro i hi
      rw [hm₁]
      split
      · simp only [Mem.write, List.length_singleton]
        exact if_neg (by omega)
      · rfl
    have hread₁ : m₁.read (cp + 1) (l.length + 1) = l ++ [0] := by
      have hagree : Mem.Agree m₁ m (cp + 1) (cp + 1 + (l.length + 1)) :=
        fun i hi _ => hthere i (by omega)
      rw [hagree.read le_rfl le_rfl]
      exact hrest
    obtain ⟨m', hm', hread', hsame⟩ := ih (List.not_mem_of_not_mem_cons hl) hread₁
      (Nat.lt_of_succ_lt_succ hfuel)
    refine ⟨m', hm', ?_, fun i hi => ?_⟩
    · rw [List.length_cons, read_succ, hread', hsame cp (.inl (Nat.lt_succ_self cp)), hhere]
      rfl
    · rw [List.length_cons] at hi
      rw [hsame i (by omega), hthere i (by omega)]

theorem shown_ne_zero (vflag : Bool) {c : UInt8} (hc : c ≠ 0) : shown vflag c ≠ 0 := by
  rw [shown]
  split
  · decide
  · exact hc

/-- A name as `mkentry` shows it. -/
def Name.shown (vflag : Bool) (name : Name) : Name where
  chars := name.chars.map (Names.shown vflag)
  no_nul h := by
    obtain ⟨c, hc, h0⟩ := List.mem_map.mp h
    exact shown_ne_zero vflag (fun hzero => name.no_nul (hzero ▸ hc)) h0

/-- **The loop of `mkentry`.** -/
theorem clean_safe (h : Laid t) (vflag : Bool) (i : ℕ) : Safe Laid (clean vflag i t) := by
  obtain ⟨free, h⟩ := h
  rw [clean]
  cases hi : t.held[i]? with
  | none => exact ⟨free, h⟩
  | some p =>
    have hp := List.mem_of_getElem? hi
    obtain ⟨name, hname, hlen, hblock⟩ := h.names p hp
    have hfuel : name.length < 2 ^ 64 := hlen.trans_lt (by decide)
    obtain ⟨m, hm, hread, hsame⟩ := cleanLoop_eq vflag name.no_nul hname hfuel
    dsimp only
    rw [hm]
    have hroom := lt_allocsize name.length
    have hkeep : ∀ b ∈ t.blocks, b.1 ≠ p → Mem.Agree m t.mem b.1 (b.1 + b.2) := by
      intro b hb hne j hj hjend
      refine hsame j ?_
      have hsep := h.apart_of_ne hb hblock hne
      simp only [Apart] at hsep
      change j < p ∨ p + name.length ≤ j
      omega
    refine ⟨free, h.hdr, fun k q hq => ?_, h.unused, fun q hq => ?_, h.held_nodup, h.free_nodup,
      h.apart, h.bounds⟩
    · refine (h.chains k q hq).congr fun a ha => ?_
      obtain ⟨hb, hnot⟩ := h.unused k a ha
      have hne : a ≠ p := fun heq => hnot (heq ▸ hp)
      exact (hkeep _ hb hne).mono le_rfl (by dsimp only; omega)
    · by_cases hqp : q = p
      · subst hqp
        refine ⟨name.shown vflag, ?_, ?_, ?_⟩
        · rw [HasName, Name.length, Name.shown, List.length_map]
          exact hread
        · rwa [Name.length, Name.shown, List.length_map]
        · rwa [Name.length, Name.shown, List.length_map]
      · obtain ⟨s, hs, hslen, hb⟩ := h.names q hq
        exact ⟨s, hs.congr (hkeep _ hb hqp) (lt_allocsize _), hslen, hb⟩

/-- The names that a call saves are not longer than the table allows. -/
def NameCall.Short : NameCall → Prop
  | .savename name => name.length ≤ maxnamlen
  | _ => True

/-- **A call** keeps the invariant. -/
theorem exec_safe (hmalloc : Malloc malloc) (h : Laid t) {call : NameCall} (hshort : call.Short) :
    Safe Laid (call.exec malloc t) := by
  cases call with
  | savename name => exact savename_safe hmalloc h hshort
  | freename i => exact freename_safe h i
  | clean vflag i => exact clean_safe h vflag i
  | forget i =>
    obtain ⟨free, h⟩ := h
    exact ⟨free, h.hdr, h.chains,
      fun k a ha => ⟨(h.unused k a ha).1,
        fun hmem => (h.unused k a ha).2 (List.mem_of_mem_eraseIdx hmem)⟩,
      fun p hp => h.names p (List.mem_of_mem_eraseIdx hp), h.held_nodup.eraseIdx i, h.free_nodup,
      h.apart, h.bounds⟩

/-- **Any calls.** -/
theorem run_safe (hmalloc : Malloc malloc) (h : Laid t) {calls : List NameCall}
    (hshort : ∀ call ∈ calls, call.Short) : Safe Laid (run malloc t calls) := by
  induction calls generalizing t with
  | nil => exact h
  | cons call calls ih =>
    obtain ⟨hcall, hcalls⟩ := List.forall_mem_cons.mp hshort
    have hstep := exec_safe hmalloc h hcall
    rw [run, List.foldlM_cons]
    cases hexec : call.exec malloc t with
    | ok t' =>
      rw [hexec] at hstep
      exact ih hstep hcalls
    | error e =>
      rw [hexec] at hstep
      cases e with
      | outside => exact hstep
      | exit => trivial

theorem Laid.sound (h : Laid t) : Sound t := by
  obtain ⟨free, h⟩ := h
  refine ⟨fun p hp => ?_, h.held_nodup, h.apart⟩
  obtain ⟨name, hname, -, hblock⟩ := h.names p hp
  exact ⟨name, _, hname, hblock, lt_allocsize _⟩

end Calls

/-! ## Runs of the program -/

section Program

variable {t : NameTable} {free : ℕ → List ℕ}

/-- The size of the names in a file that `dumpsymtable` has written. -/
def stringsize (names : List Name) : ℕ := (names.map fun name => allocsize name.length).sum

theorem laid_empty (m : Mem) : Layout (.empty m) fun _ => [] where
  hdr := rfl
  chains k head hk := by
    have hzero : head = 0 := List.eq_of_mem_replicate (List.mem_of_getElem? hk)
    exact hzero ▸ .nil
  unused k a ha := absurd ha List.not_mem_nil
  names p hp := absurd hp List.not_mem_nil
  held_nodup := List.nodup_nil
  free_nodup _ := List.nodup_nil
  apart := .nil
  bounds b hb := absurd hb List.not_mem_nil

/-- The names of a file lie one behind the other. -/
theorem laid_initsymtable {base : ℕ} {names : List Name} (h : Layout t free)
    (hbelow : ∀ b ∈ t.blocks, b.1 + b.2 ≤ base) (hpos : 0 < base)
    (hend : base + stringsize names ≤ 2 ^ 64) (hlen : ∀ name ∈ names, name.length ≤ maxnamlen) :
    Layout (initsymtable t base names) free := by
  induction names generalizing t base with
  | nil => exact h
  | cons name names ih =>
    obtain ⟨hname, hnames⟩ := List.forall_mem_cons.mp hlen
    have hsum : stringsize (name :: names) = allocsize name.length + stringsize names := rfl
    have hplace := h.place hname hpos (by omega) fun b hb => .inr (hbelow b hb)
    refine ih hplace (List.forall_mem_cons.mpr ⟨le_rfl, fun b hb => ?_⟩) (by omega) (by omega)
      hnames
    exact (hbelow b hb).trans (Nat.le_add_right _ _)

/-- **The allocator of names**, in every state of a run: from the names of a file, at the address
that `calloc` gave, with any operations of the symbol table and of `ls`, where no name is longer
than `MAXNAMLEN`. -/
theorem names_sound {malloc : List (ℕ × ℕ) → ℕ → Option ℕ} (hmalloc : Malloc malloc) (m : Mem)
    {base : ℕ} {names : List Name} (hpos : 0 < base) (hend : base + stringsize names ≤ 2 ^ 64)
    (hnames : ∀ name ∈ names, name.length ≤ maxnamlen) {ops : List NameOp}
    (hops : ∀ op ∈ ops, ∀ call ∈ op.calls, call.Short) {calls : List NameCall}
    (hcalls : calls <+: ops.flatMap NameOp.calls) :
    Safe Sound (run malloc (initsymtable (.empty m) base names) calls) := by
  have hlaid : Laid (initsymtable (.empty m) base names) :=
    ⟨_, laid_initsymtable (laid_empty m) (fun b hb => absurd hb List.not_mem_nil) hpos hend hnames⟩
  have hshort : ∀ call ∈ calls, call.Short := by
    intro call hcall
    obtain ⟨op, hop, hmem⟩ := List.mem_flatMap.mp (hcalls.subset hcall)
    exact hops op hop call hmem
  have hsafe := run_safe hmalloc hlaid hshort
  cases hrun : run malloc (initsymtable (.empty m) base names) calls with
  | ok t =>
    rw [hrun] at hsafe
    exact Laid.sound hsafe
  | error e =>
    rw [hrun] at hsafe
    cases e with
    | outside => exact hsafe
    | exit => trivial

/-- Memory for one block. -/
def oneBlock (blocks : List (ℕ × ℕ)) (size : ℕ) : Option ℕ :=
  if blocks = [] ∧ size ≤ 1024 then some 8 else none

theorem malloc_oneBlock : Malloc oneBlock := by
  intro blocks size a h
  rw [oneBlock] at h
  split at h
  case isTrue hfirst =>
    obtain rfl := Option.some.inj h
    refine ⟨by decide, by omega, fun b hb => ?_⟩
    rw [hfirst.1] at hb
    cases hb
  case isFalse => cases h

/-- A name of `n` letters. -/
def letters (n : ℕ) : Name := ⟨List.replicate n 97, fun h => by
  have := List.eq_of_mem_replicate h
  revert this
  decide⟩

/-- An entry of the symbol table that is freed, and a directory that is listed. -/
theorem names_sound_twoNames : Safe Sound (run oneBlock (initsymtable (.empty fun _ => 0) 8 [])
    ([.addentry (letters 3), .freeentry 0, .listdir false [letters 5] [0]].flatMap
      NameOp.calls)) :=
  names_sound malloc_oneBlock (fun _ => 0) (by decide) (by decide)
    (fun name hname => absurd hname List.not_mem_nil)
    (by simp [NameOp.calls, NameCall.Short, letters, maxnamlen, Name.length]) List.prefix_rfl

/-- `./aaaaa/`, a directory whose name has 250 letters, and the file `b` in it. -/
def longPath : List UInt8 :=
  46 :: 47 :: (List.replicate 5 97 ++ 47 :: (List.replicate 250 97 ++ [47, 98, 0]))

/-- Why a run stopped, if it did. -/
def stopped : Run NameTable → Option Stop
  | .ok _ => none
  | .error e => some e

/-- `ls` of that file in the root. -/
theorem stopped_longPath : stopped (run oneBlock (.empty fun _ => 0)
    (NameOp.listfile false (letters 1) longPath (letters 1)).calls) = some .outside := by
  decide +kernel

theorem not_names_sound : ¬∀ (malloc : List (ℕ × ℕ) → ℕ → Option ℕ) (m : Mem) (base : ℕ)
    (names : List Name) (ops : List NameOp) (calls : List NameCall), Malloc malloc → 0 < base →
    base + stringsize names ≤ 2 ^ 64 → (∀ name ∈ names, name.length ≤ maxnamlen) →
    calls <+: ops.flatMap NameOp.calls →
    Safe Sound (run malloc (initsymtable (.empty m) base names) calls) := by
  intro h
  have hstop := stopped_longPath
  generalize NameOp.listfile false (letters 1) longPath (letters 1) = op at hstop
  have hcalls : op.calls <+: [op].flatMap NameOp.calls := by
    simp
  have hsafe := h oneBlock (fun _ => 0) 8 [] [op] op.calls malloc_oneBlock (by decide) (by decide)
    (fun name hname => absurd hname List.not_mem_nil) hcalls
  rw [initsymtable] at hsafe
  cases hrun : run oneBlock (.empty fun _ => 0) op.calls with
  | ok t =>
    rw [hrun] at hstop
    cases hstop
  | error e =>
    rw [hrun] at hsafe hstop
    obtain rfl : e = .outside := Option.some.inj hstop
    exact hsafe

end Program

end DumpRestore.Names
