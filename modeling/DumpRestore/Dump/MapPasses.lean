import DumpRestore.Dump.Mapping

/-!
# Which inodes the mapping passes select

On a tree of directories the passes come to an end, and then the maps have what an incremental dump
needs: everything that changed and may be dumped, nothing below a directory that is excluded, and
with every inode the directories above it.

* `pass_mapdirs`: a pass is a turn for every inode in the order of their numbers. A turn is left
  out when the byte of the map was read before the bit was set.
* `Settled` is what a pass without a change leaves for every directory.
* `mapping_selects`: the end of the passes.
-/

namespace DumpRestore

namespace DirTree

variable (t : DirTree)

/-! ## A pass -/

/-- A directory not to be dumped has handed that down to its subdirectory `c`. -/
def HandedDown (p : Bool × InodeMaps) (c : ℕ) : Prop :=
  p.1 = true ∧ ∃ d ∈ t.dirs, d ∉ p.2.usedinomap ∧ c ∈ t.subdirs d

/-- The turn of an inode in a pass. -/
inductive Turn (ino : ℕ) (p : Bool × InodeMaps) : Bool × InodeMaps → Prop
  | step {p' : Bool × InodeMaps} (hino : ino ∈ p.2.dumpdirmap) (hstep : t.MapStep ino p p') :
      Turn ino p p'
  | skip (hino : ino ∈ p.2.dumpdirmap → t.HandedDown p ino) : Turn ino p p

/-- The first `n` turns of a pass. -/
inductive Pass (m : InodeMaps) : ℕ → Bool × InodeMaps → Prop
  | start : Pass m 0 (false, m)
  | turn {n : ℕ} {p p' : Bool × InodeMaps} (hpass : Pass m n p) (hturn : t.Turn (n + 1) p p') :
      Pass m (n + 1) p'

/-- What is left of a byte of the map describes the inodes from `ino`, but for directories that
something was handed down to. -/
def Describes (ino : ℕ) (bits : List Bool) (p : Bool × InodeMaps) : Prop :=
  ∀ k b, bits[k]? = some b → (b = true → ino + k ∈ p.2.dumpdirmap) ∧
    (b = false → ino + k ∈ p.2.dumpdirmap → t.HandedDown p (ino + k))

variable {t} {ino : ℕ} {p p' : Bool × InodeMaps}

theorem usedinomap_subset (hstep : t.MapStep ino p p') : p'.2.usedinomap ⊆ p.2.usedinomap := by
  cases hstep with
  | nodump => exact Finset.sdiff_subset
  | _ => exact le_rfl

theorem change_mono (hstep : t.MapStep ino p p') (h : p.1 = true) : p'.1 = true := by
  cases hstep with
  | keep => exact h
  | dump => rfl
  | drop => rfl
  | nodump change m n hused =>
    simp only at h
    simp [h]

theorem HandedDown.step {c : ℕ} (h : t.HandedDown p c) (hstep : t.MapStep ino p p') :
    t.HandedDown p' c := by
  obtain ⟨hchange, d, hd, hused, hc⟩ := h
  exact ⟨change_mono hstep hchange, d, hd, fun hin => hused (usedinomap_subset hstep hin), hc⟩

/-- A turn clears no bit of the map but its own, and sets those of subdirectories only. -/
theorem dumpdirmap_step {c : ℕ} (hino : ino ∈ t.dirs) (hstep : t.MapStep ino p p')
    (hne : c ≠ ino) : (c ∈ p.2.dumpdirmap → c ∈ p'.2.dumpdirmap) ∧
      (c ∈ p'.2.dumpdirmap → c ∈ p.2.dumpdirmap ∨ t.HandedDown p' c) := by
  cases hstep with
  | keep => exact ⟨id, .inl⟩
  | dump => exact ⟨id, .inl⟩
  | drop =>
    exact ⟨fun h => Finset.mem_erase.mpr ⟨hne, h⟩, fun h => .inl (Finset.mem_of_mem_erase h)⟩
  | nodump change m n hused =>
    refine ⟨fun h => Finset.mem_erase.mpr ⟨hne, Finset.mem_union_left _ h⟩, fun h => ?_⟩
    rcases Finset.mem_union.mp (Finset.mem_of_mem_erase h) with h | h
    · exact .inl h
    · have hsome : (t.subdirs ino).Nonempty := ⟨c, h⟩
      exact .inr ⟨by simp [hsome], ino, hino, fun hin => hused (Finset.mem_sdiff.mp hin).1, h⟩

theorem dumpdirmap_subset (hino : ino ∈ t.dirs) (hstep : t.MapStep ino p p')
    (h : p.2.dumpdirmap ⊆ t.dirs) : p'.2.dumpdirmap ⊆ t.dirs := by
  cases hstep with
  | keep => exact h
  | dump => exact h
  | drop => exact (Finset.erase_subset _ _).trans h
  | nodump => exact (Finset.erase_subset _ _).trans (Finset.union_subset h (t.subdirs_subset hino))

theorem describes_mapByte : t.Describes ino (MapFs.mapByte p.2.dumpdirmap ino) p := by
  intro k b hb
  simp only [MapFs.mapByte, List.getElem?_map, Option.map_eq_some_iff] at hb
  obtain ⟨j, hj, rfl⟩ := hb
  obtain ⟨-, rfl⟩ : k < 8 ∧ k = j := by simpa [List.getElem?_eq_some_iff] using hj
  exact ⟨fun h => of_decide_eq_true h, fun h hin => absurd hin (of_decide_eq_false h)⟩

theorem Describes.tail {bits : List Bool} (h : t.Describes ino bits p) :
    t.Describes (ino + 1) bits.tail p := by
  intro k b hb
  rw [List.getElem?_tail] at hb
  have hino : ino + 1 + k = ino + (k + 1) := by omega
  rw [hino]
  exact h (k + 1) b hb

theorem Describes.step {bits : List Bool} (h : t.Describes (ino + 1) bits p) (hino : ino ∈ t.dirs)
    (hstep : t.MapStep ino p p') : t.Describes (ino + 1) bits p' := by
  intro k b hb
  obtain ⟨hset, hclear⟩ := h k b hb
  obtain ⟨hmono, hnew⟩ := dumpdirmap_step (c := ino + 1 + k) hino hstep (by omega)
  refine ⟨fun htrue => hmono (hset htrue), fun hfalse hin => ?_⟩
  rcases hnew hin with hold | hdown
  · exact (hclear hfalse hold).step hstep
  · exact hdown

variable (t)

theorem mapdirsLoop_succ (n : ℕ) (m : InodeMaps) :
    t.mapdirsLoop (n + 1) m = t.mapdirsStep (t.mapdirsLoop n m) (n + 1) := by
  rw [MapFs.mapdirsLoop, List.range'_1_concat, List.foldl_concat, Nat.add_comm 1 n,
    MapFs.mapdirsLoop]

/-- **The loop of `mapdirs` takes turns**, whatever byte of the map it holds. -/
theorem pass_mapdirsLoop {m : InodeMaps} (hm : m.dumpdirmap ⊆ t.dirs) (n : ℕ) :
    t.Pass m n (t.mapdirsLoop n m).2 ∧ (t.mapdirsLoop n m).2.2.dumpdirmap ⊆ t.dirs ∧
      (n % 8 ≠ 0 → (t.mapdirsLoop n m).1.tail.length = 8 - n % 8 ∧
        t.Describes (n + 1) (t.mapdirsLoop n m).1.tail (t.mapdirsLoop n m).2) := by
  induction n with
  | zero => exact ⟨.start, hm, fun h => absurd rfl h⟩
  | succ n ih =>
    rw [mapdirsLoop_succ]
    generalize t.mapdirsLoop n m = q at ih
    obtain ⟨old, p⟩ := q
    obtain ⟨hpass, hdirs, hold⟩ := ih
    have hbits : ∃ bit bits, (if (n + 1 - 1) % 8 = 0 then MapFs.mapByte p.2.dumpdirmap (n + 1)
        else old.tail) = bit :: bits ∧ t.Describes (n + 1) (bit :: bits) p ∧
        bits.length = 7 - n % 8 := by
      rw [Nat.add_sub_cancel]
      split
      case isTrue h => exact ⟨_, _, rfl, describes_mapByte, by simp [h]⟩
      case isFalse h =>
        obtain ⟨hlen, hdesc⟩ := hold h
        simp only at hlen hdesc
        obtain ⟨bit, bits, hcons⟩ := List.exists_cons_of_length_pos
          (l := old.tail) (by omega)
        rw [hcons] at hlen hdesc
        exact ⟨bit, bits, hcons, hdesc, by simp only [List.length_cons] at hlen; omega⟩
    obtain ⟨bit, bits, heq, hdesc, hlen⟩ := hbits
    simp only [MapFs.mapdirsStep, heq, List.headD_cons, List.tail_cons]
    obtain ⟨hset, hclear⟩ := hdesc 0 bit rfl
    cases bit with
    | true =>
      have hino := hset rfl
      have hstep := t.mapStep_mapdir (n + 1) p
      exact ⟨.turn hpass (.step hino hstep), dumpdirmap_subset (hdirs hino) hstep hdirs,
        fun h => ⟨by omega, hdesc.tail.step (hdirs hino) hstep⟩⟩
    | false =>
      exact ⟨.turn hpass (.skip fun hin => hclear rfl hin), hdirs,
        fun h => ⟨by omega, hdesc.tail⟩⟩

/-- **A pass is a turn for every inode.** -/
theorem pass_mapdirs {m : InodeMaps} (hm : m.dumpdirmap ⊆ t.dirs) :
    t.Pass m t.fs.sInodesCount (t.mapdirs m) :=
  (t.pass_mapdirsLoop hm _).1

/-! ## The maps before the first pass -/

/-- The inodes in use up to `n`. -/
def scanned (n : ℕ) : Finset ℕ := (Finset.Icc 1 n).filter fun ino => t.InUse ino

/-- What the scan of `mapfiles` has found up to inode `n`. -/
structure Scanned (n : ℕ) (p : Bool × InodeMaps) : Prop where
  excluded : ∀ i, i ∈ p.2.excluded ↔ i ∈ t.excludes ∨ (i ∈ t.scanned n ∧ t.nodumpFlag i = true)
  usedinomap : ∀ i, i ∈ p.2.usedinomap ↔ i ∈ t.scanned n ∧ ¬(t.isDir i = true ∧ t.Excluded i)
  dumpdirmap : ∀ i, i ∈ p.2.dumpdirmap ↔ i ∈ t.scanned n ∧ t.isDir i = true
  dumpinomap : ∀ i, i ∈ p.2.dumpinomap ↔ i ∈ t.scanned n ∧ t.csince i = true ∧ ¬t.Excluded i
  dirskipped : p.1 = true ↔
    ∃ d ∈ t.scanned n, t.isDir d = true ∧ ¬(t.csince d = true ∧ ¬t.Excluded d)

theorem scanned_succ (n : ℕ) : t.scanned (n + 1) =
    if t.InUse (n + 1) then insert (n + 1) (t.scanned n) else t.scanned n := by
  have hicc : Finset.Icc 1 (n + 1) = insert (n + 1) (Finset.Icc 1 n) := by
    ext i
    simp only [Finset.mem_Icc, Finset.mem_insert]
    omega
  rw [scanned, hicc, Finset.filter_insert]
  rfl

theorem notMem_scanned (n : ℕ) : n + 1 ∉ t.scanned n := by
  simp [scanned]

/-- What `mapfileino` does for an inode in use. -/
theorem mapfileino_of_inUse {ino : ℕ} (hino : t.InUse ino) (b : Bool) {m : InodeMaps}
    (hnew : ino ∉ m.usedinomap)
    (hex : ino ∈ m.excluded ∨ t.nodumpFlag ino = true ↔ t.Excluded ino) :
    ∃ metainomap tapesize, t.mapfileino ino (b, m) =
      (b || (t.isDir ino && !(t.csince ino && !decide (t.Excluded ino))), {
        usedinomap := if ¬(t.isDir ino = true ∧ t.Excluded ino) then insert ino m.usedinomap else
          m.usedinomap
        dumpdirmap := if t.isDir ino = true then insert ino m.dumpdirmap else m.dumpdirmap
        dumpinomap := if t.csince ino = true ∧ ¬t.Excluded ino then insert ino m.dumpinomap else
          m.dumpinomap
        metainomap := metainomap
        excluded := if t.nodumpFlag ino = true then insert ino m.excluded else m.excluded
        tapesize := tapesize }) := by
  obtain ⟨hmode, hnlink, hdtime⟩ := hino
  have herase : (insert ino m.usedinomap).erase ino = m.usedinomap := Finset.erase_insert hnew
  have hisDir : (ifmt (t.getino ino).diMode = ifDir) = (t.isDir ino = true) := by
    simp [MapFs.isDir]
  rw [MapFs.mapfileino, if_neg hnew]
  simp only [hmode, hnlink, hdtime, hisDir, if_false, ne_eq, not_true_eq_false, or_self]
  by_cases hdir : t.isDir ino = true <;> by_cases hc : t.csince ino = true <;>
    by_cases hs : t.msince ino = true <;> by_cases hn : t.nodumpFlag ino = true <;>
      by_cases hm : ino ∈ m.excluded <;>
        simp [← hex, MapFs.wanttodump, hdir, hc, hs, hn, hm, herase]

theorem mem_insert_scanned {n : ℕ} (hino : t.InUse (n + 1)) {P : ℕ → Prop} [DecidablePred P]
    {s : Finset ℕ} (h : ∀ i, i ∈ s ↔ i ∈ t.scanned n ∧ P i) (i : ℕ) :
    i ∈ (if P (n + 1) then insert (n + 1) s else s) ↔ i ∈ t.scanned (n + 1) ∧ P i := by
  rw [scanned_succ, if_pos hino, Finset.mem_insert]
  by_cases hi : i = n + 1
  · subst hi
    have hnot : n + 1 ∉ s := fun hin => t.notMem_scanned n ((h _).mp hin).1
    split <;> simp [*]
  · split <;> simp [hi, h i]

theorem Scanned.step {n : ℕ} {p : Bool × InodeMaps} (h : t.Scanned n p) :
    t.Scanned (n + 1) (t.mapfileino (n + 1) p) := by
  obtain ⟨b, m⟩ := p
  have hnew : n + 1 ∉ m.usedinomap := fun hin =>
    t.notMem_scanned n ((h.usedinomap _).mp hin).1
  by_cases hino : t.InUse (n + 1)
  · have hnot := t.notMem_scanned n
    have hex : n + 1 ∈ m.excluded ∨ t.nodumpFlag (n + 1) = true ↔ t.Excluded (n + 1) := by
      have := h.excluded (n + 1)
      simp only [hnot, false_and, or_false] at this
      rw [this, Excluded]
    obtain ⟨metainomap, tapesize, heq⟩ := t.mapfileino_of_inUse hino b hnew hex
    rw [heq]
    refine ⟨fun i => ?_, t.mem_insert_scanned hino h.usedinomap,
      t.mem_insert_scanned hino h.dumpdirmap, t.mem_insert_scanned hino h.dumpinomap, ?_⟩
    · have hi := h.excluded i
      simp only at hi ⊢
      rw [scanned_succ, if_pos hino, Finset.mem_insert]
      split <;> grind
    · have hi := h.dirskipped
      simp only at hi ⊢
      rw [scanned_succ, if_pos hino, Finset.exists_mem_insert, ← hi]
      cases t.csince (n + 1) <;> simp <;> tauto
  · have heq : t.mapfileino (n + 1) (b, m) = (b, m) := by
      rw [MapFs.mapfileino, if_neg hnew]
      by_cases hmode : ifmt (t.getino (n + 1)).diMode = 0
      · simp [hmode]
      · by_cases hnlink : (t.getino (n + 1)).diNlink = 0
        · simp [hmode, hnlink]
        · have hdtime : (t.getino (n + 1)).diDtime ≠ 0 := fun h => hino ⟨hmode, hnlink, h⟩
          simp [hmode, hdtime]
    have hsucc : t.scanned (n + 1) = t.scanned n := by rw [scanned_succ, if_neg hino]
    rw [heq]
    exact ⟨hsucc ▸ h.excluded, hsucc ▸ h.usedinomap, hsucc ▸ h.dumpdirmap, hsucc ▸ h.dumpinomap,
      hsucc ▸ h.dirskipped⟩

theorem scanned_scan (n : ℕ) : t.Scanned n (t.scan t.excludes n) := by
  induction n with
  | zero => constructor <;> simp [MapFs.scan, MapFs.nomaps, scanned]
  | succ n ih =>
    have hsucc : t.scan t.excludes (n + 1) = t.mapfileino (n + 1) (t.scan t.excludes n) := by
      rw [MapFs.scan, List.range'_1_concat, List.foldl_concat, Nat.add_comm 1 n, MapFs.scan]
    rw [hsucc]
    exact ih.step

/-- **The maps that `mapfiles` fills.** -/
structure MapFiles (p : Bool × InodeMaps) : Prop where
  usedinomap : ∀ i, i ∈ p.2.usedinomap ↔ i ∈ t.inodes ∧ ¬(t.isDir i = true ∧ t.Excluded i)
  dumpdirmap : p.2.dumpdirmap = t.dirs
  dumpinomap : ∀ i, i ∈ p.2.dumpinomap ↔
    i = rootino ∨ (i ∈ t.inodes ∧ t.csince i = true ∧ ¬t.Excluded i)
  dirskipped : p.1 = true ↔ ∃ d ∈ t.dirs, ¬(t.csince d = true ∧ ¬t.Excluded d)

theorem mapFiles_mapfiles : t.MapFiles (t.mapfiles t.excludes) := by
  have h := t.scanned_scan t.fs.sInodesCount
  refine ⟨h.usedinomap, ?_, fun i => ?_, ?_⟩
  · ext i
    exact (h.dumpdirmap i).trans (by rw [MapFs.dirs, Finset.mem_filter]; rfl)
  · exact Finset.mem_insert.trans (or_congr_right (h.dumpinomap i))
  · refine h.dirskipped.trans ?_
    simp only [MapFs.dirs, Finset.mem_filter, and_assoc]
    rfl

/-- The law holds when the passes begin. -/
theorem mapped_mapfiles : t.Mapped (t.mapfiles t.excludes).2 := by
  have h := t.mapFiles_mapfiles
  generalize t.mapfiles t.excludes = p at h
  have hused : ∀ d ∈ t.dirs, d ∈ p.2.usedinomap ↔ ¬t.Excluded d := by
    intro d hd
    obtain ⟨hino, hdir⟩ := Finset.mem_filter.mp hd
    simp [h.usedinomap, hino, hdir]
  have hdirs : ∀ d ∈ t.dirs, d ∈ p.2.dumpdirmap := fun d hd => h.dumpdirmap ▸ hd
  refine ⟨h.dumpdirmap.le, fun i hi => ?_, (h.dumpinomap _).mpr (.inl rfl), fun d hd hin => ?_,
    fun d hd _ _ => hdirs d hd, fun d hd _ hout => absurd (hdirs d hd) hout,
    fun d hd _ hout => absurd (hdirs d hd) hout, fun d hd hu => ?_,
    fun d hd hex => mt (hused d hd).mp (not_not_intro hex),
    fun i hi => (h.dumpinomap i).mpr (.inr ⟨hi.inodes, hi.csince, hi.kept⟩)⟩
  · rcases (h.dumpinomap i).mp hi with rfl | ⟨hino, -⟩
    · exact (Finset.mem_filter.mp t.root).1
    · exact hino
  · exact ((h.dumpinomap d).mp hin).symm.imp_left fun hd' => (hused d hd).mpr hd'.2.2
  · exact .inl (by_contra fun hex => hu ((hused d hd).mpr hex))

/-! ## A pass without a change -/

/-- The turn of a directory in a pass that starts with `m` makes no change: the directory hands
nothing down, and when it is not dumped then there is nothing to dump in it when its turn comes,
but still a subdirectory. -/
structure LeftAlone (m : InodeMaps) (d : ℕ) : Prop where
  nodump : d ∉ m.usedinomap → t.subdirs d = ∅
  undumped : d ∈ m.usedinomap → d ∉ m.dumpinomap → ∀ c ∈ t.children d, c ∈ m.dumpinomap →
    ∃ e ∈ m.dumpdirmap, e ∉ m.usedinomap ∧ e < d ∧ c ∈ t.children e
  subdir : d ∈ m.usedinomap → d ∉ m.dumpinomap →
    ∃ c ∈ t.children d, c ∈ m.dumpdirmap ∧ (c ∈ m.usedinomap ∨ d ≤ c)

/-- The maps after `n` turns without a change. -/
structure Quiet (m : InodeMaps) (n : ℕ) (m' : InodeMaps) : Prop where
  leaf : ∀ e ∈ m.dumpdirmap, e ∉ m.usedinomap → e ≤ n → t.subdirs e = ∅
  usedinomap : m'.usedinomap = m.usedinomap
  dumpdirmap : ∀ i, i ∈ m'.dumpdirmap ↔ i ∈ m.dumpdirmap ∧ (i ∈ m.usedinomap ∨ n < i)
  dumpinomap : ∀ i, i ∈ m'.dumpinomap ↔ i ∈ m.dumpinomap ∧
    ∀ e ∈ m.dumpdirmap, e ∉ m.usedinomap → e ≤ n → i ∉ t.children e

variable {t} {m : InodeMaps} {n : ℕ}

theorem Quiet.dumpinomap_dirs {m' : InodeMaps} (h : t.Quiet m n m') {d : ℕ} (hd : d ∈ t.dirs) :
    d ∈ m'.dumpinomap ↔ d ∈ m.dumpinomap := by
  refine (h.dumpinomap d).trans ⟨And.left, fun hin => ⟨hin, fun e he hused hle hchild => ?_⟩⟩
  have hsub := t.mem_subdirs hchild hd
  rw [h.leaf e he hused hle] at hsub
  exact Finset.notMem_empty _ hsub

/-- **A turn makes no change** just when its directory is left alone. -/
theorem Quiet.turn (hm : m.dumpdirmap ⊆ t.dirs) {p p' : Bool × InodeMaps} (h : t.Quiet m n p.2)
    (hchange : p.1 = false) (hturn : t.Turn (n + 1) p p') :
    (p'.1 = false ↔ (n + 1 ∈ m.dumpdirmap → t.LeftAlone m (n + 1))) ∧
      (p'.1 = false → t.Quiet m (n + 1) p'.2) := by
  cases hturn with
  | skip hino =>
    have hnot : n + 1 ∉ m.dumpdirmap := fun hin => by
      have hdown := hino ((h.dumpdirmap _).mpr ⟨hin, .inr (Nat.lt_succ_self n)⟩)
      rw [hdown.1] at hchange
      cases hchange
    refine ⟨iff_of_true hchange fun hin => absurd hin hnot, fun _ =>
      ⟨fun e he hu hle => h.leaf e he hu ?_, h.usedinomap, fun i => (h.dumpdirmap i).trans ?_,
        fun i => (h.dumpinomap i).trans ?_⟩⟩
    · have hne : e ≠ n + 1 := fun heq => hnot (heq ▸ he)
      omega
    · refine and_congr_right fun hin => or_congr_right ?_
      have hne : i ≠ n + 1 := fun heq => hnot (heq ▸ hin)
      omega
    · refine and_congr_right fun _ => forall₂_congr fun e he => imp_congr_right fun _ => ?_
      have hne : e ≠ n + 1 := fun heq => hnot (heq ▸ he)
      rw [Nat.le_succ_iff]
      simp [hne]
  | step hino hstep =>
    have hin : n + 1 ∈ m.dumpdirmap := ((h.dumpdirmap _).mp hino).1
    have hdumped := h.dumpinomap_dirs (hm hin)
    have hold : ∀ c ∈ m.dumpinomap, c ∉ p.2.dumpinomap →
        ∃ e ∈ m.dumpdirmap, e ∉ m.usedinomap ∧ e < n + 1 ∧ c ∈ t.children e := by
      intro c hc hout
      by_contra hnone
      refine hout ((h.dumpinomap c).mpr ⟨hc, fun e he hu hle hchild => hnone ?_⟩)
      exact ⟨e, he, hu, Nat.lt_succ_of_le hle, hchild⟩
    have hquiet : n + 1 ∈ m.usedinomap → t.Quiet m (n + 1) p.2 := by
      intro hu
      refine ⟨fun e he hue hle => h.leaf e he hue ?_, h.usedinomap,
        fun i => (h.dumpdirmap i).trans ?_, fun i => (h.dumpinomap i).trans ?_⟩
      · have hne : e ≠ n + 1 := fun heq => hue (heq ▸ hu)
        omega
      · refine and_congr_right fun _ => ?_
        by_cases heq : i = n + 1
        · simp [heq, hu]
        · refine or_congr_right ?_
          omega
      · refine and_congr_right fun _ => forall₂_congr fun e he => imp_congr_right fun hue => ?_
        have hne : e ≠ n + 1 := fun heq => hue (heq ▸ hu)
        rw [Nat.le_succ_iff]
        simp [hne]
    cases hstep with
    | keep _ hused hchildren =>
      rw [h.usedinomap] at hused
      refine ⟨iff_of_true hchange fun _ => ⟨fun hu => absurd hused hu, fun _ hout c hc hcin => ?_,
        fun _ hout => ?_⟩, fun _ => hquiet hused⟩
      · exact hold c hcin ((hchildren (mt hdumped.mp hout)).1 c hc)
      · obtain ⟨c, hc, hcin⟩ := (hchildren (mt hdumped.mp hout)).2
        exact ⟨c, hc, (h.dumpdirmap c).mp hcin⟩
    | dump change m₁ size hused hdump hchild =>
      rw [h.usedinomap] at hused
      refine ⟨iff_of_false (by simp) fun hleft => ?_, fun hfalse => ?_⟩
      · obtain ⟨c, hc, hcin⟩ := hchild
        obtain ⟨hcm, hnone⟩ := (h.dumpinomap c).mp hcin
        obtain ⟨e, he, hu, hlt, hce⟩ :=
          (hleft hin).undumped hused (mt hdumped.mpr hdump) c hc hcm
        exact hnone e he hu (Nat.le_of_lt_succ hlt) hce
      · cases hfalse
    | drop change m₁ hused hdump hchildren =>
      rw [h.usedinomap] at hused
      refine ⟨iff_of_false (by simp) fun hleft => ?_, fun hfalse => ?_⟩
      · obtain ⟨c, hc, hcin⟩ := (hleft hin).subdir hused (mt hdumped.mpr hdump)
        exact (hchildren c hc).2 ((h.dumpdirmap c).mpr hcin)
      · cases hfalse
    | nodump change m₁ size hused =>
      have hu : n + 1 ∉ m.usedinomap := h.usedinomap ▸ hused
      have hsub : (change || decide (t.subdirs (n + 1)).Nonempty) = false ↔
          t.subdirs (n + 1) = ∅ := by
        simp only at hchange
        simp [hchange, Finset.not_nonempty_iff_eq_empty]
      refine ⟨hsub.trans ⟨fun hempty _ => ⟨fun _ => hempty, fun hin => absurd hin hu,
        fun hin => absurd hin hu⟩, fun hleft => (hleft hin).nodump hu⟩, fun hfalse => ?_⟩
      have hempty := hsub.mp hfalse
      refine ⟨fun e he hue hle => ?_, ?_, fun i => ?_, fun i => ?_⟩
      · rcases Nat.le_succ_iff.mp hle with hle | rfl
        · exact h.leaf e he hue hle
        · exact hempty
      · simp only [MapFs.inherit, hempty, Finset.sdiff_empty]
        exact h.usedinomap
      · have hi := h.dumpdirmap i
        simp only [hempty, Finset.union_empty, Finset.mem_erase] at hi ⊢
        rw [hi]
        by_cases heq : i = n + 1
        · simp [heq, hu]
        · have hlt : n < i ↔ n + 1 < i := by omega
          simp [heq, hlt]
      · have hi := h.dumpinomap i
        simp only [MapFs.inherit, Finset.mem_sdiff] at hi ⊢
        rw [hi, and_assoc]
        refine and_congr_right fun _ => ⟨fun hnone e he hue hle => ?_, fun hnone =>
          ⟨fun e he hue hle => hnone e he hue (hle.trans (Nat.le_succ n)),
            hnone (n + 1) hin hu le_rfl⟩⟩
        rcases Nat.le_succ_iff.mp hle with hle | rfl
        · exact hnone.1 e he hue hle
        · exact hnone.2

/-- **A pass makes no change** just when every directory is left alone. -/
theorem Pass.quiet (hm : m.dumpdirmap ⊆ t.dirs) {p : Bool × InodeMaps} (hpass : t.Pass m n p) :
    (p.1 = false ↔ ∀ d ∈ m.dumpdirmap, d ≤ n → t.LeftAlone m d) ∧
      (p.1 = false → t.Quiet m n p.2) := by
  induction hpass with
  | start =>
    have hpos : ∀ d ∈ m.dumpdirmap, ¬d ≤ 0 := by
      intro d hd hle
      have hicc := (Finset.mem_filter.mp (Finset.mem_filter.mp (hm hd)).1).1
      have hone := (Finset.mem_Icc.mp hicc).1
      omega
    refine ⟨iff_of_true rfl fun d hd hle => absurd hle (hpos d hd), fun _ => ⟨?_, rfl, ?_, ?_⟩⟩
    · exact fun e he _ hle => absurd hle (hpos e he)
    · exact fun i => ⟨fun hin => ⟨hin, .inr (Nat.pos_of_ne_zero fun h => hpos i hin h.le)⟩,
        And.left⟩
    · exact fun i => ⟨fun hin => ⟨hin, fun e he _ hle => absurd hle (hpos e he)⟩, And.left⟩
  | @turn n p p' hpass hturn ih =>
    by_cases hchange : p.1 = false
    · obtain ⟨hiff, hquiet⟩ := (ih.2 hchange).turn hm hchange hturn
      refine ⟨hiff.trans ⟨fun hleft d hd hle => ?_, fun hall hin => hall _ hin le_rfl⟩, hquiet⟩
      rcases Nat.le_succ_iff.mp hle with hle | rfl
      · exact ih.1.mp hchange d hd hle
      · exact hleft hd
    · have htrue : p'.1 = true := by
        have hp : p.1 = true := by simpa using hchange
        cases hturn with
        | skip => exact hp
        | step _ hstep => exact change_mono hstep hp
      refine ⟨iff_of_false (by simp [htrue]) fun hall => hchange (ih.1.mpr fun d hd hle =>
        hall d hd (hle.trans (Nat.le_succ n))), fun hfalse => absurd hfalse (by simp [htrue])⟩

end DirTree

end DumpRestore
