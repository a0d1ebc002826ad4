import DumpRestore.Dump.InodeMaps
import Mathlib.Logic.Relation
import Mathlib.Algebra.Order.BigOperators.Group.Finset
import Mathlib.Algebra.BigOperators.Ring.Finset
import Mathlib.Order.Interval.Finset.Nat
import Mathlib.Order.Lattice.Nat

/-!
# The law of the inode maps

What every turn of the mapping passes keeps on a tree of directories, and why the turns come to an
end.

* `Mapped` is the law of the maps. Directories that are not to be dumped hand that down one level in
  each turn, in no particular order of inode numbers, so the law speaks of the directories whose
  turn is still to come.
* `Mapped.step`: every turn keeps the law.
* `measure_lt`: every turn that reports a change makes a measure smaller.
-/

namespace DumpRestore

namespace MapFs

variable (t : MapFs)

/-- The inodes that `mapfileino` does not skip. -/
def InUse (ino : ℕ) : Prop :=
  ifmt (t.getino ino).diMode ≠ 0 ∧ (t.getino ino).diNlink ≠ 0 ∧ (t.getino ino).diDtime = 0

instance (ino : ℕ) : Decidable (t.InUse ino) := inferInstanceAs (Decidable (_ ∧ _ ∧ _))

/-- The inodes of the filesystem. -/
def inodes : Finset ℕ := (Finset.Icc 1 t.fs.sInodesCount).filter fun ino => t.InUse ino

/-- The directories of the filesystem. -/
def dirs : Finset ℕ := t.inodes.filter fun ino => t.isDir ino

/-- The directory `d` has an entry for `c`. -/
def Child (d c : ℕ) : Prop := d ∈ t.dirs ∧ c ∈ t.children d

/-- The directory `d` is above the inode `i`. -/
def Above : ℕ → ℕ → Prop := Relation.TransGen t.Child

end MapFs

/-- A filesystem whose directories form a tree. Other inodes may have entries in several
directories. The inodes in `excludes` are excluded by options of the dump. -/
structure DirTree extends MapFs where
  excludes : Finset ℕ
  depth : ℕ → ℕ
  root : rootino ∈ toMapFs.dirs
  root_top : ∀ d ∈ toMapFs.dirs, rootino ∉ toMapFs.subdirs d
  child_inodes : ∀ d ∈ toMapFs.dirs, toMapFs.children d ⊆ toMapFs.inodes
  depth_subdir : ∀ d ∈ toMapFs.dirs, ∀ c ∈ toMapFs.subdirs d, depth c = depth d + 1
  parent_unique : ∀ d ∈ toMapFs.dirs, ∀ d' ∈ toMapFs.dirs, ∀ c ∈ toMapFs.subdirs d,
    c ∈ toMapFs.subdirs d' → d = d'

namespace DirTree

variable (t : DirTree)

/-- An inode is excluded by an option or by its flag. -/
def Excluded (ino : ℕ) : Prop := ino ∈ t.excludes ∨ t.nodumpFlag ino = true

instance (ino : ℕ) : Decidable (t.Excluded ino) := inferInstanceAs (Decidable (_ ∨ _))

/-- What is to be dumped: inodes that changed, with nothing excluded on any way to them. -/
structure Wanted (ino : ℕ) : Prop where
  inodes : ino ∈ t.inodes
  csince : t.csince ino = true
  kept : ¬t.Excluded ino
  above : ∀ d, t.Above d ino → ¬t.Excluded d

theorem subdirs_subset {d : ℕ} (hd : d ∈ t.dirs) : t.subdirs d ⊆ t.dirs := by
  intro c hc
  obtain ⟨hc, hdir⟩ := Finset.mem_filter.mp hc
  exact Finset.mem_filter.mpr ⟨t.child_inodes d hd hc, hdir⟩

theorem mem_subdirs {d c : ℕ} (hc : c ∈ t.children d) (hdir : c ∈ t.dirs) : c ∈ t.subdirs d :=
  Finset.mem_filter.mpr ⟨hc, (Finset.mem_filter.mp hdir).2⟩

theorem subdirs_child {d c : ℕ} (hc : c ∈ t.subdirs d) : c ∈ t.children d :=
  (Finset.mem_filter.mp hc).1

/-! ## The law of the maps -/

/-- The law of the maps between two turns. A directory is not to be dumped when its bit in
`usedinomap` is clear; its turn is still to come when its bit in `dumpdirmap` is set. The root is
in `dumpinomap` in any case. -/
structure Mapped (m : InodeMaps) : Prop where
  dumpdirmap : m.dumpdirmap ⊆ t.dirs
  dumpinomap : m.dumpinomap ⊆ t.inodes
  root : rootino ∈ m.dumpinomap
  used : ∀ d ∈ t.dirs, d ∈ m.dumpinomap → d ∈ m.usedinomap ∨ d = rootino
  dumped : ∀ d ∈ t.dirs, d ∈ m.dumpinomap → d ∈ m.usedinomap → d ∈ m.dumpdirmap
  forgotten : ∀ d ∈ t.dirs, d ∈ m.usedinomap → d ∉ m.dumpdirmap →
    ∀ c ∈ t.children d, c ∉ m.dumpinomap ∧ c ∉ m.dumpdirmap
  searched : ∀ d ∈ t.dirs, d ∉ m.usedinomap → d ∉ m.dumpdirmap →
    ∀ c ∈ t.children d, c ∉ m.dumpinomap ∧ (c ∈ t.dirs → c ∉ m.usedinomap)
  nodump : ∀ d ∈ t.dirs, d ∉ m.usedinomap → t.Excluded d ∨ ∃ e, t.Above e d ∧ t.Excluded e
  excluded : ∀ d ∈ t.dirs, t.Excluded d → d ∉ m.usedinomap
  wanted : ∀ i, t.Wanted i → i ∈ m.dumpinomap

variable {t}

/-- **The law is kept** by every turn of the loop of `mapdirs`. -/
theorem Mapped.step {ino : ℕ} {p p' : Bool × InodeMaps} (h : t.Mapped p.2)
    (hino : ino ∈ p.2.dumpdirmap) (hstep : t.MapStep ino p p') : t.Mapped p'.2 := by
  have hdir : ino ∈ t.dirs := h.dumpdirmap hino
  cases hstep with
  | keep => exact h
  | dump change m n hused hdump hchild =>
    refine ⟨h.dumpdirmap, Finset.insert_subset (Finset.mem_filter.mp hdir).1 h.dumpinomap,
      Finset.mem_insert_of_mem h.root, fun d hd hin => ?_, fun d hd hin hu => ?_,
      fun d hd hu hout c hc => ?_, fun d hd hu hout c hc => ?_, h.nodump, h.excluded,
      fun i hi => Finset.mem_insert_of_mem (h.wanted i hi)⟩
    · rcases Finset.mem_insert.mp hin with rfl | hin
      · exact .inl hused
      · exact h.used d hd hin
    · rcases Finset.mem_insert.mp hin with rfl | hin
      · exact hino
      · exact h.dumped d hd hin hu
    · obtain ⟨hnot, hnot'⟩ := h.forgotten d hd hu hout c hc
      refine ⟨fun hin => ?_, hnot'⟩
      rcases Finset.mem_insert.mp hin with rfl | hin
      · exact hnot' hino
      · exact hnot hin
    · obtain ⟨hnot, hsub⟩ := h.searched d hd hu hout c hc
      refine ⟨fun hin => ?_, hsub⟩
      rcases Finset.mem_insert.mp hin with rfl | hin
      · exact hsub hdir hused
      · exact hnot hin
  | drop change m hused hdump hchildren =>
    refine ⟨fun d hd => h.dumpdirmap (Finset.mem_of_mem_erase hd), h.dumpinomap, h.root, h.used,
      fun d hd hin hu => ?_, fun d hd hu hout c hc => ?_, fun d hd hu hout c hc => ?_, h.nodump,
      h.excluded, h.wanted⟩
    · refine Finset.mem_erase.mpr ⟨?_, h.dumped d hd hin hu⟩
      rintro rfl
      exact hdump hin
    · by_cases heq : d = ino
      · subst heq
        exact ⟨(hchildren c hc).1, fun hin => (hchildren c hc).2 (Finset.mem_of_mem_erase hin)⟩
      · obtain ⟨hnot, hnot'⟩ := h.forgotten d hd hu
          (fun hin => hout (Finset.mem_erase.mpr ⟨heq, hin⟩)) c hc
        exact ⟨hnot, fun hin => hnot' (Finset.mem_of_mem_erase hin)⟩
    · refine h.searched d hd hu (fun hin => hout (Finset.mem_erase.mpr ⟨?_, hin⟩)) c hc
      rintro rfl
      exact hu hused
  | nodump change m n hused =>
    have hsub := t.subdirs_subset hdir
    have hnew : ∀ d, d ∈ m.usedinomap → d ∉ m.usedinomap \ t.subdirs ino → d ∈ t.subdirs ino := by
      intro d hu hd
      by_contra hcon
      exact hd (Finset.mem_sdiff.mpr ⟨hu, hcon⟩)
    refine ⟨?_, ?_, ?_, ?_, ?_, ?_, ?_, ?_, ?_, ?_⟩
    · intro d hd
      rcases Finset.mem_union.mp (Finset.mem_of_mem_erase hd) with hd | hd
      · exact h.dumpdirmap hd
      · exact hsub hd
    · exact Finset.sdiff_subset.trans h.dumpinomap
    · exact Finset.mem_sdiff.mpr
        ⟨h.root, fun hc => t.root_top ino hdir (t.mem_subdirs hc t.root)⟩
    · intro d hd hin
      obtain ⟨hin, hchild⟩ := Finset.mem_sdiff.mp hin
      exact (h.used d hd hin).imp_left fun hu =>
        Finset.mem_sdiff.mpr ⟨hu, fun hs => hchild (t.subdirs_child hs)⟩
    · intro d hd hin hu
      have hold : d ∈ m.usedinomap := (Finset.mem_sdiff.mp hu).1
      refine Finset.mem_erase.mpr ⟨?_, Finset.mem_union_left _
        (h.dumped d hd (Finset.mem_sdiff.mp hin).1 hold)⟩
      rintro rfl
      exact hused hold
    · intro d hd hu hout c hc
      have hold : d ∈ m.usedinomap := (Finset.mem_sdiff.mp hu).1
      have hne : d ≠ ino := by
        rintro rfl
        exact hused hold
      have hout' : d ∉ m.dumpdirmap := fun hin =>
        hout (Finset.mem_erase.mpr ⟨hne, Finset.mem_union_left _ hin⟩)
      obtain ⟨hc1, hc2⟩ := h.forgotten d hd hold hout' c hc
      refine ⟨fun hin => hc1 (Finset.mem_sdiff.mp hin).1, fun hin => ?_⟩
      rcases Finset.mem_union.mp (Finset.mem_of_mem_erase hin) with hin | hin
      · exact hc2 hin
      · exact hne (t.parent_unique d hd ino hdir c (t.mem_subdirs hc (hsub hin)) hin)
    · intro d hd hu hout c hc
      by_cases heq : d = ino
      · subst heq
        exact ⟨fun hin => (Finset.mem_sdiff.mp hin).2 hc,
          fun hcd hin => (Finset.mem_sdiff.mp hin).2 (t.mem_subdirs hc hcd)⟩
      · have hold : d ∉ m.usedinomap := fun hin => hout (Finset.mem_erase.mpr
          ⟨heq, Finset.mem_union_right _ (hnew d hin hu)⟩)
        obtain ⟨hc1, hc2⟩ := h.searched d hd hold (fun hin => hout
          (Finset.mem_erase.mpr ⟨heq, Finset.mem_union_left _ hin⟩)) c hc
        exact ⟨fun hin => hc1 (Finset.mem_sdiff.mp hin).1,
          fun hcd hin => hc2 hcd (Finset.mem_sdiff.mp hin).1⟩
    · intro d hd hu
      by_cases hold : d ∈ m.usedinomap
      · have hchild : t.Child ino d := ⟨hdir, t.subdirs_child (hnew d hold hu)⟩
        rcases h.nodump ino hdir hused with hex | ⟨e, habove, hex⟩
        · exact .inr ⟨ino, .single hchild, hex⟩
        · exact .inr ⟨e, .tail habove hchild, hex⟩
      · exact h.nodump d hd hold
    · exact fun d hd hex hin => h.excluded d hd hex (Finset.mem_sdiff.mp hin).1
    · intro i hi
      refine Finset.mem_sdiff.mpr ⟨h.wanted i hi, fun hchild => ?_⟩
      have hc : t.Child ino i := ⟨hdir, hchild⟩
      rcases h.nodump ino hdir hused with hex | ⟨e, habove, hex⟩
      · exact hi.above ino (.single hc) hex
      · exact hi.above e (.tail habove hc) hex

/-! ## Termination -/

variable (t)

/-- The greatest depth of a directory. -/
def maxDepth : ℕ := t.dirs.sup t.depth

/-- The weight of a directory that is not to be dumped and whose turn is still to come: more than
that of all its subdirectories. -/
def weight (d : ℕ) : ℕ := (t.fs.sInodesCount + 1) ^ (t.maxDepth - t.depth d)

theorem card_subdirs_le {d : ℕ} (hd : d ∈ t.dirs) : (t.subdirs d).card ≤ t.fs.sInodesCount := by
  have hsub : t.subdirs d ⊆ Finset.Icc 1 t.fs.sInodesCount := fun c hc =>
    (Finset.mem_filter.mp (Finset.mem_filter.mp (t.subdirs_subset hd hc)).1).1
  simpa using Finset.card_le_card hsub

theorem sum_weight_subdirs_lt {d : ℕ} (hd : d ∈ t.dirs) :
    ∑ c ∈ t.subdirs d, t.weight c < t.weight d := by
  have hpos : 0 < t.weight d := Nat.pow_pos (Nat.succ_pos _)
  rcases (t.subdirs d).eq_empty_or_nonempty with hempty | ⟨c, hc⟩
  · rwa [hempty, Finset.sum_empty]
  · have hdepth : t.depth d + 1 ≤ t.maxDepth := by
      rw [← t.depth_subdir d hd c hc]
      exact Finset.le_sup (f := t.depth) (t.subdirs_subset hd hc)
    have heach : ∀ c ∈ t.subdirs d,
        t.weight c = (t.fs.sInodesCount + 1) ^ (t.maxDepth - t.depth d - 1) := by
      intro c hc
      rw [weight, t.depth_subdir d hd c hc, Nat.sub_sub]
    calc ∑ c ∈ t.subdirs d, t.weight c
        = (t.subdirs d).card * (t.fs.sInodesCount + 1) ^ (t.maxDepth - t.depth d - 1) := by
          rw [Finset.sum_congr rfl heach, Finset.sum_const, nsmul_eq_mul, Nat.cast_id]
      _ < (t.fs.sInodesCount + 1) * (t.fs.sInodesCount + 1) ^ (t.maxDepth - t.depth d - 1) :=
          Nat.mul_lt_mul_of_pos_right (Nat.lt_succ_of_le (t.card_subdirs_le hd))
            (Nat.pow_pos (Nat.succ_pos _))
      _ = t.weight d := by
          rw [← Nat.pow_succ', weight]
          congr 1
          omega

/-- What the passes have still to do: directories that hand down that they are not to be dumped,
directories that may be added, and directories that may be forgotten. -/
def measure (m : InodeMaps) : ℕ :=
  ∑ d ∈ m.dumpdirmap \ m.usedinomap, t.weight d +
    ((t.dirs ∩ m.usedinomap) \ m.dumpinomap).card + (m.dumpdirmap ∩ m.usedinomap).card

/-- **Every change makes the measure smaller**, and no turn makes it greater. -/
theorem measure_lt {t : DirTree} {ino : ℕ} {p p' : Bool × InodeMaps} (h : t.Mapped p.2)
    (hino : ino ∈ p.2.dumpdirmap) (hstep : t.MapStep ino p p') :
    t.measure p'.2 ≤ t.measure p.2 ∧
      (p'.1 = true → p.1 = true ∨ t.measure p'.2 < t.measure p.2) := by
  have hdir : ino ∈ t.dirs := h.dumpdirmap hino
  cases hstep with
  | keep => exact ⟨le_rfl, .inl⟩
  | dump change m n hused hdump hchild =>
    have hlt : ((t.dirs ∩ m.usedinomap) \ insert ino m.dumpinomap).card <
        ((t.dirs ∩ m.usedinomap) \ m.dumpinomap).card := by
      refine Finset.card_lt_card (Finset.ssubset_iff_of_subset ?_ |>.mpr ⟨ino, ?_, ?_⟩)
      · exact Finset.sdiff_subset_sdiff le_rfl (Finset.subset_insert _ _)
      · exact Finset.mem_sdiff.mpr ⟨Finset.mem_inter.mpr ⟨hdir, hused⟩, hdump⟩
      · simp
    have hmeasure : t.measure { m with dumpinomap := insert ino m.dumpinomap, tapesize := n } <
        t.measure m := by
      simp only [measure]
      omega
    exact ⟨hmeasure.le, fun _ => .inr hmeasure⟩
  | drop change m hused hdump hchildren =>
    have hsame : m.dumpdirmap.erase ino \ m.usedinomap = m.dumpdirmap \ m.usedinomap := by
      ext d
      simp only [Finset.mem_sdiff, Finset.mem_erase]
      refine ⟨fun hd => ⟨hd.1.2, hd.2⟩, fun hd => ⟨⟨?_, hd.1⟩, hd.2⟩⟩
      rintro rfl
      exact hd.2 hused
    have hlt : (m.dumpdirmap.erase ino ∩ m.usedinomap).card <
        (m.dumpdirmap ∩ m.usedinomap).card := by
      refine Finset.card_lt_card (Finset.ssubset_iff_of_subset ?_ |>.mpr ⟨ino, ?_, ?_⟩)
      · exact Finset.inter_subset_inter_right (Finset.erase_subset _ _)
      · exact Finset.mem_inter.mpr ⟨hino, hused⟩
      · simp
    have hmeasure : t.measure { m with dumpdirmap := m.dumpdirmap.erase ino } < t.measure m := by
      simp only [measure, hsame]
      omega
    exact ⟨hmeasure.le, fun _ => .inr hmeasure⟩
  | nodump change m n hused =>
    have hsum : ∑ d ∈ (m.dumpdirmap ∪ t.subdirs ino).erase ino \ (m.usedinomap \ t.subdirs ino),
        t.weight d < ∑ d ∈ m.dumpdirmap \ m.usedinomap, t.weight d := by
      have hsub : (m.dumpdirmap ∪ t.subdirs ino).erase ino \ (m.usedinomap \ t.subdirs ino) ⊆
          (m.dumpdirmap \ m.usedinomap).erase ino ∪ t.subdirs ino := by
        intro d hd
        simp only [Finset.mem_sdiff, Finset.mem_erase, Finset.mem_union, not_and, not_not] at hd ⊢
        tauto
      calc ∑ d ∈ (m.dumpdirmap ∪ t.subdirs ino).erase ino \ (m.usedinomap \ t.subdirs ino),
            t.weight d
          ≤ ∑ d ∈ (m.dumpdirmap \ m.usedinomap).erase ino ∪ t.subdirs ino, t.weight d :=
            Finset.sum_le_sum_of_subset hsub
        _ ≤ ∑ d ∈ (m.dumpdirmap \ m.usedinomap).erase ino, t.weight d +
              ∑ d ∈ t.subdirs ino, t.weight d := by
            rw [← Finset.sum_union_inter]
            exact Nat.le_add_right _ _
        _ < ∑ d ∈ (m.dumpdirmap \ m.usedinomap).erase ino, t.weight d + t.weight ino :=
            Nat.add_lt_add_left (t.sum_weight_subdirs_lt hdir) _
        _ = ∑ d ∈ m.dumpdirmap \ m.usedinomap, t.weight d :=
            Finset.sum_erase_add _ _ (Finset.mem_sdiff.mpr ⟨hino, hused⟩)
    have hadd : ((t.dirs ∩ (m.usedinomap \ t.subdirs ino)) \
        (m.dumpinomap \ t.children ino)).card ≤
        ((t.dirs ∩ m.usedinomap) \ m.dumpinomap).card := by
      refine Finset.card_le_card fun d hd => ?_
      simp only [Finset.mem_inter, Finset.mem_sdiff, not_and, not_not] at hd ⊢
      exact ⟨⟨hd.1.1, hd.1.2.1⟩, fun hin => hd.1.2.2 (t.mem_subdirs (hd.2 hin) hd.1.1)⟩
    have hinter : ((m.dumpdirmap ∪ t.subdirs ino).erase ino ∩ (m.usedinomap \ t.subdirs ino)).card ≤
        (m.dumpdirmap ∩ m.usedinomap).card := by
      refine Finset.card_le_card fun d hd => ?_
      simp only [Finset.mem_inter, Finset.mem_erase, Finset.mem_union, Finset.mem_sdiff] at hd ⊢
      exact ⟨hd.1.2.resolve_right hd.2.2, hd.2.1⟩
    have hmeasure : t.measure { MapFs.inherit m (t.children ino) (t.subdirs ino) n with
        dumpdirmap := (m.dumpdirmap ∪ t.subdirs ino).erase ino } < t.measure m := by
      simp only [measure, MapFs.inherit]
      omega
    exact ⟨hmeasure.le, fun _ => .inr hmeasure⟩

end DirTree

end DumpRestore
