import DumpRestore.Dump.MapPasses

/-!
# Which inodes the mapping passes select

On a tree of directories the passes come to an end, and then the maps have what an incremental dump
needs: everything that changed and may be dumped, nothing below a directory that is excluded, and
with every inode the directories above it.

* `exists_mapPasses` is the rule for all passes, by the measure of `Pass.measure_lt`.
* `mapping_selects`: what is selected.
-/

namespace DumpRestore

namespace DirTree

variable {t : DirTree} {m : InodeMaps} {n : ℕ} {p : Bool × InodeMaps}

/-! ## The end of the passes -/

theorem Pass.mapped (h : t.Mapped m) (hpass : t.Pass m n p) : t.Mapped p.2 := by
  induction hpass with
  | start => exact h
  | turn _ hturn ih =>
    cases hturn with
    | skip => exact ih
    | step hino hstep => exact ih.step hino hstep

/-- **A pass that reports a change makes the measure smaller.** -/
theorem Pass.measure_lt (h : t.Mapped m) (hpass : t.Pass m n p) :
    t.measure p.2 ≤ t.measure m ∧ (p.1 = true → t.measure p.2 < t.measure m) := by
  induction hpass with
  | start => exact ⟨le_rfl, fun h => by cases h⟩
  | turn hpass hturn ih =>
    cases hturn with
    | skip => exact ih
    | step hino hstep =>
      obtain ⟨hle, hlt⟩ := DirTree.measure_lt (hpass.mapped h) hino hstep
      refine ⟨hle.trans ih.1, fun hchange => ?_⟩
      rcases hlt hchange with hold | hnew
      · exact hle.trans_lt (ih.2 hold)
      · exact hnew.trans_le ih.1

/-- **The passes come to an end.** What holds before the first pass and is kept by every pass holds
in the end. -/
theorem exists_mapPasses {P : Bool → InodeMaps → Prop}
    (hP : ∀ m, t.Mapped m → P true m → P (t.mapdirs m).1 (t.mapdirs m).2) (change : Bool)
    (h : t.Mapped m) (hm : P change m) :
    ∃ fuel m', t.mapPasses fuel (change, m) = some m' ∧ t.Mapped m' ∧ P false m' := by
  induction hn : t.measure m using Nat.strong_induction_on generalizing change m with
  | _ k ih =>
    cases change with
    | false => exact ⟨1, m, rfl, h, hm⟩
    | true =>
      have hpass := t.pass_mapdirs h.dumpdirmap
      have hmapped := hpass.mapped h
      have hnext := hP m h hm
      have hlt := (hpass.measure_lt h).2
      have hrun : ∀ fuel, t.mapPasses (fuel + 1) (true, m) = t.mapPasses fuel (t.mapdirs m) :=
        fun _ => rfl
      generalize t.mapdirs m = q at hmapped hnext hlt hrun
      obtain ⟨c, m₁⟩ := q
      cases c with
      | false => exact ⟨2, m₁, hrun 1, hmapped, hnext⟩
      | true =>
        obtain ⟨fuel, m', hrest, hend⟩ := ih _ (hn ▸ hlt rfl) true hmapped hnext rfl
        exact ⟨fuel + 1, m', (hrun fuel).trans hrest, hend⟩

variable (t) in
/-- What a pass without a change leaves for every directory. -/
structure Settled (m : InodeMaps) : Prop where
  nodump : ∀ d ∈ t.dirs, d ∉ m.usedinomap → d ∉ m.dumpdirmap
  undumped : ∀ d ∈ t.dirs, d ∈ m.dumpdirmap → d ∉ m.dumpinomap →
    ∀ c ∈ t.children d, c ∉ m.dumpinomap

theorem le_sInodesCount {d : ℕ} (hd : d ∈ t.dirs) : d ≤ t.fs.sInodesCount :=
  (Finset.mem_Icc.mp (Finset.mem_filter.mp (Finset.mem_filter.mp hd).1).1).2

/-- A pass without a change, in the end. -/
theorem quiet_mapdirs (h : m.dumpdirmap ⊆ t.dirs) (hchange : (t.mapdirs m).1 = false) :
    (∀ d ∈ m.dumpdirmap, t.LeftAlone m d) ∧ t.Quiet m t.fs.sInodesCount (t.mapdirs m).2 := by
  obtain ⟨hiff, hquiet⟩ := (t.pass_mapdirs h).quiet h
  exact ⟨fun d hd => hiff.mp hchange d hd (le_sInodesCount (h hd)), hquiet hchange⟩

theorem settled_mapdirs (h : t.Mapped m) (hchange : (t.mapdirs m).1 = false) :
    t.Settled (t.mapdirs m).2 := by
  obtain ⟨hleft, hquiet⟩ := quiet_mapdirs h.dumpdirmap hchange
  constructor
  · intro d hd hu hin
    rw [hquiet.usedinomap] at hu
    rcases ((hquiet.dumpdirmap d).mp hin).2 with hused | hlt
    · exact hu hused
    · exact absurd (le_sInodesCount hd) (Nat.not_le_of_lt hlt)
  · intro d hd hin hout c hc hcin
    obtain ⟨hin', hused | hlt⟩ := (hquiet.dumpdirmap d).mp hin
    · obtain ⟨hcin', hnone⟩ := (hquiet.dumpinomap c).mp hcin
      have hout' := mt (hquiet.dumpinomap_dirs hd).mpr hout
      obtain ⟨e, he, hue, hlt, hce⟩ := (hleft d hin').undumped hused hout' c hc hcin'
      exact hnone e he hue (hlt.le.trans (le_sInodesCount hd)) hce
    · exact absurd (le_sInodesCount hd) (Nat.not_le_of_lt hlt)

/-- When `mapfiles` skips no directory then every directory is dumped. -/
theorem forall_dirs_of_mapfiles (hskip : (t.mapfiles t.excludes).1 = false) {d : ℕ}
    (hd : d ∈ t.dirs) : t.csince d = true ∧ ¬t.Excluded d := by
  by_contra hcon
  have htrue := t.mapFiles_mapfiles.dirskipped.mpr ⟨d, hd, hcon⟩
  rw [hskip] at htrue
  cases htrue

theorem settled_mapfiles (hskip : (t.mapfiles t.excludes).1 = false) :
    t.Settled (t.mapfiles t.excludes).2 := by
  have h := t.mapFiles_mapfiles
  have hall := fun d hd => forall_dirs_of_mapfiles (t := t) hskip (d := d) hd
  have hino := fun d (hd : d ∈ t.dirs) => (Finset.mem_filter.mp hd).1
  refine ⟨fun d hd hu => absurd ((h.usedinomap d).mpr ⟨hino d hd, fun hex => ?_⟩) hu,
    fun d hd _ hout => absurd ((h.dumpinomap d).mpr (.inr ⟨hino d hd, hall d hd⟩)) hout⟩
  exact (hall d hd).2 hex.2

/-- Nothing below a directory that is not to be dumped is dumped. -/
theorem Settled.below (h : t.Mapped m) (hs : t.Settled m) {d i : ℕ} (hd : d ∈ t.dirs)
    (hu : d ∉ m.usedinomap) (habove : t.Above d i) :
    i ∉ m.dumpinomap ∧ (i ∈ t.dirs → i ∉ m.usedinomap) := by
  induction habove with
  | single hchild => exact h.searched d hd hu (hs.nodump d hd hu) _ hchild.2
  | tail _ hchild ih =>
    have hu' := ih.2 hchild.1
    exact h.searched _ hchild.1 hu' (hs.nodump _ hchild.1 hu') _ hchild.2

/-- A directory with something dumped in it is dumped. -/
theorem Settled.child (h : t.Mapped m) (hs : t.Settled m) {d i : ℕ} (hchild : t.Child d i)
    (hi : i ∈ m.dumpinomap) : d ∈ m.dumpinomap ∧ d ∈ m.dumpdirmap := by
  obtain ⟨hd, hc⟩ := hchild
  have hu : d ∈ m.usedinomap := by_contra fun hu =>
    (h.searched d hd hu (hs.nodump d hd hu) i hc).1 hi
  have hin : d ∈ m.dumpdirmap := by_contra fun hout => (h.forgotten d hd hu hout i hc).1 hi
  exact ⟨by_contra fun hout => hs.undumped d hd hin hout i hc hi, hin⟩

variable (t) in
/-- **What the mapping passes select.** They come to an end; then everything that changed and may
be dumped is in `dumpinomap`, nothing below an excluded directory is, and the directories above
what is in `dumpinomap` are in both maps. -/
theorem mapping_selects : ∃ fuel m, t.mapPasses fuel (t.mapfiles t.excludes) = some m ∧
    (∀ i, t.Wanted i → i ∈ m.dumpinomap) ∧
    (∀ d i, t.Excluded d → t.Above d i → i ∉ m.dumpinomap) ∧
    (∀ d i, i ∈ m.dumpinomap → t.Above d i → d ∈ m.dumpinomap ∧ d ∈ m.dumpdirmap) := by
  obtain ⟨fuel, m, hrun, h, hs⟩ := exists_mapPasses (t := t)
    (P := fun change m => change = false → t.Settled m) (fun m h _ => settled_mapdirs h) _
    t.mapped_mapfiles settled_mapfiles
  have hs := hs rfl
  refine ⟨fuel, m, hrun, h.wanted, fun d i hex habove => ?_, fun d i hi habove => ?_⟩
  · have hd : d ∈ t.dirs := by
      rcases Relation.TransGen.head'_iff.mp habove with ⟨c, hchild, -⟩
      exact hchild.1
    exact (hs.below h hd (h.excluded d hd hex) habove).1
  · induction habove using Relation.TransGen.head_induction_on with
    | single hchild => exact hs.child h hchild hi
    | head hchild _ ih => exact hs.child h hchild ih.1

end DirTree

end DumpRestore
