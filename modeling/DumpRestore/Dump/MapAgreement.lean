import DumpRestore.Dump.Selection

/-!
# The two maps of directories

Pass III dumps the directories in `dumpdirmap`, and the map on tape announces the inodes in
`dumpinomap`. The mapping passes end with the same directories in both, with two exceptions. An
excluded root stays in `dumpinomap`. And when the first pass makes no change, then directories that
were kept for their excluded subdirectories only stay in `dumpdirmap`: `mapdirs` takes these
subdirectories out without asking for another pass.

* `Unmoved`: the first pass makes no change.
* `mapsAgree_iff`: exactly when the maps agree in the end.
-/

namespace DumpRestore

namespace DirTree

variable (t : DirTree)

/-- The two maps agree on the directories, and the root is in both. -/
def MapsAgree (m : InodeMaps) : Prop :=
  (∀ i, i ∈ m.dumpdirmap ↔ t.isDir i = true ∧ i ∈ m.dumpinomap) ∧
    rootino ∈ m.dumpdirmap ∧ rootino ∈ m.dumpinomap

/-- A directory that may be dumped but did not change. -/
structure Stale (d : ℕ) : Prop where
  dirs : d ∈ t.dirs
  ne_root : d ≠ rootino
  kept : ¬t.Excluded d
  csince : t.csince d = false

/-- The first pass makes no change: excluded directories have no subdirectories, and a directory
that did not change has nothing to dump in it when its turn comes, but still a subdirectory. Files
that changed do not count when a smaller excluded directory has an entry for them too. -/
structure Unmoved : Prop where
  nodump : ∀ e ∈ t.dirs, t.Excluded e → t.subdirs e = ∅
  undumped : ∀ d, t.Stale d → ∀ c ∈ t.children d, t.csince c = true → ¬t.Excluded c →
    ∃ e ∈ t.dirs, t.Excluded e ∧ e < d ∧ c ∈ t.children e
  subdir : ∀ d, t.Stale d → ∃ c ∈ t.subdirs d, t.Excluded c → d < c

theorem ne_of_subdir {d c : ℕ} (hd : d ∈ t.dirs) (hc : c ∈ t.subdirs d) : c ≠ d := by
  rintro rfl
  have := t.depth_subdir c hd c hc
  omega

theorem isDir_of_dirs {d : ℕ} (hd : d ∈ t.dirs) : t.isDir d = true := (Finset.mem_filter.mp hd).2

theorem inodes_of_dirs {d : ℕ} (hd : d ∈ t.dirs) : d ∈ t.inodes := (Finset.mem_filter.mp hd).1

theorem mem_usedinomap_mapfiles {d : ℕ} (hd : d ∈ t.dirs) :
    d ∈ (t.mapfiles t.excludes).2.usedinomap ↔ ¬t.Excluded d := by
  simp [t.mapFiles_mapfiles.usedinomap, t.inodes_of_dirs hd, t.isDir_of_dirs hd]

/-- A directory that is not excluded is not yet in `dumpinomap` when it is stale. -/
theorem notMem_dumpinomap_mapfiles {d : ℕ} (hd : d ∈ t.dirs) (hex : ¬t.Excluded d) :
    d ∉ (t.mapfiles t.excludes).2.dumpinomap ↔ t.Stale d := by
  rw [t.mapFiles_mapfiles.dumpinomap]
  refine ⟨fun hout => ?_, fun h hin => ?_⟩
  · obtain ⟨hne, hc⟩ := not_or.mp hout
    exact ⟨hd, hne, hex, Bool.eq_false_iff.mpr fun hcs => hc ⟨t.inodes_of_dirs hd, hcs, hex⟩⟩
  · rcases hin with heq | ⟨-, hcs, -⟩
    · exact h.ne_root heq
    · rw [h.csince] at hcs
      cases hcs

/-- **When the first pass makes no change.** -/
theorem leftAlone_mapfiles_iff :
    (∀ d ∈ t.dirs, t.LeftAlone (t.mapfiles t.excludes).2 d) ↔ t.Unmoved := by
  have hdirs := t.mapFiles_mapfiles.dumpdirmap
  have hused := fun d (hd : d ∈ t.dirs) => t.mem_usedinomap_mapfiles hd
  have hchild : ∀ d ∈ t.dirs, ∀ c ∈ t.children d,
      c ∈ (t.mapfiles t.excludes).2.dumpinomap ↔ t.csince c = true ∧ ¬t.Excluded c := by
    intro d hd c hc
    rw [t.mapFiles_mapfiles.dumpinomap]
    refine ⟨fun hin => ?_, fun hin => .inr ⟨t.child_inodes d hd hc, hin⟩⟩
    rcases hin with rfl | ⟨-, hin⟩
    · exact absurd (t.mem_subdirs hc t.root) (t.root_top d hd)
    · exact hin
  constructor
  · intro h
    refine ⟨fun e he hex => (h e he).nodump (mt (hused e he).mp (not_not_intro hex)),
      fun d hs c hc hcs hex => ?_, fun d hs => ?_⟩
    · obtain ⟨e, he, hue, hlt, hce⟩ := (h d hs.dirs).undumped ((hused d hs.dirs).mpr hs.kept)
        ((t.notMem_dumpinomap_mapfiles hs.dirs hs.kept).mpr hs) c hc
        ((hchild d hs.dirs c hc).mpr ⟨hcs, hex⟩)
      have he' : e ∈ t.dirs := hdirs ▸ he
      exact ⟨e, he', not_not.mp (mt (hused e he').mpr hue), hlt, hce⟩
    · obtain ⟨c, hc, hcd, hor⟩ := (h d hs.dirs).subdir ((hused d hs.dirs).mpr hs.kept)
        ((t.notMem_dumpinomap_mapfiles hs.dirs hs.kept).mpr hs)
      have hcd' : c ∈ t.dirs := hdirs ▸ hcd
      have hsub := t.mem_subdirs hc hcd'
      refine ⟨c, hsub, fun hex => ?_⟩
      rcases hor with hu | hle
      · exact absurd hex ((hused c hcd').mp hu)
      · exact lt_of_le_of_ne hle (t.ne_of_subdir hs.dirs hsub).symm
  · intro h d hd
    refine ⟨fun hu => h.nodump d hd (not_not.mp (mt (hused d hd).mpr hu)),
      fun hu hout c hc hcin => ?_, fun hu hout => ?_⟩
    · have hs := (t.notMem_dumpinomap_mapfiles hd ((hused d hd).mp hu)).mp hout
      obtain ⟨hcs, hex⟩ := (hchild d hd c hc).mp hcin
      obtain ⟨e, he, hexe, hlt, hce⟩ := h.undumped d hs c hc hcs hex
      exact ⟨e, hdirs ▸ he, mt (hused e he).mp (not_not_intro hexe), hlt, hce⟩
    · have hs := (t.notMem_dumpinomap_mapfiles hd ((hused d hd).mp hu)).mp hout
      obtain ⟨c, hsub, hlt⟩ := h.subdir d hs
      have hcd := t.subdirs_subset hd hsub
      refine ⟨c, t.subdirs_child hsub, hdirs ▸ hcd, ?_⟩
      by_cases hex : t.Excluded c
      · exact .inr (hlt hex).le
      · exact .inl ((hused c hcd).mpr hex)

/-- An excluded directory with nothing excluded above it. -/
structure Top (c : ℕ) : Prop where
  dirs : c ∈ t.dirs
  excluded : t.Excluded c
  above : ∀ d, t.Above d c → ¬t.Excluded d

variable {t} {m : InodeMaps} {n : ℕ} {p p' : Bool × InodeMaps}

/-- The parent of such a directory has nothing to hand down. -/
theorem Top.parent_used {c d : ℕ} (hc : t.Top c) (h : t.Mapped m) (hd : d ∈ t.dirs)
    (hsub : c ∈ t.subdirs d) : d ∈ m.usedinomap := by
  by_contra hu
  have hchild : t.Child d c := ⟨hd, t.subdirs_child hsub⟩
  rcases h.nodump d hd hu with hex | ⟨e, habove, hex⟩
  · exact hc.above d (.single hchild) hex
  · exact hc.above e (.tail habove hchild) hex

theorem Top.step {c ino : ℕ} (hc : t.Top c) (h : t.Mapped p.2) (hino : ino ∈ p.2.dumpdirmap)
    (hstep : t.MapStep ino p p') (hout : c ∉ p.2.dumpdirmap ∨ c = ino) :
    c ∉ p'.2.dumpdirmap := by
  have hdir := h.dumpdirmap hino
  have hcu := h.excluded c hc.dirs hc.excluded
  have hne : ino ∈ p.2.usedinomap → c ∉ p.2.dumpdirmap := fun hu =>
    hout.resolve_right fun heq => hcu (heq ▸ hu)
  cases hstep with
  | keep _ hused => exact hne hused
  | dump _ _ _ hused => exact hne hused
  | drop _ _ hused => exact fun hin => hne hused (Finset.mem_of_mem_erase hin)
  | nodump change m n hused =>
    intro hin
    obtain ⟨hcino, hin⟩ := Finset.mem_erase.mp hin
    rcases Finset.mem_union.mp hin with hin | hsub
    · exact hout.elim (fun hnot => hnot hin) hcino
    · exact hused (hc.parent_used h hdir hsub)

theorem Top.pass {c : ℕ} (hc : t.Top c) (h : t.Mapped m) (hpass : t.Pass m n p)
    (hout : c ∉ m.dumpdirmap ∨ 1 ≤ c ∧ c ≤ n) : c ∉ p.2.dumpdirmap := by
  induction hpass with
  | start => exact hout.resolve_right (by omega)
  | @turn n p p' hpass hturn ih =>
    have hmapped := hpass.mapped h
    have hout' : c ∉ p.2.dumpdirmap ∨ c = n + 1 := by
      by_cases heq : c = n + 1
      · exact .inr heq
      · exact .inl (ih (hout.imp_right fun hle => ⟨hle.1, by omega⟩))
    cases hturn with
    | step hino hstep => exact hc.step hmapped hino hstep hout'
    | skip hino =>
      rcases hout' with hout' | rfl
      · exact hout'
      · intro hin
        obtain ⟨-, d, hd, hu, hsub⟩ := hino hin
        exact hu (hc.parent_used hmapped hd hsub)

/-- **After the first pass** no such directory is in `dumpdirmap` any more. -/
theorem Top.mapdirs {c : ℕ} (hc : t.Top c) (h : t.Mapped m) : c ∉ (t.mapdirs m).2.dumpdirmap := by
  have hicc := Finset.mem_Icc.mp (Finset.mem_filter.mp (t.inodes_of_dirs hc.dirs)).1
  exact hc.pass h (t.pass_mapdirs h.dumpdirmap) (.inr hicc)

/-- A directory that is not to be dumped is excluded, or below its parent is. -/
theorem Top.of_parent {c d : ℕ} (h : t.Mapped m) (hd : d ∈ t.dirs) (hsub : c ∈ t.subdirs d)
    (hu : c ∉ m.usedinomap) (hkept : ¬t.Excluded d ∧ ∀ e, t.Above e d → ¬t.Excluded e) :
    t.Top c := by
  have hcd := t.subdirs_subset hd hsub
  have habove : ∀ e, t.Above e c → ¬t.Excluded e := by
    intro e he
    obtain ⟨b, hb, hbc⟩ := Relation.TransGen.tail'_iff.mp he
    have heq : b = d :=
      t.parent_unique b hbc.1 d hd c (t.mem_subdirs hbc.2 hcd) hsub
    subst heq
    rcases Relation.reflTransGen_iff_eq_or_transGen.mp hb with heq | hb
    · exact heq ▸ hkept.1
    · exact hkept.2 e hb
  rcases h.nodump c hcd hu with hex | ⟨e, he, hex⟩
  · exact ⟨hcd, hex, habove⟩
  · exact absurd hex (habove e he)

/-- **After a later pass without a change** every directory in `dumpdirmap` is dumped. -/
theorem dumped_of_quiet (h : t.Mapped m) (htop : ∀ c, t.Top c → c ∉ m.dumpdirmap)
    (hchange : (t.mapdirs m).1 = false) {d : ℕ} (hin : d ∈ (t.mapdirs m).2.dumpdirmap) :
    d ∈ (t.mapdirs m).2.dumpinomap := by
  have hmapped := (t.pass_mapdirs h.dumpdirmap).mapped h
  have hs := settled_mapdirs h hchange
  obtain ⟨hleft, hquiet⟩ := quiet_mapdirs h.dumpdirmap hchange
  induction hk : t.maxDepth - t.depth d using Nat.strong_induction_on generalizing d with
  | _ k ih =>
    have hd := hmapped.dumpdirmap hin
    by_contra hout
    have hu : d ∈ (t.mapdirs m).2.usedinomap := by_contra fun hu => hs.nodump d hd hu hin
    have hkept : ¬t.Excluded d ∧ ∀ e, t.Above e d → ¬t.Excluded e := by
      refine ⟨fun hex => hmapped.excluded d hd hex hu, fun e he hex => ?_⟩
      have hed : e ∈ t.dirs := by
        rcases Relation.TransGen.head'_iff.mp he with ⟨c, hchild, -⟩
        exact hchild.1
      exact (hs.below hmapped hed (hmapped.excluded e hed hex) he).2 hd hu
    obtain ⟨c, hc, hcin, -⟩ := (hleft d ((hquiet.dumpdirmap d).mp hin).1).subdir
      (hquiet.usedinomap ▸ hu) (mt (hquiet.dumpinomap_dirs hd).mpr hout)
    have hcd := h.dumpdirmap hcin
    have hsub := t.mem_subdirs hc hcd
    by_cases hcu : c ∈ m.usedinomap
    · have hdepth := t.depth_subdir d hd c hsub
      have hmax : t.depth c ≤ t.maxDepth := Finset.le_sup (f := t.depth) hcd
      exact hs.undumped d hd hin hout c hc
        (ih _ (by omega) ((hquiet.dumpdirmap c).mpr ⟨hcin, .inl hcu⟩) rfl)
    · exact htop c (.of_parent h hd hsub hcu hkept) hcin

theorem root_top_of_excluded (hex : t.Excluded rootino) : t.Top rootino := by
  refine ⟨t.root, hex, fun d habove => ?_⟩
  obtain ⟨b, -, hchild⟩ := Relation.TransGen.tail'_iff.mp habove
  exact absurd (t.mem_subdirs hchild.2 t.root) (t.root_top b hchild.1)

/-- The maps agree when every directory in `dumpdirmap` is dumped and the root is not excluded. -/
theorem Mapped.agree (h : t.Mapped m) (hroot : ¬t.Excluded rootino)
    (hall : ∀ d ∈ m.dumpdirmap, d ∈ m.dumpinomap) : t.MapsAgree m := by
  have hrootu : rootino ∈ m.usedinomap := by
    by_contra hu
    rcases h.nodump rootino t.root hu with hex | ⟨e, habove, -⟩
    · exact hroot hex
    · obtain ⟨b, -, hchild⟩ := Relation.TransGen.tail'_iff.mp habove
      exact t.root_top b hchild.1 (t.mem_subdirs hchild.2 t.root)
  refine ⟨fun i => ⟨fun hin => ⟨t.isDir_of_dirs (h.dumpdirmap hin), hall i hin⟩, fun hi => ?_⟩,
    h.dumped rootino t.root h.root hrootu, h.root⟩
  have hid : i ∈ t.dirs := Finset.mem_filter.mpr ⟨h.dumpinomap hi.2, hi.1⟩
  rcases h.used i hid hi.2 with hu | rfl
  · exact h.dumped i hid hi.2 hu
  · exact h.dumped _ t.root h.root hrootu

/-- After a first pass without a change the maps agree when no directory is stale. -/
theorem agree_iff_of_quiet (hq : t.Quiet (t.mapfiles t.excludes).2 t.fs.sInodesCount m) :
    t.MapsAgree m ↔ ¬t.Excluded rootino ∧ ∀ d, ¬t.Stale d := by
  have hdump : ∀ d ∈ t.dirs, d ∈ m.dumpdirmap ↔ ¬t.Excluded d := by
    intro d hd
    have hlt : ¬t.fs.sInodesCount < d := Nat.not_lt_of_le (le_sInodesCount hd)
    rw [hq.dumpdirmap, t.mapFiles_mapfiles.dumpdirmap, t.mem_usedinomap_mapfiles hd]
    simp [hd, hlt]
  constructor
  · refine fun h => ⟨(hdump _ t.root).mp h.2.1, fun d hs => ?_⟩
    have hin := ((h.1 d).mp ((hdump d hs.dirs).mpr hs.kept)).2
    exact (t.notMem_dumpinomap_mapfiles hs.dirs hs.kept).mpr hs
      ((hq.dumpinomap_dirs hs.dirs).mp hin)
  · rintro ⟨hroot, hstale⟩
    have hrootin : rootino ∈ m.dumpinomap := (hq.dumpinomap_dirs t.root).mpr
      ((t.mapFiles_mapfiles.dumpinomap _).mpr (.inl rfl))
    refine ⟨fun i => ⟨fun hin => ?_, fun hi => ?_⟩, (hdump _ t.root).mpr hroot, hrootin⟩
    · have hid : i ∈ t.dirs := t.mapFiles_mapfiles.dumpdirmap ▸ ((hq.dumpdirmap i).mp hin).1
      have hex := (hdump i hid).mp hin
      refine ⟨t.isDir_of_dirs hid, (hq.dumpinomap_dirs hid).mpr (by_contra fun hout => ?_)⟩
      exact hstale i ((t.notMem_dumpinomap_mapfiles hid hex).mp hout)
    · obtain ⟨hdir, hin⟩ := hi
      have hin' := ((hq.dumpinomap i).mp hin).1
      rcases (t.mapFiles_mapfiles.dumpinomap i).mp hin' with rfl | ⟨hino, -, hex⟩
      · exact (hdump _ t.root).mpr hroot
      · exact (hdump i (Finset.mem_filter.mpr ⟨hino, hdir⟩)).mpr hex

variable (t) in
/-- **When the maps agree.** The mapping passes come to an end, and then `dumpdirmap` and
`dumpinomap` have the same directories, the root among them, if and only if the root is not
excluded, and some directory is not left alone by the first pass or none is stale. -/
theorem mapsAgree_iff : ∃ fuel m, t.mapPasses fuel (t.mapfiles t.excludes) = some m ∧
    (t.MapsAgree m ↔ ¬t.Excluded rootino ∧ (t.Unmoved → ∀ d, ¬t.Stale d)) := by
  have hmapped := t.mapped_mapfiles
  cases hskip : (t.mapfiles t.excludes).1 with
  | false =>
    have hall := fun d hd => forall_dirs_of_mapfiles (t := t) hskip (d := d) hd
    have hstale : ∀ d, ¬t.Stale d := fun d hs => by
      have hcs := (hall d hs.dirs).1
      rw [hs.csince] at hcs
      cases hcs
    refine ⟨1, (t.mapfiles t.excludes).2, ?_, iff_of_true ?_ ⟨(hall _ t.root).2, fun _ => hstale⟩⟩
    · rw [← Prod.mk.eta (p := t.mapfiles t.excludes), hskip]
      rfl
    · refine hmapped.agree (hall _ t.root).2 fun d hd => ?_
      have hd' := hmapped.dumpdirmap hd
      exact (t.mapFiles_mapfiles.dumpinomap d).mpr (.inr ⟨t.inodes_of_dirs hd', hall d hd'⟩)
  | true =>
    have hpass := t.pass_mapdirs hmapped.dumpdirmap
    have hrun : ∀ fuel, t.mapPasses (fuel + 1) (t.mapfiles t.excludes) =
        t.mapPasses fuel (t.mapdirs (t.mapfiles t.excludes).2) := fun fuel => by
      rw [← Prod.mk.eta (p := t.mapfiles t.excludes), hskip]
      rfl
    have hmoved : (t.mapdirs (t.mapfiles t.excludes).2).1 = false ↔ t.Unmoved := by
      rw [← leftAlone_mapfiles_iff, (hpass.quiet hmapped.dumpdirmap).1,
        t.mapFiles_mapfiles.dumpdirmap]
      exact forall₂_congr fun d hd => imp_iff_right (le_sInodesCount hd)
    by_cases hunmoved : t.Unmoved
    · have hchange := hmoved.mpr hunmoved
      obtain ⟨-, hquiet⟩ := quiet_mapdirs hmapped.dumpdirmap hchange
      refine ⟨2, (t.mapdirs (t.mapfiles t.excludes).2).2, ?_, (agree_iff_of_quiet hquiet).trans
        (and_congr_right fun _ => (imp_iff_right hunmoved).symm)⟩
      rw [hrun, ← Prod.mk.eta (p := t.mapdirs _), hchange]
      rfl
    · obtain ⟨fuel, m, hend, h, htop, hlast⟩ := exists_mapPasses (t := t)
        (P := fun change m => (∀ c, t.Top c → c ∉ m.dumpdirmap) ∧
          (change = false → ∀ d ∈ m.dumpdirmap, d ∈ m.dumpinomap))
        (fun m h hm => ⟨fun c hc => hc.mapdirs h, fun hchange d =>
          dumped_of_quiet h hm.1 hchange⟩)
        _ (hpass.mapped hmapped)
        ⟨fun c hc => hc.mapdirs hmapped, fun hchange => absurd (hmoved.mp hchange) hunmoved⟩
      refine ⟨fuel + 1, m, (hrun fuel).trans hend, fun hagree => ⟨fun hex => ?_, fun hun =>
        absurd hun hunmoved⟩, fun hroot => h.agree hroot.1 (hlast rfl)⟩
      exact htop _ (root_top_of_excluded hex) hagree.2.1

/-! ## A stale directory with an excluded subdirectory -/

/-- Inode 2 is the root, 11 a directory in it, and 12 a directory in 11. Nothing changed since the
base date. -/
def nestedFs : MapFs where
  fs := smallFs
  getino ino := if ino = 2 ∨ ino = 11 ∨ ino = 12 then
    { (default : Dinode) with diMode := ifDir, diNlink := 2 } else default
  dirents ino := if ino = 2 then [⟨11, 2, [97]⟩] else if ino = 11 then [⟨12, 2, [98]⟩] else []
  ddate := 1
  nonodump := false

/-- The tree with inode 12 excluded. -/
def nested : DirTree where
  toMapFs := nestedFs
  excludes := {12}
  depth ino := if ino = 2 then 0 else if ino = 11 then 1 else 2
  root := by decide
  root_top := by decide
  child_inodes := by decide
  depth_subdir := by decide
  parent_unique := by decide

/-- **Directory 11 is dumped but not announced.** -/
theorem not_mapsAgree_nested : ¬∀ (t : DirTree) (fuel : ℕ) (m : InodeMaps),
    t.mapPasses fuel (t.mapfiles t.excludes) = some m → t.MapsAgree m := by
  intro h
  have hend : (nested.mapPasses 2 (nested.mapfiles nested.excludes)).map
      (fun m => decide (11 ∈ m.dumpdirmap ∧ 11 ∉ m.dumpinomap)) = some true := by decide
  obtain ⟨m, hrun, hm⟩ := Option.map_eq_some_iff.mp hend
  obtain ⟨hin, hout⟩ := of_decide_eq_true hm
  exact hout (((h nested 2 m hrun).1 11).mp hin).2

end DirTree

end DumpRestore
