import DumpRestore.Restore.Unreferenced

/-!
# Runs of incremental restores

The passes over the symbol table in any order, from the first table on. Between them the flags of
entries change, when files are extracted and links are made.

* `passes_consistent`: the table is consistent after any passes that do not panic, if
  `findunreflinks` never meets a directory without flags in a directory on `removelist`.
* `leftover_loses`: where it meets one, the table is not consistent afterwards.
-/

namespace DumpRestore

namespace Symtab

/-- A pass over the table, or one call of `nodeupdates`. -/
inductive Pass
  | removeoldleaves (m : Maps)
  | nodeupdates (m : Maps) (existed : Bool) (new : ℕ) (name : List UInt8) (ino : ℕ) (node : Bool)
  | findunreflinks (m : Maps)
  | removeoldnodes
  | setFlags (ep : ℕ) (f : BitVec 16 → BitVec 16)

section Runs

variable (size fuel : ℕ) (compare : Bool)

def Pass.exec (s : Store) : Pass → Run Store
  | .removeoldleaves m => Symtab.removeoldleaves size fuel compare m s
  | .nodeupdates m existed new name ino node => do
    return (← Symtab.nodeupdates size fuel compare m existed new name ino node s).2
  | .findunreflinks m => Symtab.findunreflinks size fuel compare m s
  | .removeoldnodes => Symtab.removeoldnodes size fuel s
  | .setFlags ep f => return s.setFlags ep f

/-- What is known of the arguments of a pass. `calloc` gives memory that is not in use, a directory
is one that was read from the tape, and the root is one of them. -/
def Pass.Allowed (s : Store) : Pass → Prop
  | .nodeupdates m _ new _ ino node =>
    ¬ s.Has new ∧ (node = true → m.dumpmap ino = true) ∧ (ino = rootino → node = true)
  | .findunreflinks m => ∀ s', unreferencedInodes size fuel compare m
      (List.range' rootino (s.maxino - rootino)) s = .ok s' → Marked s'
  | _ => True

/-- Passes one after the other. -/
def runPasses : Store → List Pass → Run Store
  | s, [] => .ok s
  | s, pass :: passes => pass.exec size fuel compare s >>= fun s => runPasses s passes

/-- All passes of a run are allowed. -/
def AllowedPasses : Store → List Pass → Prop
  | _, [] => True
  | s, pass :: passes => pass.Allowed size fuel compare s ∧
    ∀ s', pass.exec size fuel compare s = .ok s' → AllowedPasses s' passes

/-- The first table, and passes one after the other. The result has the root. -/
def restoreTable (maxino new : ℕ) (passes : List Pass) : Run (ℕ × Store) := do
  let (root, s) ← initsymtable size fuel maxino new
  let s ← runPasses size fuel compare s passes
  return (root, s)

/-- All passes from the first table on are allowed. -/
def AllowedRestore (maxino new : ℕ) (passes : List Pass) : Prop :=
  ∀ root s, initsymtable size fuel maxino new = .ok (root, s) →
    AllowedPasses size fuel compare s passes

variable {size fuel compare} {root n maxino new : ℕ} {s : Store} {w : Lists} {passes : List Pass}

/-- What one pass preserves. -/
theorem Sound.exec (h : Sound size root n s w) (hsize : 0 < size) (hfuel : n + 1 ≤ fuel)
    {pass : Pass} (hpass : pass.Allowed size fuel compare s) :
    Ends (fun s' => ∃ w', Sound size root (n + 1) s' w') (pass.exec size fuel compare s) := by
  have hle : n ≤ fuel := by omega
  have hmono : ∀ s', (∃ w', Sound size root n s' w') → ∃ w', Sound size root (n + 1) s' w' :=
    fun s' hs' => hs'.imp fun w' hw' => hw'.mono (Nat.le_succ n)
  cases pass with
  | removeoldleaves m => exact (h.removeoldleaves hsize hle).mono hmono
  | nodeupdates m existed new name ino node =>
    exact (h.nodeupdates hsize hfuel existed hpass.1 name hpass.2.1 hpass.2.2).bind
      fun p hp => ends_ok hp
  | findunreflinks m => exact (h.findunreflinks hsize hle hpass).mono hmono
  | removeoldnodes =>
    refine (h.removeoldnodesLoop hsize hle (h.length_removed.trans_le hle)).mono ?_
    rintro s' ⟨w', h', hnil, hinos, hisDir, hlive⟩
    refine ⟨w', h'.mono (Nat.le_succ n), ?_, ?_⟩
    · rw [hinos, hisDir]
      exact h.alone
    · rw [hnil]
      exact fun a ha => absurd ha List.not_mem_nil
  | setFlags ep f => exact ends_ok ⟨w, (h.setFlags ep f).mono (Nat.le_succ n)⟩

/-- What passes one after the other preserve. -/
theorem Sound.run (h : Sound size root n s w) (hsize : 0 < size)
    (hfuel : n + passes.length ≤ fuel) (hpasses : AllowedPasses size fuel compare s passes) :
    Ends (fun s' => ∃ w', Sound size root (n + passes.length) s' w')
      (runPasses size fuel compare s passes) := by
  induction passes generalizing n s w with
  | nil => exact ends_ok ⟨w, h⟩
  | cons pass passes ih =>
    rw [List.length_cons] at hfuel
    obtain ⟨hpass, hrest⟩ := hpasses
    have hstep := h.exec hsize (by omega) hpass
    rw [runPasses]
    cases hexec : pass.exec size fuel compare s with
    | error stop =>
      rw [hexec] at hstep
      cases stop with
      | panic text => trivial
      | stuck => exact hstep.elim
    | ok s' =>
      rw [hexec] at hstep
      obtain ⟨w', h'⟩ := hstep
      have hrun := ih h' (by omega) (hrest s' hexec)
      rwa [Nat.add_assoc, Nat.add_comm 1] at hrun

theorem sound_restoreTable (hsize : 0 < size) (hmax : hashfactor ≤ maxino)
    (hfuel : passes.length + 1 ≤ fuel)
    (hpasses : AllowedRestore size fuel compare maxino new passes) :
    Ends (fun p => ∃ w, Sound size p.1 (1 + passes.length) p.2 w)
      (restoreTable size fuel compare maxino new passes) := by
  have hinit : Ends (fun p => ∃ w, Whole size p.1 1 p.2 w ∧
      (∀ k, ∀ a ∈ w.inos k, w.inos k = [a]) ∧ w.removed = [])
      (initsymtable size fuel maxino new) := whole_initsymtable hmax (by omega)
  rw [restoreTable]
  cases hrun : initsymtable size fuel maxino new with
  | error stop =>
    rw [hrun] at hinit
    cases stop with
    | panic text => trivial
    | stuck => exact hinit.elim
  | ok p =>
    obtain ⟨root, s⟩ := p
    rw [hrun] at hinit
    obtain ⟨w, h, hsingle, hremoved⟩ := hinit
    have hsound : Sound size root 1 s w :=
      ⟨h, fun k a ha _ => hsingle k a ha, fun a ha => by rw [hremoved] at ha; cases ha⟩
    exact (hsound.run hsize (by omega) (hpasses root s hrun)).bind fun s' hs' => ends_ok hs'

/-- **Incremental restore keeps the table consistent**: no pass follows a pointer to no entry, every
loop ends, and where there is no panic, the table is consistent after the passes. -/
theorem passes_consistent (hsize : 0 < size) (hmax : hashfactor ≤ maxino)
    (hfuel : passes.length + 1 ≤ fuel)
    (hpasses : AllowedRestore size fuel compare maxino new passes) :
    Ends (fun p => Consistent size p.1 p.2) (restoreTable size fuel compare maxino new passes) :=
  (sound_restoreTable hsize hmax hfuel hpasses).mono fun _ hp => hp.elim fun _ h => h.consistent

/-- Everything is in use and on the tape. -/
def fullMaps : Maps := ⟨fun _ => true, fun _ => true⟩

/-- On this tape just the root is in use. -/
def rootMaps : Maps := ⟨fun ino => ino == rootino, fun _ => false⟩

/-- The directories `./a` and `./a/b` were read from a tape, and their inodes are not in use any
more on the next one. -/
def retiredPasses : List Pass :=
  [.nodeupdates fullMaps false 200 [46, 47, 97] 3 true,
    .nodeupdates fullMaps false 300 [46, 47, 97, 47, 98] 4 true,
    .setFlags 200 fun _ => 0, .setFlags 300 fun _ => 0, .removeoldleaves rootMaps]

/-- The table after the first loop of `findunreflinks`. -/
def retiredTable : Option Store :=
  (restoreTable 2 10 false 10 100 retiredPasses).toOption.bind fun p =>
    (unreferencedInodes 2 10 false rootMaps (List.range' rootino (p.2.maxino - rootino))
      p.2).toOption

/-- The two directories are on `removelist`, and the lower one has its temporary name. -/
theorem marked_retiredTable (hs : retiredTable = some s) : Marked s := by
  have hmember {α : Type} (g : Store → α) {v : α} (h : retiredTable.map g = some v) : g s = v := by
    rw [hs] at h
    exact Option.some.inj h
  have hremoved : s.removelist = some 300 := hmember (fun s => s.removelist) (by decide +kernel)
  have hnext : s.next 300 = some (some 200) := hmember (fun s => s.next 300) (by decide +kernel)
  have hlast : s.next 200 = some none := hmember (fun s => s.next 200) (by decide +kernel)
  have hlower : s.entries 300 = some (some [none, none]) :=
    hmember (fun s => s.entries 300) (by decide +kernel)
  have hupper : s.entries 200 = some (some [some 300, none]) :=
    hmember (fun s => s.entries 200) (by decide +kernel)
  have hsibling : s.sibling 300 = some none := hmember (fun s => s.sibling 300) (by decide +kernel)
  have hflags : s.flags 300 = some tmpnameFlag := hmember (fun s => s.flags 300) (by decide +kernel)
  have hempty {p : Option ℕ} (hp : p ∈ [(none : Option ℕ), none]) {a : ℕ} :
      ¬ OnList s.sibling p a := by
    obtain rfl : p = none := by simpa using hp
    rintro ⟨l, hl, ha⟩
    rw [hl.nil_of_none] at ha
    cases ha
  have hlist : Linked s.next s.removelist [300, 200] :=
    ⟨hremoved, some 200, hnext, rfl, none, hlast, rfl⟩
  rintro r hr eps heps p hp a ha -
  rw [onList_iff hlist] at hr
  rcases List.mem_cons.mp hr with rfl | hr
  · obtain rfl := Option.some.inj (Option.some.inj (hlower.symm.trans heps))
    exact absurd ha (hempty hp)
  · obtain rfl := List.mem_singleton.mp hr
    obtain rfl := Option.some.inj (Option.some.inj (hupper.symm.trans heps))
    rcases List.mem_cons.mp hp with rfl | hp
    · have hone : Linked s.sibling (some 300) [300] := ⟨rfl, none, hsibling, rfl⟩
      rw [onList_iff hone, List.mem_singleton] at ha
      rw [ha, hflags]
      decide
    · exact absurd ha (hempty (List.mem_cons_of_mem _ hp))

theorem allowedPasses_append {ps qs : List Pass} (hps : AllowedPasses size fuel compare s ps)
    (hqs : ∀ s', runPasses size fuel compare s ps = .ok s' →
      AllowedPasses size fuel compare s' qs) : AllowedPasses size fuel compare s (ps ++ qs) := by
  induction ps generalizing s with
  | nil => exact hqs s rfl
  | cons p ps ih =>
    refine ⟨hps.1, fun s' hs' => ih (hps.2 s' hs') fun s'' hs'' => hqs s'' ?_⟩
    rw [runPasses, hs']
    exact hs''

/-- `findunreflinks` and `removeoldnodes` go over these directories. -/
theorem passes_consistent_findunreflinks : Ends (fun p => Consistent 2 p.1 p.2)
    (restoreTable 2 10 false 10 100
      (retiredPasses ++ [.findunreflinks rootMaps, .removeoldnodes])) := by
  refine passes_consistent (by decide) (by decide) (by decide) fun root s hinit => ?_
  refine allowedPasses_append ?_ fun s' hs' =>
    ⟨fun s'' hs'' => ?_, fun _ _ => ⟨trivial, fun _ _ => trivial⟩⟩
  · obtain ⟨rfl, rfl⟩ := Prod.mk.inj (Except.ok.inj hinit)
    refine ⟨⟨by rintro ⟨⟩, fun _ => rfl, fun _ => rfl⟩, fun s₁ hs₁ => ?_⟩
    obtain rfl := Except.ok.inj hs₁
    refine ⟨⟨by rintro ⟨⟩, fun _ => rfl, fun _ => rfl⟩, fun s₂ hs₂ => ?_⟩
    exact ⟨trivial, fun _ _ => ⟨trivial, fun _ _ => ⟨trivial, fun _ _ => trivial⟩⟩⟩
  · have hrun : restoreTable 2 10 false 10 100 retiredPasses = .ok (root, s') := by
      rw [restoreTable, hinit]
      simp only [bind, Except.bind, hs']
      rfl
    refine marked_retiredTable ?_
    rw [retiredTable, hrun]
    simp only [Except.toOption, Option.bind_some, hs'']

/-- **A directory on two lists**: in a table that restore can have, let `ep` be on `removelist`, and
`np` a directory without flags that is found by its inode number `k`. When the second loop of
`findunreflinks` meets `np` in `ep`, the table is not consistent any more, and the inode numbers
behind `np` on its hash chain, which were found before, are not found. -/
theorem leftover_loses (hsize : 0 < size) (hmax : hashfactor ≤ maxino)
    (hfuel : passes.length + 1 ≤ fuel)
    (hpasses : AllowedRestore size fuel compare maxino new passes)
    (hrun : restoreTable size fuel compare maxino new passes = .ok (root, s)) (ep np k : ℕ)
    (hep : OnList s.next s.removelist ep) (hnp : s.lookupino fuel k = some (some np))
    (hdir : s.isDir np = some true) (hflags : s.flags np = some 0) :
    ∃ s', leftover size fuel compare ep np s = .ok s' ∧ ¬ Consistent size root s' ∧
      ∀ q b k', s.next np = some q → OnList s.next q b → s.ino b = some k' →
        s.lookupino fuel k' = some (some b) ∧ s'.lookupino fuel k' = some none := by
  have hends := sound_restoreTable hsize hmax hfuel hpasses
  rw [hrun] at hends
  obtain ⟨w, h⟩ := hends
  have hle : 1 + passes.length ≤ fuel := by omega
  rw [onList_iff h.inodes.retired] at hep
  rw [h.lookupino_eq hle, Option.some_inj] at hnp
  obtain ⟨s', hadopt, hremoved, hchain, hlost⟩ :=
    h.adopt hle hep (List.mem_of_head? hnp) hdir
  refine ⟨s', ?_, fun hconsistent => ?_, hlost⟩
  · obtain ⟨e, he⟩ := (h.has (h.inodes.ino k np (List.mem_of_head? hnp)).1).exists_mem
    rw [isDir_of_mem he, Option.some_inj] at hdir
    rw [Store.flags, he, Option.map_some, Option.some_inj] at hflags
    rw [leftover, cell_eq he, ← hadopt]
    simp [bind, Except.bind, hflags, Option.isNone_iff_eq_none,
      Option.ne_none_iff_isSome.mpr hdir]
  · have hlen : 0 < s'.entry.length := by
      have hpos := h.inodes.pos
      obtain ⟨e, he⟩ := (h.has (h.inodes.removed ep hep).1).exists_mem
      rw [adopt, cell_eq he] at hadopt
      obtain rfl := Except.ok.inj hadopt
      exact hpos
    exact (hconsistent.once _ (Nat.mod_lt k hlen) np hchain).2.2 hremoved

/-- The directories `./a` and `./a/b` were read from a tape, and the inode of `./a` is not in use
any more on the next one, while the one of `./a/b` is. -/
def nestedPasses : List Pass :=
  [.nodeupdates fullMaps false 200 [46, 47, 97] 3 true,
    .nodeupdates fullMaps false 300 [46, 47, 97, 47, 98] 4 true, .setFlags 300 fun _ => 0,
    .removeoldleaves ⟨fun ino => ino == 4, fun _ => false⟩]

theorem allowed_nestedPasses : AllowedRestore 2 10 false 10 100 nestedPasses := by
  intro root s hinit
  obtain ⟨rfl, rfl⟩ := Prod.mk.inj (Except.ok.inj hinit)
  refine ⟨⟨by rintro ⟨⟩, fun _ => rfl, fun _ => rfl⟩, fun s₁ hs₁ => ?_⟩
  obtain rfl := Except.ok.inj hs₁
  refine ⟨⟨by rintro ⟨⟩, fun _ => rfl, fun _ => rfl⟩, fun s₂ hs₂ => ?_⟩
  obtain rfl := Except.ok.inj hs₂
  exact ⟨trivial, fun _ _ => ⟨trivial, fun _ _ => trivial⟩⟩

/-- The root is lost. -/
theorem leftover_loses_root : ∃ s s',
    restoreTable 2 10 false 10 100 nestedPasses = .ok (100, s) ∧
      leftover 2 10 false 200 300 s = .ok s' ∧ ¬ Consistent 2 100 s' ∧
      s.lookupino 10 rootino = some (some 100) ∧ s'.lookupino 10 rootino = some none := by
  obtain ⟨s', hleft, hnot, hlost⟩ := leftover_loses (by decide) (by decide) (by decide)
    allowed_nestedPasses rfl 200 300 4 ⟨[200], ⟨rfl, none, rfl, rfl⟩, List.mem_cons_self⟩ rfl rfl
    rfl
  exact ⟨_, s', rfl, hleft, hnot,
    hlost (some 100) 100 rootino rfl ⟨[100], ⟨rfl, none, rfl, rfl⟩, List.mem_cons_self⟩ rfl⟩

end Runs

end Symtab

end DumpRestore
