import DumpRestore.Restore.SymtabStore

/-!
# Runs of the symbol table

Restore changes its symbol table with `addentry`, `freeentry`, `moveentry` and `mktempname`, puts
directories on `removelist`, lets `removeoldnodes` work this list off, and sets flags.

* `Op.Allowed` is what the callers see to: they use entries that are in use, do not free an entry
  that is on `removelist`, and put a directory there only if it is the only entry of its inode.
* `Consistent` says in terms of the pointers that the lists are as they should be.
* `symtab_consistent`: after any such operations the table is consistent, or there was a panic; no
  loop runs on.
* `removeoldnodes_frees`: `removeoldnodes` frees what is on `removelist`.

The tables start with `initsymtable(NULL)`. Those that are loaded from a file are not among them,
nor those that the second loop of `findunreflinks` leaves.
-/

namespace DumpRestore

namespace Symtab

/-! ## Consistency -/

/-- The address `a` is on the list that starts at `p`. -/
def OnList (next : ℕ → Option (Option ℕ)) (p : Option ℕ) (a : ℕ) : Prop :=
  ∃ l, Linked next p l ∧ a ∈ l

/-- An entry that is in use: it was allocated and is not on the free list. -/
def Store.Live (s : Store) (a : ℕ) : Prop := s.Has a ∧ ¬ OnList s.next s.freelist a

/-- The lists of the symbol table are as they should be. -/
structure Consistent (size root : ℕ) (s : Store) : Prop where
  /-- The lists by `e_next` end, and no entry is on two of them. -/
  chain : ∀ i < s.entry.length, ∃ l, Linked s.next (s.entry.getD i none) l
  freed : ∃ l, Linked s.next s.freelist l
  retired : ∃ l, Linked s.next s.removelist l
  once : ∀ i < s.entry.length, ∀ a, OnList s.next (s.entry.getD i none) a →
    (∀ j < s.entry.length, OnList s.next (s.entry.getD j none) a → j = i) ∧
      ¬ OnList s.next s.freelist a ∧ ¬ OnList s.next s.removelist a
  apart : ∀ a, OnList s.next s.removelist a → ¬ OnList s.next s.freelist a
  /-- An entry with an inode number is found, directly or by the links. -/
  found : ∀ a, s.Live a → ∀ inum, s.ino a = some inum → inum ≠ 0 →
    ∃ ep fuel, s.lookupino fuel inum = some (some ep) ∧ OnList s.links (some ep) a
  /-- An entry is on exactly one list of exactly one directory. -/
  dir : ∀ a, s.Live a → a ≠ root → ∃ d eps j, s.parent a = some d ∧ s.Live d ∧
    s.entries d = some (some eps) ∧ j < eps.length ∧ OnList s.sibling (eps.getD j none) a ∧
    ∀ d' eps' j', s.Live d' → s.entries d' = some (some eps') → j' < eps'.length →
      OnList s.sibling (eps'.getD j' none) a → d' = d ∧ j' = j
  size_eq : ∀ d eps, s.Live d → s.entries d = some (some eps) → eps.length = size

section Consistent

variable {size root n fuel : ℕ} {s : Store} {w : Lists}

theorem onList_iff {next : ℕ → Option (Option ℕ)} {p : Option ℕ} {l : List ℕ}
    (hl : Linked next p l) (a : ℕ) : OnList next p a ↔ a ∈ l := by
  constructor
  · rintro ⟨l', hl', ha⟩
    rwa [hl.unique hl']
  · exact fun ha => ⟨l, hl, ha⟩

theorem Whole.live_eq (h : Whole size root n s w) (a : ℕ) : s.Live a ↔ w.live a := by
  rw [Store.Live, onList_iff h.inodes.freed, h.inodes.live_iff a]

theorem Whole.consistent (h : Whole size root n s w) : Consistent size root s := by
  constructor
  case chain => exact fun i hi => ⟨_, h.inodes.chain i hi⟩
  case freed => exact ⟨_, h.inodes.freed⟩
  case retired => exact ⟨_, h.inodes.retired⟩
  case once =>
    intro i hi a ha
    rw [onList_iff (h.inodes.chain i hi)] at ha
    obtain ⟨hone, hfree, hremoved⟩ := h.inodes.hash_apart hi ha
    refine ⟨fun j hj haj => hone j hj ?_, ?_, ?_⟩
    · rwa [onList_iff (h.inodes.chain j hj)] at haj
    · rwa [onList_iff h.inodes.freed]
    · rwa [onList_iff h.inodes.retired]
  case apart =>
    intro a ha
    rw [onList_iff h.inodes.retired] at ha
    rw [onList_iff h.inodes.freed]
    exact ((h.inodes.live_iff a).mp (h.inodes.removed a ha).1).2
  case found =>
    intro a ha inum hino hzero
    have hmem := h.found a ((h.live_eq a).mp ha) inum hino hzero
    have hlinked := h.inodes.linked inum
    cases hinos : w.inos inum with
    | nil =>
      rw [hinos] at hmem
      cases hmem
    | cons ep rest =>
      refine ⟨ep, n, ?_, w.inos inum, ?_, hmem⟩
      · rw [h.lookupino_eq le_rfl, hinos]
        rfl
      · rwa [hinos] at hlinked ⊢
  case dir =>
    intro a ha hroot
    obtain ⟨d, eps, hd, hlive, heps, j, hj⟩ :=
      h.tree.parent a ((h.hung_iff a).mpr ⟨(h.live_eq a).mp ha, hroot⟩)
    obtain ⟨hlen, hlinked⟩ := h.tree.lists d eps hlive heps
    have hjlt := (h.tree.mem d j a hj).1
    refine ⟨d, eps, j, hd, (h.live_eq d).mpr hlive, heps, hlen ▸ hjlt, ⟨_, hlinked j hjlt, hj⟩, ?_⟩
    intro d' eps' j' hd' heps' hj' hon
    obtain ⟨hlen', hlinked'⟩ := h.tree.lists d' eps' ((h.live_eq d').mp hd') heps'
    rw [onList_iff (hlinked' j' (hlen' ▸ hj'))] at hon
    exact h.tree.dir_unique hon hj
  case size_eq => exact fun d eps hd heps => (h.tree.lists d eps ((h.live_eq d).mp hd) heps).1

end Consistent

/-! ## Operations -/

/-- What restore does to the symbol table. -/
inductive Op
  | addentry (new : ℕ) (name : List UInt8) (inum : ℕ) (node link : Bool)
  | freeentry (ep : ℕ)
  | moveentry (ep : ℕ) (newname : List UInt8)
  | mktempname (ep : ℕ)
  | retire (ep : ℕ)
  | removeoldnodes
  | setFlags (ep : ℕ) (flags : BitVec 16)

section Runs

variable (size fuel : ℕ)

/-- One operation. -/
def Op.exec (s : Store) : Op → Run Store
  | .addentry new name inum node link => do
    return (← Symtab.addentry size fuel new name inum node link s).2
  | .freeentry ep => Symtab.freeentry size fuel ep s
  | .moveentry ep newname => Symtab.moveentry size fuel ep newname s
  | .mktempname ep => do return (← Symtab.mktempname fuel ep s).1
  | .retire ep => Symtab.retire fuel ep s
  | .removeoldnodes => Symtab.removeoldnodes size fuel s
  | .setFlags ep flags => .ok (s.modify ep fun e => { e with eFlags := flags })

/-- Operations one after the other. -/
def runOps : Store → List Op → Run Store
  | s, [] => .ok s
  | s, op :: ops => op.exec size fuel s >>= fun s => runOps s ops

/-- `ep` is the only entry that is found by its inode number. -/
def OnlyEntry (ep : ℕ) (s : Store) : Prop :=
  ∃ e, s.mem ep = some e ∧ s.lookupino fuel e.eIno = some (some ep) ∧ e.eLinks = none

/-- What the callers of an operation see to. `calloc` gives memory that is not in use. -/
def Op.Allowed (root : ℕ) (s : Store) : Op → Prop
  | .addentry new _ _ _ _ => ¬ s.Has new
  | .freeentry ep => s.Live ep ∧ ¬ OnList s.next s.removelist ep
  | .moveentry ep _ => s.Live ep
  | .mktempname ep => s.Live ep
  | .retire ep => OnlyEntry fuel ep s ∧ ep ≠ root
  | .removeoldnodes => True
  | .setFlags _ _ => True

/-- All operations of a run are allowed. -/
def AllowedRun (root : ℕ) : Store → List Op → Prop
  | _, [] => True
  | s, op :: ops => op.Allowed fuel root s ∧
    ∀ s', op.exec size fuel s = .ok s' → AllowedRun root s' ops

variable {size fuel} {root n maxino new : ℕ} {s : Store} {w : Lists}

theorem Whole.mono {m : ℕ} (h : Whole size root n s w) (hle : n ≤ m) : Whole size root m s w where
  inodes := h.inodes
  tree := h.tree
  root_live := h.root_live
  root_dir := h.root_dir
  root_parent := h.root_parent
  root_ino := h.root_ino
  fits := h.fits.mono hle
  found := h.found
  hung_iff := h.hung_iff

/-- There is room in `removelist` for the directories beside the root. -/
theorem Whole.length_removed (h : Whole size root n s w) : w.removed.length < n := by
  have hroot : root ∉ w.removed := by
    intro hmem
    obtain ⟨-, hino, hpos, -⟩ := h.inodes.ino _ root (List.mem_of_head? h.root_ino)
    have hzero := Option.some.inj (hino.symm.trans (h.inodes.removed root hmem).2)
    rw [wino] at hpos
    omega
  have hnodup : (root :: w.removed).Nodup := List.nodup_cons.mpr ⟨hroot, h.inodes.retired.nodup⟩
  refine h.fits _ hnodup fun a ha => ?_
  rcases List.mem_cons.mp ha with rfl | ha
  · exact h.has h.root_live
  · exact h.has (h.inodes.removed a ha).1

/-- What one operation preserves. -/
theorem Whole.exec (h : Whole size root n s w) (hsize : 0 < size) (hfuel : n + 1 ≤ fuel) {op : Op}
    (hop : op.Allowed fuel root s) :
    Ends (fun s' => ∃ w', Whole size root (n + 1) s' w') (op.exec size fuel s) := by
  have hle : n ≤ fuel := by omega
  have hmono : ∀ s', (∃ w', Whole size root n s' w') → ∃ w', Whole size root (n + 1) s' w' :=
    fun s' hs' => hs'.imp fun w' hw' => hw'.mono (Nat.le_succ n)
  cases op with
  | addentry new name inum node link =>
    exact (h.addentry hsize hfuel (fun _ => hop) name inum node link).bind
      fun p hp => ends_ok (hp.imp fun _ hw' => hw'.1)
  | freeentry ep =>
    have hremoved : ep ∉ w.removed := fun hmem =>
      hop.2 ((onList_iff h.inodes.retired ep).mpr hmem)
    exact (h.freeentry hsize hle ((h.live_eq ep).mp hop.1) hremoved).mono
      fun s' hs' => hmono s' (hs'.imp fun _ hw' => hw'.1)
  | moveentry ep newname =>
    exact (h.moveentry hsize hle ((h.live_eq ep).mp hop) newname).mono
      fun s' hs' => hmono s' (hs'.imp fun _ hw' => hw'.1)
  | mktempname ep =>
    exact (h.mktempname hle ((h.live_eq ep).mp hop)).bind
      fun p hp => ends_ok ⟨w, hp.1.mono (Nat.le_succ n)⟩
  | retire ep =>
    obtain ⟨⟨e, he, hfirst, hlinks⟩, hroot⟩ := hop
    exact (h.retire hle hroot he hfirst hlinks).mono
      fun s' hs' => hmono s' (hs'.imp fun _ hw' => hw'.1)
  | removeoldnodes =>
    exact (h.removeoldnodesLoop hsize hle (h.length_removed.trans_le hle)).mono
      fun s' hs' => hmono s' (hs'.imp fun _ hw' => hw'.1)
  | setFlags ep flags =>
    have hset : Whole size root n (s.modify ep fun e => { e with eFlags := flags }) w :=
      h.modify fun _ => ⟨rfl, rfl, rfl, rfl, rfl, rfl⟩
    exact ends_ok ⟨w, hset.mono (Nat.le_succ n)⟩

/-- What operations one after the other preserve. -/
theorem Whole.run (h : Whole size root n s w) (hsize : 0 < size) {ops : List Op}
    (hfuel : n + ops.length ≤ fuel) (hops : AllowedRun size fuel root s ops) :
    Ends (fun s' => ∃ w', Whole size root (n + ops.length) s' w') (runOps size fuel s ops) := by
  induction ops generalizing n s w with
  | nil => exact ends_ok ⟨w, h⟩
  | cons op ops ih =>
    rw [List.length_cons] at hfuel
    obtain ⟨hop, hrest⟩ := hops
    have hstep := h.exec hsize (by omega) hop
    rw [runOps]
    cases hexec : op.exec size fuel s with
    | error stop =>
      rw [hexec] at hstep
      cases stop with
      | panic text => trivial
      | stuck => exact hstep.elim
    | ok s' =>
      rw [hexec] at hstep
      obtain ⟨w', h'⟩ := hstep
      have hrun := ih h' (by omega) (hrest s' hexec)
      rwa [Nat.add_assoc, Nat.add_comm 1] at hrun

/-! ## The first table -/

/-- A table whose only entry is the root. -/
theorem whole_root {hash : ℕ → List ℕ} {free : List ℕ}
    (hinodes : Inodes s (fun a => False ∨ a = root) hash
      (Function.update (fun _ => []) rootino [root]) free [])
    (hentries : s.entries root = some (some (List.replicate size none)))
    (hparent : s.parent root = some root) (hfits : Fits n s) :
    Whole size root n s ⟨fun a => False ∨ a = root, fun _ => False, hash,
      Function.update (fun _ => []) rootino [root], fun _ _ => [], free, []⟩ := by
  have hmem : root ∈ Function.update (fun _ => []) rootino [root] rootino := by
    rw [Function.update_self]
    exact List.mem_cons_self
  have hino := (hinodes.ino rootino root hmem).2.1
  constructor
  case found =>
    intro a ha k hk _
    obtain rfl : a = root := ha.resolve_left id
    obtain rfl := Option.some.inj (hino.symm.trans hk)
    exact hmem
  case hung_iff =>
    intro a
    change False ↔ (False ∨ a = root) ∧ a ≠ root
    tauto
  case toRep =>
    refine ⟨hinodes, tree_none fun d eps hd heps => ?_, .inr rfl, ⟨_, hentries⟩, hparent, ?_, hfits⟩
    · obtain rfl : d = root := hd.resolve_left id
      obtain rfl := Option.some.inj (Option.some.inj (hentries.symm.trans heps))
      refine ⟨List.length_replicate, fun j hj => ?_⟩
      rw [List.getD_eq_getElem?_getD, List.getElem?_replicate]
      split <;> rfl
    · change (Function.update (fun _ => []) rootino [root] rootino).head? = some root
      rw [Function.update_self]
      rfl

theorem whole_initsymtable (hmax : hashfactor ≤ maxino) (hfuel : 1 ≤ fuel) :
    Ends (fun p => ∃ w, Whole size p.1 1 p.2 w ∧ (∀ k, ∀ a ∈ w.inos k, w.inos k = [a]) ∧
        w.removed = [])
      (initsymtable size fuel maxino new) := by
  set s : Store :=
    { mem := fun _ => none, entry := List.replicate (maxino / hashfactor) none, maxino := maxino,
      freelist := none, removelist := none } with hs
  have hnone : ∀ i, s.entry.getD i none = none := by
    intro i
    rw [hs, List.getD_eq_getElem?_getD, List.getElem?_replicate]
    split <;> rfl
  have hhas : ∀ a, ¬ s.Has a := fun a ha => by cases ha
  have hpos : 0 < s.entry.length := by
    rw [hs, List.length_replicate]
    exact Nat.div_pos hmax (by decide)
  have hinodes := inodes_none hpos hnone hhas rfl rfl
  have hfits : Fits 0 s := by
    intro l _ hhas
    cases l with
    | nil => exact le_rfl
    | cons a l => cases hhas a List.mem_cons_self
  have hadd : Ends (fun p => ∃ w, Whole size p.1 1 p.2 w ∧
        (∀ k, ∀ a ∈ w.inos k, w.inos k = [a]) ∧ w.removed = [])
      (addentry size fuel new [46] rootino true false s) := by
    rw [addentry]
    refine (hinodes.alloc size true fun _ => ?_).bind ?_
    · intro hhas
      cases hhas
    rintro ⟨np, s₁⟩ ⟨hnp, hmem, -, free', hinodes₁⟩
    dsimp only at hnp hmem hinodes₁ ⊢
    have hfits₁ : Fits 1 s₁ := hfits.alloc hmem
    have hhas₁ : s₁.Has np := ((hinodes₁.live_iff np).mp (.inr rfl)).1
    refine Ends.bind (P := fun r => r = none) rfl ?_
    rintro r rfl
    dsimp only
    rw [if_neg (by simp), hinodes₁.lookupino_eq (hfits₁.mono hfuel)]
    set s₂ : Store := s₁.modify np fun e => { e with eName := [46], eParent := np } with hs₂
    have hinodes₂ : Inodes s₂ (fun a => False ∨ a = np) (fun _ => []) (fun _ => []) free' [] :=
      hinodes₁.congr (next_modify_of fun _ => rfl) (links_modify_of fun _ => rfl)
        (ino_modify_of fun _ => rfl) rfl rfl rfl rfl
    have hlinks₂ : s₂.links np = some none := by
      have hlinks₁ : s₁.links = Function.update s.links np (some none) :=
        member_update hmem (·.eLinks)
      rw [hs₂, links_modify_of (by exact fun _ => rfl), hlinks₁, Function.update_self]
    have hsingle : Linked s₂.links (some np) [np] := ⟨rfl, none, hlinks₂, rfl⟩
    refine (hinodes₂.addino (.inr rfl) (fun _ => List.not_mem_nil) List.not_mem_nil rfl hsingle
      fun a ha => absurd ha List.not_mem_nil).bind ?_
    rintro s₃ ⟨hinodes₃, hsame₃, -⟩
    have hentries : s₃.entries np = some (some (List.replicate size none)) := by
      have hentries₁ : s₁.entries = Function.update s.entries np _ :=
        member_update hmem (·.eEntries)
      rw [hsame₃.entries, hs₂, entries_modify_of (by exact fun _ => rfl), hentries₁,
        Function.update_self]
      rfl
    have hparent : s₃.parent np = some np := by
      obtain ⟨e, he⟩ := hhas₁.exists_mem
      rw [hsame₃.parent, hs₂, parent_modify, he, Function.update_self]
      rfl
    have hfits₃ : Fits 1 s₃ := hfits₁.congr fun a ha => has_modify.mp ((hsame₃.has a).mp ha)
    refine ends_ok ⟨_, whole_root hinodes₃ hentries hparent hfits₃, fun k a ha => ?_, rfl⟩
    dsimp only at ha ⊢
    by_cases hk : k = rootino
    · subst hk
      rw [Function.update_self] at ha ⊢
      rw [List.mem_singleton.mp ha]
    · rw [Function.update_of_ne hk] at ha
      cases ha
  rw [initsymtable]
  refine hadd.bind ?_
  rintro ⟨ep, s'⟩ ⟨w, h, hsingle, hremoved⟩
  exact ends_ok ⟨w, h.modify fun _ => ⟨rfl, rfl, rfl, rfl, rfl, rfl⟩, hsingle, hremoved⟩

/-! ## Runs from the first table -/

variable (size fuel maxino new)

/-- The first table, and operations one after the other. The result has the root. -/
def runTable (ops : List Op) : Run (ℕ × Store) := do
  let (root, s) ← initsymtable size fuel maxino new
  let s ← runOps size fuel s ops
  return (root, s)

/-- All operations from the first table on are allowed. -/
def AllowedTable (ops : List Op) : Prop :=
  ∀ root s, initsymtable size fuel maxino new = .ok (root, s) → AllowedRun size fuel root s ops

variable {size fuel maxino new} {ops : List Op}

theorem whole_runTable (hsize : 0 < size) (hmax : hashfactor ≤ maxino)
    (hfuel : ops.length + 1 ≤ fuel) (hops : AllowedTable size fuel maxino new ops) :
    Ends (fun p => ∃ w, Whole size p.1 (1 + ops.length) p.2 w)
      (runTable size fuel maxino new ops) := by
  have hinit : Ends (fun p => ∃ w, Whole size p.1 1 p.2 w ∧
      (∀ k, ∀ a ∈ w.inos k, w.inos k = [a]) ∧ w.removed = [])
      (initsymtable size fuel maxino new) := whole_initsymtable hmax (by omega)
  rw [runTable]
  cases hrun : initsymtable size fuel maxino new with
  | error stop =>
    rw [hrun] at hinit
    cases stop with
    | panic text => trivial
    | stuck => exact hinit.elim
  | ok p =>
    obtain ⟨root, s⟩ := p
    rw [hrun] at hinit
    obtain ⟨w, h, -⟩ := hinit
    exact (h.run hsize (by omega) (hops root s hrun)).bind fun s' hs' => ends_ok hs'

/-- **A consistent symbol table**: whatever operations restore does one after the other, none of
them follows a pointer to no entry and every loop ends; where no operation panics, the table is
consistent. -/
theorem symtab_consistent (hsize : 0 < size) (hmax : hashfactor ≤ maxino)
    (hfuel : ops.length + 1 ≤ fuel) (hops : AllowedTable size fuel maxino new ops) :
    Ends (fun p => Consistent size p.1 p.2) (runTable size fuel maxino new ops) :=
  (whole_runTable hsize hmax hfuel hops).mono fun _ hp => hp.elim fun _ h => h.consistent

/-- Restore makes the directory `a` and puts it on `removelist`. -/
theorem allowedTable_retire (ops : List Op) (hops : ∀ s, AllowedRun 2 10 100 s ops) :
    AllowedTable 2 10 10 100 (.addentry 200 [46, 47, 97] 5 true false :: .retire 200 :: ops) := by
  intro root s hinit
  obtain ⟨rfl, rfl⟩ := Prod.mk.inj (Except.ok.inj hinit)
  refine ⟨?_, fun s' hs' => ?_⟩
  · intro hhas
    cases hhas
  · obtain rfl := Except.ok.inj hs'
    exact ⟨⟨⟨_, rfl, rfl, rfl⟩, by decide⟩, fun s'' _ => hops s''⟩

theorem symtab_consistent_retire : Ends (fun p => Consistent 2 p.1 p.2)
    (runTable 2 10 10 100
      [.addentry 200 [46, 47, 97] 5 true false, .retire 200, .removeoldnodes]) :=
  symtab_consistent (by decide) (by decide) (by decide)
    (allowedTable_retire _ fun _ => ⟨trivial, fun _ _ => trivial⟩)

/-- **Directories that are removed later**: in a table that allowed operations make of the one of
`initsymtable`, `removeoldnodes` ends. Where it does not panic, `removelist` is empty after it, and
the entries that were on it, and no others, are on the free list. -/
theorem removeoldnodes_frees (hsize : 0 < size) (hmax : hashfactor ≤ maxino)
    (hfuel : ops.length + 1 ≤ fuel) (hops : AllowedTable size fuel maxino new ops) {root : ℕ}
    {s : Store} (hrun : runTable size fuel maxino new ops = .ok (root, s)) :
    Ends (fun s' => s'.removelist = none ∧
        ∀ a, s'.Live a ↔ s.Live a ∧ ¬ OnList s.next s.removelist a)
      (removeoldnodes size fuel s) := by
  have hends := whole_runTable hsize hmax hfuel hops
  rw [hrun] at hends
  obtain ⟨w, h⟩ := hends
  have hle : 1 + ops.length ≤ fuel := by omega
  refine (h.removeoldnodesLoop hsize hle (h.length_removed.trans_le hle)).mono ?_
  rintro s' ⟨w', h', hnil, -, -, hlive⟩
  refine ⟨?_, fun a => ?_⟩
  · have hretired := h'.inodes.retired
    rw [hnil] at hretired
    exact linked_nil.mp hretired
  · rw [h'.live_eq, hlive a, h.live_eq, onList_iff h.inodes.retired]

theorem removeoldnodes_frees_retire : ∃ s,
    runTable 2 10 10 100 [.addentry 200 [46, 47, 97] 5 true false, .retire 200] = .ok (100, s) ∧
      Ends (fun s' => s'.removelist = none ∧
        ∀ a, s'.Live a ↔ s.Live a ∧ ¬ OnList s.next s.removelist a) (removeoldnodes 2 10 s) :=
  ⟨_, rfl, removeoldnodes_frees (by decide) (by decide) (by decide)
    (allowedTable_retire [] fun _ => trivial) rfl⟩

end Runs

end Symtab

end DumpRestore
