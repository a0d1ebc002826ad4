import DumpRestore.Restore.SymtabInodes
import DumpRestore.Restore.SymtabTree

/-!
# The operations of the symbol table

`Rep` puts the lists of `SymtabInodes` and `SymtabTree` together. Each operation of the symbol table
panics, or it ends in a store that has such lists again, where the entries, their directories and
their names have changed as the caller expects.
-/

namespace DumpRestore

namespace Symtab

/-! ## The lists together -/

/-- The lists of a store, the entries that are in use, and those that are on a list of a
directory. -/
structure Lists where
  live : ℕ → Prop
  hung : ℕ → Prop
  hash : ℕ → List ℕ
  inos : ℕ → List ℕ
  buckets : ℕ → ℕ → List ℕ
  free : List ℕ
  removed : List ℕ

/-- A store has these lists, at most `n` entries, and the directory `root` where all paths start. -/
structure Rep (size root n : ℕ) (s : Store) (w : Lists) : Prop where
  inodes : Inodes s w.live w.hash w.inos w.free w.removed
  tree : Tree size s w.live w.hung w.buckets
  root_live : w.live root
  root_dir : ∃ eps, s.entries root = some (some eps)
  root_parent : s.parent root = some root
  root_ino : (w.inos rootino).head? = some root
  fits : Fits n s

/-- Between two operations every entry is found by its inode number, and every entry but the root
is in a directory. -/
structure Whole (size root n : ℕ) (s : Store) (w : Lists) : Prop extends Rep size root n s w where
  found : Found s w.live w.inos
  hung_iff : ∀ a, w.hung a ↔ w.live a ∧ a ≠ root

theorem Fits.mono {n m : ℕ} {s : Store} (h : Fits n s) (hle : n ≤ m) : Fits m s :=
  fun l hl hmem => (h l hl hmem).trans hle

/-! ## What an operation changes -/

/-- A new entry. -/
structure Added (s s' : Store) (w w' : Lists) (np inum : ℕ) (node link : Bool) : Prop where
  fresh : ¬ w.live np
  live : ∀ a, w'.live a ↔ w.live a ∨ a = np
  removed : w'.removed = w.removed
  inos : w'.inos = Function.update w.inos inum (entered np inum link (w.inos inum))
  before : if link then w.inos inum ≠ [] else inum ≠ 0 → w.inos inum = []
  isDir : s'.isDir = Function.update s.isDir np (some node)

/-- An entry that is not in use any more. It still has its `e_links` and `e_sibling`. -/
structure Freed (s s' : Store) (w w' : Lists) (ep : ℕ) : Prop where
  live : ∀ a, w'.live a ↔ w.live a ∧ a ≠ ep
  removed : w'.removed = w.removed
  inos : w'.inos = fun k => (w.inos k).erase ep
  buckets : w'.buckets = fun d j => (w.buckets d j).erase ep
  isDir : s'.isDir = s.isDir
  flags : ∀ a ≠ ep, s'.flags a = s.flags a
  links : s'.links ep = s.links ep
  sibling : s'.sibling ep = s.sibling ep

/-- An entry that has another place or another name. -/
structure Moved (s s' : Store) (w w' : Lists) : Prop where
  live : w'.live = w.live
  removed : w'.removed = w.removed
  inos : w'.inos = w.inos
  isDir : s'.isDir = s.isDir
  links : s'.links = s.links

/-- An entry that has gone from its inode number to `removelist`. -/
structure Retired (s s' : Store) (w w' : Lists) (ep inum : ℕ) : Prop where
  live : w'.live = w.live
  removed : w'.removed = ep :: w.removed
  inos : w'.inos = Function.update w.inos inum []
  buckets : w'.buckets = w.buckets
  isDir : s'.isDir = s.isDir
  links : s'.links = s.links
  sibling : s'.sibling = s.sibling

section Rep

variable {size root fuel n ep : ℕ} {s s' : Store} {w : Lists}

theorem Rep.has (h : Rep size root n s w) {a : ℕ} (ha : w.live a) : s.Has a :=
  ((h.inodes.live_iff a).mp ha).1

/-- The directory of an entry. -/
theorem Whole.parent_dir (h : Whole size root n s w) {a : ℕ} (ha : w.live a) :
    ∃ d eps, s.parent a = some d ∧ w.live d ∧ s.entries d = some (some eps) := by
  by_cases har : a = root
  · obtain ⟨eps, heps⟩ := h.root_dir
    exact ⟨root, eps, har ▸ h.root_parent, h.root_live, heps⟩
  · obtain ⟨d, eps, hd, hlive, heps, -⟩ := h.tree.parent a ((h.hung_iff a).mpr ⟨ha, har⟩)
    exact ⟨d, eps, hd, hlive, heps⟩

/-- Members that are on no list may change. -/
theorem Rep.modify (h : Rep size root n s w) {a : ℕ} {f : Entry → Entry}
    (hf : ∀ e, (f e).eNext = e.eNext ∧ (f e).eLinks = e.eLinks ∧ (f e).eIno = e.eIno ∧
      (f e).eSibling = e.eSibling ∧ (f e).eEntries = e.eEntries ∧ (f e).eParent = e.eParent) :
    Rep size root n (s.modify a f) w := by
  have hentries : (s.modify a f).entries = s.entries := entries_modify_of fun e => (hf e).2.2.2.2.1
  have hparent : (s.modify a f).parent = s.parent := parent_modify_of fun e => (hf e).2.2.2.2.2
  constructor
  case inodes =>
    exact h.inodes.congr (next_modify_of fun e => (hf e).1) (links_modify_of fun e => (hf e).2.1)
      (ino_modify_of fun e => (hf e).2.2.1) rfl rfl rfl rfl
  case tree => exact h.tree.congr (sibling_modify_of fun e => (hf e).2.2.2.1) hparent hentries
  case root_live => exact h.root_live
  case root_dir => exact hentries ▸ h.root_dir
  case root_parent => exact hparent ▸ h.root_parent
  case root_ino => exact h.root_ino
  case fits => exact h.fits.congr fun _ => has_modify.mp

theorem Whole.modify (h : Whole size root n s w) {a : ℕ} {f : Entry → Entry}
    (hf : ∀ e, (f e).eNext = e.eNext ∧ (f e).eLinks = e.eLinks ∧ (f e).eIno = e.eIno ∧
      (f e).eSibling = e.eSibling ∧ (f e).eEntries = e.eEntries ∧ (f e).eParent = e.eParent) :
    Whole size root n (s.modify a f) w where
  toRep := h.toRep.modify hf
  found := by
    have hino : (s.modify a f).ino = s.ino := ino_modify_of fun e => (hf e).2.2.1
    intro b hb k hk
    rw [hino] at hk
    exact h.found b hb k hk
  hung_iff := h.hung_iff

theorem Rep.lookupino_eq (h : Rep size root n s w) (hfuel : n ≤ fuel) (inum : ℕ) :
    s.lookupino fuel inum = some (w.inos inum).head? :=
  h.inodes.lookupino_eq (h.fits.mono hfuel) inum

/-! ## Searches -/

/-- The loop of `lookupname` ends, and finds only entries in use. -/
theorem Rep.walk_ends (h : Rep size root n s w) (hsize : 0 < size) (hfuel : n ≤ fuel) (m : ℕ)
    {d : ℕ} (hd : w.live d) (cp : List UInt8) :
    ∃ r, s.walk size fuel m d cp = some r ∧ ∀ a, r = some a → w.live a := by
  induction m generalizing d cp with
  | zero =>
    refine ⟨none, rfl, fun a ha => ?_⟩
    cases ha
  | succ m ih =>
    rw [Table.walk]
    split
    case isTrue =>
      refine ⟨none, rfl, fun a ha => ?_⟩
      cases ha
    case isFalse =>
      obtain ⟨r, hr, hcases⟩ := h.tree.lookupin hsize (h.fits.mono hfuel) (fun a => h.has) hd
        (cp.takeWhile (· ≠ 47))
      rw [hr]
      have hlive : ∀ a, r = some a → w.live a := by
        intro a ha
        rcases hcases with ⟨-, hrd⟩ | ⟨-, -, ⟨b, hrb, hb, -⟩ | ⟨hrnone, -⟩⟩
        · obtain rfl := Option.some.inj (ha.symm.trans hrd)
          exact hd
        · obtain rfl := Option.some.inj (ha.symm.trans hrb)
          exact h.tree.hung_live _ hb
        · cases ha.symm.trans hrnone
      simp only [Option.bind_eq_bind, Option.bind_some]
      cases r with
      | none => exact ⟨none, rfl, hlive⟩
      | some a =>
        simp only
        split
        · exact ⟨some a, rfl, hlive⟩
        · exact ih (hlive a rfl) _

theorem Rep.lookupname_ends (h : Rep size root n s w) (hsize : 0 < size) (hfuel : n ≤ fuel)
    (name : List UInt8) :
    ∃ r, s.lookupname size fuel name = some r ∧ ∀ a, r = some a → w.live a := by
  rw [Table.lookupname, h.lookupino_eq hfuel, h.root_ino]
  simp only [Option.bind_eq_bind, Option.bind_some]
  split
  case isTrue =>
    refine ⟨some root, rfl, fun a ha => ?_⟩
    obtain rfl := Option.some.inj ha
    exact h.root_live
  case isFalse => exact h.walk_ends hsize hfuel _ h.root_live _

/-- `lookupparent` finds directories only. -/
theorem Rep.lookupparent_ends (h : Rep size root n s w) (hsize : 0 < size) (hfuel : n ≤ fuel)
    (name : List UInt8) :
    Ends (fun r => ∀ d, r = some d → ∃ dir base eps, splitName name = some (dir, base) ∧
        s.lookupname size fuel dir = some (some d) ∧ w.live d ∧ s.entries d = some (some eps))
      (lookupparent size fuel name s) := by
  rw [lookupparent]
  cases hsplit : splitName name with
  | none =>
    refine ends_ok fun d hd => ?_
    cases hd
  | some p =>
    obtain ⟨dir, base⟩ := p
    obtain ⟨r, hr, hlive⟩ := h.lookupname_ends hsize hfuel dir
    simp only [hr, ofOption, bind, Except.bind]
    cases r with
    | none =>
      refine ends_ok fun d hd => ?_
      cases hd
    | some d =>
      have hdlive := hlive d rfl
      obtain ⟨e, he⟩ := (h.has hdlive).exists_mem
      simp only [cell_eq he]
      split
      case isFalse => exact ends_panic _
      case isTrue hdir =>
        obtain ⟨eps, heps⟩ := Option.isSome_iff_exists.mp hdir
        refine ends_ok fun d' hd' => ?_
        obtain rfl := Option.some.inj hd'
        refine ⟨dir, base, eps, rfl, hr, hdlive, ?_⟩
        rw [Store.entries, he, Option.map_some, heps]

/-- The loop of `myname` ends: each turn takes at least a byte of the buffer. -/
theorem Whole.mynameLoop_ends (h : Whole size root n s w) (hfuel : n ≤ fuel) {m cp : ℕ}
    (hm : cp < m) {a : ℕ} (ha : w.live a) (name : List UInt8) :
    Ends (fun _ => True) (mynameLoop fuel s m a cp name) := by
  induction m generalizing a cp name with
  | zero => omega
  | succ m ih =>
    obtain ⟨e, he⟩ := (h.has ha).exists_mem
    rw [mynameLoop, cell_eq he]
    simp only [bind, Except.bind, h.lookupino_eq hfuel, ofOption]
    split
    case isFalse => exact ends_panic _
    case isTrue hlt =>
      split
      case isTrue => exact ends_ok trivial
      case isFalse =>
        obtain ⟨d, -, hd, hlive, -⟩ := h.parent_dir ha
        obtain rfl : e.eParent = d := by
          rw [Store.parent, he] at hd
          exact Option.some.inj hd
        exact ih (by omega) hlive _

theorem Whole.myname_ends (h : Whole size root n s w) (hfuel : n ≤ fuel) {a : ℕ} (ha : w.live a) :
    Ends (fun _ => True) (myname fuel a s) :=
  h.mynameLoop_ends hfuel (by decide) ha []

theorem linkIndex_eq {p : Option ℕ} {l : List ℕ} (hl : Linked s.links p l) (hle : l.length ≤ fuel)
    (a i : ℕ) : ∃ r, linkIndex s a fuel p i = some r := by
  induction l generalizing p fuel i with
  | nil =>
    obtain rfl := linked_nil.mp hl
    cases fuel with
    | zero => exact ⟨none, rfl⟩
    | succ fuel => exact ⟨none, rfl⟩
  | cons b l ih =>
    obtain ⟨rfl, q, hq, hrest⟩ := hl
    rw [List.length_cons] at hle
    obtain ⟨fuel, rfl⟩ : ∃ m, fuel = m + 1 := ⟨fuel - 1, by omega⟩
    rw [linkIndex, hq]
    simp only [Option.bind_eq_bind, Option.bind_some]
    split
    · exact ⟨_, rfl⟩
    · exact ih hrest (by omega) _

theorem Rep.gentempname_ends (h : Rep size root n s w) (hfuel : n ≤ fuel) {a : ℕ}
    (ha : w.live a) : Ends (fun _ => True) (gentempname fuel a s) := by
  obtain ⟨e, he⟩ := (h.has ha).exists_mem
  have hlinked := h.inodes.linked e.eIno
  obtain ⟨r, hr⟩ := linkIndex_eq hlinked ((h.fits.links hlinked).trans hfuel) a 0
  rw [gentempname, cell_eq he]
  simp only [bind, Except.bind, h.lookupino_eq hfuel, ofOption, hr]
  cases r with
  | none => exact ends_panic _
  | some i => exact ends_ok trivial

/-! ## Operations -/

/-- A store with a new entry. -/
theorem Fits.alloc {np : ℕ} {e : Entry} (h : Fits n s)
    (hmem : s'.mem = Function.update s.mem np (some e)) : Fits (n + 1) s' := by
  intro l hl hhas
  have herase := h (l.erase np) (hl.erase np) fun a ha => by
    have hne : a ≠ np := fun heq => hl.not_mem_erase (heq ▸ ha)
    have ha' := hhas a (List.mem_of_mem_erase ha)
    rwa [Store.Has, hmem, Function.update_of_ne hne] at ha'
  have hlen := List.length_erase (a := np) (l := l)
  split at hlen
  · omega
  · omega

/-- The members of the lists of inode numbers. -/
theorem Inodes.of_sameInos {live : ℕ → Prop} {hash inos : ℕ → List ℕ} {free removed : List ℕ}
    (h : Inodes s live hash inos free removed) (hsame : SameInos s s') :
    Inodes s' live hash inos free removed :=
  h.congr hsame.next hsame.links hsame.ino hsame.entry hsame.maxino hsame.freelist
    hsame.removelist

theorem Tree.of_sameTree {live hung : ℕ → Prop} {buckets : ℕ → ℕ → List ℕ}
    (h : Tree size s live hung buckets) (hsame : SameTree s s') : Tree size s' live hung buckets :=
  h.congr hsame.sibling hsame.parent hsame.entries

/-- Directories stay directories. -/
theorem SameInos.dir (h : SameInos s s') {d : ℕ} (hd : ∃ eps, s.entries d = some (some eps)) :
    ∃ eps, s'.entries d = some (some eps) := by
  obtain ⟨eps, heps⟩ := hd
  have heq := congrFun h.isDir d
  rw [isDir_eq, isDir_eq] at heq
  rw [heps] at heq
  cases hd' : s'.entries d with
  | none =>
    rw [hd'] at heq
    cases heq
  | some o =>
    rw [hd'] at heq
    cases o with
    | none => cases heq
    | some eps' => exact ⟨eps', rfl⟩

/-- With a new entry that is nowhere yet. -/
theorem Whole.alloc (h : Whole size root n s w) {np : ℕ} {node : Bool} {free' : List ℕ}
    (hnp : ¬ w.live np) (hmem : s'.mem = Function.update s.mem np (some (Store.blank size node)))
    (hinodes : Inodes s' (fun a => w.live a ∨ a = np) w.hash w.inos free' w.removed) :
    Rep size root (n + 1) s' { w with live := fun a => w.live a ∨ a = np, free := free' } ∧
      Found s' (fun a => w.live a ∨ a = np) w.inos := by
  have hrootne : root ≠ np := fun heq => hnp (heq ▸ h.root_live)
  have hentries : s'.entries = Function.update s.entries np _ := member_update hmem (·.eEntries)
  have hparent : s'.parent = Function.update s.parent np _ := member_update hmem (·.eParent)
  have hino : s'.ino = Function.update s.ino np (some 0) := member_update hmem (·.eIno)
  refine ⟨⟨hinodes, h.tree.alloc hnp hmem, .inl h.root_live, ?_, ?_, h.root_ino,
    h.fits.alloc hmem⟩, fun a ha k hk hzero => ?_⟩
  · obtain ⟨eps, heps⟩ := h.root_dir
    exact ⟨eps, by rw [hentries, Function.update_of_ne hrootne, heps]⟩
  · rw [hparent, Function.update_of_ne hrootne, h.root_parent]
  · rw [hino] at hk
    by_cases hanp : a = np
    · rw [hanp, Function.update_self] at hk
      exact absurd (Option.some.inj hk).symm hzero
    · rw [Function.update_of_ne hanp] at hk
      exact h.found a (ha.resolve_right hanp) k hk hzero

/-- `addentry`: the new entry is in its directory, and it is found by its inode number. -/
theorem Whole.addentry (h : Whole size root n s w) (hsize : 0 < size) (hfuel : n + 1 ≤ fuel)
    {new : ℕ} (hnew : s.freelist = none → ¬ s.Has new) (name : List UInt8) (inum : ℕ)
    (node link : Bool) :
    Ends (fun p => ∃ w', Whole size root (n + 1) p.2 w' ∧ Added s p.2 w w' p.1 inum node link)
      (addentry size fuel new name inum node link s) := by
  rw [Symtab.addentry]
  refine (h.inodes.alloc size node hnew).bind ?_
  rintro ⟨np, s₁⟩ ⟨hnp, hmem, -, free', hinodes₁⟩
  dsimp only at hnp hmem hinodes₁ ⊢
  have hino₁ : s₁.ino = Function.update s.ino np (some 0) := member_update hmem (·.eIno)
  have hlinks₁ : s₁.links = Function.update s.links np (some none) := member_update hmem (·.eLinks)
  set w₁ : Lists := { w with live := fun a => w.live a ∨ a = np, free := free' } with hw₁
  obtain ⟨hrep₁, hfound₁⟩ := h.alloc hnp hmem hinodes₁
  refine (hrep₁.lookupparent_ends hsize hfuel name).bind ?_
  rintro (- | d) hd
  · -- the root is there, so that no entry can be without a directory
    dsimp only
    split
    · exact ends_panic _
    · rw [hrep₁.lookupino_eq hfuel, h.root_ino]
      exact ends_panic _
  · obtain ⟨-, -, eps, -, -, hdlive, heps⟩ := hd d rfl
    dsimp only
    set s₂ : Store := s₁.modify np fun e => { e with eName := baseName name } with hs₂
    have hrep₂ : Rep size root (n + 1) s₂ w₁ :=
      hrep₁.modify fun _ => ⟨rfl, rfl, rfl, rfl, rfl, rfl⟩
    have hnphung : ¬ w.hung np := fun hh => hnp (h.tree.hung_live np hh)
    have heps₂ : s₂.entries d = some (some eps) := by
      rw [hs₂, entries_modify_of (by exact fun _ => rfl), heps]
    refine (hrep₂.tree.hang (.inr rfl) hnphung hdlive (fun a => hrep₂.has) heps₂
      (dirHash_lt hsize _)).bind ?_
    rintro s₃ ⟨htree₃, hsame₃, hparent₃⟩
    have hinodes₃ : Inodes s₃ w₁.live w.hash w.inos free' w.removed :=
      hrep₂.inodes.of_sameInos hsame₃
    have hino₃ : s₃.ino = s₁.ino := hsame₃.ino.trans (ino_modify_of fun _ => rfl)
    have hlinks₃ : s₃.links = s₁.links := hsame₃.links.trans (links_modify_of fun _ => rfl)
    have hfits₃ : Fits (n + 1) s₃ := hrep₂.fits.congr fun a => (hsame₃.has a).mp
    refine (hinodes₃.enterIno (fun a ha k hk => hfound₁ a ha k (hino₃ ▸ hk))
      (hfits₃.mono hfuel) (.inr rfl) ?_ ?_ (fun hmem' => hnp (h.inodes.removed np hmem').1) inum
      link).bind ?_
    · rw [hino₃, hino₁, Function.update_self]
    · rw [hlinks₃, hlinks₁, Function.update_self]
    · rintro s₄ ⟨hash', inos', hinodes₄, hfound₄, hheads, hsame₄, hinos', hbefore⟩
      have hrootne : root ≠ np := fun heq => hnp (heq ▸ h.root_live)
      have hisDir₁ : s₁.isDir = Function.update s.isDir np (some node) := by
        rw [show s₁.isDir = Function.update s.isDir np _ from
          member_update hmem fun e => e.eEntries.isSome, Store.blank]
        cases node with
        | true => rfl
        | false => rfl
      have hisDir₄ : s₄.isDir = Function.update s.isDir np (some node) := by
        rw [isDir_congr hsame₄.entries, hsame₃.isDir, ← hisDir₁]
        exact isDir_congr (entries_modify_of fun _ => rfl)
      refine ends_ok ⟨⟨w₁.live, fun a => w.hung a ∨ a = np, hash', inos',
        setBucket w.buckets d (dirHash size (baseName name))
          (np :: w.buckets d (dirHash size (baseName name))), free', w.removed⟩, ?_,
        ⟨hnp, fun a => Iff.rfl, rfl, hinos', hbefore, hisDir₄⟩⟩
      constructor
      case found => exact hfound₄
      case hung_iff =>
        intro a
        change w.hung a ∨ a = np ↔ (w.live a ∨ a = np) ∧ a ≠ root
        rw [h.hung_iff a]
        constructor
        · rintro (⟨ha, har⟩ | rfl)
          · exact ⟨.inl ha, har⟩
          · exact ⟨.inr rfl, hrootne.symm⟩
        · rintro ⟨ha | ha, har⟩
          · exact .inl ⟨ha, har⟩
          · exact .inr ha
      case toRep =>
        refine ⟨hinodes₄, htree₃.of_sameTree hsame₄, .inl h.root_live, ?_, ?_,
          hheads _ _ h.root_ino, hfits₃.congr fun a => (hsame₄.has a).mp⟩
        · obtain ⟨eps', heps'⟩ := hsame₃.dir hrep₂.root_dir
          exact ⟨eps', by rw [hsame₄.entries, heps']⟩
        · rw [hsame₄.parent, hparent₃, Function.update_of_ne hrootne]
          exact hrep₂.root_parent

/-- `freeentry`: the entry is not in use any more, and everything else is found as before. -/
theorem Whole.freeentry (h : Whole size root n s w) (hsize : 0 < size) (hfuel : n ≤ fuel)
    (hep : w.live ep) (hremoved : ep ∉ w.removed) :
    Ends (fun s' => ∃ w', Whole size root n s' w' ∧ Freed s s' w w' ep)
      (freeentry size fuel ep s) := by
  obtain ⟨e, he⟩ := (h.has hep).exists_mem
  rw [Symtab.freeentry, cell_eq he]
  simp only [bind, Except.bind]
  split
  case isTrue => exact ends_panic _
  split
  case isTrue => exact ends_panic _
  split
  case isTrue => exact ends_panic _
  case isFalse hempty =>
    have hchildren : ∀ a, w.hung a → s.parent a ≠ some ep := fun a ha =>
      h.tree.no_children hep he (Bool.eq_false_iff.mpr hempty) ha
    refine (h.inodes.leaveIno h.found (h.fits.mono hfuel) hep he).bind ?_
    rintro s₁ ⟨hash', hinodes₁, hino₁, hlinks₁, hsame₁⟩
    have htree₁ := h.tree.of_sameTree hsame₁
    have hhas₁ : ∀ a, w.live a → s₁.Has a := fun a ha => (hsame₁.has a).mpr (h.has ha)
    obtain ⟨d, eps, hd, hdlive, heps⟩ := h.parent_dir hep
    refine (htree₁.removeentry hsize ((h.fits.mono hfuel).congr fun a => (hsame₁.has a).mp) hhas₁
      hep (hsame₁.parent ▸ hd) hdlive (hsame₁.entries ▸ heps)).bind ?_
    intro s₂ hunhung
    have hroot : ep ≠ root := ((h.hung_iff ep).mp hunhung.mem).2
    have hsame₂ := hunhung.same
    have hinodes₂ := hinodes₁.of_sameInos hsame₂
    have hrelease := hunhung.rest.release (fun hh => hh.2 rfl) fun a ha hpa => by
      rw [hunhung.parent, hsame₁.parent] at hpa
      exact hchildren a ha.1 hpa
    have hout : ∀ k, ep ∉ (w.inos k).erase ep := fun k =>
      (h.inodes.linked k).nodup.not_mem_erase
    set s₃ : Store := s₂.modify ep fun e => { e with eNext := s₂.freelist } with hs₃
    have hlinks₃ : s₃.links = s₂.links := links_modify_of fun _ => rfl
    have hsibling₃ : s₃.sibling = s₂.sibling := sibling_modify_of fun _ => rfl
    have hino₃ : s₃.ino = s₂.ino := ino_modify_of fun _ => rfl
    have hentries₃ : s₃.entries = s₂.entries := entries_modify_of fun _ => rfl
    have hlabel₃ : s₃.label = s₂.label := label_modify_of fun _ => rfl
    have hparent₃ : s₃.parent = s₂.parent := parent_modify_of fun _ => rfl
    refine ends_ok ⟨⟨fun a => w.live a ∧ a ≠ ep, fun a => w.hung a ∧ a ≠ ep, hash',
      fun k => (w.inos k).erase ep, fun d j => (w.buckets d j).erase ep, ep :: w.free, w.removed⟩,
      ?_, ?_⟩
    · constructor
      case found =>
        refine h.found.erase fun a ha => ?_
        exact (congrFun (hino₃.trans hsame₂.ino) a).trans (hino₁ a ha)
      case hung_iff =>
        intro a
        change w.hung a ∧ a ≠ ep ↔ (w.live a ∧ a ≠ ep) ∧ a ≠ root
        rw [h.hung_iff a]
        tauto
      case toRep =>
        refine ⟨hinodes₂.release hep hout hremoved rfl, hrelease.congr hsibling₃ hparent₃ hentries₃,
          ⟨h.root_live, hroot.symm⟩, ?_, ?_, head?_erase hroot.symm h.root_ino,
          h.fits.congr fun a ha => ?_⟩
        · obtain ⟨eps', heps'⟩ := hsame₂.dir (hsame₁.entries ▸ h.root_dir)
          exact ⟨eps', (congrFun hentries₃ root).trans heps'⟩
        · refine (congrFun hparent₃ root).trans ?_
          rw [hunhung.parent, hsame₁.parent, h.root_parent]
        · exact (hsame₁.has a).mp ((hsame₂.has a).mp (has_modify.mp ha))
    · refine ⟨fun a => Iff.rfl, rfl, rfl, rfl, ?_, ?_, ?_, ?_⟩
      · exact (isDir_congr hentries₃).trans (hsame₂.isDir.trans (isDir_congr hsame₁.entries))
      · exact fun a _ => congrFun (flags_congr (hlabel₃.trans (hsame₂.label.trans hsame₁.label))) a
      · exact (congrFun (hlinks₃.trans hsame₂.links) ep).trans hlinks₁
      · exact (congrFun hsibling₃ ep).trans (hunhung.sibling.trans (congrFun hsame₁.sibling ep))

/-- `moveentry`: the entry is in another directory, on the list of its old name. -/
theorem Whole.moveentry (h : Whole size root n s w) (hsize : 0 < size) (hfuel : n ≤ fuel)
    (hep : w.live ep) (newname : List UInt8) :
    Ends (fun s' => ∃ w', Whole size root n s' w' ∧ Moved s s' w w')
      (moveentry size fuel ep newname s) := by
  obtain ⟨e, he⟩ := (h.has hep).exists_mem
  obtain ⟨d, deps, hd, hdlive, hdeps⟩ := h.parent_dir hep
  have hed : e.eParent = d := by
    rw [Store.parent, he] at hd
    exact Option.some.inj hd
  -- the new name and the flag do not matter for the lists
  have hrename : ∀ s₁ w₁, Whole size root n s₁ w₁ → w₁.live ep → Moved s s₁ w w₁ →
      Ends (fun s' => ∃ w', Whole size root n s' w' ∧ Moved s s' w w') (do
        let temp ← gentempname fuel ep (s₁.modify ep fun e => { e with eName := baseName newname })
        return (s₁.modify ep fun e => { e with eName := baseName newname }).modify ep
          fun e => { e with eFlags :=
            if temp = baseName newname then e.eFlags ||| tmpnameFlag
            else e.eFlags &&& ~~~tmpnameFlag }) := by
    intro s₁ w₁ h₁ hep₁ hmoved
    have h₂ : Whole size root n (s₁.modify ep fun e => { e with eName := baseName newname }) w₁ :=
      h₁.modify fun _ => ⟨rfl, rfl, rfl, rfl, rfl, rfl⟩
    refine (h₂.gentempname_ends hfuel hep₁).bind fun temp _ => ?_
    refine ends_ok ⟨w₁, h₂.modify fun _ => ⟨rfl, rfl, rfl, rfl, rfl, rfl⟩, hmoved.live,
      hmoved.removed, hmoved.inos, Eq.trans (isDir_congr ?_) hmoved.isDir,
      Eq.trans ?_ hmoved.links⟩
    · exact (entries_modify_of (by exact fun _ => rfl)).trans
        (entries_modify_of (by exact fun _ => rfl))
    · exact (links_modify_of (by exact fun _ => rfl)).trans
        (links_modify_of (by exact fun _ => rfl))
  rw [Symtab.moveentry]
  refine (h.lookupparent_ends hsize hfuel newname).bind ?_
  rintro (- | np) hnp
  · exact ends_panic _
  · obtain ⟨-, -, eps, -, -, hnplive, heps⟩ := hnp np rfl
    dsimp only
    rw [cell_eq he]
    refine Ends.bind (P := fun x => x = e) rfl ?_
    rintro e rfl
    split
    case isFalse => exact hrename s w h hep ⟨rfl, rfl, rfl, rfl, rfl⟩
    case isTrue =>
      refine (h.tree.removeentry hsize (h.fits.mono hfuel) (fun a => h.has) hep hd hdlive
        hdeps).bind ?_
      rintro s₁ ⟨hephung, hsame₁, hparent₁, -, htree₁⟩
      have hroot : ep ≠ root := ((h.hung_iff ep).mp hephung).2
      obtain ⟨eps₁, heps₁⟩ := hsame₁.dir ⟨eps, heps⟩
      refine (htree₁.hang hep (fun hh => hh.2 rfl) hnplive
        (fun a ha => (hsame₁.has a).mpr (h.has ha)) heps₁ (dirHash_lt hsize _)).bind ?_
      rintro s₂ ⟨htree₂, hsame₂, hparent₂⟩
      have hsame := hsame₁.trans hsame₂
      obtain ⟨buckets, htree⟩ : ∃ buckets, Tree size s₂ w.live
          (fun a => (w.hung a ∧ a ≠ ep) ∨ a = ep) buckets := ⟨_, htree₂⟩
      refine hrename s₂ ⟨w.live, fun a => (w.hung a ∧ a ≠ ep) ∨ a = ep, w.hash, w.inos, buckets,
        w.free, w.removed⟩ ?_ hep ⟨rfl, rfl, rfl, hsame.isDir, hsame.links⟩
      constructor
      case found => exact fun a ha k hk => h.found a ha k (hsame.ino ▸ hk)
      case hung_iff =>
        intro a
        change (w.hung a ∧ a ≠ ep) ∨ a = ep ↔ w.live a ∧ a ≠ root
        rw [h.hung_iff a]
        constructor
        · rintro (⟨ha, -⟩ | rfl)
          · exact ha
          · exact ⟨hep, hroot⟩
        · intro ha
          by_cases haep : a = ep
          · exact .inr haep
          · exact .inl ⟨ha, haep⟩
      case toRep =>
        refine ⟨h.inodes.of_sameInos hsame, htree, h.root_live, hsame.dir h.root_dir, ?_,
          h.root_ino, h.fits.congr fun a => (hsame.has a).mp⟩
        rw [hparent₂, Function.update_of_ne hroot.symm, hparent₁, h.root_parent]

/-- `mktempname`. -/
theorem Whole.mktempname (h : Whole size root n s w) (hfuel : n ≤ fuel) (hep : w.live ep) :
    Ends (fun p => Whole size root n p.1 w ∧ Moved s p.1 w w) (mktempname fuel ep s) := by
  obtain ⟨e, he⟩ := (h.has hep).exists_mem
  rw [Symtab.mktempname, cell_eq he]
  simp only [bind, Except.bind]
  split
  case isTrue => exact ends_panic _
  case isFalse =>
    set s₁ : Store := s.modify ep fun e => { e with eFlags := e.eFlags ||| tmpnameFlag } with hs₁
    have h₁ : Whole size root n s₁ w := h.modify fun _ => ⟨rfl, rfl, rfl, rfl, rfl, rfl⟩
    refine (h₁.myname_ends hfuel hep).bind fun oldname _ => ?_
    refine (h₁.gentempname_ends hfuel hep).bind fun temp _ => ?_
    have h₂ : Whole size root n (s₁.modify ep fun e => { e with eName := temp }) w :=
      h₁.modify fun _ => ⟨rfl, rfl, rfl, rfl, rfl, rfl⟩
    have hisDir : (s₁.modify ep fun e => { e with eName := temp }).isDir = s.isDir :=
      isDir_congr ((entries_modify_of (by exact fun _ => rfl)).trans
        (entries_modify_of (by exact fun _ => rfl)))
    have hlinks : (s₁.modify ep fun e => { e with eName := temp }).links = s.links :=
      (links_modify_of (by exact fun _ => rfl)).trans (links_modify_of (by exact fun _ => rfl))
    exact (h₂.myname_ends hfuel hep).bind
      fun newname _ => ends_ok ⟨h₂, rfl, rfl, rfl, hisDir, hlinks⟩

/-- A directory without links goes to `removelist`. -/
theorem Whole.retire (h : Whole size root n s w) (hfuel : n ≤ fuel) (hroot : ep ≠ root) {e : Entry}
    (he : s.mem ep = some e) (hfirst : s.lookupino fuel e.eIno = some (some ep))
    (hlinks : e.eLinks = none) :
    Ends (fun s' => ∃ w', Whole size root n s' w' ∧ Retired s s' w w' ep e.eIno)
      (retire fuel ep s) := by
  have hhead : (w.inos e.eIno).head? = some ep := by
    rw [h.lookupino_eq hfuel] at hfirst
    exact Option.some.inj hfirst
  obtain ⟨hlive, hino, hpos, -⟩ := h.inodes.ino _ ep (List.mem_of_head? hhead)
  have hsingle : w.inos e.eIno = [ep] := by
    have hlinked := h.inodes.linked e.eIno
    obtain ⟨rest, hrest⟩ := List.head?_eq_some_iff.mp hhead
    rw [hrest] at hlinked ⊢
    obtain ⟨-, q, hq, htail⟩ := hlinked
    obtain rfl : none = q := by
      rw [Table.links, he, Option.map_some, hlinks] at hq
      exact Option.some.inj hq
    rw [List.head?_eq_none_iff.mp htail.head?.symm]
  have hnotrem : ep ∉ w.removed := by
    intro hmem
    have hzero := Option.some.inj (hino.symm.trans (h.inodes.removed ep hmem).2)
    rw [wino] at hpos
    omega
  rw [Symtab.retire, cell_eq he]
  refine (h.inodes.deleteino (h.fits.mono hfuel) e.eIno).bind ?_
  rintro s₁ ⟨a, rest, hash', hinos, hinodes₁, hsame₁, hlinks₁, hino₁, -, -⟩
  obtain ⟨rfl, -⟩ := List.cons.inj (hsingle.symm.trans hinos)
  have hepzero : s₁.ino ep = some 0 := by rw [hino₁, Function.update_self]
  refine ends_ok ⟨⟨w.live, w.hung, hash', Function.update w.inos e.eIno [], w.buckets, w.free,
    ep :: w.removed⟩, ?_, rfl, rfl, rfl, rfl, ?_, ?_, ?_⟩
  case refine_2 =>
    rw [← isDir_congr hsame₁.entries]
    exact isDir_congr (entries_modify_of fun _ => rfl)
  case refine_3 => exact (links_modify_of (by exact fun _ => rfl)).trans hlinks₁
  case refine_4 => exact (sibling_modify_of (by exact fun _ => rfl)).trans hsame₁.sibling
  constructor
  case found =>
    intro a ha k hk hzero
    have hk' : s₁.ino a = some k := by
      have heq : (s₁.modify ep fun e => { e with eNext := s₁.removelist }).ino = s₁.ino :=
        ino_modify_of fun _ => rfl
      exact heq ▸ hk
    have haep : a ≠ ep := by
      rintro rfl
      exact hzero (Option.some.inj (hepzero.symm.trans hk')).symm
    rw [hino₁, Function.update_of_ne haep] at hk'
    have hmem := h.found a ha k hk' hzero
    have hkino : k ≠ e.eIno := by
      rintro rfl
      rw [hsingle] at hmem
      exact haep (List.mem_singleton.mp hmem)
    change a ∈ Function.update w.inos e.eIno [] k
    rwa [Function.update_of_ne hkino]
  case hung_iff => exact h.hung_iff
  case toRep =>
    refine ⟨hinodes₁.push hlive hepzero hnotrem rfl, (h.tree.of_sameTree hsame₁).congr
      (sibling_modify_of (by exact fun _ => rfl)) (parent_modify_of (by exact fun _ => rfl))
      (entries_modify_of (by exact fun _ => rfl)), h.root_live, ?_, ?_, ?_,
      h.fits.congr fun a ha => (hsame₁.has a).mp (has_modify.mp ha)⟩
    · obtain ⟨eps, heps⟩ := h.root_dir
      refine ⟨eps, (congrFun (entries_modify_of (by exact fun _ => rfl)) root).trans ?_⟩
      rw [hsame₁.entries, heps]
    · refine (congrFun (parent_modify_of (by exact fun _ => rfl)) root).trans ?_
      rw [hsame₁.parent, h.root_parent]
    · have hne : rootino ≠ e.eIno := by
        intro heq
        rw [← heq, h.root_ino] at hhead
        exact hroot (Option.some.inj hhead).symm
      change (Function.update w.inos e.eIno [] rootino).head? = some root
      rw [Function.update_of_ne hne, h.root_ino]

/-! ## removeoldnodes -/

/-- `removenode`. -/
theorem Whole.removenode (h : Whole size root n s w) (hfuel : n ≤ fuel) (hep : w.live ep) :
    Ends (fun p => Whole size root n p.1 w ∧ p.1.isDir = s.isDir) (removenode size fuel ep s) := by
  obtain ⟨e, he⟩ := (h.has hep).exists_mem
  rw [Symtab.removenode, cell_eq he]
  simp only [bind, Except.bind]
  cases e.eEntries with
  | none => exact ends_panic _
  | some eps =>
    dsimp only
    split
    case isTrue => exact ends_panic _
    case isFalse =>
      have h₁ : Whole size root n (s.modify ep fun e =>
          { e with eFlags := (e.eFlags ||| removedFlag) &&& ~~~tmpnameFlag }) w :=
        h.modify fun _ => ⟨rfl, rfl, rfl, rfl, rfl, rfl⟩
      exact (h₁.myname_ends hfuel hep).bind fun cp _ =>
        ends_ok ⟨h₁, isDir_congr (entries_modify_of fun _ => rfl)⟩

theorem writePrev_same (prev next : Option ℕ) :
    SameTree s (writePrev prev next s) ∧ (writePrev prev next s).ino = s.ino := by
  cases prev with
  | none => exact ⟨⟨rfl, rfl, rfl, rfl⟩, rfl⟩
  | some a =>
    exact ⟨sameTree_modify fun _ => ⟨rfl, rfl, rfl, rfl⟩, ino_modify_of fun _ => rfl⟩

/-- What `prev` points to. -/
theorem Whole.readPrev_eq (h : Whole size root n s w) {l₁ l₂ : List ℕ}
    (hl : w.removed = l₁ ++ l₂) : readPrev l₁.getLast? s = .ok l₂.head? := by
  have hretired := h.inodes.retired
  rw [hl] at hretired
  cases hlast : l₁.getLast? with
  | none =>
    obtain rfl : l₁ = [] := List.getLast?_eq_none_iff.mp hlast
    exact congrArg Except.ok hretired.head?
  | some b =>
    obtain ⟨q, hq, hnext⟩ := hretired.append
    have hb := hnext b hlast
    obtain ⟨e, he⟩ := (has_of_next hb).exists_mem
    obtain rfl : e.eNext = q := by
      rw [Table.next, he] at hb
      exact Option.some.inj hb
    rw [readPrev, cell_eq he]
    exact congrArg Except.ok hq.head?

/-- A directory is taken from `removelist`. -/
theorem Whole.pull (h : Whole size root n s w) {l₁ l₂ : List ℕ} {q : Option ℕ}
    (hl : w.removed = l₁ ++ ep :: l₂) (hq : s.next ep = some q) :
    Whole size root n (writePrev l₁.getLast? q s) { w with removed := l₁ ++ l₂ } := by
  obtain ⟨hsame, hino⟩ := writePrev_same l₁.getLast? q (s := s)
  have hinodes := h.inodes
  rw [hl] at hinodes
  constructor
  case found => exact fun a ha k hk => h.found a ha k (hino ▸ hk)
  case hung_iff => exact h.hung_iff
  case toRep =>
    refine ⟨hinodes.pull hq, h.tree.of_sameTree hsame, h.root_live, ?_, ?_, h.root_ino,
      h.fits.congr fun a => (hsame.has a).mp⟩
    · rw [hsame.entries]
      exact h.root_dir
    · rw [hsame.parent]
      exact h.root_parent

/-- The inner loop of `removeoldnodes` removes some of the directories on `removelist`. -/
theorem Whole.removePass (h : Whole size root n s w) (hsize : 0 < size) (hfuel : n ≤ fuel) {m : ℕ}
    {l₁ l₂ : List ℕ} (hl : w.removed = l₁ ++ l₂) (hm : l₂.length ≤ m) (change : ℕ) :
    Ends (fun p => ∃ w', Whole size root n p.2 w' ∧ change ≤ p.1 ∧
        w'.removed.length + p.1 = w.removed.length + change ∧
        (∀ a ∈ w'.removed, a ∈ w.removed) ∧ w'.inos = w.inos ∧ p.2.isDir = s.isDir ∧
        ∀ a, w'.live a ↔ w.live a ∧ (a ∈ w.removed → a ∈ w'.removed))
      (removePass size fuel m l₁.getLast? l₂.head? change s) := by
  induction m generalizing l₁ l₂ s w change with
  | zero =>
    obtain rfl : l₂ = [] := List.length_eq_zero_iff.mp (by omega)
    exact ends_ok ⟨w, h, le_rfl, rfl, fun _ ha => ha, rfl, rfl, fun a => (and_iff_left id).symm⟩
  | succ m ih =>
    cases l₂ with
    | nil =>
      exact ends_ok ⟨w, h, le_rfl, rfl, fun _ ha => ha, rfl, rfl, fun a => (and_iff_left id).symm⟩
    | cons ep l₂ =>
      rw [List.length_cons] at hm
      have hmem : ep ∈ w.removed := by
        rw [hl]
        exact List.mem_append_right _ List.mem_cons_self
      obtain ⟨hep, hino⟩ := h.inodes.removed ep hmem
      obtain ⟨e, he⟩ := (h.has hep).exists_mem
      have hq : s.next ep = some e.eNext := by rw [Table.next, he]; rfl
      rw [List.head?_cons, Symtab.removePass, cell_eq he]
      refine Ends.bind (P := fun x => x = e) rfl ?_
      rintro e rfl
      split
      case isTrue =>
        -- the directory is not empty yet and stays on the list
        have hl' : w.removed = (l₁ ++ [ep]) ++ l₂ := by
          rw [hl, List.append_assoc, List.singleton_append]
        have hlast : (l₁ ++ [ep]).getLast? = some ep := by
          rw [List.getLast?_append, List.getLast?_singleton, Option.some_or]
        have hread := h.readPrev_eq hl'
        rw [hlast] at hread
        rw [hread]
        have hrest := ih h hl' (by omega) change
        rwa [hlast] at hrest
      case isFalse =>
        have hnodup := h.inodes.retired.nodup
        rw [hl, List.nodup_append, List.nodup_cons] at hnodup
        have hnot : ep ∉ l₁ ++ l₂ := by
          rw [List.mem_append, not_or]
          exact ⟨fun hmem' => hnodup.2.2 ep hmem' ep List.mem_cons_self rfl, hnodup.2.1.1⟩
        set s₁ : Store := writePrev l₁.getLast? e.eNext s with hs₁
        have h₁ : Whole size root n s₁ { w with removed := l₁ ++ l₂ } := h.pull hl hq
        change Ends _ (Symtab.removenode size fuel ep s₁ >>= _)
        refine (h₁.removenode hfuel hep).bind ?_
        rintro ⟨s₂, cp⟩ ⟨h₂, hisDir₂⟩
        refine (h₂.freeentry hsize hfuel hep hnot).bind ?_
        rintro s₃ ⟨w₃, h₃, hfreed⟩
        have hremoved₃ : w₃.removed = l₁ ++ l₂ := hfreed.removed
        have hlive₃ : ∀ a, w₃.live a ↔ w.live a ∧ a ≠ ep := hfreed.live
        have hinos₃ : w₃.inos = w.inos := by
          rw [hfreed.inos]
          exact funext fun k => List.erase_of_not_mem (h.inodes.not_mem_of_zero hino k)
        have hisDir₃ : s₃.isDir = s.isDir := by
          rw [hfreed.isDir]
          exact hisDir₂.trans (isDir_congr (writePrev_same _ _).1.entries)
        rw [h₃.readPrev_eq hremoved₃]
        refine (ih h₃ hremoved₃ (by omega) (change + 1)).mono ?_
        rintro p ⟨w', h', hle, hlen, hsub, hinos', hisDir', hlive⟩
        rw [hremoved₃] at hlen hsub hlive
        refine ⟨w', h', by omega, ?_, fun a ha => ?_, hinos'.trans hinos₃, hisDir'.trans hisDir₃,
          fun a => ?_⟩
        · rw [hl]
          simp only [List.length_append, List.length_cons] at hlen ⊢
          omega
        · have hold := hsub a ha
          rw [hl]
          simp only [List.mem_append, List.mem_cons] at hold ⊢
          tauto
        · rw [hlive a, hlive₃ a, hl]
          by_cases haep : a = ep
          · subst haep
            have hgone : a ∉ w'.removed := fun hin => hnot (hsub a hin)
            simp [hgone]
          · simp only [List.mem_append, List.mem_cons, haep, false_or, ne_eq, not_false_eq_true,
              and_true]

/-- `removeoldnodes` ends, and when it does not panic, it has freed the directories on `removelist`
and nothing else. -/
theorem Whole.removeoldnodesLoop (h : Whole size root n s w) (hsize : 0 < size) (hfuel : n ≤ fuel)
    {m : ℕ} (hm : w.removed.length < m) :
    Ends (fun s' => ∃ w', Whole size root n s' w' ∧ w'.removed = [] ∧ w'.inos = w.inos ∧
        s'.isDir = s.isDir ∧ ∀ a, w'.live a ↔ w.live a ∧ a ∉ w.removed)
      (removeoldnodesLoop size fuel m s) := by
  induction m generalizing s w with
  | zero => omega
  | succ m ih =>
    rw [Symtab.removeoldnodesLoop, h.inodes.retired.head?]
    have hpass := h.removePass hsize hfuel (List.nil_append w.removed).symm
      (h.fits.mono hfuel |>.next h.inodes.retired) 0
    refine hpass.bind ?_
    rintro ⟨change, s₁⟩ ⟨w₁, h₁, -, hlen, hsub, hinos, hisDir, hlive⟩
    dsimp only at hlen hlive h₁ ⊢
    split
    case isTrue hne =>
      refine (ih h₁ (by omega)).mono ?_
      rintro s' ⟨w', h', hnil, hinos', hisDir', hlive'⟩
      refine ⟨w', h', hnil, hinos'.trans hinos, hisDir'.trans hisDir, fun a => ?_⟩
      rw [hlive' a, hlive a]
      have := hsub a
      tauto
    case isFalse =>
      split
      case isTrue => exact ends_panic _
      case isFalse hnone =>
        have hnil : w₁.removed = [] := by
          have hhead := h₁.inodes.retired.head?
          rw [Option.not_isSome_iff_eq_none.mp hnone] at hhead
          exact List.head?_eq_none_iff.mp hhead.symm
        refine ends_ok ⟨w₁, h₁, hnil, hinos, hisDir, fun a => ?_⟩
        rw [hlive a, hnil]
        simp

end Rep

end Symtab

end DumpRestore
