import DumpRestore.Restore.IncrementalSound

/-!
# The passes of an incremental restore

`removeoldleaves` and `nodeupdates` keep the symbol table sound. The first one follows the links of
an inode that it frees on its way, so that the rest of the links is a rest of the list in every
turn. For `nodeupdates`, each combination of what it knows about the name and the inode is a case.
-/

namespace DumpRestore

namespace Symtab

section Passes

variable {size root fuel n ep np : ℕ} {compare : Bool} {m : Maps} {s s' : Store} {w w' : Lists}

/-! ## removeoldleaves -/

/-- What is left of a list when an entry in the middle of it goes. -/
theorem erase_middle {l l₁ l₂ : List ℕ} {a : ℕ} (hl : l = l₁ ++ a :: l₂) (hnodup : l.Nodup) :
    l.erase a = l₁ ++ l₂ := by
  rw [hl, List.nodup_append] at hnodup
  rw [hl, List.erase_append_right, List.erase_cons_head]
  exact fun ha => hnodup.2.2 a ha a List.mem_cons_self rfl

theorem Sound.whiteouts (h : Sound size root n s w) (hsize : 0 < size) (hfuel : n ≤ fuel) {t : ℕ}
    {l₁ l₂ : List ℕ} (hl : w.inos wino = l₁ ++ l₂) (ht : l₂.length ≤ t) :
    Ends (fun s' => ∃ w', Sound size root n s' w') (whiteouts size fuel m t l₂.head? s) := by
  induction t generalizing l₁ l₂ s w with
  | zero =>
    obtain rfl : l₂ = [] := List.length_eq_zero_iff.mp (by omega)
    exact ends_ok ⟨w, h⟩
  | succ t ih =>
    cases l₂ with
    | nil => exact ends_ok ⟨w, h⟩
    | cons ep l₂ =>
      rw [List.length_cons] at ht
      have hmem : ep ∈ w.inos wino := by
        rw [hl]
        exact List.mem_append_right _ List.mem_cons_self
      have hep := (h.inodes.ino wino ep hmem).1
      obtain ⟨e, he⟩ := (h.has hep).exists_mem
      have hnext : e.eLinks = l₂.head? := by
        have hlinks := h.toWhole.links_eq hl
        rw [Table.links, he] at hlinks
        exact Option.some.inj hlinks
      obtain ⟨d, -, hd, hdlive, -⟩ := h.toWhole.parent_dir hep
      obtain ⟨ed, hed⟩ := (h.has hdlive).exists_mem
      obtain rfl : e.eParent = d := by
        rw [Store.parent, he] at hd
        exact Option.some.inj hd
      rw [List.head?_cons, Symtab.whiteouts]
      refine ends_cell he (ends_cell hed ?_)
      rw [hnext]
      split
      case isTrue =>
        have hl' : w.inos wino = (l₁ ++ [ep]) ++ l₂ := by
          rw [hl, List.append_assoc, List.singleton_append]
        exact ih h hl' (by omega)
      case isFalse =>
        refine (h.toWhole.freeentry hsize hfuel hep (h.toWhole.not_removed hmem)).bind ?_
        rintro s' ⟨w', h', hfreed⟩
        have hl' : w'.inos wino = l₁ ++ l₂ := by
          rw [hfreed.inos]
          exact erase_middle hl (h.inodes.linked wino).nodup
        exact ih (h.freed h' hfreed) hl' (by omega)

theorem Sound.oldName (h : Sound size root n s w) (hsize : 0 < size) (hfuel : n ≤ fuel) {k : ℕ}
    (hk : k ≠ rootino) (hep : ep ∈ w.inos k) :
    Ends (fun s' => s'.links ep = s.links ep ∧ ∃ w', Sound size root n s' w' ∧
        w'.inos k = (w.inos k).erase ep)
      (oldName size fuel compare ep s) := by
  have hlive := (h.inodes.ino k ep hep).1
  obtain ⟨e, he⟩ := (h.has hlive).exists_mem
  rw [Symtab.oldName]
  refine ends_cell he ?_
  split
  case isTrue hdir =>
    have hisDir : s.isDir ep = some true := by rw [isDir_of_mem he, hdir]
    refine (h.mktempname hfuel hlive).bind ?_
    rintro ⟨s₁, names⟩ ⟨h₁, hmoved⟩
    refine (h₁.retire hfuel hep (hmoved.isDir ▸ hisDir) (h.ne_root hep hk)).mono ?_
    rintro s₂ ⟨w₂, h₂, hretired⟩
    refine ⟨?_, w₂, h₂, ?_⟩
    · rw [hretired.links]
      exact congrFun hmoved.links ep
    · rw [hretired.inos, Function.update_self, h.alone k ep hep hisDir, List.erase_cons_head]
  case isFalse =>
    refine (h.dropleaf hsize hfuel hlive (h.toWhole.not_removed hep)).mono ?_
    rintro s' ⟨w', h', hfreed⟩
    exact ⟨hfreed.links, w', h', by rw [hfreed.inos]⟩

theorem Sound.oldLinks (h : Sound size root n s w) (hsize : 0 < size) (hfuel : n ≤ fuel) {k t : ℕ}
    (hk : k ≠ rootino) {l₁ l₂ : List ℕ} (hl : w.inos k = l₁ ++ l₂) (ht : l₂.length ≤ t) :
    Ends (fun s' => ∃ w', Sound size root n s' w')
      (oldLinks size fuel compare t l₂.head? s) := by
  induction t generalizing l₁ l₂ s w with
  | zero =>
    obtain rfl : l₂ = [] := List.length_eq_zero_iff.mp (by omega)
    exact ends_ok ⟨w, h⟩
  | succ t ih =>
    cases l₂ with
    | nil => exact ends_ok ⟨w, h⟩
    | cons ep l₂ =>
      rw [List.length_cons] at ht
      have hmem : ep ∈ w.inos k := by
        rw [hl]
        exact List.mem_append_right _ List.mem_cons_self
      rw [List.head?_cons, Symtab.oldLinks]
      refine (h.oldName hsize hfuel hk hmem).bind ?_
      rintro s' ⟨hlinks, w', h', hinos⟩
      -- the next link is read when the entry has gone already
      rw [h.toWhole.links_eq hl, Table.links, Option.map_eq_some_iff] at hlinks
      obtain ⟨e', he', hnext⟩ := hlinks
      refine ends_cell he' ?_
      rw [hnext]
      have hl' : w'.inos k = l₁ ++ l₂ := hinos.trans (erase_middle hl (h.inodes.linked k).nodup)
      exact ih h' hl' (by omega)

theorem Sound.oldInodes (h : Sound size root n s w) (hsize : 0 < size) (hfuel : n ≤ fuel)
    {is : List ℕ} (his : rootino ∉ is) :
    Ends (fun s' => ∃ w', Sound size root n s' w') (oldInodes size fuel compare m is s) := by
  induction is generalizing s w with
  | nil => exact ends_ok ⟨w, h⟩
  | cons i is ih =>
    rw [List.mem_cons, not_or] at his
    rw [Symtab.oldInodes]
    refine ends_ofOption (h.lookupino_eq hfuel i) ?_
    cases hhead : (w.inos i).head? with
    | none => exact ih h his.2
    | some ep =>
      dsimp only
      split
      case isTrue => exact ih h his.2
      case isFalse =>
        rw [← hhead]
        refine (h.oldLinks hsize hfuel (Ne.symm his.1) (List.nil_append (w.inos i)).symm
          ((h.fits.mono hfuel).links (h.inodes.linked i))).bind ?_
        rintro s' ⟨w', h'⟩
        exact ih h' his.2

/-- `removeoldleaves` keeps the table sound. -/
theorem Sound.removeoldleaves (h : Sound size root n s w) (hsize : 0 < size) (hfuel : n ≤ fuel) :
    Ends (fun s' => ∃ w', Sound size root n s' w') (removeoldleaves size fuel compare m s) := by
  rw [Symtab.removeoldleaves]
  refine ends_ofOption (h.lookupino_eq hfuel wino) ?_
  refine (h.whiteouts hsize hfuel (List.nil_append (w.inos wino)).symm
    ((h.fits.mono hfuel).links (h.inodes.linked wino))).bind ?_
  rintro s' ⟨w', h'⟩
  refine h'.oldInodes hsize hfuel fun hmem => ?_
  have hle := List.left_le_of_mem_range' hmem
  omega

/-! ## nodeupdates -/

theorem Sound.addentry (h : Sound size root n s w) (hsize : 0 < size) (hfuel : n + 1 ≤ fuel)
    {new : ℕ} (hnew : ¬ s.Has new) (name : List UInt8) (inum : ℕ) {node link : Bool}
    (hlink : link = true → node = false ∧ ∀ a ∈ w.inos inum, s.isDir a ≠ some true) :
    Ends (fun p => ∃ w', Sound size root (n + 1) p.2 w' ∧ w'.live p.1)
      (addentry size fuel new name inum node link s) := by
  refine (h.toWhole.addentry hsize hfuel (fun _ => hnew) name inum node link).mono ?_
  rintro p ⟨w', h', hadd⟩
  exact ⟨w', h.added h' hadd hlink, (hadd.live p.1).mpr (.inr rfl)⟩

theorem Sound.addName (h : Sound size root n s w) (hsize : 0 < size) (hfuel : n + 1 ≤ fuel)
    (existed : Bool) {new : ℕ} (hnew : ¬ s.Has new) (name : List UInt8) (inum : ℕ)
    {node link : Bool}
    (hlink : link = true → node = false ∧ ∀ a ∈ w.inos inum, s.isDir a ≠ some true) :
    Ends (fun s' => ∃ w', Sound size root (n + 1) s' w')
      (addName size fuel compare existed new name inum node link s) := by
  rw [Symtab.addName]
  refine (h.addentry hsize hfuel hnew name inum hlink).bind ?_
  rintro ⟨ep, s₁⟩ ⟨w₁, h₁, hep⟩
  dsimp only at h₁ hep ⊢
  split
  case isTrue =>
    exact (h₁.newnode hfuel existed hep).bind fun s₂ h₂ => ends_ok ⟨w₁, h₂.setFlags _ _⟩
  case isFalse => exact ends_ok ⟨w₁, h₁.setFlags _ _⟩

theorem Sound.displace (h : Sound size root n s w) (hsize : 0 < size) (hfuel : n ≤ fuel) {k : ℕ}
    (hnp : np ∈ w.inos k) (link : Bool) :
    Ends (fun s' => s'.isDir = s.isDir ∧ ∃ w', Sound size root n s' w' ∧
        ∀ j a, link = false ∨ a ≠ np → a ∈ w.inos j → a ∈ w'.inos j)
      (displace size fuel compare link np s) := by
  have hlive := (h.inodes.ino k np hnp).1
  rw [Symtab.displace]
  split
  case isTrue hlink =>
    refine (h.dropleaf hsize hfuel hlive (h.toWhole.not_removed hnp)).mono ?_
    rintro s' ⟨w', h', hfreed⟩
    refine ⟨hfreed.isDir, w', h', fun j a hne ha => ?_⟩
    rw [hlink] at hne
    rw [hfreed.inos]
    exact (List.mem_erase_of_ne (hne.resolve_left Bool.noConfusion)).mpr ha
  case isFalse =>
    refine (h.mktempname hfuel hlive).bind ?_
    rintro ⟨s', names⟩ ⟨h', hmoved⟩
    exact ends_ok ⟨hmoved.isDir, w, h', fun _ _ _ ha => ha⟩

theorem Sound.findName (h : Sound size root n s w) (hsize : 0 < size) (hfuel : n ≤ fuel)
    (name : List UInt8) :
    Ends (fun r => ∀ np link, r = some (np, link) → ∃ k, np ∈ w.inos k ∧
        (link = true → s.isDir np ≠ some true))
      (findName size fuel name s) := by
  obtain ⟨r, hr, hlive⟩ := h.lookupname_ends hsize hfuel name
  rw [Symtab.findName]
  refine ends_ofOption hr ?_
  cases r with
  | none =>
    refine ends_ok fun np link hnp => ?_
    cases hnp
  | some np =>
    obtain ⟨e, he⟩ := (h.has (hlive np rfl)).exists_mem
    refine ends_cell he (ends_ofOption (h.lookupino_eq hfuel e.eIno) ?_)
    cases hhead : (w.inos e.eIno).head? with
    | none => exact ends_panic _
    | some ip =>
      have hpos := (h.inodes.ino e.eIno ip (List.mem_of_head? hhead)).2.2.1
      have hmem : np ∈ w.inos e.eIno := by
        refine h.found np (hlive np rfl) e.eIno ?_ fun hzero => ?_
        · rw [Store.ino, he]
          rfl
        · rw [hzero, wino] at hpos
          omega
      refine ends_ok fun np' link hnp => ?_
      obtain ⟨rfl, rfl⟩ := Prod.mk.inj (Option.some.inj hnp)
      refine ⟨e.eIno, hmem, fun hlink hdir => ?_⟩
      rw [h.alone e.eIno np hmem hdir] at hhead
      exact of_decide_eq_true hlink (Option.some.inj hhead).symm

theorem Sound.findInode (h : Sound size root n s w) (hfuel : n ≤ fuel) (ino : ℕ)
    (np : Option ℕ) :
    Ends (fun r => ∀ ip, r = some ip → ip ∈ w.inos ino) (findInode fuel ino np s) := by
  rw [Symtab.findInode]
  refine ends_ofOption (h.lookupino_eq hfuel ino) ?_
  cases hhead : (w.inos ino).head? with
  | none =>
    refine ends_ok fun ip hip => ?_
    cases hip
  | some ip =>
    obtain ⟨rest, hinos⟩ := List.head?_eq_some_iff.mp hhead
    obtain ⟨e, he⟩ := (h.has (h.inodes.ino ino ip (List.mem_of_head? hhead)).1).exists_mem
    have hlinked := h.inodes.linked ino
    rw [hinos] at hlinked
    obtain ⟨-, q, hq, hrest⟩ := hlinked
    obtain rfl : e.eLinks = q := by
      rw [Table.links, he] at hq
      exact Option.some.inj hq
    refine ends_cell he (ends_ofOption (hrest.chainFind_eq (fun ep => some ep == np)
      ((h.fits.mono hfuel).links hrest)) (ends_ok fun ip' hip' => ?_))
    obtain rfl := Option.some.inj hip'
    rw [hinos]
    cases hfind : rest.find? fun ep => some ep == np with
    | none => exact List.mem_cons_self
    | some ep => exact List.mem_cons_of_mem _ (List.mem_of_find?_eq_some hfind)

theorem Whole.typeDiffers (h : Whole size root n s w) (node : Bool) {ep : Option ℕ}
    (hep : ∀ a, ep = some a → w.live a) :
    Ends (fun r => r = true ↔ ∃ a, ep = some a ∧ s.isDir a = some (!node))
      (typeDiffers node ep s) := by
  cases ep with
  | none => exact ends_ok (by simp)
  | some a =>
    obtain ⟨e, he⟩ := (h.has (hep a rfl)).exists_mem
    refine ends_cell he (ends_ok ?_)
    rw [decide_eq_true_iff]
    constructor
    · intro hne
      refine ⟨a, rfl, ?_⟩
      rw [isDir_of_mem he, Bool.eq_not_of_ne hne]
    · rintro ⟨b, hb, hdir⟩ heq
      obtain rfl := Option.some.inj hb
      rw [isDir_of_mem he, heq] at hdir
      exact (Bool.eq_not_self _).mp (Option.some.inj hdir)

theorem Sound.conflict (h : Sound size root n s w) (hsize : 0 < size) (hfuel : n ≤ fuel) {ino : ℕ}
    {found : Option (ℕ × Bool)} {ip : Option ℕ}
    (hfound : ∀ np link, found = some (np, link) → ∃ k, np ∈ w.inos k)
    (hip : ∀ a, ip = some a → a ∈ w.inos ino) :
    Ends (fun p => p.2.isDir = s.isDir ∧ (∀ a, ip = some a → p.1 = none ∨ p.1 = some a) ∧
        (∀ a, p.1 = some a → ∃ link, found = some (a, link)) ∧
        ∃ w', Sound size root n p.2 w' ∧ (∀ a, ip = some a → a ∈ w'.inos ino) ∧
          ∀ a, p.1 = some a → ∃ k, a ∈ w'.inos k)
      (conflict size fuel compare found ip s) := by
  cases ip with
  | none =>
    refine ends_ok ⟨rfl, ?_, ?_, w, h, ?_, ?_⟩
    · intro a ha
      cases ha
    · intro a ha
      obtain ⟨⟨b, link⟩, hb, rfl⟩ := Option.map_eq_some_iff.mp ha
      exact ⟨link, hb⟩
    · intro a ha
      cases ha
    · intro a ha
      obtain ⟨⟨b, link⟩, hb, rfl⟩ := Option.map_eq_some_iff.mp ha
      exact hfound b link hb
  | some i =>
    cases found with
    | none =>
      refine ends_ok ⟨rfl, fun _ _ => .inl rfl, ?_, w, h, hip, ?_⟩
      · intro a ha
        cases ha
      · intro a ha
        cases ha
    | some p =>
      obtain ⟨np, link⟩ := p
      obtain ⟨k, hnp⟩ := hfound np link rfl
      rw [Symtab.conflict]
      split
      case isTrue hne =>
        refine (h.displace hsize hfuel hnp link).bind ?_
        rintro s' ⟨hisDir, w', h', hkeep⟩
        refine ends_ok ⟨hisDir, fun _ _ => .inl rfl, ?_, w', h', fun a ha => ?_, ?_⟩
        · intro a ha
          cases ha
        · obtain rfl := Option.some.inj ha
          exact hkeep ino i (.inr hne) (hip i rfl)
        · intro a ha
          cases ha
      case isFalse heq =>
        rw [not_not] at heq
        subst heq
        refine ends_ok ⟨rfl, fun a ha => .inr ha, fun a ha => ?_, w, h, hip, fun a ha => ?_⟩
        · obtain rfl := Option.some.inj ha
          exact ⟨link, rfl⟩
        · obtain rfl := Option.some.inj ha
          exact ⟨k, hnp⟩

/-- The links of an inode are leaves if one of them is. -/
theorem Sound.leaves (h : Sound size root n s w) {k : ℕ} (hep : ep ∈ w.inos k)
    (hleaf : s.isDir ep ≠ some true) : ∀ a ∈ w.inos k, s.isDir a ≠ some true := by
  intro a ha hdir
  rw [h.alone k a ha hdir] at hep
  obtain rfl := List.mem_singleton.mp hep
  exact hleaf hdir

theorem Sound.otherName (h : Sound size root n s w) (hsize : 0 < size) (hfuel : n + 1 ≤ fuel)
    {new : ℕ} (hnew : ¬ s.Has new) (name : List UInt8) {ino ip : ℕ} {node : Bool}
    (hip : ip ∈ w.inos ino) (hnode : node = true → s.isDir ip = some true) :
    Ends (fun p => ∃ w', Sound size root (n + 1) p.2 w')
      (otherName size fuel new name ino node ip s) := by
  have hle : n ≤ fuel := by omega
  have hlive := (h.inodes.ino ino ip hip).1
  obtain ⟨e, he⟩ := (h.has hlive).exists_mem
  rw [Symtab.otherName]
  refine ends_cell he ?_
  split
  case isTrue =>
    refine (h.toWhole.myname_ends hle hlive).bind fun _ _ => ?_
    refine (h.toWhole.moveentry hsize hle hlive name).bind ?_
    rintro s' ⟨w', h', hmoved⟩
    have hset : Sound size root n (s'.setFlags ip (· ||| keepFlag)) w' :=
      (h.moved h' hmoved).setFlags _ _
    exact ends_ok ⟨w', hset.mono (Nat.le_succ n)⟩
  split
  case isTrue =>
    refine (h.toWhole.myname_ends hle hlive).bind fun _ _ => ?_
    exact ends_ok ⟨w, h.mono (Nat.le_succ n)⟩
  case isFalse hleaf =>
    have hisDir : s.isDir ip ≠ some true := by
      rw [isDir_of_mem he]
      exact fun heq => hleaf (Option.some.inj heq)
    have hnode' : node = false := Bool.eq_false_iff.mpr fun heq => hisDir (hnode heq)
    refine (h.addentry hsize hfuel hnew name ino fun _ => ⟨hnode', h.leaves hip hisDir⟩).bind ?_
    rintro ⟨ep, s'⟩ ⟨w', h', -⟩
    have hset : Sound size root (n + 1) (s'.setFlags ep (· ||| newFlag)) w' := h'.setFlags _ _
    exact ends_ok ⟨w', hset⟩

theorem Sound.leafLinks (h : Sound size root n s w) (hsize : 0 < size) (hfuel : n ≤ fuel)
    {k t : ℕ} {l₁ l₂ : List ℕ} (hl : w.inos k = l₁ ++ l₂) (ht : l₂.length ≤ t) :
    Ends (fun s' => s'.isDir = s.isDir ∧ ∃ w', Sound size root n s' w')
      (leafLinks size fuel compare t l₂.head? s) := by
  induction t generalizing l₁ l₂ s w with
  | zero =>
    obtain rfl : l₂ = [] := List.length_eq_zero_iff.mp (by omega)
    exact ends_ok ⟨rfl, w, h⟩
  | succ t ih =>
    cases l₂ with
    | nil => exact ends_ok ⟨rfl, w, h⟩
    | cons ep l₂ =>
      rw [List.length_cons] at ht
      have hmem : ep ∈ w.inos k := by
        rw [hl]
        exact List.mem_append_right _ List.mem_cons_self
      have hlive := (h.inodes.ino k ep hmem).1
      obtain ⟨e, he⟩ := (h.has hlive).exists_mem
      rw [List.head?_cons, Symtab.leafLinks]
      refine ends_cell he ?_
      split
      case isTrue => exact ends_panic _
      case isFalse =>
        refine (h.dropleaf hsize hfuel hlive (h.toWhole.not_removed hmem)).bind ?_
        rintro s' ⟨w', h', hfreed⟩
        have hlinks := hfreed.links
        rw [h.toWhole.links_eq hl, Table.links, Option.map_eq_some_iff] at hlinks
        obtain ⟨e', he', hnext⟩ := hlinks
        refine ends_cell he' ?_
        have hl' : w'.inos k = l₁ ++ l₂ := by
          rw [hfreed.inos]
          exact erase_middle hl (h.inodes.linked k).nodup
        rw [hnext, ← hfreed.isDir]
        exact ih h' hl' (by omega)

theorem Sound.oldNode (h : Sound size root n s w) (hsize : 0 < size) (hfuel : n ≤ fuel) {k : ℕ}
    (hep : ep ∈ w.inos k) (hdir : s.isDir ep = some true) (hroot : ep ≠ root) :
    Ends (fun s' => s'.isDir = s.isDir ∧ ∃ w', Sound size root n s' w')
      (oldNode size fuel compare ep s) := by
  obtain ⟨e, he⟩ := (h.has (h.inodes.ino k ep hep).1).exists_mem
  rw [Symtab.oldNode]
  refine ends_cell he ?_
  split
  case isTrue =>
    refine (h.displace hsize hfuel hep false).bind ?_
    rintro s₁ ⟨hisDir, w₁, h₁, hkeep⟩
    refine (h₁.retire hfuel (hkeep k ep (.inl rfl) hep) (hisDir ▸ hdir) hroot).mono ?_
    rintro s' ⟨w', h', hretired⟩
    exact ⟨hretired.isDir.trans hisDir, w', h'⟩
  case isFalse =>
    refine (h.retire hfuel hep hdir hroot).mono ?_
    rintro s' ⟨w', h', hretired⟩
    exact ⟨hretired.isDir, w', h'⟩

theorem Sound.changeMode (h : Sound size root n s w) (hsize : 0 < size) (hfuel : n + 1 ≤ fuel)
    (existed : Bool) {new : ℕ} (hnew : ¬ s.Has new) (name : List UInt8) {ino ip : ℕ}
    (node : Bool) (hip : ip ∈ w.inos ino) (hroot : s.isDir ip = some true → ip ≠ root) :
    Ends (fun s' => ∃ w', Sound size root (n + 1) s' w')
      (changeMode size fuel compare existed new name ino node ip s) := by
  have hle : n ≤ fuel := by omega
  obtain ⟨e, he⟩ := (h.has (h.inodes.ino ino ip hip).1).exists_mem
  rw [Symtab.changeMode]
  refine ends_cell he ?_
  split
  case isTrue => exact ends_panic _
  split
  case isTrue =>
    obtain ⟨l₁, l₂, hl⟩ := List.append_of_mem hip
    have hlen := (h.fits.mono hle).links (h.inodes.linked ino)
    rw [hl, List.length_append] at hlen
    refine (h.leafLinks hsize hle hl (by omega)).bind ?_
    rintro s₁ ⟨hisDir, w₁, h₁⟩
    have hnew₁ : ¬ s₁.Has new := fun hhas => hnew ((has_of_isDir hisDir new).mp hhas)
    refine (h₁.addentry hsize hfuel hnew₁ name ino fun hlink => Bool.noConfusion hlink).bind ?_
    rintro ⟨ep, s₂⟩ ⟨w₂, h₂, hep⟩
    exact (h₂.newnode hfuel existed hep).bind fun s₃ h₃ => ends_ok ⟨w₂, h₃.setFlags _ _⟩
  case isFalse hdir =>
    have hisDir : s.isDir ip = some true := by
      rw [isDir_of_mem he]
      cases hentries : e.eEntries with
      | none => exact absurd (by rw [hentries]; rfl) hdir
      | some eps => rfl
    refine (h.oldNode hsize hle hip hisDir (hroot hisDir)).bind ?_
    rintro s₁ ⟨hisDir₁, w₁, h₁⟩
    have hnew₁ : ¬ s₁.Has new := fun hhas => hnew ((has_of_isDir hisDir₁ new).mp hhas)
    refine (h₁.addentry hsize hfuel hnew₁ name ino fun hlink => Bool.noConfusion hlink).bind ?_
    rintro ⟨ep, s₂⟩ ⟨w₂, h₂, -⟩
    exact ends_ok ⟨w₂, h₂.setFlags _ _⟩

/-- The cases of `nodeupdates`. -/
theorem Sound.dispose (h : Sound size root n s w) (hsize : 0 < size) (hfuel : n + 1 ≤ fuel)
    (existed : Bool) {new : ℕ} (hnew : ¬ s.Has new) (name : List UInt8) {ino : ℕ}
    {node ontape link modechg : Bool} {ip np : Option ℕ} (hip : ∀ a, ip = some a → a ∈ w.inos ino)
    (hnp : ∀ a, np = some a → ∃ k, a ∈ w.inos k)
    (hsame : ∀ a, ip = some a → np = none ∨ np = some a)
    (hlink : ∀ a, np = some a → link = true → s.isDir a ≠ some true)
    (hmode : ontape = true → (modechg = true ↔
      (∃ a, ip = some a ∧ s.isDir a = some (!node)) ∨ ∃ a, np = some a ∧ s.isDir a = some (!node)))
    (htape : node = true → ontape = true) (hroot : ino = rootino → node = true) :
    Ends (fun p => ∃ w', Sound size root (n + 1) p.2 w')
      (dispose size fuel compare existed new name ino node ontape link ip np modechg s) := by
  have hle : n ≤ fuel := by omega
  have hold : ∀ s₁, Sound size root n s₁ w → Sound size root (n + 1) s₁ w :=
    fun s₁ h₁ => h₁.mono (Nat.le_succ n)
  have hsameType : ∀ a, (ip = some a ∨ np = some a) → s.isDir a ≠ some (!node) →
      s.isDir a = some node := by
    intro a ha hne
    have hlive : w.live a := by
      rcases ha with ha | ha
      · exact (h.inodes.ino ino a (hip a ha)).1
      · obtain ⟨k, hk⟩ := hnp a ha
        exact (h.inodes.ino k a hk).1
    obtain ⟨dir, hdir⟩ := h.toWhole.isDir_live hlive
    have hdir' : dir ≠ !node := fun heq => hne (by rw [hdir, heq])
    rw [hdir, Bool.eq_not_of_ne hdir', Bool.not_not]
  -- without a link, the name is a new one
  have hadd : ∀ s₁ w₁, Sound size root n s₁ w₁ → s₁.isDir = s.isDir →
      Ends (fun p => ∃ w', Sound size root (n + 1) p.2 w') (do
        return (true, ← Symtab.addName size fuel compare existed new name ino node false s₁)) := by
    intro s₁ w₁ h₁ hisDir
    have hnew₁ : ¬ s₁.Has new := fun hhas => hnew ((has_of_isDir hisDir new).mp hhas)
    refine (h₁.addName hsize hfuel existed hnew₁ name ino fun hlink => ?_).bind
      fun s' hs' => ends_ok hs'
    cases hlink
  unfold Symtab.dispose
  split
  case h_1 i _ =>
    have hset : Sound size root n (s.setFlags i (· ||| keepFlag)) w := h.setFlags _ _
    exact ends_ok ⟨w, hold _ hset⟩
  case h_2 np =>
    obtain ⟨k, hk⟩ := hnp np rfl
    refine (h.displace hsize hle hk link).bind ?_
    rintro s₁ ⟨hisDir, w₁, h₁, -⟩
    exact hadd s₁ w₁ h₁ hisDir
  case h_3 => exact hadd s w h rfl
  case h_4 i =>
    have htype := hsameType i (.inl rfl) (fun hdiff => by
      have hmode := (hmode rfl).mpr (.inl ⟨i, rfl, hdiff⟩)
      cases hmode)
    have hset : ∀ s₁, Sound size root n s₁ w → s₁.isDir = s.isDir →
        Ends (fun p => ∃ w', Sound size root (n + 1) p.2 w')
          (Symtab.otherName size fuel new name ino node i s₁) := fun s₁ h₁ hisDir =>
      h₁.otherName hsize hfuel (fun hhas => hnew ((has_of_isDir hisDir new).mp hhas)) name
        (hip i rfl) fun hnode => by rw [hisDir, htype, hnode]
    split
    · exact hset s h rfl
    · exact hset _ (h.setFlags _ _) (isDir_setFlags _ _)
  case h_5 i =>
    -- a name that is not on the tape is a leaf
    have hnode : node ≠ true := fun hnode => by cases htape hnode
    exact h.otherName hsize hfuel hnew name (hip i rfl) fun heq => absurd heq hnode
  case h_6 i np =>
    obtain rfl : np = i := by
      rcases hsame i rfl with hnone | hsome
      · cases hnone
      · exact Option.some.inj hsome
    have htype := hsameType np (.inl rfl) (fun hdiff => by
      have hmode := (hmode rfl).mpr (.inl ⟨np, rfl, hdiff⟩)
      cases hmode)
    split
    case isTrue hlinked =>
      have hleaf := hlink np rfl hlinked
      have hmem := hip np rfl
      have hnode : node = false := by
        cases node with
        | false => rfl
        | true => exact absurd htype hleaf
      have hlive := (h.inodes.ino ino np hmem).1
      refine (h.dropleaf hsize hle hlive (h.toWhole.not_removed hmem)).bind ?_
      rintro s₁ ⟨w₁, h₁, hfreed⟩
      have hnew₁ : ¬ s₁.Has new := fun hhas => hnew ((has_of_isDir hfreed.isDir new).mp hhas)
      refine (h₁.addName hsize hfuel existed hnew₁ name ino fun _ => ⟨hnode, fun a ha => ?_⟩).bind
        fun s' hs' => ends_ok hs'
      rw [hfreed.inos] at ha
      rw [hfreed.isDir]
      exact h.leaves hmem hleaf a (List.mem_of_mem_erase ha)
    case isFalse =>
      refine ends_ok ⟨w, ?_⟩
      exact hold _ (h.setFlags np fun flags =>
        (if node then flags else flags ||| extractFlag) ||| keepFlag)
  case h_7 np' _ i =>
    have hdiff : s.isDir i = some (!node) := by
      rcases (hmode rfl).mp rfl with ⟨a, ha, hdiff⟩ | ⟨a, ha, hdiff⟩
      · obtain rfl := Option.some.inj ha
        exact hdiff
      · rcases hsame i rfl with hnone | hsome
        · cases hnone.symm.trans ha
        · obtain rfl := Option.some.inj (hsome.symm.trans ha)
          exact hdiff
    refine (h.changeMode hsize hfuel existed hnew name node (hip i rfl) fun hdir => ?_).bind
      fun s' hs' => ends_ok hs'
    -- the root is a directory on the tape
    refine h.ne_root (hip i rfl) fun hino => ?_
    rw [hroot hino, hdir] at hdiff
    cases hdiff
  case h_8 => exact ends_ok ⟨w, hold s h⟩
  case h_9 => exact ends_ok ⟨w, hold s h⟩
  case h_10 => exact ends_ok ⟨w, hold s h⟩
  case h_11 => exact ends_ok ⟨w, hold s h⟩
  case h_12 => exact ends_panic _

/-- **nodeupdates** keeps the table sound, if directories of the tape are on the tape and the root
is one of them. -/
theorem Sound.nodeupdates (h : Sound size root n s w) (hsize : 0 < size) (hfuel : n + 1 ≤ fuel)
    (existed : Bool) {new : ℕ} (hnew : ¬ s.Has new) (name : List UInt8) {ino : ℕ} {node : Bool}
    (htape : node = true → m.dumpmap ino = true) (hroot : ino = rootino → node = true) :
    Ends (fun p => ∃ w', Sound size root (n + 1) p.2 w')
      (nodeupdates size fuel compare m existed new name ino node s) := by
  have hle : n ≤ fuel := by omega
  rw [Symtab.nodeupdates]
  refine (h.findName hsize hle name).bind ?_
  intro found hfound
  refine (h.findInode hle ino (found.map (·.1))).bind ?_
  intro ip hip
  refine (h.conflict hsize hle
    (fun np link hnp => (hfound np link hnp).imp fun k hk => hk.1) hip).bind ?_
  rintro ⟨np, s₁⟩ ⟨hisDir, hsame, hnpfound, w₁, h₁, hip₁, hnp₁⟩
  have hlive : ∀ a k, a ∈ w₁.inos k → w₁.live a := fun a k hk => (h₁.inodes.ino k a hk).1
  dsimp only at hisDir hsame hnpfound h₁ hnp₁ ⊢
  refine (h₁.toWhole.typeDiffers node fun a ha => hlive a ino (hip₁ a ha)).bind ?_
  intro inodeDiffers hinode
  refine (h₁.toWhole.typeDiffers node fun a ha => (hnp₁ a ha).elim (hlive a)).bind ?_
  intro nameDiffers hname
  refine h₁.dispose hsize hfuel existed (fun hhas => hnew ((has_of_isDir hisDir new).mp hhas)) name
    hip₁ hnp₁ hsame (fun a ha hlink => ?_) (fun htape' => ?_) htape hroot
  · obtain ⟨link, rfl⟩ := hnpfound a ha
    obtain ⟨k, -, hleaf⟩ := hfound a link rfl
    rw [hisDir]
    exact hleaf hlink
  · rw [htape', Bool.true_and, Bool.or_eq_true, hinode, hname]

end Passes

end Symtab

end DumpRestore
