import DumpRestore.Restore.IncrementalPasses

/-!
# Names that nothing refers to

`findunreflinks` goes through directories while it removes entries from them. It reads the next
entry from an entry that has gone already: the rest of the list is still there.

* `Sound.unreferencedInodes`: the first loop keeps the table sound.
* `Sound.leftovers`: so does the second loop, over the directories on `removelist`, if there is no
  directory without flags in any of them.
* `Sound.adopt`: such a directory is put on `removelist` while it is still on a hash chain, and the
  inode numbers behind it on the chain are not found any more.
-/

namespace DumpRestore

namespace Symtab

section Unreferenced

variable {size root fuel n ep np d : ℕ} {compare : Bool} {m : Maps} {s s' : Store} {w w' : Lists}

/-! ## Loops over a directory -/

/-- What the body of a loop over the directory `d` keeps: `I`, and the entries that are to come. -/
structure Body (size root n d : ℕ) (I : Store → Lists → Prop) (body : ℕ → Store → Run Store) :
    Prop where
  sound : ∀ s w, I s w → Sound size root n s w
  dir : ∀ s w, I s w → w.live d ∧ s.isDir d = some true
  step : ∀ s w np j l₁ l₂, I s w → w.buckets d j = l₁ ++ np :: l₂ →
    Ends (fun s' => s'.sibling np = s.sibling np ∧ ∃ w', I s' w' ∧
      ∃ l, w'.buckets d j = l ++ l₂) (body np s)

section Body

variable {I : Store → Lists → Prop} {body : ℕ → Store → Run Store}

/-- The lists of a directory. -/
theorem Whole.dir_lists (h : Whole size root n s w) (hd : w.live d) (hdir : s.isDir d = some true) :
    ∃ e eps, s.mem d = some e ∧ e.eEntries = some eps ∧
      ∀ j < size, Linked s.sibling (eps.getD j none) (w.buckets d j) := by
  obtain ⟨e, he⟩ := (h.has hd).exists_mem
  rw [isDir_of_mem he, Option.some_inj, Option.isSome_iff_exists] at hdir
  obtain ⟨eps, heps⟩ := hdir
  refine ⟨e, eps, he, heps, (h.tree.lists d eps hd ?_).2⟩
  rw [Store.entries, he, Option.map_some, heps]

theorem Body.eachSibling (hbody : Body size root n d I body) {j t : ℕ} (hj : j < size) (hI : I s w)
    {l₁ l₂ : List ℕ} (hl : w.buckets d j = l₁ ++ l₂) (ht : l₂.length ≤ t) :
    Ends (fun s' => ∃ w', I s' w') (eachSibling body t l₂.head? s) := by
  induction t generalizing l₁ l₂ s w with
  | zero =>
    obtain rfl : l₂ = [] := List.length_eq_zero_iff.mp (by omega)
    exact ends_ok ⟨w, hI⟩
  | succ t ih =>
    cases l₂ with
    | nil => exact ends_ok ⟨w, hI⟩
    | cons np l₂ =>
      rw [List.length_cons] at ht
      obtain ⟨hd, hdir⟩ := hbody.dir s w hI
      obtain ⟨e, eps, he, heps, hlinked⟩ := (hbody.sound s w hI).toWhole.dir_lists hd hdir
      have hsibling : s.sibling np = some l₂.head? := by
        have hlist := hlinked j hj
        rw [hl] at hlist
        obtain ⟨q, ⟨-, q', hq', hrest⟩, -⟩ := hlist.append
        rw [hq', hrest.head?]
      rw [List.head?_cons, Symtab.eachSibling]
      refine (hbody.step s w np j l₁ l₂ hI hl).bind ?_
      rintro s' ⟨hnext, w', hI', l, hl'⟩
      rw [hsibling, Table.sibling, Option.map_eq_some_iff] at hnext
      obtain ⟨e', he', hnext⟩ := hnext
      refine ends_cell he' ?_
      rw [hnext]
      exact ih hI' hl' (by omega)

theorem Body.eachChild (hbody : Body size root n d I body) (hfuel : n ≤ fuel) (hI : I s w)
    {js : List ℕ} (hjs : ∀ j ∈ js, j < size) :
    Ends (fun s' => ∃ w', I s' w') (eachChild fuel body d js s) := by
  induction js generalizing s w with
  | nil => exact ends_ok ⟨w, hI⟩
  | cons j js ih =>
    have h := hbody.sound s w hI
    obtain ⟨hd, hdir⟩ := hbody.dir s w hI
    obtain ⟨e, eps, he, heps, hlinked⟩ := h.toWhole.dir_lists hd hdir
    have hj := hjs j List.mem_cons_self
    have hlist := hlinked j hj
    rw [Symtab.eachChild]
    refine ends_cell he ?_
    simp only [heps]
    rw [hlist.head?]
    refine (hbody.eachSibling hj hI (List.nil_append (w.buckets d j)).symm
      ((h.fits.mono hfuel).sibling hlist)).bind ?_
    rintro s' ⟨w', hI'⟩
    exact ih hI' fun i hi => hjs i (List.mem_cons_of_mem _ hi)

end Body

/-- A leaf of a directory goes. -/
theorem Sound.dropChild (h : Sound size root n s w) (hsize : 0 < size) (hfuel : n ≤ fuel) {j : ℕ}
    {l₁ l₂ : List ℕ} (hdir : s.isDir d = some true) (hl : w.buckets d j = l₁ ++ np :: l₂)
    (hleaf : s.isDir np = some false) :
    Ends (fun s' => ∃ w', Sound size root n s' w' ∧ Freed s s' w w' np ∧
        s'.isDir d = some true ∧ (w.live d → w'.live d) ∧ w'.buckets d j = l₁ ++ l₂)
      (Symtab.dropleaf size fuel compare np s) := by
  have hmem : np ∈ w.buckets d j := by
    rw [hl]
    exact List.mem_append_right _ List.mem_cons_self
  obtain ⟨hj, hhung, hparent⟩ := h.tree.mem d j np hmem
  obtain ⟨d', eps, hd', hdlive, heps, -⟩ := h.tree.parent np hhung
  obtain rfl := Option.some.inj (hparent.symm.trans hd')
  have hnodup := ((h.tree.lists d eps hdlive heps).2 j hj).nodup
  have hne : d ≠ np := by
    rintro rfl
    cases hleaf.symm.trans hdir
  have hremoved : np ∉ w.removed := fun hmem' => by
    cases hleaf.symm.trans (h.removed_dir np hmem')
  refine (h.dropleaf hsize hfuel (h.tree.hung_live np hhung) hremoved).mono ?_
  rintro s' ⟨w', h', hfreed⟩
  refine ⟨w', h', hfreed, hfreed.isDir ▸ hdir, fun hd => (hfreed.live d).mpr ⟨hd, hne⟩, ?_⟩
  rw [hfreed.buckets]
  exact erase_middle hl hnodup

/-! ## The first loop -/

theorem Sound.unreferenced_body (hsize : 0 < size) (hfuel : n ≤ fuel) :
    Body size root n d (fun s w => Sound size root n s w ∧ w.live d ∧ s.isDir d = some true)
      (unreferenced size fuel compare) where
  sound _ _ hI := hI.1
  dir _ _ hI := hI.2
  step := by
    rintro s w np j l₁ l₂ ⟨h, hd, hdir⟩ hl
    have hmem : np ∈ w.buckets d j := by
      rw [hl]
      exact List.mem_append_right _ List.mem_cons_self
    have hhung := (h.tree.mem d j np hmem).2.1
    have hlive := h.tree.hung_live np hhung
    have hl' : ∃ l, w.buckets d j = l ++ l₂ :=
      ⟨l₁ ++ [np], by rw [hl, List.append_assoc, List.singleton_append]⟩
    obtain ⟨e, he⟩ := (h.has hlive).exists_mem
    rw [unreferenced]
    refine ends_cell he ?_
    split
    case isFalse => exact ends_ok ⟨rfl, w, ⟨h, hd, hdir⟩, hl'⟩
    split
    case isTrue hnone =>
      have hleaf : s.isDir np = some false := by
        rw [isDir_of_mem he, Option.isNone_iff_eq_none.mp hnone]
        rfl
      refine (h.dropChild hsize hfuel hdir hl hleaf).mono ?_
      rintro s' ⟨w', h', hfreed, hdir', hd', hl''⟩
      exact ⟨hfreed.sibling, w', ⟨h', hd' hd, hdir'⟩, l₁, hl''⟩
    case isFalse hsome =>
      split
      case isFalse => exact ends_ok ⟨rfl, w, ⟨h, hd, hdir⟩, hl'⟩
      case isTrue hzero =>
        have hnode : s.isDir np = some true := by
          rw [isDir_of_mem he]
          cases hentries : e.eEntries with
          | none => exact absurd (by rw [hentries]; rfl) hsome
          | some eps => rfl
        have hino : np ∈ w.inos e.eIno := by
          refine h.found np hlive e.eIno ?_ hzero
          rw [Store.ino, he]
          rfl
        have hroot : np ≠ root := ((h.hung_iff np).mp hhung).2
        have hset := h.setFlags np (· ||| tmpnameFlag)
        refine (hset.retire hfuel hino ((isDir_setFlags _ _).symm ▸ hnode) hroot).mono ?_
        rintro s' ⟨w', h', hretired⟩
        refine ⟨?_, w', ⟨h', ?_, ?_⟩, ?_⟩
        · rw [hretired.sibling, sibling_setFlags]
        · rw [hretired.live]
          exact hd
        · rw [hretired.isDir, isDir_setFlags]
          exact hdir
        · rw [hretired.buckets]
          exact hl'

/-- The first loop of `findunreflinks` keeps the table sound. -/
theorem Sound.unreferencedInodes (h : Sound size root n s w) (hsize : 0 < size) (hfuel : n ≤ fuel)
    (is : List ℕ) :
    Ends (fun s' => ∃ w', Sound size root n s' w')
      (unreferencedInodes size fuel compare m is s) := by
  induction is generalizing s w with
  | nil => exact ends_ok ⟨w, h⟩
  | cons i is ih =>
    rw [Symtab.unreferencedInodes]
    refine ends_ofOption (h.lookupino_eq hfuel i) ?_
    cases hhead : (w.inos i).head? with
    | none => exact ih h
    | some ep =>
      have hep := (h.inodes.ino i ep (List.mem_of_head? hhead)).1
      obtain ⟨e, he⟩ := (h.has hep).exists_mem
      refine ends_cell he ?_
      split
      case isTrue => exact ih h
      case isFalse hcond =>
        have hdir : s.isDir ep = some true := by
          rw [isDir_of_mem he]
          cases hentries : e.eEntries with
          | none => exact absurd (.inl (by rw [hentries]; rfl)) hcond
          | some eps => rfl
        refine ((Sound.unreferenced_body hsize hfuel).eachChild hfuel ⟨h, hep, hdir⟩
          fun j hj => List.mem_range.mp hj).bind ?_
        rintro s' ⟨w', h', -⟩
        exact ih h'

/-! ## The second loop -/

/-- The directories in the directories on `removelist` have flags. -/
def Marked (s : Store) : Prop :=
  ∀ r, OnList s.next s.removelist r → ∀ eps, s.entries r = some (some eps) → ∀ p ∈ eps, ∀ a,
    OnList s.sibling p a → s.isDir a = some true → s.flags a ≠ some 0

theorem Sound.marked_iff (h : Sound size root n s w) :
    Marked s ↔ ∀ r ∈ w.removed, ∀ j < size, ∀ a ∈ w.buckets r j, s.isDir a = some true →
      s.flags a ≠ some 0 := by
  constructor
  · intro hmarked r hr j hj a ha
    have hlive := (h.inodes.removed r hr).1
    obtain ⟨e, eps, he, heps, hlinked⟩ := h.toWhole.dir_lists hlive (h.removed_dir r hr)
    have hentries : s.entries r = some (some eps) := by
      rw [Store.entries, he, Option.map_some, heps]
    have hlen := (h.tree.lists r eps hlive hentries).1
    refine hmarked r ((onList_iff h.inodes.retired r).mpr hr) eps hentries (eps.getD j none) ?_ a
      ⟨_, hlinked j hj, ha⟩
    rw [List.getD_eq_getElem?_getD, List.getElem?_eq_getElem (hlen ▸ hj)]
    exact List.getElem_mem _
  · intro hmarked r hr eps heps p hp a ha
    rw [onList_iff h.inodes.retired] at hr
    obtain ⟨hlen, hlinked⟩ := h.tree.lists r eps (h.inodes.removed r hr).1 heps
    obtain ⟨j, hj, rfl⟩ := List.getElem_of_mem hp
    have hlist := hlinked j (hlen ▸ hj)
    rw [List.getD_eq_getElem?_getD, List.getElem?_eq_getElem hj, Option.getD_some] at hlist
    rw [onList_iff hlist] at ha
    exact hmarked r hr j (hlen ▸ hj) a ha

theorem Sound.leftover_body (hsize : 0 < size) (hfuel : n ≤ fuel) {removed : List ℕ}
    (hd : d ∈ removed) :
    Body size root n d (fun s w => Sound size root n s w ∧ w.removed = removed ∧ Marked s)
      (leftover size fuel compare d) where
  sound _ _ hI := hI.1
  dir := by
    rintro s w ⟨h, rfl, -⟩
    exact ⟨(h.inodes.removed d hd).1, h.removed_dir d hd⟩
  step := by
    rintro s w np j l₁ l₂ ⟨h, rfl, hmarked⟩ hl
    have hmem : np ∈ w.buckets d j := by
      rw [hl]
      exact List.mem_append_right _ List.mem_cons_self
    obtain ⟨hj, hhung, -⟩ := h.tree.mem d j np hmem
    obtain ⟨e, he⟩ := (h.has (h.tree.hung_live np hhung)).exists_mem
    have hlists := h.marked_iff.mp hmarked
    rw [leftover]
    refine ends_cell he ?_
    split
    case isTrue hnone =>
      split
      case isTrue => exact ends_panic _
      case isFalse =>
        have hleaf : s.isDir np = some false := by
          rw [isDir_of_mem he, Option.isNone_iff_eq_none.mp hnone]
          rfl
        refine (h.dropChild hsize hfuel (h.removed_dir d hd) hl hleaf).mono ?_
        rintro s' ⟨w', h', hfreed, -, -, hl'⟩
        refine ⟨hfreed.sibling, w', ⟨h', hfreed.removed, h'.marked_iff.mpr ?_⟩, l₁, hl'⟩
        intro r hr i hi a ha hdir
        rw [hfreed.removed] at hr
        rw [hfreed.buckets] at ha
        rw [hfreed.isDir] at hdir
        have hne : a ≠ np := by
          rintro rfl
          cases hleaf.symm.trans hdir
        rw [hfreed.flags a hne]
        exact hlists r hr i hi a (List.mem_of_mem_erase ha) hdir
    case isFalse hsome =>
      split
      case isTrue => exact ends_panic _
      split
      case isTrue hzero =>
        -- every directory has flags
        have hnode : s.isDir np = some true := by
          rw [isDir_of_mem he]
          cases hentries : e.eEntries with
          | none => exact absurd (by rw [hentries]; rfl) hsome
          | some eps => rfl
        refine absurd ?_ (hlists d hd j hj np hmem hnode)
        rw [Store.flags, he, Option.map_some, hzero]
      case isFalse =>
        refine ends_ok ⟨rfl, w, ⟨h, rfl, hmarked⟩, l₁ ++ [np], ?_⟩
        rw [hl, List.append_assoc, List.singleton_append]

theorem Sound.leftovers (h : Sound size root n s w) (hsize : 0 < size) (hfuel : n ≤ fuel)
    (hmarked : Marked s) {t : ℕ} {l₁ l₂ : List ℕ} (hl : w.removed = l₁ ++ l₂)
    (ht : l₂.length ≤ t) :
    Ends (fun s' => ∃ w', Sound size root n s' w') (leftovers size fuel compare t l₂.head? s) := by
  induction t generalizing l₁ l₂ s w with
  | zero =>
    obtain rfl : l₂ = [] := List.length_eq_zero_iff.mp (by omega)
    exact ends_ok ⟨w, h⟩
  | succ t ih =>
    cases l₂ with
    | nil => exact ends_ok ⟨w, h⟩
    | cons ep l₂ =>
      rw [List.length_cons] at ht
      have hmem : ep ∈ w.removed := by
        rw [hl]
        exact List.mem_append_right _ List.mem_cons_self
      rw [List.head?_cons, Symtab.leftovers]
      refine ((Sound.leftover_body hsize hfuel hmem).eachChild hfuel ⟨h, rfl, hmarked⟩
        fun j hj => List.mem_range.mp hj).bind ?_
      rintro s' ⟨w', h', hremoved, hmarked'⟩
      have hl' : w'.removed = (l₁ ++ [ep]) ++ l₂ := by
        rw [hremoved, hl, List.append_assoc, List.singleton_append]
      have hread := h'.toWhole.readPrev_eq hl'
      rw [List.getLast?_append, List.getLast?_singleton, Option.some_or] at hread
      obtain ⟨e, he⟩ := (h'.has (h'.inodes.removed ep (hremoved ▸ hmem)).1).exists_mem
      have hnext : e.eNext = l₂.head? := by
        rw [readPrev, cell_eq he] at hread
        exact Except.ok.inj hread
      refine ends_cell he ?_
      rw [hnext]
      exact ih h' hmarked' hl' (by omega)

/-- `findunreflinks` keeps the table sound if the first loop leaves every directory in a directory
on `removelist` with flags. -/
theorem Sound.findunreflinks (h : Sound size root n s w) (hsize : 0 < size) (hfuel : n ≤ fuel)
    (hmarked : ∀ s', Symtab.unreferencedInodes size fuel compare m
      (List.range' rootino (s.maxino - rootino)) s = .ok s' → Marked s') :
    Ends (fun s' => ∃ w', Sound size root n s' w') (findunreflinks size fuel compare m s) := by
  have hfirst : Ends (fun s' => ∃ w', Sound size root n s' w')
      (Symtab.unreferencedInodes size fuel compare m
        (List.range' rootino (s.maxino - rootino)) s) := h.unreferencedInodes hsize hfuel _
  rw [Symtab.findunreflinks]
  cases hrun : Symtab.unreferencedInodes size fuel compare m
      (List.range' rootino (s.maxino - rootino)) s with
  | error stop =>
    rw [hrun] at hfirst
    cases stop with
    | panic text => trivial
    | stuck => exact hfirst.elim
  | ok s' =>
    rw [hrun] at hfirst
    obtain ⟨w', h'⟩ := hfirst
    change Ends _ (Symtab.leftovers size fuel compare fuel s'.removelist s')
    rw [h'.inodes.retired.head?]
    exact h'.leftovers hsize hfuel (hmarked s' hrun) (List.nil_append w'.removed).symm
      ((h'.fits.mono hfuel).next h'.inodes.retired)

/-! ## A directory that is still found -/

/-- `adopt` of a directory that is on a hash chain: it is on `removelist` too, and the inode numbers
behind it on the chain are lost. -/
theorem Sound.adopt (h : Sound size root n s w) (hfuel : n ≤ fuel) (hep : ep ∈ w.removed) {k : ℕ}
    (hnp : np ∈ w.inos k) (hdir : s.isDir np = some true) :
    ∃ s', adopt ep np s = .ok s' ∧ OnList s'.next s'.removelist np ∧
      OnList s'.next (s'.entry.getD (k % s'.entry.length) none) np ∧
      ∀ q b k', s.next np = some q → OnList s.next q b → s.ino b = some k' →
        s.lookupino fuel k' = some (some b) ∧ s'.lookupino fuel k' = some none := by
  obtain ⟨e, he⟩ := (h.has (h.inodes.removed ep hep).1).exists_mem
  obtain ⟨enp, henp⟩ := (h.has (h.inodes.ino k np hnp).1).exists_mem
  have hnot : np ∉ w.removed := h.toWhole.not_removed hnp
  have hne : ep ≠ np := ne_of_mem_of_not_mem hep hnot
  set s₁ : Store := s.modify np fun p => { p with eNext := e.eNext } with hs₁
  set s' : Store := s₁.modify ep fun p => { p with eNext := some np } with hs'
  have hnext' : s'.next =
      Function.update (Function.update s.next np (some e.eNext)) ep (some (some np)) := by
    have hmem₁ : s₁.mem ep = some e := by
      rw [hs₁, mem_modify, Function.update_of_ne hne, he]
    rw [hs', next_modify, hmem₁, hs₁, next_modify, henp]
    rfl
  have hino' : s'.ino = s.ino :=
    (ino_modify_of (by exact fun _ => rfl)).trans (ino_modify_of (by exact fun _ => rfl))
  have hhas' : ∀ a, s'.Has a → s.Has a := fun a ha => has_modify.mp (has_modify.mp ha)
  have hsame : ∀ a, a ≠ ep → a ≠ np → s'.next a = s.next a := fun a haep hanp => by
    rw [hnext', Function.update_of_ne haep, Function.update_of_ne hanp]
  have hnp' : s'.next np = some e.eNext := by
    rw [hnext', Function.update_of_ne hne.symm, Function.update_self]
  -- the rest of removelist
  obtain ⟨r₁, r₂, hr⟩ := List.append_of_mem hep
  have hretired := h.inodes.retired
  have hnodup := hretired.nodup
  rw [hr] at hretired hnodup
  obtain ⟨p, ⟨-, q, hq, hrest⟩, -⟩ := hretired.append
  obtain rfl : e.eNext = q := by
    rw [Table.next, he] at hq
    exact Option.some.inj hq
  rw [List.nodup_append, List.nodup_cons] at hnodup
  have hrest' : Linked s'.next e.eNext r₂ := by
    refine hrest.congr fun a ha => hsame a ?_ ?_
    · exact ne_of_mem_of_not_mem ha hnodup.2.1.1
    · refine ne_of_mem_of_not_mem (s := w.removed) ?_ hnot
      rw [hr]
      exact List.mem_append_right _ (List.mem_cons_of_mem _ ha)
  -- the hash chain
  have hsingle := h.alone k np hnp hdir
  set i := k % s.entry.length with hi
  have hilt : i < s.entry.length := h.inodes.index_lt
  have hhash : np ∈ w.hash i := h.inodes.head_hash k np (by rw [hsingle]; rfl)
  have hapart : ∀ a ∈ w.hash i, a ≠ ep := fun a ha heq =>
    (h.inodes.hash_apart hilt ha).2.2 (heq ▸ hep)
  have hchain := h.inodes.chain i hilt
  obtain ⟨l₁, l₂, hl⟩ := List.append_of_mem hhash
  have hchainNodup := hchain.nodup
  rw [hl] at hchain hchainNodup
  obtain ⟨p', ⟨-, q', hq', htail⟩, -⟩ := hchain.append
  have hnotl₁ : np ∉ l₁ := by
    rw [List.nodup_append] at hchainNodup
    exact fun hmem => hchainNodup.2.2 np hmem np List.mem_cons_self rfl
  have hchain' : Linked s'.next (s.entry.getD i none) (l₁ ++ np :: r₂) := by
    refine hchain.splice (fun a ha => ?_) hnp' hrest'
    refine hsame a (hapart a ?_) (ne_of_mem_of_not_mem ha hnotl₁)
    rw [hl]
    exact List.mem_append_left _ ha
  refine ⟨s', ?_, ?_, ⟨_, hchain', by simp⟩, ?_⟩
  · rw [Symtab.adopt, cell_eq he]
    rfl
  · have hep' : s'.next ep = some (some np) := by rw [hnext', Function.update_self]
    refine ⟨r₁ ++ ep :: np :: r₂, ?_, by simp⟩
    refine hretired.splice (fun a ha => ?_) hep' ⟨rfl, e.eNext, hnp', hrest'⟩
    refine hsame a (fun heq => ?_) (ne_of_mem_of_not_mem (s := w.removed) ?_ hnot)
    · exact hnodup.2.2 a ha ep List.mem_cons_self heq
    · rw [hr]
      exact List.mem_append_left _ ha
  · intro q'' b k' hq'' hb hk'
    obtain rfl := Option.some.inj (hq'.symm.trans hq'')
    rw [onList_iff htail] at hb
    have hbhash : b ∈ w.hash i := by
      rw [hl]
      exact List.mem_append_right _ (List.mem_cons_of_mem _ hb)
    obtain ⟨inum, hinum, hhead⟩ := h.inodes.mem_hash i hilt b hbhash
    obtain rfl : inum = k' :=
      Option.some.inj ((h.inodes.ino inum b (List.mem_of_head? hhead)).2.1.symm.trans hk')
    refine ⟨by rw [h.lookupino_eq hfuel, hhead], ?_⟩
    rw [Table.lookupino]
    split
    · rfl
    change chainFind s'.next (s'.hasIno inum) fuel
      (s.entry.getD (inum % s.entry.length) none) = some none
    rw [hinum, hchain'.chainFind_eq _ (((h.fits.mono hfuel).congr hhas').next hchain'),
      Option.some_inj, List.find?_eq_none]
    intro a ha hfound
    rw [hasIno_iff, hino'] at hfound
    rw [List.mem_append, List.mem_cons] at ha
    have hunique : a ∈ w.hash i → a = b := fun hahash =>
      h.inodes.hash_unique hilt hahash hbhash (hfound.trans hk'.symm)
    rw [hl] at hunique
    rw [List.nodup_append, List.nodup_cons] at hchainNodup
    rcases ha with ha | rfl | ha
    · have heq := hunique (List.mem_append_left _ ha)
      exact hchainNodup.2.2 a ha b (List.mem_cons_of_mem _ hb) heq
    · have heq := hunique (List.mem_append_right _ List.mem_cons_self)
      exact hchainNodup.2.1.1 (heq ▸ hb)
    · have hzero := (h.inodes.removed a (by
        rw [hr]
        exact List.mem_append_right _ (List.mem_cons_of_mem _ ha))).2
      obtain rfl := Option.some.inj (hzero.symm.trans hfound)
      have hpos := (h.inodes.ino 0 b (List.mem_of_head? hhead)).2.2.1
      rw [wino] at hpos
      omega

end Unreferenced

end Symtab

end DumpRestore
