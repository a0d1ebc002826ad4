import DumpRestore.Restore.SymtabRep

/-!
# The directories of the symbol table

Each directory has a list of entries for each hash value of names. An entry stays on the list of an
old name when it is renamed, so that only the directory of an entry says where it is, and
`removeentry` looks for it on the list of its name first and then on all of them.

* `Tree`: every entry that is hung up is on exactly one list, one of the directory `e_parent`.
* `Tree.hang` and `Tree.removeentry`: what the functions do to these lists.
* `Tree.lookupin`: the search for a name finds an entry of the directory with this name, if there is
  one, on whatever list it is.
-/

namespace DumpRestore

namespace Symtab

/-! ## The lists -/

/-- The lists of the directories: `buckets d j` is the one of the directory `d` for the hash value
`j`. The entries `hung` are on these lists. -/
structure Tree (size : ℕ) (s : Store) (live hung : ℕ → Prop) (buckets : ℕ → ℕ → List ℕ) : Prop where
  hung_live : ∀ a, hung a → live a
  parent : ∀ a, hung a → ∃ d eps, s.parent a = some d ∧ live d ∧ s.entries d = some (some eps) ∧
    ∃ j, a ∈ buckets d j
  mem : ∀ d j, ∀ a ∈ buckets d j, j < size ∧ hung a ∧ s.parent a = some d
  lists : ∀ d eps, live d → s.entries d = some (some eps) → eps.length = size ∧
    ∀ j < size, Linked s.sibling (eps.getD j none) (buckets d j)
  once : ∀ d j j', ∀ a ∈ buckets d j, a ∈ buckets d j' → j = j'

/-- What a function of the directories leaves. -/
structure SameInos (s s' : Store) : Prop where
  next : s'.next = s.next
  links : s'.links = s.links
  ino : s'.ino = s.ino
  label : s'.label = s.label
  entry : s'.entry = s.entry
  maxino : s'.maxino = s.maxino
  freelist : s'.freelist = s.freelist
  removelist : s'.removelist = s.removelist
  isDir : s'.isDir = s.isDir

theorem SameInos.trans {s s' s'' : Store} (h : SameInos s s') (h' : SameInos s' s'') :
    SameInos s s'' where
  next := h'.next.trans h.next
  links := h'.links.trans h.links
  ino := h'.ino.trans h.ino
  label := h'.label.trans h.label
  entry := h'.entry.trans h.entry
  maxino := h'.maxino.trans h.maxino
  freelist := h'.freelist.trans h.freelist
  removelist := h'.removelist.trans h.removelist
  isDir := h'.isDir.trans h.isDir

theorem SameInos.has {s s' : Store} (h : SameInos s s') (a : ℕ) : s'.Has a ↔ s.Has a :=
  has_congr (·.eNext) h.next a

/-- The members that the functions of the directories change. -/
theorem sameInos_modify {s : Store} {a : ℕ} {f : Entry → Entry}
    (h : ∀ e, (f e).eNext = e.eNext ∧ (f e).eLinks = e.eLinks ∧ (f e).eIno = e.eIno ∧
      ((f e).eName, (f e).eFlags) = (e.eName, e.eFlags) ∧
      (f e).eEntries.isSome = e.eEntries.isSome) :
    SameInos s (s.modify a f) where
  next := next_modify_of fun e => (h e).1
  links := links_modify_of fun e => (h e).2.1
  ino := ino_modify_of fun e => (h e).2.2.1
  label := label_modify_of fun e => (h e).2.2.2.1
  entry := rfl
  maxino := rfl
  freelist := rfl
  removelist := rfl
  isDir := member_modify_of (fun e => (h e).2.2.2.2) s a

section Tree

variable {size fuel np ep d : ℕ} {s s' : Store} {live hung : ℕ → Prop} {buckets : ℕ → ℕ → List ℕ}

theorem Tree.congr (h : Tree size s live hung buckets) (hsibling : s'.sibling = s.sibling)
    (hparent : s'.parent = s.parent) (hentries : s'.entries = s.entries) :
    Tree size s' live hung buckets where
  hung_live := h.hung_live
  parent := by
    rw [hparent, hentries]
    exact h.parent
  mem := by
    rw [hparent]
    exact h.mem
  lists := by
    rw [hentries, hsibling]
    exact h.lists
  once := h.once

/-- The lists of a table in which nothing is hung up. -/
theorem tree_none (h : ∀ d eps, live d → s.entries d = some (some eps) →
    eps.length = size ∧ ∀ j < size, eps.getD j none = none) :
    Tree size s live (fun _ => False) fun _ _ => [] where
  hung_live _ := False.elim
  parent _ := False.elim
  mem _ _ _ ha := absurd ha List.not_mem_nil
  lists := h
  once _ _ _ _ ha := absurd ha List.not_mem_nil

/-- The directory of an entry is the only one that has it on a list. -/
theorem Tree.dir_unique (h : Tree size s live hung buckets) {a d d' j j' : ℕ} (ha : a ∈ buckets d j)
    (ha' : a ∈ buckets d' j') : d = d' ∧ j = j' := by
  obtain rfl := Option.some.inj ((h.mem d j a ha).2.2.symm.trans (h.mem d' j' a ha').2.2)
  exact ⟨rfl, h.once d j j' a ha ha'⟩

/-- The buckets of a directory with the list `l` for the hash value `j`. -/
def setBucket (buckets : ℕ → ℕ → List ℕ) (d j : ℕ) (l : List ℕ) : ℕ → ℕ → List ℕ :=
  Function.update buckets d (Function.update (buckets d) j l)

theorem setBucket_self (buckets : ℕ → ℕ → List ℕ) (d j : ℕ) (l : List ℕ) :
    setBucket buckets d j l d j = l := by
  rw [setBucket, Function.update_self, Function.update_self]

theorem setBucket_of_ne {d j d' j' : ℕ} (hne : ¬ (d' = d ∧ j' = j)) (l : List ℕ) :
    setBucket buckets d j l d' j' = buckets d' j' := by
  rw [setBucket]
  by_cases hd : d' = d
  · subst hd
    rw [Function.update_self, Function.update_of_ne fun hj => hne ⟨rfl, hj⟩]
  · rw [Function.update_of_ne hd]

theorem mem_setBucket_cons {d j d' i a : ℕ} :
    a ∈ setBucket buckets d j (np :: buckets d j) d' i ↔
      (a = np ∧ d' = d ∧ i = j) ∨ a ∈ buckets d' i := by
  by_cases hdi : d' = d ∧ i = j
  · obtain ⟨rfl, rfl⟩ := hdi
    rw [setBucket_self, List.mem_cons]
    tauto
  · rw [setBucket_of_ne hdi]
    tauto

/-! ## Another first entry -/

/-- The directories are the same ones when one of them gets another table of lists. -/
theorem entries_update {eps eps' : List (Option ℕ)} {d' : ℕ}
    (hentries : s'.entries = Function.update s.entries d (some (some eps)))
    (h : s.entries d' = some (some eps')) : ∃ eps'', s'.entries d' = some (some eps'') := by
  rw [hentries]
  by_cases hd : d' = d
  · rw [hd, Function.update_self]
    exact ⟨eps, rfl⟩
  · rw [Function.update_of_ne hd]
    exact ⟨eps', h⟩

/-- The lists of the directories when one of them starts at another entry. -/
theorem Tree.lists_set (h : Tree size s live hung buckets) (hlive : live d) {eps : List (Option ℕ)}
    (heps : s.entries d = some (some eps)) {j : ℕ} {p : Option ℕ} {l : List ℕ}
    (hentries : s'.entries = Function.update s.entries d (some (some (eps.set j p))))
    (hlist : Linked s'.sibling p l)
    (hkeep : ∀ d' i q, Linked s.sibling q (buckets d' i) → Linked s'.sibling q (buckets d' i)) :
    ∀ d' eps', live d' → s'.entries d' = some (some eps') → eps'.length = size ∧
      ∀ i < size, Linked s'.sibling (eps'.getD i none) (setBucket buckets d j l d' i) := by
  intro d' eps' hd' heps'
  rw [hentries] at heps'
  by_cases hdd : d' = d
  · subst hdd
    rw [Function.update_self] at heps'
    obtain rfl := Option.some.inj (Option.some.inj heps')
    obtain ⟨hlen, hlinked⟩ := h.lists d' eps hlive heps
    refine ⟨by rw [List.length_set, hlen], fun i hi => ?_⟩
    rw [getD_set (hlen ▸ hi)]
    by_cases hij : i = j
    · rw [if_pos hij, hij, setBucket_self]
      exact hlist
    · rw [if_neg hij, setBucket_of_ne fun h => hij h.2]
      exact hkeep d' i _ (hlinked i hi)
  · rw [Function.update_of_ne hdd] at heps'
    obtain ⟨hlen, hlinked⟩ := h.lists d' eps' hd' heps'
    refine ⟨hlen, fun i hi => ?_⟩
    rw [setBucket_of_ne fun h => hdd h.1]
    exact hkeep d' i _ (hlinked i hi)

/-! ## hang -/

/-- An entry that is nowhere is hung up in a directory. -/
theorem Tree.hang (h : Tree size s live hung buckets) (hnp : live np) (hout : ¬ hung np)
    (hlive : live ep) (hhas : ∀ a, live a → s.Has a) {eps : List (Option ℕ)}
    (heps : s.entries ep = some (some eps)) {j : ℕ} (hj : j < size) :
    Ends (fun s' => Tree size s' live (fun a => hung a ∨ a = np)
        (setBucket buckets ep j (np :: buckets ep j)) ∧ SameInos s s' ∧
        s'.parent = Function.update s.parent np (some ep))
      (hang np ep j s) := by
  obtain ⟨d, hd⟩ := (hhas ep hlive).exists_mem
  obtain ⟨en, hen⟩ := (hhas np hnp).exists_mem
  have hdeps : d.eEntries = some eps := by
    rw [Store.entries, hd] at heps
    exact Option.some.inj heps
  obtain ⟨-, hlinked⟩ := h.lists ep eps hlive heps
  rw [Symtab.hang, cell_eq hd, cell_eq hen]
  simp only [bind, Except.bind, hdeps, pure, Except.pure]
  set s₁ : Store :=
    s.modify np fun e => { e with eParent := ep, eSibling := eps.getD j none } with hs₁
  set s₂ : Store := s₁.modify ep
    fun d => { d with eEntries := d.eEntries.map (·.set j (some np)) } with hs₂
  have hsibling : s₂.sibling = Function.update s.sibling np (some (eps.getD j none)) := by
    rw [hs₂, sibling_modify_of (by exact fun _ => rfl), hs₁, sibling_modify, hen]
    rfl
  have hparent : s₂.parent = Function.update s.parent np (some ep) := by
    rw [hs₂, parent_modify_of (by exact fun _ => rfl), hs₁, parent_modify, hen]
    rfl
  have hentries₁ : s₁.entries = s.entries := entries_modify_of fun _ => rfl
  have hentries : s₂.entries =
      Function.update s.entries ep (some (some (eps.set j (some np)))) := by
    obtain ⟨d₁, hd₁⟩ := (has_modify.mpr (hhas ep hlive) : s₁.Has ep).exists_mem
    have hd₁eps : d₁.eEntries = some eps := by
      rw [← hentries₁, Store.entries, hd₁] at heps
      exact Option.some.inj heps
    rw [hs₂, entries_modify, hentries₁, hd₁]
    simp only [Option.map_some, Function.comp_apply, hd₁eps]
  have hnot : ∀ d j, np ∉ buckets d j := fun d j hmem => hout (h.mem d j np hmem).2.1
  refine ends_ok ⟨?_, ?_, hparent⟩
  · constructor
    case hung_live =>
      rintro a (ha | rfl)
      · exact h.hung_live a ha
      · exact hnp
    case parent =>
      intro a ha
      by_cases hanp : a = np
      · obtain ⟨eps', heps'⟩ := entries_update hentries heps
        rw [hparent, hanp, Function.update_self]
        exact ⟨ep, eps', rfl, hlive, heps', j, mem_setBucket_cons.mpr (.inl ⟨rfl, rfl, rfl⟩)⟩
      · obtain ⟨d, eps', hd, hdlive, hdeps', i, hi⟩ := h.parent a (ha.resolve_right hanp)
        obtain ⟨eps'', heps''⟩ := entries_update hentries hdeps'
        rw [hparent, Function.update_of_ne hanp]
        exact ⟨d, eps'', hd, hdlive, heps'', i, mem_setBucket_cons.mpr (.inr hi)⟩
    case mem =>
      intro d i a ha
      rw [hparent]
      rcases mem_setBucket_cons.mp ha with ⟨hanp, hde, hij⟩ | ha
      · rw [hanp, hde, hij, Function.update_self]
        exact ⟨hj, .inr rfl, rfl⟩
      · obtain ⟨hi, hhung, had⟩ := h.mem d i a ha
        rw [Function.update_of_ne (ne_of_mem_of_not_mem ha (hnot d i))]
        exact ⟨hi, .inl hhung, had⟩
    case lists =>
      refine h.lists_set hlive heps hentries ⟨rfl, eps.getD j none, ?_, ?_⟩ fun d i q hq => ?_
      · rw [hsibling, Function.update_self]
      · rw [hsibling]
        exact (hlinked j hj).update (hnot ep j) _
      · rw [hsibling]
        exact hq.update (hnot d i) _
    case once =>
      intro d i i' a ha ha'
      rcases mem_setBucket_cons.mp ha with ⟨hanp, -, hi⟩ | ha
      · rcases mem_setBucket_cons.mp ha' with ⟨-, -, hi'⟩ | ha'
        · rw [hi, hi']
        · exact absurd (hanp ▸ ha') (hnot d i')
      · rcases mem_setBucket_cons.mp ha' with ⟨hanp, -, -⟩ | ha'
        · exact absurd (hanp ▸ ha) (hnot d i)
        · exact h.once d i i' a ha ha'
  · refine (sameInos_modify (by exact fun _ => ⟨rfl, rfl, rfl, rfl, rfl⟩)).trans
      (sameInos_modify ?_)
    exact fun e => ⟨rfl, rfl, rfl, rfl, Option.isSome_map⟩

/-! ## removeentry -/

/-- What is left of the lists when an entry is taken from one of them. -/
theorem Tree.unhook (h : Tree size s live hung buckets) {j : ℕ} {l₁ l₂ : List ℕ}
    (hbucket : buckets d j = l₁ ++ ep :: l₂) (hparent : s'.parent = s.parent)
    (hdirs : ∀ d eps, s.entries d = some (some eps) → ∃ eps', s'.entries d = some (some eps'))
    (hlists : ∀ d' eps, live d' → s'.entries d' = some (some eps) → eps.length = size ∧
      ∀ i < size, Linked s'.sibling (eps.getD i none)
        (setBucket buckets d j (l₁ ++ l₂) d' i)) :
    Tree size s' live (fun a => hung a ∧ a ≠ ep) (setBucket buckets d j (l₁ ++ l₂)) := by
  have hmem : ep ∈ buckets d j := by
    rw [hbucket]
    exact List.mem_append_right _ List.mem_cons_self
  obtain ⟨hj, hep, hepd⟩ := h.mem d j ep hmem
  obtain ⟨d', eps, hd', hlive, heps, -⟩ := h.parent ep hep
  obtain rfl := Option.some.inj (hepd.symm.trans hd')
  have hnodup : (l₁ ++ ep :: l₂).Nodup := by
    rw [← hbucket]
    exact ((h.lists d eps hlive heps).2 j hj).nodup
  rw [List.nodup_append, List.nodup_cons] at hnodup
  have hiff : ∀ d' i a, a ∈ setBucket buckets d j (l₁ ++ l₂) d' i ↔ a ∈ buckets d' i ∧ a ≠ ep := by
    intro d' i a
    by_cases hdi : d' = d ∧ i = j
    · obtain ⟨rfl, rfl⟩ := hdi
      rw [setBucket_self, hbucket]
      constructor
      · intro ha
        refine ⟨?_, ?_⟩
        · simp only [List.mem_append, List.mem_cons] at ha ⊢
          tauto
        · rintro rfl
          rcases List.mem_append.mp ha with ha | ha
          · exact hnodup.2.2 a ha a List.mem_cons_self rfl
          · exact hnodup.2.1.1 ha
      · rintro ⟨ha, hne⟩
        simp only [List.mem_append, List.mem_cons] at ha ⊢
        tauto
    · rw [setBucket_of_ne hdi]
      refine ⟨fun ha => ⟨ha, ?_⟩, fun ha => ha.1⟩
      rintro rfl
      obtain ⟨hd, hi⟩ := h.dir_unique ha hmem
      exact hdi ⟨hd, hi⟩
  constructor
  case hung_live => exact fun a ha => h.hung_live a ha.1
  case parent =>
    rintro a ⟨ha, hne⟩
    obtain ⟨d', eps', hd', hlive', heps', i, hi⟩ := h.parent a ha
    obtain ⟨eps'', heps''⟩ := hdirs d' eps' heps'
    exact ⟨d', eps'', by rw [hparent, hd'], hlive', heps'', i, (hiff d' i a).mpr ⟨hi, hne⟩⟩
  case mem =>
    intro d' i a ha
    obtain ⟨hold, hne⟩ := (hiff d' i a).mp ha
    obtain ⟨hi, hhung, had⟩ := h.mem d' i a hold
    exact ⟨hi, ⟨hhung, hne⟩, by rw [hparent, had]⟩
  case lists => exact hlists
  case once =>
    exact fun d' i i' a ha ha' =>
      h.once d' i i' a ((hiff d' i a).mp ha).1 ((hiff d' i' a).mp ha').1

/-- An entry is taken from a list if it is there. -/
theorem Tree.removeFrom (h : Tree size s live hung buckets) (hfits : Fits fuel s)
    (hhas : ∀ a, live a → s.Has a) (hep : live ep) (hd : s.parent ep = some d) (hlive : live d)
    {eps : List (Option ℕ)} (heps : s.entries d = some (some eps)) {j : ℕ} (hj : j < size) :
    Ends (fun r => (ep ∉ buckets d j ∧ r = none) ∨ ∃ l₁ l₂ s', buckets d j = l₁ ++ ep :: l₂ ∧
        r = some s' ∧ SameInos s s' ∧ s'.parent = s.parent ∧ s'.sibling ep = s.sibling ep ∧
        Tree size s' live (fun a => hung a ∧ a ≠ ep) (setBucket buckets d j (l₁ ++ l₂)))
      (removeFrom fuel ep j s) := by
  obtain ⟨e, he⟩ := (hhas ep hep).exists_mem
  obtain ⟨ed, hed⟩ := (hhas d hlive).exists_mem
  have heparent : e.eParent = d := by
    rw [Store.parent, he] at hd
    exact Option.some.inj hd
  have hedeps : ed.eEntries = some eps := by
    rw [Store.entries, hed] at heps
    exact Option.some.inj heps
  have hsib : s.sibling ep = some e.eSibling := by rw [Table.sibling, he]; rfl
  obtain ⟨-, hlinked⟩ := h.lists d eps hlive heps
  have hlist := hlinked j hj
  rw [Symtab.removeFrom, cell_eq he]
  simp only [bind, Except.bind, heparent, cell_eq hed, hedeps, ofOption]
  split
  case isTrue hfirst =>
    -- the entry is the first one of the list
    right
    have hbucket : buckets d j = [] ++ ep :: (buckets d j).tail := by
      have hhead := hlist.head?
      rw [hfirst] at hhead
      exact (List.cons_head?_tail hhead.symm).symm
    have hrest : Linked s.sibling e.eSibling (buckets d j).tail := by
      rw [hbucket] at hlist
      obtain ⟨-, q, hq, hrest⟩ := hlist
      rwa [Option.some.inj (hsib.symm.trans hq)]
    set s' : Store := s.modify d
      fun d => { d with eEntries := d.eEntries.map (·.set j e.eSibling) } with hs'
    have hsibling : s'.sibling = s.sibling := sibling_modify_of fun _ => rfl
    have hparent : s'.parent = s.parent := parent_modify_of fun _ => rfl
    have hentries : s'.entries =
        Function.update s.entries d (some (some (eps.set j e.eSibling))) := by
      rw [hs', entries_modify, hed]
      simp only [Option.map_some, Function.comp_apply, hedeps]
    exact ⟨[], (buckets d j).tail, s', hbucket, rfl, sameInos_modify fun e => ⟨rfl, rfl, rfl, rfl,
      Option.isSome_map⟩, hparent, by rw [hsibling], h.unhook hbucket hparent
      (fun d' eps' hd' => entries_update hentries hd')
      (h.lists_set hlive heps hentries (hsibling ▸ hrest) fun d' i q hq => hsibling ▸ hq)⟩
  case isFalse hfirst =>
    rw [hlist.chainFind_eq _ (hfits.sibling hlist)]
    rcases hlist.find_before hfirst with ⟨hnot, hfind⟩ | ⟨l₁, b, l₂, hbucket, hfind⟩
    · rw [hfind]
      exact ends_ok (.inl ⟨hnot, rfl⟩)
    · -- the entry before skips it
      rw [hfind]
      right
      have hb : b ∈ buckets d j := by
        rw [hbucket]
        exact List.mem_append_right _ List.mem_cons_self
      obtain ⟨eb, heb⟩ := (hhas b (h.hung_live b (h.mem d j b hb).2.1)).exists_mem
      set s' : Store := s.modify b fun p => { p with eSibling := e.eSibling } with hs'
      have hsibling : s'.sibling = Function.update s.sibling b (some e.eSibling) := by
        rw [hs', sibling_modify, heb]
        rfl
      have hparent : s'.parent = s.parent := parent_modify_of fun _ => rfl
      have hentries : s'.entries = s.entries := entries_modify_of fun _ => rfl
      have hbucket' : buckets d j = (l₁ ++ [b]) ++ ep :: l₂ := by
        rw [hbucket, List.append_assoc, List.singleton_append]
      have hepb : ep ≠ b := by
        rintro rfl
        have hnodup := hlist.nodup
        rw [hbucket, List.nodup_append, List.nodup_cons] at hnodup
        exact hnodup.2.1.1 List.mem_cons_self
      refine ⟨l₁ ++ [b], l₂, s', hbucket', rfl, sameInos_modify fun e => ⟨rfl, rfl, rfl, rfl, rfl⟩,
        hparent, by rw [hsibling, Function.update_of_ne hepb],
        h.unhook hbucket' hparent (fun d' eps' hd' => ⟨eps', hentries ▸ hd'⟩) ?_⟩
      intro d' eps' hd' heps'
      rw [hentries] at heps'
      obtain ⟨hlen', hlinked'⟩ := h.lists d' eps' hd' heps'
      refine ⟨hlen', fun i hi => ?_⟩
      by_cases hdi : d' = d ∧ i = j
      · obtain ⟨rfl, rfl⟩ := hdi
        obtain rfl := Option.some.inj (Option.some.inj (heps.symm.trans heps'))
        rw [setBucket_self]
        rw [hbucket'] at hlist
        have hunlink : Linked s'.sibling
            (if l₁ ++ [b] = [] then e.eSibling else eps.getD i none) ((l₁ ++ [b]) ++ l₂) := by
          refine hlist.unlink hsib (fun c _ hc => ?_) fun c hc => ?_
          · rw [hsibling, Function.update_of_ne]
            rintro rfl
            exact hc (by simp)
          · rw [List.getLast?_append, List.getLast?_singleton, Option.some_or] at hc
            rw [hsibling, Option.some.inj hc, Function.update_self]
        rwa [if_neg (by simp)] at hunlink
      · rw [setBucket_of_ne hdi, hsibling]
        refine (hlinked' i hi).update (fun hmem => hdi ?_) _
        obtain ⟨hd', hi'⟩ := h.dir_unique hmem hb
        exact ⟨hd', hi'⟩

/-- Only the list that it is on has an entry. -/
theorem Tree.erase_eq (h : Tree size s live hung buckets) {j : ℕ} {l₁ l₂ : List ℕ}
    (hbucket : buckets d j = l₁ ++ ep :: l₂) :
    (fun d i => (buckets d i).erase ep) = setBucket buckets d j (l₁ ++ l₂) := by
  have hmem : ep ∈ buckets d j := by
    rw [hbucket]
    exact List.mem_append_right _ List.mem_cons_self
  obtain ⟨hj, hep, hepd⟩ := h.mem d j ep hmem
  obtain ⟨d', eps, hd', hlive, heps, -⟩ := h.parent ep hep
  obtain rfl := Option.some.inj (hepd.symm.trans hd')
  have hnodup := ((h.lists d eps hlive heps).2 j hj).nodup
  rw [hbucket, List.nodup_append] at hnodup
  funext d' i
  by_cases hdi : d' = d ∧ i = j
  · obtain ⟨rfl, rfl⟩ := hdi
    rw [setBucket_self, hbucket, List.erase_append_right, List.erase_cons_head]
    exact fun hl => hnodup.2.2 ep hl ep List.mem_cons_self rfl
  · rw [setBucket_of_ne hdi, List.erase_of_not_mem fun hmem' => hdi (h.dir_unique hmem' hmem)]

/-- What `removeentry` changes. -/
structure Unhung (size ep : ℕ) (s s' : Store) (live hung : ℕ → Prop)
    (buckets : ℕ → ℕ → List ℕ) : Prop where
  mem : hung ep
  same : SameInos s s'
  parent : s'.parent = s.parent
  sibling : s'.sibling ep = s.sibling ep
  rest : Tree size s' live (fun a => hung a ∧ a ≠ ep) fun d j => (buckets d j).erase ep

theorem Tree.unhung (h : Tree size s live hung buckets) {j : ℕ} {l₁ l₂ : List ℕ}
    (hbucket : buckets d j = l₁ ++ ep :: l₂)
    (hrest : SameInos s s' ∧ s'.parent = s.parent ∧ s'.sibling ep = s.sibling ep ∧
      Tree size s' live (fun a => hung a ∧ a ≠ ep) (setBucket buckets d j (l₁ ++ l₂))) :
    Unhung size ep s s' live hung buckets := by
  obtain ⟨hsame, hparent, hsibling, htree⟩ := hrest
  refine ⟨?_, hsame, hparent, hsibling, ?_⟩
  · refine (h.mem d j ep ?_).2.1
    rw [hbucket]
    exact List.mem_append_right _ List.mem_cons_self
  · rw [h.erase_eq hbucket]
    exact htree

theorem Tree.removeLoop (h : Tree size s live hung buckets) (hfits : Fits fuel s)
    (hhas : ∀ a, live a → s.Has a) (hep : live ep) (hd : s.parent ep = some d) (hlive : live d)
    {eps : List (Option ℕ)} (heps : s.entries d = some (some eps)) {js : List ℕ}
    (hjs : ∀ j ∈ js, j < size) :
    Ends (fun s' => Unhung size ep s s' live hung buckets) (removeLoop fuel ep s js) := by
  induction js with
  | nil => exact ends_panic _
  | cons j js ih =>
    rw [Symtab.removeLoop]
    refine (h.removeFrom hfits hhas hep hd hlive heps (hjs j List.mem_cons_self)).bind ?_
    rintro r (⟨-, rfl⟩ | ⟨l₁, l₂, s', hbucket, rfl, hrest⟩)
    · exact ih fun i hi => hjs i (List.mem_cons_of_mem _ hi)
    · exact ends_ok (h.unhung hbucket hrest)

/-- `removeentry` takes the entry from the list that it is on. -/
theorem Tree.removeentry (h : Tree size s live hung buckets) (hsize : 0 < size)
    (hfits : Fits fuel s) (hhas : ∀ a, live a → s.Has a) (hep : live ep)
    (hd : s.parent ep = some d) (hlive : live d) {eps : List (Option ℕ)}
    (heps : s.entries d = some (some eps)) :
    Ends (fun s' => Unhung size ep s s' live hung buckets) (removeentry size fuel ep s) := by
  obtain ⟨e, he⟩ := (hhas ep hep).exists_mem
  rw [Symtab.removeentry, cell_eq he]
  refine (h.removeFrom hfits hhas hep hd hlive heps (dirHash_lt hsize e.eName)).bind ?_
  rintro r (⟨-, rfl⟩ | ⟨l₁, l₂, s', hbucket, rfl, hrest⟩)
  · exact h.removeLoop hfits hhas hep hd hlive heps fun j hj => List.mem_range.mp hj
  · exact ends_ok (h.unhung hbucket hrest)

/-! ## New and free entries -/

/-- A new entry is nowhere, and its lists are empty. -/
theorem Tree.alloc (h : Tree size s live hung buckets) {node : Bool} (hnp : ¬ live np)
    (hmem : s'.mem = Function.update s.mem np (some (Store.blank size node))) :
    Tree size s' (fun a => live a ∨ a = np) hung buckets := by
  have hsibling : s'.sibling = Function.update s.sibling np (some none) :=
    member_update hmem (·.eSibling)
  have hparent : s'.parent = Function.update s.parent np (some 0) := member_update hmem (·.eParent)
  have hentries : s'.entries = Function.update s.entries np
      (some (if node then some (List.replicate size none) else none)) :=
    member_update hmem (·.eEntries)
  have hout : ∀ a, hung a → a ≠ np := fun a ha heq => hnp (heq ▸ h.hung_live a ha)
  have hnot : ∀ d j, np ∉ buckets d j := fun d j hj => hout np (h.mem d j np hj).2.1 rfl
  constructor
  case hung_live => exact fun a ha => .inl (h.hung_live a ha)
  case parent =>
    intro a ha
    obtain ⟨d, eps, hd, hlive, heps, hj⟩ := h.parent a ha
    have hdnp : d ≠ np := fun heq => hnp (heq ▸ hlive)
    rw [hparent, Function.update_of_ne (hout a ha)]
    refine ⟨d, eps, hd, .inl hlive, ?_, hj⟩
    rwa [hentries, Function.update_of_ne hdnp]
  case mem =>
    intro d j a ha
    rw [hparent, Function.update_of_ne (ne_of_mem_of_not_mem ha (hnot d j))]
    exact h.mem d j a ha
  case lists =>
    intro d eps hd heps
    rw [hsibling]
    rw [hentries] at heps
    by_cases hdnp : d = np
    · subst hdnp
      rw [Function.update_self] at heps
      have hempty : ∀ j, buckets d j = [] := by
        intro j
        refine List.eq_nil_iff_forall_not_mem.mpr fun a ha => ?_
        obtain ⟨-, hhung, had⟩ := h.mem d j a ha
        obtain ⟨d', -, hd', hlive, -⟩ := h.parent a hhung
        obtain rfl := Option.some.inj (had.symm.trans hd')
        exact hnp hlive
      split at heps
      case isFalse => cases heps
      case isTrue =>
        obtain rfl := Option.some.inj (Option.some.inj heps)
        refine ⟨List.length_replicate, fun j hj => ?_⟩
        rw [hempty j, linked_nil, List.getD_eq_getElem?_getD, List.getElem?_replicate]
        split <;> rfl
    · rw [Function.update_of_ne hdnp] at heps
      obtain ⟨hlen, hlinked⟩ := h.lists d eps (hd.resolve_right hdnp) heps
      exact ⟨hlen, fun j hj => (hlinked j hj).update (hnot d j) _⟩
  case once => exact h.once

/-- An entry that is nowhere and has no entries below it is not needed for the lists. -/
theorem Tree.release (h : Tree size s live hung buckets) (hep : ¬ hung ep)
    (hempty : ∀ a, hung a → s.parent a ≠ some ep) :
    Tree size s (fun a => live a ∧ a ≠ ep) hung buckets where
  hung_live a ha := ⟨h.hung_live a ha, fun heq => hep (heq ▸ ha)⟩
  parent a ha := by
    obtain ⟨d, eps, hd, hlive, hrest⟩ := h.parent a ha
    exact ⟨d, eps, hd, ⟨hlive, fun heq => hempty a ha (heq ▸ hd)⟩, hrest⟩
  mem := h.mem
  lists d eps hd := h.lists d eps hd.1
  once := h.once

/-- A leaf, or a directory whose lists are empty, has no entries below it. -/
theorem Tree.no_children (h : Tree size s live hung buckets) (hep : live ep) {e : Entry}
    (he : s.mem ep = some e)
    (hempty : e.eEntries.any (fun eps => (eps.take size).any Option.isSome) = false) {a : ℕ}
    (ha : hung a) : s.parent a ≠ some ep := by
  intro hparent
  obtain ⟨d, eps, hd, -, heps, j, hj⟩ := h.parent a ha
  obtain rfl := Option.some.inj (hparent.symm.trans hd)
  have heeps : e.eEntries = some eps := by
    rw [Store.entries, he] at heps
    exact Option.some.inj heps
  obtain ⟨hlen, hlinked⟩ := h.lists ep eps hep heps
  have hjlt := (h.mem ep j a hj).1
  have hhead := hlinked j hjlt
  rw [heeps, Option.any_some, List.take_of_length_le hlen.le, List.any_eq_false] at hempty
  have hnone : eps.getD j none = none := by
    rw [List.getD_eq_getElem?_getD, List.getElem?_eq_getElem (hlen ▸ hjlt), Option.getD_some]
    simpa using hempty _ (List.getElem_mem (hlen ▸ hjlt))
  rw [hnone] at hhead
  rw [List.head?_eq_none_iff.mp hhead.head?.symm] at hj
  cases hj

/-! ## Searches -/

theorem hasName_iff {buf : List UInt8} {a : ℕ} : s.hasName buf a = true ↔ s.name a = some buf := by
  rw [Table.hasName, Store.name]
  cases s.mem a with
  | none => simp
  | some e => simp

/-- The search through all the lists of a directory. -/
theorem searchAll_eq (hfits : Fits fuel s) (buf : List UInt8) (heads : List (Option ℕ))
    (hheads : ∀ p ∈ heads, ∃ l, Linked s.sibling p l) :
    ∃ r, s.searchAll fuel buf heads = some r ∧
      (∀ a, r = some a → s.name a = some buf ∧ ∃ p ∈ heads, ∃ l, Linked s.sibling p l ∧ a ∈ l) ∧
      (r = none → ∀ p ∈ heads, ∀ l, Linked s.sibling p l → ∀ a ∈ l, s.name a ≠ some buf) := by
  induction heads with
  | nil =>
    refine ⟨none, rfl, fun a ha => ?_, fun _ p hp => ?_⟩
    · cases ha
    · cases hp
  | cons p heads ih =>
    obtain ⟨r, hr, hsome, hnone⟩ := ih fun q hq => hheads q (List.mem_cons_of_mem _ hq)
    obtain ⟨l, hl⟩ := hheads p List.mem_cons_self
    rw [Table.searchAll, hl.chainFind_eq _ (hfits.sibling hl)]
    simp only [Option.bind_eq_bind, Option.bind_some]
    cases hfind : l.find? (s.hasName buf) with
    | some a =>
      refine ⟨some a, rfl, fun b hb => ?_, fun h => by cases h⟩
      obtain rfl := Option.some.inj hb
      exact ⟨hasName_iff.mp (List.find?_some hfind), p, List.mem_cons_self, l, hl,
        List.mem_of_find?_eq_some hfind⟩
    | none =>
      refine ⟨r, hr, fun a ha => ?_, fun hrnone q hq l' hl' a ha => ?_⟩
      · obtain ⟨hname, q, hq, hrest⟩ := hsome a ha
        exact ⟨hname, q, List.mem_cons_of_mem _ hq, hrest⟩
      · rcases List.mem_cons.mp hq with rfl | hq
        · obtain rfl := hl.unique hl'
          exact fun hname => List.find?_eq_none.mp hfind a ha (hasName_iff.mpr hname)
        · exact hnone hrnone q hq l' hl' a ha

/-- The search for a component of a path, whatever the lists are on which the entries are. -/
theorem Tree.lookupin (h : Tree size s live hung buckets) (hsize : 0 < size) (hfits : Fits fuel s)
    (hhas : ∀ a, live a → s.Has a) (hd : live d) (buf : List UInt8) :
    ∃ r, s.lookupin size fuel d buf = some r ∧ ((s.entries d = some none ∧ r = some d) ∨
      ∃ eps, s.entries d = some (some eps) ∧
        ((∃ a, r = some a ∧ hung a ∧ s.parent a = some d ∧ s.name a = some buf) ∨
          (r = none ∧ ∀ a, hung a → s.parent a = some d → s.name a ≠ some buf))) := by
  obtain ⟨e, he⟩ := (hhas d hd).exists_mem
  have hentries : s.entries d = some e.eEntries := by rw [Store.entries, he]; rfl
  rw [Table.lookupin, he]
  simp only [Option.bind_eq_bind, Option.bind_some]
  cases heps : e.eEntries with
  | none => exact ⟨some d, rfl, .inl ⟨by rw [hentries, heps], rfl⟩⟩
  | some eps =>
    rw [heps] at hentries
    obtain ⟨hlen, hlinked⟩ := h.lists d eps hd hentries
    have hlist := hlinked _ (dirHash_lt hsize buf)
    dsimp only
    rw [hlist.chainFind_eq _ (hfits.sibling hlist)]
    simp only [Option.bind_some]
    cases hfind : (buckets d (dirHash size buf)).find? (s.hasName buf) with
    | some a =>
      obtain ⟨-, hhung, hparent⟩ := h.mem _ _ a (List.mem_of_find?_eq_some hfind)
      exact ⟨some a, rfl, .inr ⟨eps, hentries, .inl ⟨a, rfl, hhung, hparent,
        hasName_iff.mp (List.find?_some hfind)⟩⟩⟩
    | none =>
      have hbucket : ∀ p ∈ eps.take size, ∃ j < size, Linked s.sibling p (buckets d j) := by
        intro p hp
        rw [List.take_of_length_le hlen.le] at hp
        obtain ⟨j, hj, rfl⟩ := List.getElem_of_mem hp
        refine ⟨j, hlen ▸ hj, ?_⟩
        have hj' := hlinked j (hlen ▸ hj)
        rwa [List.getD_eq_getElem?_getD, List.getElem?_eq_getElem hj, Option.getD_some] at hj'
      obtain ⟨r, hr, hsome, hnone⟩ := searchAll_eq hfits buf (eps.take size) fun p hp => by
        obtain ⟨j, -, hj⟩ := hbucket p hp
        exact ⟨_, hj⟩
      refine ⟨r, hr, .inr ⟨eps, hentries, ?_⟩⟩
      cases r with
      | some a =>
        obtain ⟨hname, p, hp, l, hl, ha⟩ := hsome a rfl
        obtain ⟨j, -, hj⟩ := hbucket p hp
        obtain rfl := hl.unique hj
        obtain ⟨-, hhung, hparent⟩ := h.mem d j a ha
        exact .inl ⟨a, rfl, hhung, hparent, hname⟩
      | none =>
        refine .inr ⟨rfl, fun a ha hparent => ?_⟩
        obtain ⟨d', eps', hd', -, heps', j, hj⟩ := h.parent a ha
        obtain rfl := Option.some.inj (hparent.symm.trans hd')
        have hjlt := (h.mem _ j a hj).1
        have hjlen : j < eps.length := hlen ▸ hjlt
        have hlistj := hlinked j hjlt
        refine hnone rfl (eps.getD j none) ?_ _ hlistj a hj
        rw [List.take_of_length_le hlen.le, List.getD_eq_getElem?_getD,
          List.getElem?_eq_getElem hjlen, Option.getD_some]
        exact List.getElem_mem hjlen

end Tree

end Symtab

end DumpRestore
