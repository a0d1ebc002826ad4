import DumpRestore.Restore.SymtabRep

/-!
# The inode numbers of the symbol table

What the pointers of a store stand for is a list of entries for each hash value of inode numbers,
for each inode number, and for the free list and `removelist`. `Inodes` says so, and each function
is given by what it does to these lists. The lists of the directories are the subject of
`SymtabTree`: an entry that is on its way into the table or out of it is on lists of one kind only.

* `Inodes.lookupino_eq`: `lookupino` finds the first entry of an inode number.
* `Inodes.enterIno` and `Inodes.leaveIno`: every entry with an inode number is found, before and
  after (`Found`).
-/

namespace DumpRestore

namespace Symtab

/-! ## The lists -/

/-- The lists of a store but those of its directories: `hash` are the hash chains, `inos` the links
of the inode numbers that `lookupino` finds. The entries `live` are not on the free list. -/
structure Inodes (s : Store) (live : ℕ → Prop) (hash inos : ℕ → List ℕ) (free removed : List ℕ) :
    Prop where
  pos : 0 < s.entry.length
  chain : ∀ i < s.entry.length, Linked s.next (s.entry.getD i none) (hash i)
  linked : ∀ inum, Linked s.links (inos inum).head? (inos inum)
  freed : Linked s.next s.freelist free
  retired : Linked s.next s.removelist removed
  mem_hash : ∀ i < s.entry.length, ∀ a ∈ hash i,
    ∃ inum, inum % s.entry.length = i ∧ (inos inum).head? = some a
  head_hash : ∀ inum a, (inos inum).head? = some a → a ∈ hash (inum % s.entry.length)
  ino : ∀ inum, ∀ a ∈ inos inum, live a ∧ s.ino a = some inum ∧ wino ≤ inum ∧ inum < s.maxino
  removed : ∀ a ∈ removed, live a ∧ s.ino a = some 0
  live_iff : ∀ a, live a ↔ s.Has a ∧ a ∉ free

/-- Every entry with an inode number is found. -/
def Found (s : Store) (live : ℕ → Prop) (inos : ℕ → List ℕ) : Prop :=
  ∀ a, live a → ∀ inum, s.ino a = some inum → inum ≠ 0 → a ∈ inos inum

/-- The directories are the same in two stores. -/
structure SameTree (s s' : Store) : Prop where
  sibling : s'.sibling = s.sibling
  entries : s'.entries = s.entries
  parent : s'.parent = s.parent
  label : s'.label = s.label

theorem SameTree.refl (s : Store) : SameTree s s := ⟨rfl, rfl, rfl, rfl⟩

theorem SameTree.trans {s s' s'' : Store} (h : SameTree s s') (h' : SameTree s' s'') :
    SameTree s s'' :=
  ⟨h'.sibling.trans h.sibling, h'.entries.trans h.entries, h'.parent.trans h.parent,
    h'.label.trans h.label⟩

theorem SameTree.has {s s' : Store} (h : SameTree s s') (a : ℕ) : s'.Has a ↔ s.Has a :=
  has_congr (·.eParent) h.parent a

theorem sameTree_modify {s : Store} {a : ℕ} {f : Entry → Entry}
    (h : ∀ e, (f e).eSibling = e.eSibling ∧ (f e).eEntries = e.eEntries ∧
      (f e).eParent = e.eParent ∧ ((f e).eName, (f e).eFlags) = (e.eName, e.eFlags)) :
    SameTree s (s.modify a f) :=
  ⟨sibling_modify_of fun e => (h e).1, entries_modify_of fun e => (h e).2.1,
    parent_modify_of fun e => (h e).2.2.1, label_modify_of fun e => (h e).2.2.2⟩

section Inodes

variable {fuel inum np ep : ℕ} {s s' : Store} {live : ℕ → Prop} {hash inos : ℕ → List ℕ}
  {free removed : List ℕ}

/-- The lists are the same where the members that they use are. -/
theorem Inodes.congr (h : Inodes s live hash inos free removed) (hnext : s'.next = s.next)
    (hlinks : s'.links = s.links) (hino : s'.ino = s.ino) (hentry : s'.entry = s.entry)
    (hmax : s'.maxino = s.maxino) (hfree : s'.freelist = s.freelist)
    (hremove : s'.removelist = s.removelist) : Inodes s' live hash inos free removed where
  pos := hentry ▸ h.pos
  chain := by
    rw [hentry, hnext]
    exact h.chain
  linked := by
    rw [hlinks]
    exact h.linked
  freed := by
    rw [hnext, hfree]
    exact h.freed
  retired := by
    rw [hnext, hremove]
    exact h.retired
  mem_hash := by
    rw [hentry]
    exact h.mem_hash
  head_hash := by
    rw [hentry]
    exact h.head_hash
  ino := by
    rw [hino, hmax]
    exact h.ino
  removed := by
    rw [hino]
    exact h.removed
  live_iff := by
    intro a
    rw [has_congr (·.eIno) hino]
    exact h.live_iff a

/-- The lists of a table without entries. -/
theorem inodes_none (hpos : 0 < s.entry.length) (hnone : ∀ i, s.entry.getD i none = none)
    (hhas : ∀ a, ¬ s.Has a) (hfree : s.freelist = none) (hremove : s.removelist = none) :
    Inodes s (fun _ => False) (fun _ => []) (fun _ => []) [] [] where
  pos := hpos
  chain i _ := hnone i
  linked _ := rfl
  freed := hfree
  retired := hremove
  mem_hash _ _ _ ha := absurd ha List.not_mem_nil
  head_hash inum a ha := by cases ha
  ino _ _ ha := absurd ha List.not_mem_nil
  removed _ ha := absurd ha List.not_mem_nil
  live_iff a := ⟨False.elim, fun ha => hhas a ha.1⟩

theorem Inodes.index_lt (h : Inodes s live hash inos free removed) :
    inum % s.entry.length < s.entry.length := Nat.mod_lt _ h.pos

theorem Inodes.head_live (h : Inodes s live hash inos free removed) {i a : ℕ}
    (hi : i < s.entry.length) (ha : a ∈ hash i) : live a ∧ ∃ inum, a ∈ inos inum := by
  obtain ⟨inum, -, hhead⟩ := h.mem_hash i hi a ha
  have hmem := List.mem_of_head? hhead
  exact ⟨(h.ino inum a hmem).1, inum, hmem⟩

/-- An entry is on one list of inode numbers only. -/
theorem Inodes.ino_unique (h : Inodes s live hash inos free removed) {a i j : ℕ} (hi : a ∈ inos i)
    (hj : a ∈ inos j) : i = j :=
  Option.some.inj ((h.ino i a hi).2.1.symm.trans (h.ino j a hj).2.1)

/-- What `find?` gives on a hash chain. -/
theorem Inodes.find_hash (h : Inodes s live hash inos free removed) (inum : ℕ) :
    (hash (inum % s.entry.length)).find? (s.hasIno inum) = (inos inum).head? := by
  cases hhead : (inos inum).head? with
  | none =>
    rw [List.find?_eq_none]
    intro a ha hino
    obtain ⟨k, -, hk⟩ := h.mem_hash _ h.index_lt a ha
    obtain rfl : k = inum := Option.some.inj
      ((h.ino k a (List.mem_of_head? hk)).2.1.symm.trans (hasIno_iff.mp hino))
    cases hhead.symm.trans hk
  | some a =>
    have hino := hasIno_iff.mpr (h.ino inum a (List.mem_of_head? hhead)).2.1
    cases hfind : (hash (inum % s.entry.length)).find? (s.hasIno inum) with
    | none => exact absurd hino (List.find?_eq_none.mp hfind a (h.head_hash inum a hhead))
    | some b =>
      obtain ⟨k, -, hk⟩ := h.mem_hash _ h.index_lt b (List.mem_of_find?_eq_some hfind)
      obtain rfl : k = inum := Option.some.inj ((h.ino k b (List.mem_of_head? hk)).2.1.symm.trans
        (hasIno_iff.mp (List.find?_some hfind)))
      exact hk.symm.trans hhead

theorem Inodes.lookupino_eq (h : Inodes s live hash inos free removed) (hfits : Fits fuel s)
    (inum : ℕ) : s.lookupino fuel inum = some (inos inum).head? := by
  rw [Table.lookupino]
  split
  case isTrue hrange =>
    cases hhead : (inos inum).head? with
    | none => rfl
    | some a =>
      obtain ⟨-, -, hle, hlt⟩ := h.ino inum a (List.mem_of_head? hhead)
      omega
  case isFalse =>
    have hchain := h.chain (inum % s.entry.length) h.index_lt
    rw [hchain.chainFind_eq (s.hasIno inum) (hfits.next hchain), h.find_hash]

/-- `addino` of an entry that has its links already. -/
theorem Inodes.addino (h : Inodes s live hash inos free removed) {rest : List ℕ} (hlive : live np)
    (hout : ∀ k, np ∉ inos k) (hremoved : np ∉ removed) (hnone : inos inum = [])
    (hrest : Linked s.links (some np) (np :: rest))
    (hino : ∀ a ∈ rest, live a ∧ s.ino a = some inum) :
    Ends (fun s' => Inodes s' live
        (Function.update hash (inum % s.entry.length) (np :: hash (inum % s.entry.length)))
        (Function.update inos inum (np :: rest)) free removed ∧ SameTree s s' ∧
        s'.links = s.links ∧ s'.ino = Function.update s.ino np (some inum) ∧
        s'.maxino = s.maxino ∧ s'.removelist = s.removelist)
      (addino inum np s) := by
  rw [Symtab.addino]
  split
  case isTrue => exact ends_panic _
  case isFalse hrange =>
    obtain ⟨e, he⟩ := ((h.live_iff np).mp hlive).1.exists_mem
    rw [cell_eq he]
    set i := inum % s.entry.length with hi
    have hilt : i < s.entry.length := h.index_lt
    set next := s.entry.getD i none with hnext
    set s' : Store := s.modify np fun e => { e with eIno := inum, eNext := next } with hs'
    have hnext' : s'.next = Function.update s.next np (some next) := by
      rw [hs', next_modify, he]
      rfl
    have hino' : s'.ino = Function.update s.ino np (some inum) := by
      rw [hs', ino_modify, he]
      rfl
    have hnot : ∀ j < s.entry.length, np ∉ hash j := by
      intro j hj hmem
      obtain ⟨-, k, hk⟩ := h.head_live hj hmem
      exact hout k hk
    have hfree : np ∉ free := ((h.live_iff np).mp hlive).2
    have hnodup := List.nodup_cons.mp hrest.nodup
    refine ends_ok ⟨?_, ⟨?_, ?_, ?_, ?_⟩, ?_, hino', rfl, rfl⟩
    case refine_2 => exact sibling_modify_of fun _ => rfl
    case refine_3 => exact entries_modify_of fun _ => rfl
    case refine_4 => exact parent_modify_of fun _ => rfl
    case refine_5 => exact label_modify_of fun _ => rfl
    case refine_6 => exact links_modify_of fun _ => rfl
    have hlen : (s.entry.set i (some np)).length = s.entry.length := List.length_set
    constructor
    case pos => exact hlen ▸ h.pos
    case chain =>
      intro j hj
      change j < (s.entry.set i (some np)).length at hj
      rw [hlen] at hj
      change Linked s'.next ((s.entry.set i (some np)).getD j none) _
      rw [getD_set hj, hnext']
      have hkeep := (h.chain j hj).update (hnot j hj) (some next)
      by_cases hji : j = i
      · rw [if_pos hji, hji, Function.update_self]
        rw [hji] at hkeep
        exact ⟨rfl, next, Function.update_self _ _ _, hkeep⟩
      · rw [if_neg hji, Function.update_of_ne hji]
        exact hkeep
    case linked =>
      intro k
      have hlinks : s'.links = s.links := links_modify_of fun _ => rfl
      change Linked s'.links _ _
      rw [hlinks]
      by_cases hk : k = inum
      · rw [hk, Function.update_self]
        exact hrest
      · rw [Function.update_of_ne hk]
        exact h.linked k
    case freed =>
      change Linked s'.next s.freelist free
      rw [hnext']
      exact h.freed.update hfree _
    case retired =>
      change Linked s'.next s.removelist removed
      rw [hnext']
      exact h.retired.update hremoved _
    case mem_hash =>
      intro j hj a ha
      change j < (s.entry.set i (some np)).length at hj
      change ∃ k, k % (s.entry.set i (some np)).length = j ∧ _
      rw [hlen] at hj ⊢
      have hold : ∀ a ∈ hash j, ∃ k, k % s.entry.length = j ∧
          (Function.update inos inum (np :: rest) k).head? = some a := by
        intro a ha
        obtain ⟨k, hk, hhead⟩ := h.mem_hash j hj a ha
        have hne : k ≠ inum := by
          rintro rfl
          rw [hnone] at hhead
          cases hhead
        exact ⟨k, hk, by rwa [Function.update_of_ne hne]⟩
      by_cases hji : j = i
      · rw [hji, Function.update_self] at ha
        rcases List.mem_cons.mp ha with rfl | ha
        · exact ⟨inum, hji.symm, by rw [Function.update_self]; rfl⟩
        · exact hold a (hji ▸ ha)
      · rw [Function.update_of_ne hji] at ha
        exact hold a ha
    case head_hash =>
      intro k a hhead
      change a ∈ Function.update hash i (np :: hash i) (k % (s.entry.set i (some np)).length)
      rw [hlen]
      by_cases hk : k = inum
      · rw [hk, Function.update_self] at hhead
        rw [hk, ← hi, Function.update_self, ← Option.some.inj hhead]
        exact List.mem_cons_self
      · rw [Function.update_of_ne hk] at hhead
        have hmem := h.head_hash k a hhead
        by_cases hki : k % s.entry.length = i
        · rw [hki, Function.update_self]
          exact List.mem_cons_of_mem _ (hki ▸ hmem)
        · rwa [Function.update_of_ne hki]
    case ino =>
      intro k a ha
      change live a ∧ s'.ino a = some k ∧ wino ≤ k ∧ k < s.maxino
      rw [hino']
      by_cases hk : k = inum
      · rw [hk, Function.update_self] at ha
        rcases List.mem_cons.mp ha with rfl | ha
        · rw [Function.update_self, hk]
          exact ⟨hlive, rfl, by omega, by omega⟩
        · have hne : a ≠ np := fun heq => hnodup.1 (heq ▸ ha)
          rw [Function.update_of_ne hne, hk]
          exact ⟨(hino a ha).1, (hino a ha).2, by omega, by omega⟩
      · rw [Function.update_of_ne hk] at ha
        rw [Function.update_of_ne fun heq : a = np => hout k (heq ▸ ha)]
        exact h.ino k a ha
    case removed =>
      intro a ha
      change live a ∧ s'.ino a = some 0
      rw [hino', Function.update_of_ne fun heq : a = np => hremoved (heq ▸ ha)]
      exact h.removed a ha
    case live_iff =>
      intro a
      change live a ↔ s'.Has a ∧ a ∉ free
      rw [hs', has_modify]
      exact h.live_iff a

/-- An entry is on one hash chain only, and on neither of the two lists beside the table. -/
theorem Inodes.hash_apart (h : Inodes s live hash inos free removed) {i a : ℕ}
    (hi : i < s.entry.length) (ha : a ∈ hash i) :
    (∀ j < s.entry.length, a ∈ hash j → j = i) ∧ a ∉ free ∧ a ∉ removed := by
  obtain ⟨inum, hinum, hhead⟩ := h.mem_hash i hi a ha
  obtain ⟨hlive, hino, hpos, -⟩ := h.ino inum a (List.mem_of_head? hhead)
  refine ⟨fun j hj haj => ?_, ((h.live_iff a).mp hlive).2, fun hremoved => ?_⟩
  · obtain ⟨k, rfl, hhead'⟩ := h.mem_hash j hj a haj
    rw [h.ino_unique (List.mem_of_head? hhead') (List.mem_of_head? hhead), hinum]
  · have hzero := Option.some.inj (hino.symm.trans (h.removed a hremoved).2)
    rw [wino] at hpos
    omega

/-- The entries on a hash chain have different inode numbers. -/
theorem Inodes.hash_unique (h : Inodes s live hash inos free removed) {i a b : ℕ}
    (hi : i < s.entry.length) (ha : a ∈ hash i) (hb : b ∈ hash i) (heq : s.ino a = s.ino b) :
    a = b := by
  obtain ⟨j, -, hj⟩ := h.mem_hash i hi a ha
  obtain ⟨k, -, hk⟩ := h.mem_hash i hi b hb
  have hja := (h.ino j a (List.mem_of_head? hj)).2.1
  have hkb := (h.ino k b (List.mem_of_head? hk)).2.1
  obtain rfl : j = k := Option.some.inj (hja.symm.trans (heq.trans hkb))
  exact Option.some.inj (hj.symm.trans hk)

/-- What is left when the first entry of an inode number is taken off its hash chain. -/
theorem Inodes.unhash (h : Inodes s live hash inos free removed) {a i : ℕ} {rest l₁ l₂ : List ℕ}
    {q : Option ℕ} (hi : i = inum % s.entry.length) (hinos : inos inum = a :: rest)
    (hchain : hash i = l₁ ++ a :: l₂) (hq : s.next a = some q)
    (hlen : s'.entry.length = s.entry.length)
    (hentry : ∀ j < s.entry.length, s'.entry.getD j none =
      if j = i then (if l₁ = [] then q else s.entry.getD i none) else s.entry.getD j none)
    (hsame : ∀ b, l₁.getLast? ≠ some b → s'.next b = s.next b)
    (hprev : ∀ b, l₁.getLast? = some b → s'.next b = some q)
    (hlinks : s'.links = s.links) (hino : s'.ino = Function.update s.ino a (some 0))
    (hmax : s'.maxino = s.maxino) (hfree : s'.freelist = s.freelist)
    (hremove : s'.removelist = s.removelist) :
    Inodes s' live (Function.update hash i (l₁ ++ l₂)) (Function.update inos inum []) free
      removed := by
  have hilt : i < s.entry.length := hi ▸ h.index_lt
  have hinum : a ∈ inos inum := hinos ▸ List.mem_cons_self
  have ha := h.ino inum a hinum
  have hkeep : ∀ (p : Option ℕ) (l : List ℕ), Linked s.next p l →
      (∀ b, l₁.getLast? = some b → b ∉ l) → Linked s'.next p l := by
    intro p l hl hnot
    exact hl.congr fun b hb => hsame b fun hlast => hnot b hlast hb
  have hlast : ∀ b, l₁.getLast? = some b → b ∈ hash i := by
    intro b hb
    rw [hchain]
    exact List.mem_append_left _ (List.mem_of_getLast? hb)
  have hother : ∀ k, k ≠ inum → a ∉ inos k := fun k hk hmem => hk (h.ino_unique hmem hinum)
  constructor
  case pos => exact hlen ▸ h.pos
  case chain =>
    intro j hj
    rw [hlen] at hj
    rw [hentry j hj]
    by_cases hji : j = i
    · rw [if_pos hji, hji, Function.update_self]
      exact (hchain ▸ h.chain i hilt).unlink hq (fun b _ hb => hsame b hb) hprev
    · rw [if_neg hji, Function.update_of_ne hji]
      exact hkeep _ _ (h.chain j hj) fun b hb hmem =>
        hji ((h.hash_apart hilt (hlast b hb)).1 j hj hmem)
  case linked =>
    intro k
    rw [hlinks]
    by_cases hk : k = inum
    · rw [hk, Function.update_self]
      exact rfl
    · rw [Function.update_of_ne hk]
      exact h.linked k
  case freed =>
    rw [hfree]
    exact hkeep _ _ h.freed fun b hb => (h.hash_apart hilt (hlast b hb)).2.1
  case retired =>
    rw [hremove]
    exact hkeep _ _ h.retired fun b hb => (h.hash_apart hilt (hlast b hb)).2.2
  case mem_hash =>
    intro j hj b hb
    rw [hlen] at hj ⊢
    have hmem : b ∈ hash j ∧ b ≠ a := by
      by_cases hji : j = i
      · rw [hji, Function.update_self] at hb
        have hnodup := (h.chain i hilt).nodup
        rw [hchain, List.nodup_append, List.nodup_cons] at hnodup
        obtain ⟨-, ⟨hnot, -⟩, hdisj⟩ := hnodup
        rw [hji, hchain]
        rcases List.mem_append.mp hb with hb | hb
        · exact ⟨List.mem_append_left _ hb, hdisj b hb a List.mem_cons_self⟩
        · exact ⟨List.mem_append_right _ (List.mem_cons_of_mem _ hb),
            fun heq => hnot (heq ▸ hb)⟩
      · rw [Function.update_of_ne hji] at hb
        refine ⟨hb, fun heq => hji ?_⟩
        have hai : a ∈ hash i := by
          rw [hchain]
          exact List.mem_append_right _ List.mem_cons_self
        exact (h.hash_apart hilt hai).1 j hj (heq ▸ hb)
    obtain ⟨k, hk, hhead⟩ := h.mem_hash j hj b hmem.1
    refine ⟨k, hk, ?_⟩
    rw [Function.update_of_ne, hhead]
    rintro rfl
    rw [hinos] at hhead
    exact hmem.2 (Option.some.inj hhead).symm
  case head_hash =>
    intro k b hhead
    rw [hlen]
    by_cases hk : k = inum
    · rw [hk, Function.update_self] at hhead
      cases hhead
    · rw [Function.update_of_ne hk] at hhead
      have hmem := h.head_hash k b hhead
      have hba : b ≠ a := fun heq => hother k hk (heq ▸ List.mem_of_head? hhead)
      by_cases hki : k % s.entry.length = i
      · rw [hki, Function.update_self]
        rw [hki, hchain, List.mem_append, List.mem_cons] at hmem
        rw [List.mem_append]
        tauto
      · rwa [Function.update_of_ne hki]
  case ino =>
    intro k b hb
    by_cases hk : k = inum
    · rw [hk, Function.update_self] at hb
      cases hb
    · rw [Function.update_of_ne hk] at hb
      rw [hino, Function.update_of_ne fun heq : b = a => hother k hk (heq ▸ hb), hmax]
      exact h.ino k b hb
  case removed =>
    intro b hb
    have hba : b ≠ a := by
      rintro rfl
      have hai : b ∈ hash i := by
        rw [hchain]
        exact List.mem_append_right _ List.mem_cons_self
      exact (h.hash_apart hilt hai).2.2 hb
    rw [hino, Function.update_of_ne hba]
    exact h.removed b hb
  case live_iff =>
    intro b
    rw [has_congr (·.eLinks) hlinks]
    exact h.live_iff b

/-- `deleteino` takes the first entry of the inode number off its hash chain. The links of the inode
are not found any more. -/
theorem Inodes.deleteino (h : Inodes s live hash inos free removed) (hfits : Fits fuel s)
    (inum : ℕ) :
    Ends (fun s' => ∃ a rest hash', inos inum = a :: rest ∧
        Inodes s' live hash' (Function.update inos inum []) free removed ∧ SameTree s s' ∧
        s'.links = s.links ∧ s'.ino = Function.update s.ino a (some 0) ∧ s'.maxino = s.maxino ∧
        s'.removelist = s.removelist)
      (deleteino fuel inum s) := by
  rw [Symtab.deleteino]
  split
  case isTrue => exact ends_panic _
  case isFalse =>
    set i := inum % s.entry.length with hi
    have hilt : i < s.entry.length := h.index_lt
    have hchain := h.chain i hilt
    rcases hchain.findPrev_eq (s.hasIno inum) (hfits.next hchain) none with
      ⟨-, hfind⟩ | ⟨l₁, a, l₂, hl, hsome, hfind⟩
    · dsimp only
      rw [hfind]
      exact ends_panic _
    · dsimp only
      rw [hfind, Option.or_none]
      have hhead : (inos inum).head? = some a := by rw [← h.find_hash, ← hi, hsome]
      obtain ⟨rest, hinos⟩ := List.head?_eq_some_iff.mp hhead
      obtain ⟨hlive, -⟩ := h.ino inum a (List.mem_of_head? hhead)
      obtain ⟨e, he⟩ := ((h.live_iff a).mp hlive).1.exists_mem
      have hq : s.next a = some e.eNext := by rw [Table.next, he]; rfl
      simp only [ofOption, cell_eq he, bind, Except.bind, pure, Except.pure]
      set s₁ : Store := s.modify a fun e => { e with eIno := 0 } with hs₁
      have hnext₁ : s₁.next = s.next := next_modify_of fun _ => rfl
      have hlinks₁ : s₁.links = s.links := links_modify_of fun _ => rfl
      have hino₁ : s₁.ino = Function.update s.ino a (some 0) := by
        rw [hs₁, ino_modify, he]
        rfl
      have htree₁ : SameTree s s₁ := sameTree_modify fun _ => ⟨rfl, rfl, rfl, rfl⟩
      cases hlast : l₁.getLast? with
      | none =>
        have hnil : l₁ = [] := List.getLast?_eq_none_iff.mp hlast
        refine ends_ok ⟨a, rest, _, hinos, h.unhash hi hinos hl hq List.length_set ?_
          (fun b _ => congrFun hnext₁ b) ?_ hlinks₁ hino₁ rfl rfl rfl,
          ⟨htree₁.sibling, htree₁.entries, htree₁.parent, htree₁.label⟩, hlinks₁, hino₁, rfl, rfl⟩
        · intro j hj
          rw [if_pos hnil]
          exact getD_set hj _
        · intro b hb
          rw [hlast] at hb
          cases hb
      | some b =>
        have hne : l₁ ≠ [] := by
          rintro rfl
          cases hlast
        have hbmem : b ∈ hash i := by
          rw [hl]
          exact List.mem_append_left _ (List.mem_of_getLast? hlast)
        have hhas : s₁.Has b := has_modify.mpr ((h.live_iff b).mp (h.head_live hilt hbmem).1).1
        obtain ⟨eb, heb⟩ := hhas.exists_mem
        set s₂ : Store := s₁.modify b fun p => { p with eNext := e.eNext } with hs₂
        have hnext₂ : s₂.next = Function.update s.next b (some e.eNext) := by
          rw [hs₂, next_modify, heb, hnext₁]
          rfl
        have hlinks₂ : s₂.links = s₁.links := links_modify_of fun _ => rfl
        have hino₂ : s₂.ino = s₁.ino := ino_modify_of fun _ => rfl
        have htree₂ : SameTree s₁ s₂ := sameTree_modify fun _ => ⟨rfl, rfl, rfl, rfl⟩
        refine ends_ok ⟨a, rest, _, hinos, h.unhash hi hinos hl hq rfl ?_ ?_ ?_
          (hlinks₂.trans hlinks₁) (hino₂.trans hino₁) rfl rfl rfl, htree₁.trans htree₂,
          hlinks₂.trans hlinks₁, hino₂.trans hino₁, rfl, rfl⟩
        · intro j _
          rw [if_neg hne]
          change s.entry.getD j none = _
          split
          · next hji => rw [hji]
          · rfl
        · intro c hc
          rw [hnext₂, Function.update_of_ne]
          rintro rfl
          exact hc hlast
        · intro c hc
          rw [hnext₂, Option.some.inj (hc.symm.trans hlast), Function.update_self]

/-- Other links of the inode numbers, with the same first entries. -/
theorem Inodes.relink (h : Inodes s live hash inos free removed) {inos' : ℕ → List ℕ}
    (hnext : s'.next = s.next) (hentry : s'.entry = s.entry) (hmax : s'.maxino = s.maxino)
    (hfree : s'.freelist = s.freelist) (hremove : s'.removelist = s.removelist)
    (hhead : ∀ k, (inos' k).head? = (inos k).head?)
    (hlinked : ∀ k, Linked s'.links (inos' k).head? (inos' k))
    (hino : ∀ k, ∀ a ∈ inos' k, live a ∧ s'.ino a = some k ∧ wino ≤ k ∧ k < s.maxino)
    (hremoved : ∀ a ∈ removed, s'.ino a = s.ino a) : Inodes s' live hash inos' free removed where
  pos := hentry ▸ h.pos
  chain := by
    rw [hentry, hnext]
    exact h.chain
  linked := hlinked
  freed := by
    rw [hnext, hfree]
    exact h.freed
  retired := by
    rw [hnext, hremove]
    exact h.retired
  mem_hash := by
    rw [hentry]
    intro i hi a ha
    obtain ⟨k, hk, hfirst⟩ := h.mem_hash i hi a ha
    exact ⟨k, hk, (hhead k).trans hfirst⟩
  head_hash := by
    rw [hentry]
    exact fun k a hfirst => h.head_hash k a ((hhead k).symm.trans hfirst)
  ino := by
    rw [hmax]
    exact hino
  removed a ha := ⟨(h.removed a ha).1, (hremoved a ha).trans (h.removed a ha).2⟩
  live_iff := by
    intro b
    rw [has_congr (·.eNext) hnext]
    exact h.live_iff b

/-- Entries with the inode number zero are on no list. -/
theorem Inodes.not_mem_of_zero (h : Inodes s live hash inos free removed) {a : ℕ}
    (ha : s.ino a = some 0) (k : ℕ) : a ∉ inos k := by
  intro hmem
  obtain ⟨-, hk, hpos, -⟩ := h.ino k a hmem
  obtain rfl := Option.some.inj (ha.symm.trans hk)
  rw [wino] at hpos
  omega

/-- The links of an inode number with a new entry: it is the first one, or the second one. -/
def entered (np inum : ℕ) (link : Bool) (l : List ℕ) : List ℕ :=
  if link then l.take 1 ++ np :: l.drop 1 else if inum = 0 then l else np :: l

/-- An entry that gets an inode number is found on the list that it joins. -/
theorem Found.join (hfound : Found s live inos)
    (hino : s'.ino = Function.update s.ino np (some inum)) {l : List ℕ} (hnp : np ∈ l)
    (hsub : ∀ a ∈ inos inum, a ∈ l) :
    Found s' live (Function.update inos inum l) := by
  intro a ha k hk hzero
  rw [hino] at hk
  by_cases hanp : a = np
  · rw [hanp, Function.update_self] at hk
    rwa [hanp, ← Option.some.inj hk, Function.update_self]
  · rw [Function.update_of_ne hanp] at hk
    have hmem := hfound a ha k hk hzero
    by_cases hkinum : k = inum
    · rw [hkinum] at hmem ⊢
      rw [Function.update_self]
      exact hsub a hmem
    · rwa [Function.update_of_ne hkinum]

/-- An entry becomes the second link of an inode number. -/
theorem Inodes.link (h : Inodes s live hash inos free removed) (hlive : live np)
    (hino : s.ino np = some 0) (hremoved : np ∉ removed) {rest : List ℕ}
    (hinos : inos inum = ep :: rest) {q : Option ℕ} (hq : s.links ep = some q)
    (hnext' : s'.next = s.next) (hentry' : s'.entry = s.entry) (hmax' : s'.maxino = s.maxino)
    (hfree' : s'.freelist = s.freelist) (hremove' : s'.removelist = s.removelist)
    (hlinks' : s'.links = Function.update (Function.update s.links np (some q)) ep (some (some np)))
    (hino' : s'.ino = Function.update s.ino np (some inum)) :
    Inodes s' live hash (Function.update inos inum (ep :: np :: rest)) free removed := by
  have hout := h.not_mem_of_zero hino
  have hep : ep ∈ inos inum := hinos ▸ List.mem_cons_self
  have hne : np ≠ ep := fun heq => hout inum (heq ▸ hep)
  have hnprest : np ∉ rest := fun hmem => hout inum (hinos ▸ List.mem_cons_of_mem _ hmem)
  have hold := h.linked inum
  rw [hinos] at hold
  have hnodup := List.nodup_cons.mp hold.nodup
  obtain ⟨-, q', hq', hrest⟩ := hold
  obtain rfl : q = q' := Option.some.inj (hq.symm.trans hq')
  refine h.relink hnext' hentry' hmax' hfree' hremove' ?_ ?_ ?_ ?_
  · intro k
    by_cases hk : k = inum
    · rw [hk, Function.update_self, hinos]
      rfl
    · rw [Function.update_of_ne hk]
  · intro k
    rw [hlinks']
    by_cases hk : k = inum
    · rw [hk, Function.update_self]
      refine ⟨rfl, some np, Function.update_self _ _ _, rfl, q, ?_, ?_⟩
      · rw [Function.update_of_ne hne, Function.update_self]
      · exact (hrest.update hnprest _).update hnodup.1 _
    · rw [Function.update_of_ne hk]
      refine ((h.linked k).update (hout k) _).update (fun hmem => hk ?_) _
      exact h.ino_unique hmem hep
  · intro k a ha
    rw [hino']
    by_cases hk : k = inum
    · rw [hk, Function.update_self] at ha
      rw [hk]
      by_cases hanp : a = np
      · rw [hanp, Function.update_self]
        exact ⟨hlive, rfl, (h.ino inum ep hep).2.2⟩
      · rw [Function.update_of_ne hanp]
        refine h.ino inum a ?_
        rw [hinos]
        simpa [hanp] using ha
    · rw [Function.update_of_ne hk] at ha
      rw [Function.update_of_ne fun heq : a = np => hout k (heq ▸ ha)]
      exact h.ino k a ha
  · intro a ha
    rw [hino', Function.update_of_ne fun heq : a = np => hremoved (heq ▸ ha)]

/-- The inode number of a new entry. -/
theorem Inodes.enterIno (h : Inodes s live hash inos free removed) (hfound : Found s live inos)
    (hfits : Fits fuel s) (hlive : live np) (hino : s.ino np = some 0)
    (hlinks : s.links np = some none) (hremoved : np ∉ removed) (inum : ℕ) (link : Bool) :
    Ends (fun s' => ∃ hash' inos', Inodes s' live hash' inos' free removed ∧ Found s' live inos' ∧
        (∀ k a, (inos k).head? = some a → (inos' k).head? = some a) ∧ SameTree s s' ∧
        inos' = Function.update inos inum (entered np inum link (inos inum)) ∧
        (if link then inos inum ≠ [] else inum ≠ 0 → inos inum = []))
      (enterIno fuel np inum link s) := by
  have hout := h.not_mem_of_zero hino
  obtain ⟨en, hen⟩ := ((h.live_iff np).mp hlive).1.exists_mem
  rw [Symtab.enterIno, h.lookupino_eq hfits]
  split
  case isTrue hlink =>
    cases hhead : (inos inum).head? with
    | none => exact ends_panic _
    | some ep =>
      obtain ⟨rest, hinos⟩ := List.head?_eq_some_iff.mp hhead
      have hep : ep ∈ inos inum := List.mem_of_head? hhead
      obtain ⟨e, he⟩ := ((h.live_iff ep).mp (h.ino inum ep hep).1).1.exists_mem
      have hne : np ≠ ep := fun heq => hout inum (heq ▸ hep)
      simp only [ofOption, cell_eq he, bind, Except.bind, pure, Except.pure]
      set s₁ : Store := s.modify np fun n => { n with eIno := inum, eLinks := e.eLinks } with hs₁
      set s₂ : Store := s₁.modify ep fun e => { e with eLinks := some np } with hs₂
      have hmem₁ : s₁.mem ep = some e := by
        rw [hs₁, mem_modify, Function.update_of_ne hne.symm, he]
      have hlinks₂ : s₂.links = Function.update (Function.update s.links np (some e.eLinks)) ep
          (some (some np)) := by
        rw [hs₂, links_modify, hmem₁, hs₁, links_modify, hen]
        rfl
      have hino₂ : s₂.ino = Function.update s.ino np (some inum) := by
        rw [hs₂, ino_modify_of (by exact fun _ => rfl), hs₁, ino_modify, hen]
        rfl
      have hnext₂ : s₂.next = s.next :=
        (next_modify_of (by exact fun _ => rfl)).trans (next_modify_of (by exact fun _ => rfl))
      have htree : SameTree s s₂ := (sameTree_modify (by exact fun _ => ⟨rfl, rfl, rfl, rfl⟩)).trans
        (sameTree_modify (by exact fun _ => ⟨rfl, rfl, rfl, rfl⟩))
      have hq : s.links ep = some e.eLinks := by rw [Table.links, he]; rfl
      refine ends_ok ⟨hash, Function.update inos inum (ep :: np :: rest),
        h.link hlive hino hremoved hinos hq hnext₂ rfl rfl rfl rfl hlinks₂ hino₂,
        hfound.join hino₂ (List.mem_cons_of_mem _ List.mem_cons_self) ?_, ?_, htree, ?_, ?_⟩
      · intro a ha
        rw [hinos] at ha
        rcases List.mem_cons.mp ha with rfl | ha
        · exact List.mem_cons_self
        · exact List.mem_cons_of_mem _ (List.mem_cons_of_mem _ ha)
      · intro k a hfirst
        by_cases hk : k = inum
        · rw [hk, hhead] at hfirst
          rw [hk, Function.update_self, ← hfirst]
          rfl
        · rwa [Function.update_of_ne hk]
      · rw [entered, if_pos hlink, hinos]
        rfl
      · rw [hinos]
        exact List.cons_ne_nil _ _
  case isFalse hlink =>
    split
    case isTrue hzero =>
      refine ends_ok ⟨hash, inos, h, hfound, fun _ _ hfirst => hfirst, .refl s, ?_, absurd hzero⟩
      rw [entered, if_neg hlink, if_pos hzero, Function.update_eq_self]
    case isFalse hzero =>
      cases hhead : (inos inum).head? with
      | some ep => exact ends_panic _
      | none =>
        have hnil : inos inum = [] := List.head?_eq_none_iff.mp hhead
        have hsingle : Linked s.links (some np) [np] := ⟨rfl, none, hlinks, rfl⟩
        refine (h.addino hlive hout hremoved hnil hsingle
          fun a ha => absurd ha List.not_mem_nil).mono ?_
        rintro s' ⟨hinodes, htree, -, hino', -⟩
        refine ⟨_, _, hinodes, hfound.join hino' List.mem_cons_self fun a ha => ?_,
          fun k a hfirst => ?_, htree, ?_, fun _ => hnil⟩
        · rw [hnil] at ha
          cases ha
        · rw [Function.update_of_ne]
          · exact hfirst
          · rintro rfl
            rw [hhead] at hfirst
            cases hfirst
        · rw [entered, if_neg hlink, if_neg hzero, hnil]

/-- Only the list of its inode number has an entry. -/
theorem Inodes.erase_eq (h : Inodes s live hash inos free removed) {l : List ℕ}
    (hmem : ep ∈ inos inum) (hl : (inos inum).erase ep = l) :
    (fun k => (inos k).erase ep) = Function.update inos inum l := by
  funext k
  by_cases hk : k = inum
  · rw [hk, Function.update_self, hl]
  · rw [Function.update_of_ne hk, List.erase_of_not_mem fun hmem' => hk (h.ino_unique hmem' hmem)]

/-- The other entries are found as before. -/
theorem Found.erase (h : Found s live inos) (hino : ∀ a ≠ ep, s'.ino a = s.ino a) :
    Found s' (fun a => live a ∧ a ≠ ep) fun k => (inos k).erase ep := by
  rintro a ⟨ha, hne⟩ k hk hzero
  rw [hino a hne] at hk
  exact (List.mem_erase_of_ne hne).mpr (h a ha k hk hzero)

theorem head?_erase {l : List ℕ} {a : ℕ} (hne : a ≠ ep) (h : l.head? = some a) :
    (l.erase ep).head? = some a := by
  obtain ⟨rest, rfl⟩ := List.head?_eq_some_iff.mp h
  rw [List.erase_cons_tail (by simpa using hne)]
  rfl

/-- The link before an entry skips it. -/
theorem Inodes.skip (h : Inodes s live hash inos free removed) {b : ℕ} {l₁ l₂ : List ℕ}
    (hinos : inos inum = l₁ ++ b :: ep :: l₂) {q : Option ℕ} (hq : s.links ep = some q)
    (hs' : s' = s.modify b fun p => { p with eLinks := q }) :
    Inodes s' live hash (fun k => (inos k).erase ep) free removed ∧
      s'.links ep = s.links ep := by
  have hb : b ∈ inos inum := by
    rw [hinos]
    exact List.mem_append_right _ List.mem_cons_self
  have hep : ep ∈ inos inum := by
    rw [hinos]
    exact List.mem_append_right _ (List.mem_cons_of_mem _ List.mem_cons_self)
  have hsplit : inos inum = (l₁ ++ [b]) ++ ep :: l₂ := by
    rw [hinos, List.append_assoc, List.singleton_append]
  have hlist := h.linked inum
  have hnot : ep ∉ l₁ ++ [b] := by
    have hnodup := hlist.nodup
    rw [hsplit, List.nodup_append] at hnodup
    exact fun hmem => hnodup.2.2 ep hmem ep List.mem_cons_self rfl
  have hepb : ep ≠ b := fun heq => hnot (heq ▸ List.mem_append_right _ List.mem_cons_self)
  have herase : (inos inum).erase ep = l₁ ++ b :: l₂ := by
    rw [hsplit, List.erase_append_right _ hnot, List.erase_cons_head, List.append_assoc,
      List.singleton_append]
  rw [h.erase_eq hep herase]
  obtain ⟨eb, heb⟩ := ((h.live_iff b).mp (h.ino _ b hb).1).1.exists_mem
  have hlinks' : s'.links = Function.update s.links b (some q) := by
    rw [hs', links_modify, heb]
    rfl
  have hino' : s'.ino = s.ino := by
    rw [hs']
    exact ino_modify_of fun _ => rfl
  have hnext' : s'.next = s.next := by
    rw [hs']
    exact next_modify_of fun _ => rfl
  have hhead : (l₁ ++ b :: l₂).head? = (inos inum).head? := by
    rw [hinos]
    cases l₁ with
    | nil => rfl
    | cons c l₁ => rfl
  have hlinked : Linked s'.links (inos inum).head? (l₁ ++ b :: l₂) := by
    rw [hsplit] at hlist
    have hunlink : Linked s'.links (if l₁ ++ [b] = [] then q else (l₁ ++ [b] ++ ep :: l₂).head?)
        ((l₁ ++ [b]) ++ l₂) := hlist.unlink hq (fun c _ hc => ?_) fun c hc => ?_
    · rwa [if_neg (by simp), ← hsplit, List.append_assoc, List.singleton_append] at hunlink
    · rw [hlinks', Function.update_of_ne]
      rintro rfl
      exact hc (by simp)
    · rw [List.getLast?_append, List.getLast?_singleton, Option.some_or] at hc
      rw [hlinks', Option.some.inj hc, Function.update_self]
  refine ⟨h.relink hnext' (hs' ▸ rfl) (hs' ▸ rfl) (hs' ▸ rfl) (hs' ▸ rfl) ?_ ?_ ?_
    fun c _ => by rw [hino'], by rw [hlinks', Function.update_of_ne hepb]⟩
  · intro k
    by_cases hk : k = inum
    · rw [hk, Function.update_self, hhead]
    · rw [Function.update_of_ne hk]
  · intro k
    by_cases hk : k = inum
    · rw [hk, Function.update_self, hhead]
      exact hlinked
    · rw [Function.update_of_ne hk, hlinks']
      exact (h.linked k).update (fun hbk => hk (h.ino_unique hbk hb)) _
  · intro k c hc
    rw [hino']
    by_cases hk : k = inum
    · rw [hk, Function.update_self, ← herase] at hc
      exact hk ▸ h.ino _ c (List.mem_of_mem_erase hc)
    · rw [Function.update_of_ne hk] at hc
      exact h.ino k c hc

/-- The next link takes the place of the first one. -/
theorem Inodes.promote {s₁ : Store} {hash₁ : ℕ → List ℕ} {link : ℕ} {rest : List ℕ}
    (h : Inodes s live hash inos free removed) (hinos : inos inum = ep :: link :: rest)
    (h₁ : Inodes s₁ live hash₁ (Function.update inos inum []) free removed)
    (hlinks₁ : s₁.links = s.links) (hino₁ : ∀ a ≠ ep, s₁.ino a = s.ino a) :
    Ends (fun s₂ => ∃ hash₂, Inodes s₂ live hash₂ (Function.update inos inum (link :: rest)) free
        removed ∧ (∀ a ≠ ep, s₂.ino a = s.ino a) ∧ s₂.links = s.links ∧ SameTree s₁ s₂)
      (Symtab.addino inum link s₁) := by
  have hlist := h.linked inum
  rw [hinos, List.head?_cons] at hlist
  have hnodup := List.nodup_cons.mp hlist.nodup
  obtain ⟨-, -, -, -, q, hq, hrest⟩ := hlist
  have hmem : ∀ a ∈ link :: rest, a ∈ inos inum :=
    fun a ha => hinos ▸ List.mem_cons_of_mem _ ha
  have hkeep : ∀ a ∈ link :: rest, live a ∧ s₁.ino a = some inum := by
    intro a ha
    rw [hino₁ a fun heq => hnodup.1 (heq ▸ ha)]
    exact ⟨(h.ino inum a (hmem a ha)).1, (h.ino inum a (hmem a ha)).2.1⟩
  obtain ⟨hlive, hino, hpos, -⟩ := h.ino inum link (hmem link List.mem_cons_self)
  refine (h₁.addino hlive (fun k hk => ?_) (fun hremoved => ?_) (Function.update_self _ _ _)
    ⟨rfl, q, hlinks₁ ▸ hq, hlinks₁ ▸ hrest⟩
    fun a ha => hkeep a (List.mem_cons_of_mem _ ha)).mono ?_
  · by_cases hkinum : k = inum
    · rw [hkinum, Function.update_self] at hk
      cases hk
    · rw [Function.update_of_ne hkinum] at hk
      exact hkinum (h.ino_unique hk (hmem link List.mem_cons_self))
  · have hzero := Option.some.inj (hino.symm.trans (h.removed link hremoved).2)
    rw [wino] at hpos
    omega
  · rintro s₂ ⟨h₂, htree₂, hlinks₂, hino₂, -, -⟩
    rw [Function.update_idem] at h₂
    refine ⟨_, h₂, fun a ha => ?_, hlinks₂.trans hlinks₁, htree₂⟩
    rw [hino₂]
    by_cases halink : a = link
    · rw [halink, Function.update_self, hino]
    · rw [Function.update_of_ne halink, hino₁ a ha]

/-- The inode number of an entry that goes: it is on no list of inode numbers any more. -/
theorem Inodes.leaveIno (h : Inodes s live hash inos free removed) (hfound : Found s live inos)
    (hfits : Fits fuel s) (hlive : live ep) {e : Entry} (he : s.mem ep = some e) :
    Ends (fun s' => ∃ hash', Inodes s' live hash' (fun k => (inos k).erase ep) free removed ∧
        (∀ a ≠ ep, s'.ino a = s.ino a) ∧ s'.links ep = s.links ep ∧ SameTree s s')
      (leaveIno fuel ep e s) := by
  have hino : s.ino ep = some e.eIno := by rw [Store.ino, he]; rfl
  have hlinks : s.links ep = some e.eLinks := by rw [Table.links, he]; rfl
  rw [Symtab.leaveIno]
  split
  case isTrue hzero =>
    have herase : (fun k => (inos k).erase ep) = inos :=
      funext fun k => List.erase_of_not_mem (h.not_mem_of_zero (hzero ▸ hino) k)
    rw [herase]
    exact ends_ok ⟨hash, h, fun _ _ => rfl, rfl, .refl s⟩
  case isFalse hzero =>
    have hmem := hfound ep hlive _ hino hzero
    rw [h.lookupino_eq hfits]
    cases hhead : (inos e.eIno).head? with
    | none => exact ends_panic _
    | some np =>
      obtain ⟨rest, hinos⟩ := List.head?_eq_some_iff.mp hhead
      have hlist := h.linked e.eIno
      rw [hinos, List.head?_cons] at hlist
      simp only [ofOption, bind, Except.bind]
      split
      case isTrue heq =>
        -- the next link takes the place of the entry
        obtain rfl := heq
        rw [h.erase_eq hmem (l := rest) (by rw [hinos, List.erase_cons_head])]
        refine (h.deleteino hfits e.eIno).bind ?_
        rintro s₁ ⟨a, rest', hash₁, hinos', h₁, htree₁, hlinks₁, hino₁, -, -⟩
        obtain ⟨rfl, rfl⟩ := List.cons.inj (hinos.symm.trans hinos')
        have hkeep₁ : ∀ b ≠ np, s₁.ino b = s.ino b := fun b hb => by
          rw [hino₁, Function.update_of_ne hb]
        obtain ⟨-, q, hq, hrest⟩ := hlist
        obtain rfl : e.eLinks = q := Option.some.inj (hlinks.symm.trans hq)
        cases rest with
        | nil =>
          rw [linked_nil.mp hrest]
          exact ends_ok ⟨_, h₁, hkeep₁, by rw [hlinks₁], htree₁⟩
        | cons link rest =>
          rw [hrest.1]
          refine (h.promote hinos h₁ hlinks₁ hkeep₁).mono ?_
          rintro s₂ ⟨hash₂, h₂, hkeep₂, hlinks₂, htree₂⟩
          exact ⟨hash₂, h₂, hkeep₂, congrFun hlinks₂ np, htree₁.trans htree₂⟩
      case isFalse hne =>
        -- the link before the entry skips it
        have hbefore := hlist.find_before (a := ep) fun heq => hne (Option.some.inj heq)
        rcases hbefore with ⟨hnot, -⟩ | ⟨l₁, b, l₂, hl, hfind⟩
        · exact absurd (hinos ▸ hmem) hnot
        · rw [hlist.chainFind_eq _ (hfits.links hlist), hfind]
          obtain ⟨hskip, hkeep⟩ := h.skip (hinos.trans hl) hlinks rfl
          exact ends_ok ⟨hash, hskip, fun c _ => congrFun (ino_modify_of (by exact fun _ => rfl)) c,
            hkeep, sameTree_modify fun _ => ⟨rfl, rfl, rfl, rfl⟩⟩

/-- Changes to the two lists beside the table. -/
theorem Inodes.renext (h : Inodes s live hash inos free removed) {live' : ℕ → Prop}
    {free' removed' : List ℕ} (hlinks : s'.links = s.links) (hino : s'.ino = s.ino)
    (hentry : s'.entry = s.entry) (hmax : s'.maxino = s.maxino)
    (hhash : ∀ i < s.entry.length, ∀ a ∈ hash i, s'.next a = s.next a)
    (hfreed : Linked s'.next s'.freelist free') (hretired : Linked s'.next s'.removelist removed')
    (hremoved : ∀ a ∈ removed', live' a ∧ s.ino a = some 0)
    (hlive : ∀ k, ∀ a ∈ inos k, live' a) (hiff : ∀ a, live' a ↔ s.Has a ∧ a ∉ free') :
    Inodes s' live' hash inos free' removed' where
  pos := hentry ▸ h.pos
  chain := by
    rw [hentry]
    exact fun i hi => (h.chain i hi).congr (hhash i hi)
  linked := by
    rw [hlinks]
    exact h.linked
  freed := hfreed
  retired := hretired
  mem_hash := by
    rw [hentry]
    exact h.mem_hash
  head_hash := by
    rw [hentry]
    exact h.head_hash
  ino := by
    rw [hino, hmax]
    exact fun k a ha => ⟨hlive k a ha, (h.ino k a ha).2⟩
  removed := by
    rw [hino]
    exact hremoved
  live_iff := by
    intro a
    rw [has_congr (·.eLinks) hlinks]
    exact hiff a

/-- An entry that is on no list goes to the free list. -/
theorem Inodes.release (h : Inodes s live hash inos free removed) (hlive : live ep)
    (hout : ∀ k, ep ∉ inos k) (hremoved : ep ∉ removed) {p : Option ℕ} (hp : s.freelist = p) :
    Inodes { s.modify ep (fun e => { e with eNext := p }) with freelist := some ep }
      (fun a => live a ∧ a ≠ ep) hash inos (ep :: free) removed := by
  obtain ⟨hhas, hfree⟩ := (h.live_iff ep).mp hlive
  obtain ⟨e, he⟩ := hhas.exists_mem
  have hnext : (s.modify ep fun e => { e with eNext := p }).next =
      Function.update s.next ep (some p) := by
    rw [next_modify, he]
    rfl
  refine h.renext (links_modify_of fun _ => rfl) (ino_modify_of fun _ => rfl) rfl rfl ?_ ?_ ?_ ?_ ?_
    ?_
  · intro i hi a ha
    refine (congrFun hnext a).trans (Function.update_of_ne ?_ _ _)
    rintro rfl
    obtain ⟨-, k, hk⟩ := h.head_live hi ha
    exact hout k hk
  · refine ⟨rfl, p, (congrFun hnext ep).trans (Function.update_self _ _ _), ?_⟩
    change Linked (s.modify ep fun e => { e with eNext := p }).next p free
    rw [hnext, ← hp]
    exact h.freed.update hfree _
  · change Linked (s.modify ep fun e => { e with eNext := p }).next s.removelist removed
    rw [hnext]
    exact h.retired.update hremoved _
  · exact fun a ha => ⟨⟨(h.removed a ha).1, fun heq => hremoved (heq ▸ ha)⟩, (h.removed a ha).2⟩
  · exact fun k a ha => ⟨(h.ino k a ha).1, fun heq => hout k (heq ▸ ha)⟩
  · intro a
    rw [h.live_iff a, List.mem_cons]
    tauto

/-- An entry without inode number goes to `removelist`. -/
theorem Inodes.push (h : Inodes s live hash inos free removed) (hlive : live ep)
    (hino : s.ino ep = some 0) (hremoved : ep ∉ removed) {p : Option ℕ} (hp : s.removelist = p) :
    Inodes { s.modify ep (fun e => { e with eNext := p }) with removelist := some ep }
      live hash inos free (ep :: removed) := by
  obtain ⟨hhas, hfree⟩ := (h.live_iff ep).mp hlive
  obtain ⟨e, he⟩ := hhas.exists_mem
  have hnext : (s.modify ep fun e => { e with eNext := p }).next =
      Function.update s.next ep (some p) := by
    rw [next_modify, he]
    rfl
  refine h.renext (links_modify_of fun _ => rfl) (ino_modify_of fun _ => rfl) rfl rfl ?_ ?_ ?_ ?_
    (fun k a ha => (h.ino k a ha).1) h.live_iff
  · intro i hi a ha
    refine (congrFun hnext a).trans (Function.update_of_ne ?_ _ _)
    rintro rfl
    obtain ⟨-, k, hk⟩ := h.head_live hi ha
    exact h.not_mem_of_zero hino k hk
  · change Linked (s.modify ep fun e => { e with eNext := p }).next s.freelist free
    rw [hnext]
    exact h.freed.update hfree _
  · refine ⟨rfl, p, (congrFun hnext ep).trans (Function.update_self _ _ _), ?_⟩
    change Linked (s.modify ep fun e => { e with eNext := p }).next p removed
    rw [hnext, ← hp]
    exact h.retired.update hremoved _
  · intro a ha
    rcases List.mem_cons.mp ha with rfl | ha
    · exact ⟨hlive, hino⟩
    · exact h.removed a ha

/-- `*prev = ep->e_next` on `removelist`. -/
theorem Inodes.pull {l₁ l₂ : List ℕ} {q : Option ℕ}
    (h : Inodes s live hash inos free (l₁ ++ ep :: l₂)) (hq : s.next ep = some q) :
    Inodes (writePrev l₁.getLast? q s) live hash inos free (l₁ ++ l₂) := by
  have hremoved : ∀ a ∈ l₁ ++ l₂, live a ∧ s.ino a = some 0 := by
    intro a ha
    refine h.removed a ?_
    rw [List.mem_append] at ha
    rw [List.mem_append, List.mem_cons]
    tauto
  cases hlast : l₁.getLast? with
  | none =>
    obtain rfl : l₁ = [] := List.getLast?_eq_none_iff.mp hlast
    obtain ⟨hhead, q', hq', hrest⟩ := h.retired
    obtain rfl : q' = q := Option.some.inj (hq'.symm.trans hq)
    exact h.renext rfl rfl rfl rfl (fun _ _ _ _ => rfl) h.freed hrest hremoved
      (fun k a ha => (h.ino k a ha).1) h.live_iff
  | some b =>
    have hb : b ∈ l₁ := List.mem_of_getLast? hlast
    have hbr := h.removed b (List.mem_append_left _ hb)
    obtain ⟨hhas, hfree⟩ := (h.live_iff b).mp hbr.1
    obtain ⟨e, he⟩ := hhas.exists_mem
    have hnext : (s.modify b fun p => { p with eNext := q }).next =
        Function.update s.next b (some q) := by
      rw [next_modify, he]
      rfl
    refine h.renext (links_modify_of fun _ => rfl) (ino_modify_of fun _ => rfl) rfl rfl ?_ ?_ ?_
      hremoved (fun k a ha => (h.ino k a ha).1) h.live_iff
    · intro i hi a ha
      refine (congrFun hnext a).trans (Function.update_of_ne ?_ _ _)
      rintro rfl
      obtain ⟨-, k, hk⟩ := h.head_live hi ha
      exact h.not_mem_of_zero hbr.2 k hk
    · change Linked (s.modify b fun p => { p with eNext := q }).next s.freelist free
      rw [hnext]
      exact h.freed.update hfree _
    · change Linked (s.modify b fun p => { p with eNext := q }).next s.removelist (l₁ ++ l₂)
      have hunlink : Linked (s.modify b fun p => { p with eNext := q }).next
          (if l₁ = [] then q else s.removelist) (l₁ ++ l₂) := by
        refine h.retired.unlink hq (fun c _ hc => ?_) fun c hc => ?_
        · rw [hnext, Function.update_of_ne]
          rintro rfl
          exact hc hlast
        · rw [hnext, Option.some.inj (hc.symm.trans hlast), Function.update_self]
      rwa [if_neg] at hunlink
      rintro rfl
      cases hlast

/-- An entry that was on no list but the free list. -/
theorem Inodes.allocated (h : Inodes s live hash inos free removed) {free' : List ℕ} {e : Entry}
    (hnp : ¬ live np) (hmem : s'.mem = Function.update s.mem np (some e))
    (hentry : s'.entry = s.entry) (hmax : s'.maxino = s.maxino)
    (hremove : s'.removelist = s.removelist) (hfreed : Linked s.next s'.freelist free')
    (hnot : np ∉ free') (hfree : ∀ a ≠ np, a ∈ free' ↔ a ∈ free) :
    Inodes s' (fun a => live a ∨ a = np) hash inos free' removed := by
  have hnext : s'.next = Function.update s.next np (some e.eNext) := member_update hmem (·.eNext)
  have hlinks : s'.links = Function.update s.links np (some e.eLinks) :=
    member_update hmem (·.eLinks)
  have hino : s'.ino = Function.update s.ino np (some e.eIno) := member_update hmem (·.eIno)
  have hinos : ∀ k, np ∉ inos k := fun k hk => hnp (h.ino k np hk).1
  have hremoved : np ∉ removed := fun hmem => hnp (h.removed np hmem).1
  constructor
  case pos => exact hentry ▸ h.pos
  case chain =>
    rw [hentry, hnext]
    exact fun i hi => (h.chain i hi).update (fun hmem => hnp (h.head_live hi hmem).1) _
  case linked =>
    rw [hlinks]
    exact fun k => (h.linked k).update (hinos k) _
  case freed =>
    rw [hnext]
    exact hfreed.update hnot _
  case retired =>
    rw [hnext, hremove]
    exact h.retired.update hremoved _
  case mem_hash =>
    rw [hentry]
    exact h.mem_hash
  case head_hash =>
    rw [hentry]
    exact h.head_hash
  case ino =>
    intro k a ha
    rw [hino, Function.update_of_ne (ne_of_mem_of_not_mem ha (hinos k)), hmax]
    exact ⟨.inl (h.ino k a ha).1, (h.ino k a ha).2⟩
  case removed =>
    intro a ha
    rw [hino, Function.update_of_ne (ne_of_mem_of_not_mem ha hremoved)]
    exact ⟨.inl (h.removed a ha).1, (h.removed a ha).2⟩
  case live_iff =>
    intro a
    rw [Store.Has, hmem]
    by_cases ha : a = np
    · subst ha
      rw [Function.update_self]
      exact ⟨fun _ => ⟨rfl, hnot⟩, fun _ => .inr rfl⟩
    · rw [Function.update_of_ne ha, hfree a ha, or_iff_left ha]
      exact h.live_iff a

theorem Inodes.alloc (h : Inodes s live hash inos free removed) (size : ℕ) (node : Bool) {new : ℕ}
    (hnew : s.freelist = none → ¬ s.Has new) :
    Ends (fun p => ¬ live p.1 ∧ p.2.mem = Function.update s.mem p.1 (some (Store.blank size node)) ∧
        p.2.maxino = s.maxino ∧
        ∃ free', Inodes p.2 (fun a => live a ∨ a = p.1) hash inos free' removed)
      (s.alloc size node new) := by
  rw [Store.alloc]
  have hfreed := h.freed
  cases hlist : s.freelist with
  | some np =>
    rw [hlist] at hfreed
    cases free with
    | nil => cases hfreed
    | cons np' free' =>
      have hnodup := List.nodup_cons.mp hfreed.nodup
      obtain ⟨heq, q, hq, htail⟩ := hfreed
      obtain rfl : np = np' := Option.some.inj heq
      obtain ⟨e, he⟩ := (has_of_next hq).exists_mem
      have hnext : e.eNext = q := by
        rw [Table.next, he] at hq
        exact Option.some.inj hq
      have hnp : ¬ live np := fun hlive => ((h.live_iff np).mp hlive).2 List.mem_cons_self
      dsimp only
      rw [cell_eq he]
      refine ends_ok ⟨hnp, rfl, rfl, free', h.allocated hnp rfl rfl rfl rfl (hnext ▸ htail) hnodup.1
        fun a ha => ?_⟩
      rw [List.mem_cons, or_iff_right ha]
  | none =>
    rw [hlist] at hfreed
    obtain rfl : free = [] := by
      cases free with
      | nil => rfl
      | cons a free => cases hfreed.1
    have hnp : ¬ live new := fun hlive => hnew hlist ((h.live_iff new).mp hlive).1
    exact ends_ok ⟨hnp, rfl, rfl, [], h.allocated hnp rfl rfl rfl rfl rfl List.not_mem_nil
      fun _ _ => Iff.rfl⟩

end Inodes

end Symtab

end DumpRestore
