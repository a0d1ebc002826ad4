import DumpRestore.Restore.Incremental
import DumpRestore.Restore.SymtabRuns

/-!
# The symbol table in an incremental restore

The callers of the operations of the symbol table see to what `Op.Allowed` asks for: a directory is
the only entry of its inode, and the entries on `removelist` are directories (`Sound`). Each pass of
an incremental restore keeps this, with one exception: the second loop of `findunreflinks` puts a
directory on `removelist` that is still on a hash chain.
-/

namespace DumpRestore

namespace Symtab

/-! ## Directories -/

/-- What the passes rely on beside the lists. -/
structure Sound (size root n : ℕ) (s : Store) (w : Lists) : Prop extends
    Whole size root n s w where
  alone : ∀ k, ∀ a ∈ w.inos k, s.isDir a = some true → w.inos k = [a]
  removed_dir : ∀ a ∈ w.removed, s.isDir a = some true

section Sound

variable {size root fuel n ep np : ℕ} {compare : Bool} {s s' : Store} {w w' : Lists}

theorem Sound.mono {m : ℕ} (h : Sound size root n s w) (hle : n ≤ m) : Sound size root m s w :=
  ⟨h.toWhole.mono hle, h.alone, h.removed_dir⟩

theorem Sound.added (h : Sound size root n s w) {inum : ℕ} {node link : Bool}
    (h' : Whole size root (n + 1) s' w') (hadd : Added s s' w w' np inum node link)
    (hlink : link = true → node = false ∧ ∀ a ∈ w.inos inum, s.isDir a ≠ some true) :
    Sound size root (n + 1) s' w' := by
  have hout : ∀ k, np ∉ w.inos k := fun k hk => hadd.fresh (h.inodes.ino k np hk).1
  have hdir : ∀ a ≠ np, s'.isDir a = s.isDir a := fun a ha => by
    rw [hadd.isDir, Function.update_of_ne ha]
  refine ⟨h', fun k a ha had => ?_, fun a ha => ?_⟩
  · rw [hadd.inos] at ha ⊢
    by_cases hk : k = inum
    · subst hk
      rw [Function.update_self] at ha ⊢
      have hbefore := hadd.before
      cases link with
      | true =>
        -- the links of an inode are leaves
        obtain ⟨rfl, hleaf⟩ := hlink rfl
        rw [entered, if_pos rfl] at ha
        rcases List.mem_append.mp ha with ha | ha
        · have hmem := List.mem_of_mem_take ha
          rw [hdir a fun heq => hout k (heq ▸ hmem)] at had
          exact absurd had (hleaf a hmem)
        · rcases List.mem_cons.mp ha with rfl | ha
          · rw [hadd.isDir, Function.update_self] at had
            cases had
          · have hmem := List.mem_of_mem_drop ha
            rw [hdir a fun heq => hout k (heq ▸ hmem)] at had
            exact absurd had (hleaf a hmem)
      | false =>
        rw [entered, if_neg Bool.false_ne_true] at ha ⊢
        rw [if_neg Bool.false_ne_true] at hbefore
        split at ha
        case isTrue hzero =>
          rw [if_pos hzero]
          rw [hdir a fun heq => hout k (heq ▸ ha)] at had
          exact h.alone k a ha had
        case isFalse hzero =>
          rw [if_neg hzero]
          rw [hbefore hzero] at ha ⊢
          rw [List.mem_singleton.mp ha]
    · rw [Function.update_of_ne hk] at ha ⊢
      rw [hdir a fun heq => hout k (heq ▸ ha)] at had
      exact h.alone k a ha had
  · rw [hadd.removed] at ha
    rw [hdir a fun heq => hadd.fresh (heq ▸ (h.inodes.removed a ha).1)]
    exact h.removed_dir a ha

theorem Sound.freed (h : Sound size root n s w) (h' : Whole size root n s' w')
    (hfreed : Freed s s' w w' ep) : Sound size root n s' w' := by
  refine ⟨h', fun k a ha had => ?_, fun a ha => ?_⟩
  · rw [hfreed.inos] at ha ⊢
    rw [hfreed.isDir] at had
    have hsingle := h.alone k a (List.mem_of_mem_erase ha) had
    have hne : a ≠ ep := by
      rintro rfl
      exact (h.inodes.linked k).nodup.not_mem_erase ha
    dsimp only
    rw [hsingle, List.erase_of_not_mem]
    exact fun hmem => hne (List.mem_singleton.mp hmem).symm
  · rw [hfreed.removed] at ha
    rw [hfreed.isDir]
    exact h.removed_dir a ha

theorem Sound.moved (h : Sound size root n s w) (h' : Whole size root n s' w')
    (hmoved : Moved s s' w w') : Sound size root n s' w' := by
  refine ⟨h', fun k a ha had => ?_, fun a ha => ?_⟩
  · rw [hmoved.inos] at ha ⊢
    rw [hmoved.isDir] at had
    exact h.alone k a ha had
  · rw [hmoved.removed] at ha
    rw [hmoved.isDir]
    exact h.removed_dir a ha

theorem Sound.retired (h : Sound size root n s w) (h' : Whole size root n s' w') {inum : ℕ}
    (hretired : Retired s s' w w' ep inum) (hdir : s.isDir ep = some true) :
    Sound size root n s' w' := by
  refine ⟨h', fun k a ha had => ?_, fun a ha => ?_⟩
  · rw [hretired.inos] at ha ⊢
    rw [hretired.isDir] at had
    by_cases hk : k = inum
    · rw [hk, Function.update_self] at ha
      cases ha
    · rw [Function.update_of_ne hk] at ha ⊢
      exact h.alone k a ha had
  · rw [hretired.removed] at ha
    rw [hretired.isDir]
    rcases List.mem_cons.mp ha with rfl | ha
    · exact hdir
    · exact h.removed_dir a ha

/-! ## Flags -/

@[simp] theorem isDir_setFlags (a : ℕ) (f : BitVec 16 → BitVec 16) :
    (s.setFlags a f).isDir = s.isDir := isDir_congr (entries_modify_of fun _ => rfl)

@[simp] theorem links_setFlags (a : ℕ) (f : BitVec 16 → BitVec 16) :
    (s.setFlags a f).links = s.links := links_modify_of fun _ => rfl

@[simp] theorem sibling_setFlags (a : ℕ) (f : BitVec 16 → BitVec 16) :
    (s.setFlags a f).sibling = s.sibling := sibling_modify_of fun _ => rfl

theorem flags_setFlags {a b : ℕ} (hne : b ≠ a) (f : BitVec 16 → BitVec 16) :
    (s.setFlags a f).flags b = s.flags b := by
  rw [Store.flags, Store.flags, Store.setFlags, mem_modify, Function.update_of_ne hne]

theorem Whole.setFlags (h : Whole size root n s w) (a : ℕ) (f : BitVec 16 → BitVec 16) :
    Whole size root n (s.setFlags a f) w :=
  h.modify fun _ => ⟨rfl, rfl, rfl, rfl, rfl, rfl⟩

theorem Sound.setFlags (h : Sound size root n s w) (a : ℕ) (f : BitVec 16 → BitVec 16) :
    Sound size root n (s.setFlags a f) w := by
  refine ⟨h.toWhole.setFlags a f, ?_, ?_⟩
  · rw [isDir_setFlags]
    exact h.alone
  · rw [isDir_setFlags]
    exact h.removed_dir

/-! ## Leaves and nodes -/

theorem isDir_of_mem {e : Entry} (he : s.mem ep = some e) :
    s.isDir ep = some e.eEntries.isSome := by
  rw [Store.isDir, he]
  rfl

theorem Whole.isDir_live (h : Whole size root n s w) {a : ℕ} (ha : w.live a) :
    ∃ node, s.isDir a = some node := by
  obtain ⟨e, he⟩ := (h.has ha).exists_mem
  exact ⟨_, isDir_of_mem he⟩

/-- An entry with an inode number is not on `removelist`. -/
theorem Whole.not_removed (h : Whole size root n s w) {k a : ℕ} (ha : a ∈ w.inos k) :
    a ∉ w.removed :=
  fun hmem => h.inodes.not_mem_of_zero (h.inodes.removed a hmem).2 k ha

theorem Whole.links_eq (h : Whole size root n s w) {k a : ℕ} {l₁ l₂ : List ℕ}
    (hl : w.inos k = l₁ ++ a :: l₂) : s.links a = some l₂.head? := by
  have hlinked := h.inodes.linked k
  rw [hl] at hlinked
  obtain ⟨q, ⟨-, q', hq', hrest⟩, -⟩ := hlinked.append
  rw [hq', hrest.head?]

/-- `removeleaf` and `freeentry` free a leaf, except that the command `C` does not look. -/
theorem Sound.dropleaf (h : Sound size root n s w) (hsize : 0 < size) (hfuel : n ≤ fuel)
    (hep : w.live ep) (hremoved : ep ∉ w.removed) :
    Ends (fun s' => ∃ w', Sound size root n s' w' ∧ Freed s s' w w' ep)
      (dropleaf size fuel compare ep s) := by
  have hfree : ∀ s₁, Sound size root n s₁ w → s₁.isDir = s.isDir → s₁.links = s.links →
      s₁.sibling = s.sibling → (∀ a ≠ ep, s₁.flags a = s.flags a) →
      Ends (fun s' => ∃ w', Sound size root n s' w' ∧ Freed s s' w w' ep)
        (freeentry size fuel ep s₁) := by
    intro s₁ h₁ hisDir hlinks hsibling hflags
    refine (h₁.toWhole.freeentry hsize hfuel hep hremoved).mono ?_
    rintro s' ⟨w', h', hfreed⟩
    refine ⟨w', h₁.freed h' hfreed, hfreed.live, hfreed.removed, hfreed.inos, hfreed.buckets,
      hfreed.isDir.trans hisDir, fun a ha => (hfreed.flags a ha).trans (hflags a ha), ?_, ?_⟩
    · rw [hfreed.links, hlinks]
    · rw [hfreed.sibling, hsibling]
  rw [Symtab.dropleaf, removeleaf]
  split
  case isTrue => exact hfree s h rfl rfl rfl fun _ _ => rfl
  case isFalse =>
    obtain ⟨e, he⟩ := (h.has hep).exists_mem
    rw [cell_eq he]
    refine Ends.bind (P := fun s₁ => Sound size root n s₁ w ∧ s₁.isDir = s.isDir ∧
      s₁.links = s.links ∧ s₁.sibling = s.sibling ∧ ∀ a ≠ ep, s₁.flags a = s.flags a) ?_ ?_
    · refine Ends.bind (P := fun x => x = e) rfl ?_
      rintro e rfl
      split
      case isTrue => exact ends_panic _
      case isFalse =>
        have h₁ := h.setFlags ep fun flags => (flags ||| removedFlag) &&& ~~~tmpnameFlag
        refine (h₁.toWhole.myname_ends hfuel hep).bind fun _ _ => ends_ok ?_
        exact ⟨h₁, isDir_setFlags _ _, links_setFlags _ _, sibling_setFlags _ _,
          fun a ha => flags_setFlags ha _⟩
    · rintro s₁ ⟨h₁, hisDir, hlinks, hsibling, hflags⟩
      exact hfree s₁ h₁ hisDir hlinks hsibling hflags

theorem Sound.newnode (h : Sound size root n s w) (hfuel : n ≤ fuel) (existed : Bool)
    (hnp : w.live np) :
    Ends (fun s' => Sound size root n s' w) (newnode fuel compare existed np s) := by
  obtain ⟨e, he⟩ := (h.has hnp).exists_mem
  rw [Symtab.newnode, cell_eq he]
  refine Ends.bind (P := fun x => x = e) rfl ?_
  rintro e rfl
  split
  case isTrue => exact ends_panic _
  case isFalse =>
    refine (h.toWhole.myname_ends hfuel hnp).bind fun _ _ => ?_
    split
    · exact ends_ok h
    · split
      · exact ends_ok (h.setFlags _ _)
      · exact ends_ok h

theorem Sound.mktempname (h : Sound size root n s w) (hfuel : n ≤ fuel) (hep : w.live ep) :
    Ends (fun p => Sound size root n p.1 w ∧ Moved s p.1 w w) (mktempname fuel ep s) :=
  (h.toWhole.mktempname hfuel hep).mono fun _ hp => ⟨h.moved hp.1 hp.2, hp.2⟩

/-- A directory that is found can go to `removelist`. -/
theorem Sound.retire (h : Sound size root n s w) (hfuel : n ≤ fuel) {k : ℕ}
    (hep : ep ∈ w.inos k) (hdir : s.isDir ep = some true) (hroot : ep ≠ root) :
    Ends (fun s' => ∃ w', Sound size root n s' w' ∧ Retired s s' w w' ep k)
      (retire fuel ep s) := by
  have hsingle := h.alone k ep hep hdir
  obtain ⟨hlive, hino, -⟩ := h.inodes.ino k ep hep
  obtain ⟨e, he⟩ := (h.has hlive).exists_mem
  obtain rfl : e.eIno = k := by
    rw [Store.ino, he] at hino
    exact Option.some.inj hino
  have hlinks := h.toWhole.links_eq (hsingle.trans (List.nil_append [ep]).symm)
  have hnone : e.eLinks = none := by
    rw [Table.links, he] at hlinks
    exact Option.some.inj hlinks
  have hfirst : s.lookupino fuel e.eIno = some (some ep) := by
    rw [h.lookupino_eq hfuel, hsingle]
    rfl
  refine (h.toWhole.retire hfuel hroot he hfirst hnone).mono ?_
  rintro s' ⟨w', h', hretired⟩
  exact ⟨w', h.retired h' hretired hdir, hretired⟩

theorem Sound.ne_root (h : Sound size root n s w) {k : ℕ} (hep : ep ∈ w.inos k)
    (hk : k ≠ rootino) : ep ≠ root := by
  rintro rfl
  exact hk (h.inodes.ino_unique hep (List.mem_of_head? h.root_ino))

end Sound

end Symtab

end DumpRestore
