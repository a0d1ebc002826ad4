import DumpRestore.Foundations.Paths
import DumpRestore.Restore.SymtabRuns

/-!
# Paths in the symbol table

`myname` goes up from an entry to the root and puts its path together; `lookupname` goes down from
the root along a path. `addentry` and `moveentry` do not look whether a directory has an entry of
the same name, and `mktempname` makes names that a file of the dump can have. The tables are those
of `SymtabRuns`.

* `Leads root s d cs a`: the names `cs` lead from the directory `d` to the entry `a` only.
* `Whole.leads_of_mynameLoop` and `Leads.walk_eq`: the path of `myname` is made of such names, and
  `lookupname` follows them.
* `lookupname_myname`: the paths of all entries lead back to them just if there are no twins.
* `twins_mktempname`: `mktempname` makes twins.
-/

namespace DumpRestore

namespace Symtab

open Paths

/-! ## Names -/

/-- The names of entries, as they come from the directories of a dump. -/
structure Named (root : ℕ) (s : Store) : Prop where
  root_name : s.name root = some [46]
  ne_nil : ∀ a c, s.Live a → s.name a = some c → c ≠ []
  no_slash : ∀ a c, s.Live a → s.name a = some c → 47 ∉ c
  length_lt : ∀ a c, s.Live a → s.name a = some c → c.length < 2 ^ 8

/-- Two entries of one directory have one name. -/
structure Twins (root : ℕ) (s : Store) (a b : ℕ) : Prop where
  live : s.Live a ∧ s.Live b
  ne_root : a ≠ root ∧ b ≠ root
  parent : s.parent a = s.parent b
  name : s.name a = s.name b
  ne : a ≠ b

/-- The names lead from a directory to an entry, and to no other one. -/
inductive Leads (root : ℕ) (s : Store) : ℕ → List (List UInt8) → ℕ → Prop
  | here (a : ℕ) : Leads root s a [] a
  | down {d b a : ℕ} {c : List UInt8} {cs : List (List UInt8)} (live : s.Live b)
      (ne_root : b ≠ root) (one : ∀ b', ¬ Twins root s b b') (parent : s.parent b = some d)
      (name : s.name b = some c) (rest : Leads root s b cs a) : Leads root s d (c :: cs) a

section Names

variable {size root fuel n a d m cp : ℕ} {s : Store} {w : Lists} {c name p : List UInt8}
  {cs : List (List UInt8)}

/-- One more name at the end. -/
theorem Leads.snoc {b : ℕ} (h : Leads root s d cs a) (hlive : s.Live b) (hroot : b ≠ root)
    (hone : ∀ b', ¬ Twins root s b b') (hparent : s.parent b = some a) (hname : s.name b = some c) :
    Leads root s d (cs ++ [c]) b := by
  induction h with
  | here => exact .down hlive hroot hone hparent hname (.here b)
  | down hlive' hroot' hone' hparent' hname' _ ih =>
    exact .down hlive' hroot' hone' hparent' hname' (ih hparent)

theorem Whole.exists_name (h : Whole size root n s w) (ha : s.Live a) :
    ∃ c d, s.name a = some c ∧ s.parent a = some d ∧ s.Live d := by
  obtain ⟨e, he⟩ := ha.1.exists_mem
  obtain ⟨d, -, hd, hlive, -⟩ := h.parent_dir ((h.live_eq a).mp ha)
  exact ⟨e.eName, d, by rw [Store.name, he]; rfl, hd, (h.live_eq d).mpr hlive⟩

/-! ## From an entry to the root -/

/-- One turn of `myname`. -/
theorem Whole.mynameLoop_eq (h : Whole size root n s w) (hfuel : n ≤ fuel) (hnamed : Named root s)
    (ha : s.Live a) (hc : s.name a = some c) (hd : s.parent a = some d) (m cp : ℕ)
    (name : List UInt8) : mynameLoop fuel s (m + 1) a cp name =
      if c.length < cp then
        if a = root then .ok (c ++ name)
        else mynameLoop fuel s m d (cp - c.length - 1) (47 :: (c ++ name))
      else .error (.panic "%s: pathname too long\n") := by
  obtain ⟨e, he⟩ := ha.1.exists_mem
  have hlen := hnamed.length_lt a c ha hc
  obtain rfl : e.eName = c := by
    rw [Store.name, he] at hc
    exact Option.some.inj hc
  obtain rfl : e.eParent = d := by
    rw [Store.parent, he] at hd
    exact Option.some.inj hd
  rw [mynameLoop, cell_eq he]
  simp only [bind, Except.bind, pure, Except.pure, h.lookupino_eq hfuel, h.root_ino, ofOption,
    Nat.mod_eq_of_lt hlen, List.take_length, Option.some.injEq]

/-- With more room there is a path, too. -/
theorem Whole.mynameLoop_mono (h : Whole size root n s w) (hfuel : n ≤ fuel)
    (hnamed : Named root s) {m' cp' : ℕ} (hm : m ≤ m') (hcp : cp ≤ cp') (ha : s.Live a)
    (hrun : mynameLoop fuel s m a cp name = .ok p) (name' : List UInt8) :
    ∃ p', mynameLoop fuel s m' a cp' name' = .ok p' := by
  induction m generalizing m' cp cp' a name name' with
  | zero => cases hrun
  | succ m ih =>
    obtain ⟨m', rfl⟩ : ∃ k, m' = k + 1 := ⟨m' - 1, by omega⟩
    obtain ⟨c, d, hc, hd, hlive⟩ := h.exists_name ha
    rw [h.mynameLoop_eq hfuel hnamed ha hc hd] at hrun ⊢
    split at hrun
    case isFalse => cases hrun
    case isTrue hlt =>
      rw [if_pos (hlt.trans_le hcp)]
      split at hrun
      case isTrue hroot => exact ⟨_, if_pos hroot⟩
      case isFalse hroot =>
        rw [if_neg hroot]
        exact ih (by omega) (by omega) hlive hrun _

/-- The path of `myname` is made of the names that lead to the entry. -/
theorem Whole.leads_of_mynameLoop (h : Whole size root n s w) (hfuel : n ≤ fuel)
    (hnamed : Named root s)
    (hone : ∀ a p, s.Live a → myname fuel a s = .ok p → ∀ b, ¬ Twins root s a b)
    (hm : m ≤ Table.maxpathlen) (hcp : cp ≤ Table.maxpathlen - 2) (ha : s.Live a)
    (hrun : mynameLoop fuel s m a cp name = .ok p) :
    ∃ cs, Leads root s root cs a ∧ p = 46 :: (rooted 47 cs ++ name) := by
  induction m generalizing cp a name with
  | zero => cases hrun
  | succ m ih =>
    obtain ⟨c, d, hc, hd, hlive⟩ := h.exists_name ha
    obtain ⟨p', hp'⟩ := h.mynameLoop_mono hfuel hnamed hm hcp ha hrun []
    rw [h.mynameLoop_eq hfuel hnamed ha hc hd] at hrun
    split at hrun
    case isFalse => cases hrun
    case isTrue =>
      split at hrun
      case isTrue hroot =>
        subst hroot
        obtain rfl := Option.some.inj (hc.symm.trans hnamed.root_name)
        exact ⟨[], .here a, (Except.ok.inj hrun).symm⟩
      case isFalse hroot =>
        obtain ⟨cs, hcs, rfl⟩ := ih (by omega) (by omega) hlive hrun
        refine ⟨cs ++ [c], hcs.snoc ha hroot (hone a p' ha hp') hd hc, ?_⟩
        simp

/-! ## From the root to an entry -/

/-- The search for the name of an entry without twins. -/
theorem Whole.lookupin_eq (h : Whole size root n s w) (hsize : 0 < size) (hfuel : n ≤ fuel) {b : ℕ}
    (hlive : s.Live b) (hroot : b ≠ root) (hone : ∀ b', ¬ Twins root s b b')
    (hparent : s.parent b = some d) (hname : s.name b = some c) :
    s.lookupin size fuel d c = some (some b) := by
  have hhung : w.hung b := (h.hung_iff b).mpr ⟨(h.live_eq b).mp hlive, hroot⟩
  obtain ⟨d', eps, hd', hdlive, heps, -⟩ := h.tree.parent b hhung
  obtain rfl := Option.some.inj (hparent.symm.trans hd')
  obtain ⟨r, hr, hcases⟩ := h.tree.lookupin hsize (h.fits.mono hfuel) (fun a => h.has) hdlive c
  rcases hcases with ⟨hleaf, -⟩ | ⟨-, -, ⟨b', rfl, hhung', hparent', hname'⟩ | ⟨-, hnone⟩⟩
  · cases heps.symm.trans hleaf
  · obtain ⟨hlive', hroot'⟩ := (h.hung_iff b').mp hhung'
    rw [hr]
    refine congrArg (some ∘ some) (not_not.mp fun hne => hone b' ?_)
    exact ⟨⟨hlive, (h.live_eq b').mpr hlive'⟩, ⟨hroot, hroot'⟩, hparent.trans hparent'.symm,
      hname.trans hname'.symm, fun heq => hne heq.symm⟩
  · exact absurd hname (hnone b hhung hparent)

/-- The loop of `lookupname` follows the names. -/
theorem Leads.walk_eq (hpath : Leads root s d (c :: cs) a) (h : Whole size root n s w)
    (hsize : 0 < size) (hfuel : n ≤ fuel) (hnamed : Named root s) (hm : cs.length < m) :
    s.walk size fuel m d (c ++ rooted 47 cs) = some (some a) := by
  induction m generalizing d c cs with
  | zero => omega
  | succ m ih =>
    cases hpath with
    | down hlive hroot hone hparent hname hrest =>
      have hlen := hnamed.length_lt _ _ hlive hname
      rw [Table.walk, takeWhile_append_rooted (hnamed.no_slash _ _ hlive hname),
        if_neg (by rw [Table.maxpathlen]; omega),
        h.lookupin_eq hsize hfuel hlive hroot hone hparent hname]
      simp only [Option.bind_eq_bind, Option.bind_some, List.drop_left]
      cases cs with
      | nil =>
        cases hrest
        rfl
      | cons c cs => exact ih hrest (by rw [List.length_cons] at hm; omega)

theorem Leads.lookupname_eq (hpath : Leads root s root cs a) (h : Whole size root n s w)
    (hsize : 0 < size) (hfuel : n ≤ fuel) (hnamed : Named root s) :
    s.lookupname size fuel (46 :: rooted 47 cs) = some (some a) := by
  rw [Table.lookupname, h.lookupino_eq hfuel, h.root_ino]
  cases cs with
  | nil =>
    cases hpath
    rfl
  | cons c cs =>
    have hstart : Table.pathStart (46 :: rooted 47 (c :: cs)) = c ++ rooted 47 cs := rfl
    have hne : c ++ rooted 47 cs ≠ [] := by
      cases hpath with
      | down hlive _ _ _ hname _ =>
        exact List.append_ne_nil_of_left_ne_nil (hnamed.ne_nil _ _ hlive hname) _
    have hlen : cs.length ≤ (rooted 47 cs).length := length_le_rooted
    have hwalk := hpath.walk_eq h hsize hfuel hnamed (m := (c ++ rooted 47 cs).length + 1)
      (by rw [List.length_append]; omega)
    simp only [hstart, Option.bind_eq_bind, Option.bind_some, if_neg hne]
    exact hwalk

/-! ## There and back -/

theorem Whole.lookupname_of_myname (h : Whole size root n s w) (hsize : 0 < size) (hfuel : n ≤ fuel)
    (hnamed : Named root s)
    (hone : ∀ a p, s.Live a → myname fuel a s = .ok p → ∀ b, ¬ Twins root s a b) (ha : s.Live a)
    (hrun : myname fuel a s = .ok p) : s.lookupname size fuel p = some (some a) := by
  obtain ⟨cs, hcs, rfl⟩ := h.leads_of_mynameLoop hfuel hnamed hone le_rfl le_rfl ha hrun
  rw [List.append_nil]
  exact hcs.lookupname_eq h hsize hfuel hnamed

/-- Twins have one path. -/
theorem Whole.myname_twins (h : Whole size root n s w) (hfuel : n ≤ fuel) (hnamed : Named root s)
    {b : ℕ} (htwins : Twins root s a b) : myname fuel a s = myname fuel b s := by
  obtain ⟨c, d, hc, hd, -⟩ := h.exists_name htwins.live.1
  have hc' := htwins.name.symm.trans hc
  have hd' := htwins.parent.symm.trans hd
  rw [myname, myname, Table.maxpathlen, h.mynameLoop_eq hfuel hnamed htwins.live.1 hc hd,
    h.mynameLoop_eq hfuel hnamed htwins.live.2 hc' hd', if_neg htwins.ne_root.1,
    if_neg htwins.ne_root.2]

variable {maxino new : ℕ} {ops : List Op}

/-- **Paths there and back**: in a table that allowed operations make of the one of `initsymtable`,
`lookupname` finds every entry by the path that `myname` gives to it, just if no twins have a
path. -/
theorem lookupname_myname (hsize : 0 < size) (hmax : hashfactor ≤ maxino)
    (hfuel : ops.length + 1 ≤ fuel) (hops : AllowedTable size fuel maxino new ops)
    (hrun : runTable size fuel maxino new ops = .ok (root, s)) (hnamed : Named root s) :
    (∀ a p, s.Live a → myname fuel a s = .ok p → s.lookupname size fuel p = some (some a)) ↔
      ∀ a b p, Twins root s a b → myname fuel a s ≠ .ok p := by
  have hends := whole_runTable hsize hmax hfuel hops
  rw [hrun] at hends
  obtain ⟨w, h⟩ := hends
  have hle : 1 + ops.length ≤ fuel := by omega
  constructor
  · intro hback a b p htwins hp
    have hpb := (h.myname_twins hle hnamed htwins).symm.trans hp
    have hfinds := (hback a p htwins.live.1 hp).symm.trans (hback b p htwins.live.2 hpb)
    exact htwins.ne (Option.some.inj (Option.some.inj hfinds))
  · intro hone a p ha hp
    exact h.lookupname_of_myname hsize hle hnamed (fun a p _ hp b htwins => hone a b p htwins hp)
      ha hp

/-- The table of the root and a directory `a`. -/
theorem runTable_dir : ∃ s, runTable 2 10 10 100 [.addentry 200 [46, 47, 97] 5 true false] =
      .ok (100, s) ∧ s.name 100 = some [46] ∧ ∀ a c, s.name a = some c → c = [46] ∨ c = [97] := by
  refine ⟨_, rfl, rfl, fun a c hc => ?_⟩
  by_cases hroot : a = 100
  · subst hroot
    exact .inl (Option.some.inj hc).symm
  · by_cases hdir : a = 200
    · subst hdir
      exact .inr (Option.some.inj hc).symm
    · simp [Store.name, mem_modify, hroot, hdir] at hc

theorem lookupname_myname_dir : ∃ s,
    runTable 2 10 10 100 [.addentry 200 [46, 47, 97] 5 true false] = .ok (100, s) ∧
      ((∀ a p, s.Live a → myname 10 a s = .ok p → s.lookupname 2 10 p = some (some a)) ↔
        ∀ a b p, Twins 100 s a b → myname 10 a s ≠ .ok p) := by
  obtain ⟨s, hrun, hroot, hnames⟩ := runTable_dir
  have hops : AllowedTable 2 10 10 100 [.addentry 200 [46, 47, 97] 5 true false] := by
    intro root s hinit
    obtain ⟨rfl, rfl⟩ := Prod.mk.inj (Except.ok.inj hinit)
    refine ⟨?_, fun _ _ => trivial⟩
    intro hhas
    cases hhas
  have hnamed : Named 100 s := by
    constructor
    case root_name => exact hroot
    case ne_nil =>
      intro a c _ hc
      rcases hnames a c hc with rfl | rfl <;> decide
    case no_slash =>
      intro a c _ hc
      rcases hnames a c hc with rfl | rfl <;> decide
    case length_lt =>
      intro a c _ hc
      rcases hnames a c hc with rfl | rfl <;> decide
  exact ⟨s, hrun, lookupname_myname (by decide) (by decide) (by decide) hops hrun hnamed⟩

/-! ## Temporary names -/

theorem linkIndex_congr {s' : Store} (h : s'.links = s.links) (a : ℕ) (p : Option ℕ) (i : ℕ) :
    linkIndex s' a fuel p i = linkIndex s a fuel p i := by
  induction fuel generalizing p i with
  | zero => cases p <;> rfl
  | succ fuel ih =>
    cases p with
    | none => rfl
    | some np =>
      rw [linkIndex, linkIndex, h]
      simp only [ih]

/-- The temporary name of an entry does not depend on names and flags. -/
theorem Whole.gentempname_congr {s' : Store} (h : Whole size root n s w)
    (h' : Whole size root n s' w) (hfuel : n ≤ fuel) (hino : s'.ino = s.ino)
    (hlinks : s'.links = s.links) : gentempname fuel a s' = gentempname fuel a s := by
  have hcell := congrFun hino a
  rw [Store.ino, Store.ino] at hcell
  rw [gentempname, gentempname, Store.cell, Store.cell]
  cases he : s.mem a with
  | none =>
    rw [he, Option.map_none, Option.map_eq_none_iff] at hcell
    rw [hcell]
    rfl
  | some e =>
    rw [he, Option.map_some] at hcell
    obtain ⟨e', he', hino'⟩ := Option.map_eq_some_iff.mp hcell
    rw [he']
    simp only [ofOption, bind, Except.bind, hino', h.lookupino_eq hfuel, h'.lookupino_eq hfuel,
      linkIndex_congr hlinks]

/-- `mktempname` changes the name of the entry only. -/
theorem Whole.name_mktempname (h : Whole size root n s w) (hfuel : n ≤ fuel)
    {q : Store × List UInt8 × List UInt8} (hrun : Symtab.mktempname fuel a s = .ok q) :
    ∃ temp, gentempname fuel a s = .ok temp ∧ q.1.parent = s.parent ∧
      q.1.name = Function.update s.name a (some temp) := by
  cases he : s.mem a with
  | none =>
    rw [Symtab.mktempname, Store.cell, he] at hrun
    cases hrun
  | some e =>
    set s₁ : Store := s.modify a fun e => { e with eFlags := e.eFlags ||| tmpnameFlag } with hs₁
    have h₁ : Whole size root n s₁ w := h.modify fun _ => ⟨rfl, rfl, rfl, rfl, rfl, rfl⟩
    have hsame : gentempname fuel a s₁ = gentempname fuel a s :=
      h.gentempname_congr h₁ hfuel (ino_modify_of fun _ => rfl) (links_modify_of fun _ => rfl)
    have hparent (temp : List UInt8) :
        (s₁.modify a fun e => { e with eName := temp }).parent = s.parent :=
      (parent_modify_of (by exact fun _ => rfl)).trans (parent_modify_of (by exact fun _ => rfl))
    have hname (temp : List UInt8) : (s₁.modify a fun e => { e with eName := temp }).name =
        Function.update s.name a (some temp) := by
      have hname₁ : s₁.name = s.name := member_modify_of (by exact fun _ => rfl) s a
      have hmem : s₁.mem a = some { e with eFlags := e.eFlags ||| tmpnameFlag } := by
        rw [hs₁, mem_modify, Function.update_self, he]
        rfl
      refine (member_modify _ s₁ a _).trans ?_
      rw [hmem]
      exact congrArg (fun g => Function.update g a (some temp)) hname₁
    rw [Symtab.mktempname, cell_eq he] at hrun
    simp only [bind, Except.bind, ← hs₁, hsame] at hrun
    split at hrun
    case isTrue => cases hrun
    case isFalse =>
      cases hold : myname fuel a s₁ with
      | error stop =>
        rw [hold] at hrun
        cases hrun
      | ok oldname =>
        cases htemp : gentempname fuel a s with
        | error stop =>
          rw [hold, htemp] at hrun
          cases hrun
        | ok temp =>
          rw [hold, htemp] at hrun
          dsimp only at hrun
          cases hnew : myname fuel a (s₁.modify a fun e => { e with eName := temp }) with
          | error stop =>
            rw [hnew] at hrun
            cases hrun
          | ok newname =>
            rw [hnew] at hrun
            obtain rfl := Except.ok.inj hrun
            exact ⟨temp, rfl, hparent temp, hname temp⟩

/-- `mktempname` makes an entry the twin of those that have its temporary name already. -/
theorem twins_mktempname (hsize : 0 < size) (hmax : hashfactor ≤ maxino)
    (hfuel : ops.length + 1 ≤ fuel) (hops : AllowedTable size fuel maxino new ops)
    (hrun : runTable size fuel maxino new ops = .ok (root, s)) (ha : s.Live a) (hroot : a ≠ root)
    {q : Store × List UInt8 × List UInt8} (hq : mktempname fuel a s = .ok q) (b : ℕ) :
    Twins root q.1 a b ↔ s.Live b ∧ b ≠ root ∧ b ≠ a ∧ s.parent a = s.parent b ∧
      ∃ temp, gentempname fuel a s = .ok temp ∧ s.name b = some temp := by
  have hends := whole_runTable hsize hmax hfuel hops
  rw [hrun] at hends
  obtain ⟨w, h⟩ := hends
  have hle : 1 + ops.length ≤ fuel := by omega
  obtain ⟨temp, htemp, hparent, hname⟩ := h.name_mktempname hle hq
  have hends := h.mktempname hle ((h.live_eq a).mp ha)
  rw [hq] at hends
  have hlive (c : ℕ) : q.1.Live c ↔ s.Live c := (hends.1.live_eq c).trans (h.live_eq c).symm
  constructor
  · rintro ⟨⟨-, hb⟩, ⟨-, hbroot⟩, hparents, hnames, hne⟩
    rw [hparent] at hparents
    rw [hname, Function.update_self, Function.update_of_ne hne.symm] at hnames
    exact ⟨(hlive b).mp hb, hbroot, hne.symm, hparents, temp, htemp, hnames.symm⟩
  · rintro ⟨hb, hbroot, hne, hparents, temp', htemp', hnames⟩
    obtain rfl := Except.ok.inj (htemp.symm.trans htemp')
    refine ⟨⟨(hlive a).mpr ha, (hlive b).mpr hb⟩, ⟨hroot, hbroot⟩, by rw [hparent, hparents], ?_,
      hne.symm⟩
    rw [hname, Function.update_self, Function.update_of_ne hne, hnames]

/-- A temporary name can be the name of another file. -/
example : (do
      let p ← runTable 2 10 10 100 [.addentry 200 [46, 47, 97] 5 false false,
        .addentry 300 ([46, 47] ++ tmphdr ++ [48, 53]) 6 false false, .mktempname 200]
      return (← myname 10 200 p.2, ← myname 10 300 p.2)) =
    (.ok ([46, 47] ++ tmphdr ++ [48, 53], [46, 47] ++ tmphdr ++ [48, 53]) :
      Run (List UInt8 × List UInt8)) := by
  rfl

end Names

end Symtab

end DumpRestore
