import DumpRestore.Restore.TreeScan
import Mathlib.Data.List.TakeWhile

/-!
# The tree that `extractdirs` stores

`extractdirs` stores the directories of the tape one after the other, the root first, and enters
them in `inotab`. What `treescan` and `pathsearch` make of them later depends on the entries of the
directories only.

* `extracting_extracted`: the file and the table stand for the directories of the tape.
* `clear_extracted`: where no directory has an entry for one that was stored before it, a walk never
  goes on where it has just read an end, as `Clear` asks.
* `uses_exact`: so searches and walks in any order have the results that the directories give.
* `treescan_calls`: a walk that always goes on calls its function for each path that can be reached,
  and for none twice.
-/

namespace DumpRestore

namespace TreeScan

open ByteOrder Mem Restore

/-! ## The calls of a walk -/

section Calls

variable (dirs : Dirs)

/-- The calls of a walk that goes on in every directory: the path, the inode number and the type. -/
def calls : (fuel : ℕ) → (pname : List UInt8) → (ino : ℕ) → List (List UInt8 × ℕ × EntryType)
  | 0, _, _ => []
  | fuel + 1, pname, ino =>
    match dirs ino with
    | none => [(pname, ino, .leaf)]
    | some es =>
      (pname, ino, .node) :: (realEntries es).flatMap fun e =>
        if (slashed pname).length + e.dNamlen ≤ maxpathlen then
          calls fuel (slashed pname ++ e.dName) e.dIno
        else []

/-- The paths below `pname` that are not too long, with their inode numbers. -/
inductive Reaches (pname : List UInt8) (ino : ℕ) : List UInt8 → ℕ → Prop
  | start : Reaches pname ino pname ino
  | entry {path : List UInt8} {i : ℕ} {es : List Direct} {e : Direct} : Reaches pname ino path i →
      dirs i = some es → e ∈ realEntries es → path.length + 1 + e.dNamlen ≤ maxpathlen →
      Reaches pname ino (path ++ [47] ++ e.dName) e.dIno

variable {dirs} {fuel ino i : ℕ} {pname path : List UInt8}

theorem visit_eq_foldl {σ : Type} {todo : List UInt8 → ℕ → EntryType → σ → Bool × σ}
    (hall : ∀ name ino s, (todo name ino .node s).1 = true) (fuel : ℕ) (pname : List UInt8)
    (ino : ℕ) (s : σ) : visit dirs todo fuel pname ino s =
      (calls dirs fuel pname ino).foldl (fun s c => (todo c.1 c.2.1 c.2.2 s).2) s := by
  induction fuel generalizing pname ino s with
  | zero => rfl
  | succ fuel ih =>
    rw [visit, calls]
    cases dirs ino with
    | none => rfl
    | some es =>
      dsimp only
      rw [if_pos (hall pname ino s), List.foldl_cons, List.foldl_flatMap]
      congr 1
      funext s e
      split
      · exact ih _ _ _
      · rfl

/-- The path of an entry that is not too long. -/
theorem slashed_of_le {n : ℕ} (hn : 0 < n) (h : (slashed pname).length + n ≤ maxpathlen) :
    slashed pname = pname ++ [47] ∧ pname.length + 1 + n ≤ maxpathlen := by
  rw [slashed, List.length_take] at h
  simp only [List.length_append, List.length_singleton] at h
  rw [slashed, List.take_of_length_le]
  · exact ⟨rfl, by omega⟩
  · rw [List.length_append, List.length_singleton]
    omega

theorem Reaches.head {es : List Direct} {e : Direct} (hes : dirs ino = some es)
    (he : e ∈ realEntries es) (hle : pname.length + 1 + e.dNamlen ≤ maxpathlen)
    (h : Reaches dirs (pname ++ [47] ++ e.dName) e.dIno path i) :
    Reaches dirs pname ino path i := by
  induction h with
  | start => exact .entry .start hes he hle
  | entry _ hes' he' hle' ih => exact .entry ih hes' he' hle'

/-- A path that is reached is the start or is reached from an entry of it. -/
theorem Reaches.cases_head (h : Reaches dirs pname ino path i) :
    (path = pname ∧ i = ino) ∨ ∃ es e, dirs ino = some es ∧ e ∈ realEntries es ∧
      pname.length + 1 + e.dNamlen ≤ maxpathlen ∧
      Reaches dirs (pname ++ [47] ++ e.dName) e.dIno path i := by
  induction h with
  | start => exact .inl ⟨rfl, rfl⟩
  | entry _ hes he hle ih =>
    rcases ih with ⟨rfl, rfl⟩ | ⟨es', e', hes', he', hle', hreach⟩
    · exact .inr ⟨_, _, hes, he, hle, .start⟩
    · exact .inr ⟨es', e', hes', he', hle', .entry hreach hes he hle⟩

variable (hpos : ∀ ino es, dirs ino = some es → ∀ e ∈ es, 0 < e.dNamlen)

include hpos in
theorem mem_calls (hlen : pname.length ≤ maxpathlen) (hfuel : maxpathlen < pname.length + fuel)
    {type : EntryType} : (path, i, type) ∈ calls dirs fuel pname ino ↔
      Reaches dirs pname ino path i ∧ type = if dirs i = none then .leaf else .node := by
  induction fuel generalizing pname ino with
  | zero => omega
  | succ fuel ih =>
    rw [calls]
    cases hes : dirs ino with
    | none =>
      dsimp only
      rw [List.mem_singleton, Prod.mk.injEq, Prod.mk.injEq]
      constructor
      · rintro ⟨rfl, rfl, rfl⟩
        exact ⟨.start, (if_pos hes).symm⟩
      · rintro ⟨hreach, rfl⟩
        rcases hreach.cases_head with ⟨rfl, rfl⟩ | ⟨es, e, hes', -⟩
        · exact ⟨rfl, rfl, if_pos hes⟩
        · cases hes.symm.trans hes'
    | some es =>
      dsimp only
      rw [List.mem_cons, Prod.mk.injEq, Prod.mk.injEq, List.mem_flatMap]
      constructor
      · rintro (⟨rfl, rfl, rfl⟩ | ⟨e, he, hmem⟩)
        · exact ⟨.start, (if_neg (by rw [hes]; exact Option.some_ne_none es)).symm⟩
        · split at hmem
          case isFalse => cases hmem
          case isTrue hle =>
            have hname := hpos ino es hes e (mem_of_mem_skipName (mem_of_mem_skipName he))
            obtain ⟨hslashed, hle⟩ := slashed_of_le hname hle
            rw [hslashed, ih] at hmem
            · exact ⟨.head hes he hle hmem.1, hmem.2⟩
            · simp only [List.length_append, List.length_singleton, Direct.dNamlen] at hle ⊢
              omega
            · simp only [List.length_append, List.length_singleton, Direct.dNamlen] at hname ⊢
              omega
      · rintro ⟨hreach, rfl⟩
        rcases hreach.cases_head with ⟨rfl, rfl⟩ | ⟨es', e, hes', he, hle, hreach⟩
        · exact .inl ⟨rfl, rfl, if_neg (by rw [hes]; exact Option.some_ne_none es)⟩
        · obtain rfl := Option.some.inj (hes.symm.trans hes')
          have hname := hpos ino es hes e (mem_of_mem_skipName (mem_of_mem_skipName he))
          have hslashed : slashed pname = pname ++ [47] := by
            rw [slashed, List.take_of_length_le]
            rw [List.length_append, List.length_singleton]
            omega
          refine .inr ⟨e, he, ?_⟩
          rw [if_pos, hslashed, ih]
          · exact ⟨hreach, rfl⟩
          · simp only [List.length_append, List.length_singleton, Direct.dNamlen] at hle ⊢
            omega
          · simp only [List.length_append, List.length_singleton, Direct.dNamlen] at hname ⊢
            omega
          · rw [hslashed, List.length_append, List.length_singleton]
            omega

/-- The path `path` is `p` or one below it. -/
def Under (p path : List UInt8) : Prop := path = p ∨ p ++ [47] <+: path

theorem Under.trans {p q r : List UInt8} (hp : Under p q) (hq : Under q r) : Under p r := by
  rcases hq with rfl | hq
  · exact hp
  · rcases hp with rfl | hp
    · exact .inr hq
    · exact .inr (hp.trans ((List.prefix_append q [47]).trans hq))

theorem under_entry (p name : List UInt8) : Under p (p ++ [47] ++ name) :=
  .inr (List.prefix_append _ name)

/-- A path is under one name in a directory only. -/
theorem Under.name_unique {p n n' : List UInt8} (hn : 47 ∉ n) (hn' : 47 ∉ n')
    (h : Under (p ++ n) path) (h' : Under (p ++ n') path) : n = n' := by
  have hread : ∀ m, 47 ∉ m → Under (p ++ m) path → (path.drop p.length).takeWhile (· ≠ 47) = m := by
    intro m hm hunder
    have hall : ∀ c ∈ m, decide (c ≠ 47) = true := by
      rintro c hc
      exact decide_eq_true (ne_of_mem_of_not_mem hc hm)
    rcases hunder with rfl | ⟨rest, rfl⟩
    · rw [List.drop_left, List.takeWhile_eq_self_iff.mpr hall]
    · rw [List.append_assoc, List.append_assoc, List.drop_left, List.takeWhile_append_of_pos hall]
      simp
  rw [← hread n hn h, hread n' hn' h']

theorem Under.length_le {p : List UInt8} (h : Under p path) : p.length ≤ path.length := by
  rcases h with rfl | h
  · exact le_rfl
  · have hle := h.length_le
    rw [List.length_append, List.length_singleton] at hle
    omega

theorem Reaches.under (h : Reaches dirs pname ino path i) : Under pname path := by
  induction h with
  | start => exact .inl rfl
  | entry _ _ _ _ ih => exact ih.trans (under_entry _ _)

include hpos in
/-- **A walk calls its function once for a path**, and for a directory before what is below it. -/
theorem pairwise_calls (hnames : ∀ ino es, dirs ino = some es →
      (realEntries es).Pairwise (fun e e' => e.dName ≠ e'.dName) ∧
        ∀ e ∈ realEntries es, 47 ∉ e.dName)
    (hlen : pname.length ≤ maxpathlen) (hfuel : maxpathlen < pname.length + fuel) :
    (calls dirs fuel pname ino).Pairwise fun a b => ¬ Under b.1 a.1 := by
  induction fuel generalizing pname ino with
  | zero => omega
  | succ fuel ih =>
    rw [calls]
    cases hes : dirs ino with
    | none => exact List.pairwise_singleton _ _
    | some es =>
      dsimp only
      -- what is called for an entry
      have hsub : ∀ e ∈ realEntries es, (slashed pname).length + e.dNamlen ≤ maxpathlen →
          slashed pname = pname ++ [47] ∧ (pname ++ [47] ++ e.dName).length ≤ maxpathlen ∧
            maxpathlen < (pname ++ [47] ++ e.dName).length + fuel := by
        intro e he hle
        have hname := hpos ino es hes e (mem_of_mem_skipName (mem_of_mem_skipName he))
        obtain ⟨hslashed, hle⟩ := slashed_of_le hname hle
        simp only [List.length_append, List.length_singleton, Direct.dNamlen] at hle hname ⊢
        exact ⟨hslashed, hle, by omega⟩
      have hunder : ∀ e ∈ realEntries es, ∀ c ∈ (if (slashed pname).length + e.dNamlen ≤ maxpathlen
          then calls dirs fuel (slashed pname ++ e.dName) e.dIno else []),
          Under (pname ++ [47] ++ e.dName) c.1 := by
        intro e he c hc
        split at hc
        case isFalse => cases hc
        case isTrue hle =>
          obtain ⟨hslashed, hlen, hfuel⟩ := hsub e he hle
          rw [hslashed] at hc
          exact ((mem_calls hpos hlen hfuel).mp hc).1.under
      rw [List.pairwise_cons, List.pairwise_flatMap]
      refine ⟨fun c hc hup => ?_, fun e he => ?_, (hnames ino es hes).1.imp_of_mem ?_⟩
      · obtain ⟨e, he, hc⟩ := List.mem_flatMap.mp hc
        have hlong := (hunder e he c hc).length_le
        have hshort : c.1.length ≤ pname.length := hup.length_le
        simp only [List.length_append, List.length_singleton] at hlong
        omega
      · split
        case isFalse => exact .nil
        case isTrue hle =>
          obtain ⟨hslashed, hlen, hfuel⟩ := hsub e he hle
          rw [hslashed]
          exact ih hlen hfuel
      · intro e e' he he' hne a ha b hb hup
        exact hne (((hunder e' he' b hb).trans hup).name_unique ((hnames ino es hes).2 e' he')
          ((hnames ino es hes).2 e he) (hunder e he a ha)).symm

end Calls

/-! ## What `extractdirs` leaves -/

section Extract

/-- A directory on the tape: its inode number, the calls that `getfile` makes for it, and its
entries. -/
structure TapeDir (maxino : ℕ) where
  ino : ℕ
  calls : List Call
  entries : List Direct
  whole : ∀ c ∈ calls, WholeBlocks c
  lays : Lays (ofList (delivered calls)) 512 0 entries (delivered calls).length
  valid : ∀ e ∈ entries, e.Valid ∧ e.dIno ≠ 0 ∧ e.dIno < maxino

/-- The directories by their inode numbers. -/
def dirsOf {maxino : ℕ} (dirs : List (TapeDir maxino)) : Dirs := fun ino =>
  (dirs.find? (·.ino == ino)).map TapeDir.entries

/-- What `extractdirs` leaves for some directories, from an empty file and an empty table. -/
def extracted {maxino : ℕ} (junk dirbuf : Mem) (dirs : List (TapeDir maxino)) :
    (ℕ → List Inotab) × DirFile :=
  extractdirs junk (dirs.map fun dir => (dir.ino, dir.calls))
    (fun _ => [], ⟨[], 0, dirbuf, 0, 0⟩)

variable {maxino : ℕ} {junk dirbuf : Mem} {file later : List UInt8} {itp : Inotab}
  {es : List Direct}

theorem InFile.append (h : InFile file itp es) (later : List UInt8) :
    InFile (file ++ later) itp es := by
  have hle := h.le
  have hagree : Agree ((ofList (file ++ later)).shift itp.tSeekpt)
      ((ofList file).shift itp.tSeekpt) 0 itp.tSize := by
    intro i _ hi
    exact ofList_append_left file later (itp.tSeekpt + i) (Nat.zero_le _) (by omega)
  obtain ⟨p, hlays, hentry, hr, hn, hblock⟩ := h.whole
  refine ⟨by rw [List.length_append]; omega, p, hlays.congr (hagree.mono le_rfl (by omega)), ?_, hr,
    hn, hblock⟩
  exact hentry.congr hn (hagree.mono (Nat.zero_le _) le_rfl)

theorem dirsOf_append_of_ne {dirs : List (TapeDir maxino)} {dir : TapeDir maxino} {ino : ℕ}
    (hne : dir.ino ≠ ino) : dirsOf (dirs ++ [dir]) ino = dirsOf dirs ino := by
  rw [dirsOf, dirsOf, List.find?_append]
  simp [hne]

theorem dirsOf_append_self {dirs : List (TapeDir maxino)} {dir : TapeDir maxino}
    (hnew : ∀ i ∈ dirs.map TapeDir.ino, ∀ j ∈ [dir].map TapeDir.ino, i ≠ j) :
    dirsOf (dirs ++ [dir]) dir.ino = some dir.entries := by
  have hnone : dirs.find? (·.ino == dir.ino) = none := by
    rw [List.find?_eq_none]
    intro dir' hdir' heq
    exact hnew dir'.ino (List.mem_map_of_mem hdir') dir.ino List.mem_cons_self (beq_iff_eq.mp heq)
  rw [dirsOf, List.find?_append, hnone]
  simp

/-- What holds while directories are stored. -/
structure Extracting (dirs : List (TapeDir maxino)) (p : (ℕ → List Inotab) × DirFile) : Prop where
  dirloc : p.2.dirloc = 0
  seekpt : p.2.seekpt = p.2.df.length
  filed : Filed p.2.df p.1 maxino (dirsOf dirs)

variable (junk dirbuf)

theorem extracting_extracted (dirs : List (TapeDir maxino))
    (hinos : (dirs.map TapeDir.ino).Nodup) : Extracting dirs (extracted junk dirbuf dirs) := by
  induction dirs using List.reverseRecOn with
  | nil =>
    refine ⟨rfl, rfl, fun ino _ => rfl, fun ino es h => ?_, fun ino es h => ?_,
      fun i j a b h => ?_⟩
    all_goals cases h
  | append_singleton dirs dir ih =>
    rw [List.map_append, List.nodup_append] at hinos
    obtain ⟨hinos, -, hnew⟩ := hinos
    obtain ⟨hloc, hseek, hfiled⟩ := ih hinos
    have hstep : extracted junk dirbuf (dirs ++ [dir]) =
        (allocinotab (storeDir junk dir.ino dir.calls (extracted junk dirbuf dirs).2).1
          (extracted junk dirbuf dirs).1,
        (storeDir junk dir.ino dir.calls (extracted junk dirbuf dirs).2).2) := by
      simp only [extracted, extractdirs, List.map_append, List.foldl_append]
      rfl
    obtain ⟨stored, hdf, hstored, htable, hseekpt, hdirloc⟩ := @storedWhole_storeDir _ _ _
      junk dir.ino hloc hseek dir.whole dir.lays
      fun e he => ⟨(dir.valid e he).1, (dir.valid e he).2.1⟩
    rw [hstep]
    refine ⟨hdirloc, hseekpt, ?_⟩
    dsimp only
    rw [hdf, htable]
    generalize (extracted junk dirbuf dirs).2.df = df at hfiled
    generalize (extracted junk dirbuf dirs).1 = inotab at hfiled
    have hlookup : ∀ ino,
        inotablookup (allocinotab ⟨dir.ino, df.length, stored.length⟩ inotab) ino =
        if dir.ino = ino then some ⟨dir.ino, df.length, stored.length⟩
        else inotablookup inotab ino := inotablookup_allocinotab _ inotab
    have hother : ∀ ino ≠ dir.ino, dirsOf (dirs ++ [dir]) ino = dirsOf dirs ino :=
      fun ino hne => dirsOf_append_of_ne hne.symm
    have hsame := dirsOf_append_self hnew
    have hnewFile : InFile (df ++ stored) ⟨dir.ino, df.length, stored.length⟩ dir.entries :=
      ⟨(List.length_append).ge, by rwa [shift_ofList_append]⟩
    have hold : ∀ ino itp, inotablookup inotab ino = some itp →
        itp.tSeekpt + itp.tSize ≤ df.length := by
      intro ino itp hitp
      cases hes : dirsOf dirs ino with
      | none => cases hitp.symm.trans (hfiled.leaf ino hes)
      | some es =>
        obtain ⟨a, ha, hfile⟩ := hfiled.node ino es hes
        obtain rfl := Option.some.inj (hitp.symm.trans ha)
        exact hfile.le
    constructor
    case leaf =>
      intro ino hes
      have hne : dir.ino ≠ ino := by
        rintro rfl
        cases hsame.symm.trans hes
      rw [hlookup, if_neg hne]
      exact hfiled.leaf ino (hother ino hne.symm ▸ hes)
    case node =>
      intro ino es hes
      rw [hlookup]
      by_cases hne : dir.ino = ino
      · obtain rfl := hne
        obtain rfl := Option.some.inj (hsame.symm.trans hes)
        exact ⟨_, if_pos rfl, hnewFile⟩
      · rw [if_neg hne]
        obtain ⟨itp, hitp, hfile⟩ := hfiled.node ino es (hother ino (Ne.symm hne) ▸ hes)
        exact ⟨itp, hitp, hfile.append stored⟩
    case entries =>
      intro ino es hes
      by_cases hne : dir.ino = ino
      · obtain rfl := hne
        obtain rfl := Option.some.inj (hsame.symm.trans hes)
        exact dir.valid
      · exact hfiled.entries ino es (hother ino (Ne.symm hne) ▸ hes)
    case apart =>
      intro i j a b ha hb hij
      rw [hlookup] at ha hb
      split at ha
      case isTrue hi =>
        rw [if_neg fun hj => hij (hi.symm.trans hj)] at hb
        obtain rfl := Option.some.inj ha
        exact .inr (hold j b hb)
      case isFalse hi =>
        split at hb
        · obtain rfl := Option.some.inj hb
          exact .inl (hold i a ha)
        · exact hfiled.apart i j a b ha hb hij

/-- The first directory starts at the start of the file. -/
theorem lookup_first (dir : TapeDir maxino) (dirs : List (TapeDir maxino))
    (hinos : ((dir :: dirs).map TapeDir.ino).Nodup) :
    ∃ itp, inotablookup (extracted junk dirbuf (dir :: dirs)).1 dir.ino = some itp ∧
      itp.tSeekpt = 0 := by
  induction dirs using List.reverseRecOn with
  | nil =>
    refine ⟨(storeDir junk dir.ino dir.calls ⟨[], 0, dirbuf, 0, 0⟩).1, ?_, rfl⟩
    simp only [extracted, extractdirs, List.map_cons, List.map_nil, List.foldl_cons, List.foldl_nil]
    exact (inotablookup_allocinotab _ _ _).trans (if_pos rfl)
  | append_singleton dirs last ih =>
    rw [← List.cons_append, List.map_append, List.nodup_append] at hinos
    obtain ⟨hinos, -, hlast⟩ := hinos
    obtain ⟨itp, hitp, hzero⟩ := ih hinos
    refine ⟨itp, ?_, hzero⟩
    rw [← hitp, ← List.cons_append]
    simp only [extracted, extractdirs, List.map_append, List.foldl_append]
    refine (inotablookup_allocinotab _ _ _).trans (if_neg fun heq => ?_)
    exact hlast dir.ino List.mem_cons_self last.ino List.mem_cons_self heq.symm

/-- What is in the memory of a reader that was opened does not matter for the first search. -/
theorem pathsearch_dot (dir : TapeDir maxino) (dirs : List (TapeDir maxino))
    (hinos : ((dir :: dirs).map TapeDir.ino).Nodup) (hroot : dir.ino = rootino) (ddSize : ℤ)
    (ddBuf : Mem) : ∃ d', pathsearch (extracted junk dirbuf (dir :: dirs)).2.df
        (extracted junk dirbuf (dir :: dirs)).1 maxino [46] ⟨0, 0, ddSize, ddBuf⟩ =
          some (resolve (dirsOf (dir :: dirs)) rootino none (names [46]), d') ∧
      Idle (extracted junk dirbuf (dir :: dirs)).2.df (extracted junk dirbuf (dir :: dirs)).1
        (dirsOf (dir :: dirs)) d' := by
  obtain ⟨itp, hitp, hzero⟩ := lookup_first junk dirbuf dir dirs hinos
  have hfiled := (extracting_extracted junk dirbuf (dir :: dirs) hinos).filed
  have hes : dirsOf (dir :: dirs) rootino = some dir.entries := by
    rw [dirsOf, List.find?_cons, beq_iff_eq.mpr hroot]
    rfl
  rw [hroot] at hitp
  obtain ⟨a, ha, hfile⟩ := hfiled.node rootino dir.entries hes
  obtain rfl := Option.some.inj (hitp.symm.trans ha)
  generalize (extracted junk dirbuf (dir :: dirs)).2.df = file at *
  have hstart : Positioned file itp.tSeekpt 0 ⟨0, 0, ddSize, ddBuf⟩ :=
    .inl ⟨rfl, by rw [hzero], rfl⟩
  have hseek : Positioned file itp.tSeekpt 0
      (rstSeekdir file itp.tSeekpt itp.tSeekpt ⟨0, 0, ddSize, ddBuf⟩) :=
    @positioned_rstSeekdir file itp.tSeekpt 0 _ fun _ => hstart
  obtain ⟨d', hsearch, hidle⟩ := searchLoop_eq hfiled hitp hes [46]
    (List.nil_append dir.entries).symm rfl hseek rfl (Nat.lt_succ_of_lt hfile.length_lt)
  refine ⟨d', ?_, hidle⟩
  have hnames : names [46] = [[46]] := by decide +kernel
  rw [pathsearch, if_pos (by decide), hnames, pathLoop, searchdir, hitp]
  dsimp only
  rw [hsearch, resolve, hes, Option.bind_some]
  cases dir.entries.find? (·.dName = [46]) with
  | none => rfl
  | some dp => rfl

/-- An entry of a directory leads to one that was not stored before it, so to one behind it in the
file. -/
theorem tSeekpt_le (dirs : List (TapeDir maxino)) (hinos : (dirs.map TapeDir.ino).Nodup)
    (hforward : dirs.Pairwise fun dir dir' => ∀ e ∈ realEntries dir'.entries, e.dIno ≠ dir.ino)
    {ino : ℕ} {e : Direct} {child : Inotab} (hes : dirsOf dirs ino = some es)
    (he : e ∈ realEntries es) (hitp : inotablookup (extracted junk dirbuf dirs).1 ino = some itp)
    (hchild : inotablookup (extracted junk dirbuf dirs).1 e.dIno = some child) :
    itp.tSeekpt ≤ child.tSeekpt := by
  induction dirs using List.reverseRecOn generalizing itp child with
  | nil => cases hes
  | append_singleton dirs dir ih =>
    rw [List.map_append, List.nodup_append] at hinos
    obtain ⟨hinos, -, hnew⟩ := hinos
    rw [List.pairwise_append] at hforward
    obtain ⟨hforward, -, hlast⟩ := hforward
    obtain ⟨-, hseek, hfiled⟩ := extracting_extracted junk dirbuf dirs hinos
    have hlookup : ∀ i, inotablookup (extracted junk dirbuf (dirs ++ [dir])).1 i =
        if dir.ino = i then
          some (storeDir junk dir.ino dir.calls (extracted junk dirbuf dirs).2).1
        else inotablookup (extracted junk dirbuf dirs).1 i := by
      intro i
      simp only [extracted, extractdirs, List.map_append, List.foldl_append]
      exact inotablookup_allocinotab _ _ i
    have hseekpt : (storeDir junk dir.ino dir.calls (extracted junk dirbuf dirs).2).1.tSeekpt =
        (extracted junk dirbuf dirs).2.df.length := hseek
    rw [hlookup] at hitp hchild
    by_cases hino : dir.ino = ino
    · -- the directory that was stored last has no entry for an earlier one
      subst hino
      obtain rfl := Option.some.inj ((dirsOf_append_self hnew).symm.trans hes)
      rw [if_pos rfl] at hitp
      by_cases hself : dir.ino = e.dIno
      · rw [if_pos hself] at hchild
        exact (congrArg Inotab.tSeekpt (Option.some.inj (hitp.symm.trans hchild))).le
      · rw [if_neg hself] at hchild
        cases hearlier : dirs.find? (·.ino == e.dIno) with
        | none => cases hchild.symm.trans (hfiled.leaf e.dIno (by rw [dirsOf, hearlier]; rfl))
        | some dir' =>
          have hdir' : dir'.ino = e.dIno := by simpa using List.find?_some hearlier
          exact absurd hdir'.symm (hlast dir' (List.mem_of_find?_eq_some hearlier) dir
            List.mem_cons_self e he)
    · rw [if_neg hino] at hitp
      rw [dirsOf_append_of_ne hino] at hes
      by_cases hself : dir.ino = e.dIno
      · rw [if_pos hself] at hchild
        obtain rfl := Option.some.inj hchild
        obtain ⟨a, ha, hfile⟩ := hfiled.node ino es hes
        obtain rfl := Option.some.inj (hitp.symm.trans ha)
        have hroom := hfile.le
        omega
      · rw [if_neg hself] at hchild
        exact ih hinos hforward hes hitp hchild

/-- Where no directory has an entry for one that was stored before it, no walk seeks back to the end
of a directory. -/
theorem clear_extracted (dirs : List (TapeDir maxino)) (hinos : (dirs.map TapeDir.ino).Nodup)
    (hforward : dirs.Pairwise fun dir dir' => ∀ e ∈ realEntries dir'.entries, e.dIno ≠ dir.ino) :
    Clear (extracted junk dirbuf dirs).2.df (extracted junk dirbuf dirs).1 (dirsOf dirs) := by
  intro ino itp es e q child hitp hes hq hchild
  have hfiled := (extracting_extracted junk dirbuf dirs hinos).filed
  obtain ⟨pre, rest, hpre, hreal, hlays⟩ := hq
  have hle := tSeekpt_le junk dirbuf dirs hinos hforward hes (hreal.subset List.mem_cons_self) hitp
    hchild
  have hbehind : Behind (extracted junk dirbuf dirs).2.df itp es q :=
    ⟨pre ++ [e], by simp, ⟨rest, by rw [hpre, List.append_assoc]; rfl⟩, hlays⟩
  obtain ⟨a, ha, hfile⟩ := hfiled.node ino es hes
  obtain rfl := Option.some.inj (hitp.symm.trans ha)
  have hlt := hbehind.lt hfile
  by_cases hself : ino = e.dIno
  · rw [← hself] at hchild
    obtain rfl := Option.some.inj (hitp.symm.trans hchild)
    rw [stop, howmany, rstDirblksiz]
    omega
  · have hapart := hfiled.apart ino e.dIno itp child hitp hchild hself
    have hstop : child.tSeekpt ≤ stop child := Nat.le_add_right _ _
    rcases hapart with hapart | hapart
    · omega
    · obtain ⟨es', hes'⟩ : ∃ es', dirsOf dirs e.dIno = some es' := by
        cases hes' : dirsOf dirs e.dIno with
        | none => cases hchild.symm.trans (hfiled.leaf e.dIno hes')
        | some es' => exact ⟨es', rfl⟩
      obtain ⟨b, hb, hfile'⟩ := hfiled.node e.dIno es' hes'
      obtain rfl := Option.some.inj (hchild.symm.trans hb)
      obtain ⟨p, -, -, -, hn, -⟩ := hfile'.whole
      omega

end Extract

/-! ## A small tree -/

/-- The block of a root directory with the directory `d` and, behind it, the file `a`. -/
def rootBytes : List UInt8 :=
  (Direct.bytes ⟨2, 4, [46]⟩ 12 ++ [0, 0] ++ Direct.bytes ⟨2, 4, [46, 46]⟩ 12 ++ [0] ++
    Direct.bytes ⟨11, 4, [100]⟩ 12 ++ [0, 0] ++ Direct.bytes ⟨12, 8, [97]⟩ 476) ++
    List.replicate 978 0

/-- The block of the directory `d` with the file `b`. -/
def subBytes : List UInt8 :=
  (Direct.bytes ⟨11, 4, [46]⟩ 12 ++ [0, 0] ++ Direct.bytes ⟨2, 4, [46, 46]⟩ 12 ++ [0] ++
    Direct.bytes ⟨13, 8, [98]⟩ 488) ++ List.replicate 990 0

theorem length_rootBytes : rootBytes.length = tpBsize := by decide +kernel

theorem length_subBytes : subBytes.length = tpBsize := by decide +kernel

def rootBlock : Block := ⟨rootBytes, length_rootBytes⟩

def subBlock : Block := ⟨subBytes, length_subBytes⟩

def rootEntries : List Direct := [⟨2, 4, [46]⟩, ⟨2, 4, [46, 46]⟩, ⟨11, 4, [100]⟩, ⟨12, 8, [97]⟩]

def subEntries : List Direct := [⟨11, 4, [46]⟩, ⟨2, 4, [46, 46]⟩, ⟨13, 8, [98]⟩]

theorem fill_whole (block : Block) : ∀ c ∈ [Call.fill [block] 512], WholeBlocks c := by
  intro c hc
  exact ⟨[block], 512, List.mem_singleton.mp hc, rfl, by rw [List.length_singleton]; decide⟩

theorem delivered_fill (block : Block) :
    delivered [Call.fill [block] 512] = block.bytes.take 512 := by
  simp [Call.bytes]

theorem length_delivered_fill (block : Block) :
    (delivered [Call.fill [block] 512]).length = 512 := by
  rw [delivered_fill, List.length_take, block.length_bytes]
  decide

/-- An entry in the part of the block that is delivered. -/
theorem entryAt_fill (block : Block) {a r : ℕ} {e : Direct} (hle : a + (e.dNamlen + 9) ≤ 512)
    (heq : ((block.bytes.take 512).drop a).take (e.dNamlen + 9) = e.bytes r) :
    EntryAt (ofList (delivered [Call.fill [block] 512])) a e r := by
  rw [EntryAt, read_ofList _ (by rw [length_delivered_fill]; exact hle), delivered_fill]
  exact heq

theorem rootBlock_lays : Lays (ofList (delivered [Call.fill [rootBlock] 512])) 512 0 rootEntries
    (delivered [Call.fill [rootBlock] 512]).length := by
  rw [length_delivered_fill]
  exact ⟨12, entryAt_fill rootBlock (by decide) (by decide +kernel),
    ⟨by decide, by decide, by decide⟩,
    12, entryAt_fill rootBlock (by decide) (by decide +kernel), ⟨by decide, by decide, by decide⟩,
    12, entryAt_fill rootBlock (by decide) (by decide +kernel), ⟨by decide, by decide, by decide⟩,
    476, entryAt_fill rootBlock (by decide) (by decide +kernel), ⟨by decide, by decide, by decide⟩,
    rfl⟩

theorem subBlock_lays : Lays (ofList (delivered [Call.fill [subBlock] 512])) 512 0 subEntries
    (delivered [Call.fill [subBlock] 512]).length := by
  rw [length_delivered_fill]
  exact ⟨12, entryAt_fill subBlock (by decide) (by decide +kernel),
    ⟨by decide, by decide, by decide⟩,
    12, entryAt_fill subBlock (by decide) (by decide +kernel), ⟨by decide, by decide, by decide⟩,
    488, entryAt_fill subBlock (by decide) (by decide +kernel), ⟨by decide, by decide, by decide⟩,
    rfl⟩

theorem valid_of_lt {e : Direct} (hne : e.dIno ≠ 0) (hlt : e.dIno < 100) (htype : e.dType < 2 ^ 8)
    (hpos : 0 < e.dName.length) (hlen : e.dName.length < 2 ^ 8) (hnul : ∀ c ∈ e.dName, c ≠ 0) :
    e.Valid ∧ e.dIno ≠ 0 ∧ e.dIno < 100 :=
  ⟨⟨hlt.trans (by decide), htype, hpos, hlen, hnul⟩, hne, hlt⟩

theorem rootEntries_valid : ∀ e ∈ rootEntries, e.Valid ∧ e.dIno ≠ 0 ∧ e.dIno < 100 := by
  simp only [rootEntries, List.mem_cons, List.not_mem_nil, or_false]
  rintro e (rfl | rfl | rfl | rfl)
  all_goals
    exact valid_of_lt (by decide) (by decide) (by decide) (by decide) (by decide) (by simp)

theorem subEntries_valid : ∀ e ∈ subEntries, e.Valid ∧ e.dIno ≠ 0 ∧ e.dIno < 100 := by
  simp only [subEntries, List.mem_cons, List.not_mem_nil, or_false]
  rintro e (rfl | rfl | rfl)
  all_goals
    exact valid_of_lt (by decide) (by decide) (by decide) (by decide) (by decide) (by simp)

def rootDir : TapeDir 100 where
  ino := 2
  calls := [.fill [rootBlock] 512]
  entries := rootEntries
  whole := fill_whole rootBlock
  lays := rootBlock_lays
  valid := rootEntries_valid

def subDir : TapeDir 100 where
  ino := 11
  calls := [.fill [subBlock] 512]
  entries := subEntries
  whole := fill_whole subBlock
  lays := subBlock_lays
  valid := subEntries_valid

theorem rootDir_inos : ([rootDir, subDir].map TapeDir.ino).Nodup := by decide

theorem rootDir_clear : Clear (extracted (fun _ => 0) (fun _ => 0) [rootDir, subDir]).2.df
    (extracted (fun _ => 0) (fun _ => 0) [rootDir, subDir]).1 (dirsOf [rootDir, subDir]) := by
  refine clear_extracted _ _ [rootDir, subDir] rootDir_inos ?_
  rw [List.pairwise_pair]
  intro e he
  rw [show realEntries subDir.entries = [⟨13, 8, [98]⟩] from rfl] at he
  rw [List.mem_singleton.mp he]
  decide

theorem rootDir_names {ino : ℕ} {es : List Direct} (hes : dirsOf [rootDir, subDir] ino = some es) :
    (realEntries es).Pairwise (fun e e' => e.dName ≠ e'.dName) ∧
      ∀ e ∈ realEntries es, 47 ∉ e.dName := by
  obtain ⟨dir, hdir, rfl⟩ := Option.map_eq_some_iff.mp hes
  have hmem := List.mem_of_find?_eq_some hdir
  simp only [List.mem_cons, List.not_mem_nil, or_false] at hmem
  rcases hmem with rfl | rfl
  · rw [show realEntries rootDir.entries = [⟨11, 4, [100]⟩, ⟨12, 8, [97]⟩] from rfl]
    simp
  · rw [show realEntries subDir.entries = [⟨13, 8, [98]⟩] from rfl]
    simp

/-- A function for walks that writes its calls down. -/
def recordCall (name : List UInt8) (ino : ℕ) (type : EntryType)
    (s : List (List UInt8 × ℕ × EntryType)) : Bool × List (List UInt8 × ℕ × EntryType) :=
  (true, s ++ [(name, ino, type)])

/-! ## Searches and walks through what was stored -/

section Results

variable {maxino : ℕ} {junk dirbuf : Mem}

/-- **Any searches and walks** through the directories that `extractdirs` has stored, behind the
search for `.` that it makes itself. -/
theorem uses_exact {σ : Type} (todo : List UInt8 → ℕ → EntryType → σ → Bool × σ)
    (dir : TapeDir maxino) (dirs : List (TapeDir maxino))
    (hinos : ((dir :: dirs).map TapeDir.ino).Nodup) (hroot : dir.ino = rootino)
    (hclear : Clear (extracted junk dirbuf (dir :: dirs)).2.df
      (extracted junk dirbuf (dir :: dirs)).1 (dirsOf (dir :: dirs)))
    (uses : List Use) (s : σ) (ddSize : ℤ) (ddBuf : Mem) :
    ∃ d d', pathsearch (extracted junk dirbuf (dir :: dirs)).2.df
          (extracted junk dirbuf (dir :: dirs)).1 maxino [46] ⟨0, 0, ddSize, ddBuf⟩ =
        some (resolve (dirsOf (dir :: dirs)) rootino none (names [46]), d) ∧
      runUses (extracted junk dirbuf (dir :: dirs)).2.df (extracted junk dirbuf (dir :: dirs)).1
          maxino todo (s, d) uses =
        some ((meanings (dirsOf (dir :: dirs)) todo s uses).1,
          ((meanings (dirsOf (dir :: dirs)) todo s uses).2, d')) := by
  obtain ⟨d, hdot, hidle⟩ := pathsearch_dot junk dirbuf dir dirs hinos hroot ddSize ddBuf
  have hfiled := (extracting_extracted junk dirbuf (dir :: dirs) hinos).filed
  obtain ⟨d', hrun, -⟩ := runUses_eq todo hfiled hclear uses s hidle
  exact ⟨d, d', hdot, hrun⟩

theorem dot_lt : [46].length < maxpathlen := by decide

theorem dotSlashA_lt : [46, 47, 97].length < maxpathlen := by decide

theorem uses_exact_rootDir : ∃ d d',
    pathsearch (extracted (fun _ => 0) (fun _ => 0) [rootDir, subDir]).2.df
        (extracted (fun _ => 0) (fun _ => 0) [rootDir, subDir]).1 100 [46] ⟨0, 0, 0, fun _ => 0⟩ =
      some (some ⟨2, 4, [46]⟩, d) ∧
    runUses (extracted (fun _ => 0) (fun _ => 0) [rootDir, subDir]).2.df
        (extracted (fun _ => 0) (fun _ => 0) [rootDir, subDir]).1 100 recordCall ([], d)
        [.treescan [46] dot_lt 2, .pathsearch [46, 47, 97] dotSlashA_lt] =
      some ([none, some ⟨12, 8, [97]⟩],
        ([([46], 2, .node), ([46, 47, 100], 11, .node), ([46, 47, 100, 47, 98], 13, .leaf),
          ([46, 47, 97], 12, .leaf)], d')) :=
  uses_exact recordCall rootDir [subDir] rootDir_inos rfl rootDir_clear
    [.treescan [46] dot_lt 2, .pathsearch [46, 47, 97] dotSlashA_lt] [] 0 (fun _ => 0)

/-- **A walk that goes on in every directory** calls its function for the paths that can be reached
from where it starts, for each once, and for a directory before what is below it. -/
theorem treescan_calls (dir : TapeDir maxino) (dirs : List (TapeDir maxino))
    (hinos : ((dir :: dirs).map TapeDir.ino).Nodup) (hroot : dir.ino = rootino)
    (hclear : Clear (extracted junk dirbuf (dir :: dirs)).2.df
      (extracted junk dirbuf (dir :: dirs)).1 (dirsOf (dir :: dirs)))
    (hnames : ∀ ino es, dirsOf (dir :: dirs) ino = some es →
      (realEntries es).Pairwise (fun e e' => e.dName ≠ e'.dName) ∧
        ∀ e ∈ realEntries es, 47 ∉ e.dName)
    (pname : List UInt8) (hlen : pname.length < maxpathlen) (ino : ℕ) :
    ∃ cs : List (List UInt8 × ℕ × EntryType),
      (∀ path i type, (path, i, type) ∈ cs ↔ Reaches (dirsOf (dir :: dirs)) pname ino path i ∧
        type = if dirsOf (dir :: dirs) i = none then .leaf else .node) ∧
      (cs.Pairwise fun a b => ¬ Under b.1 a.1) ∧
      ∀ (σ : Type) (todo : List UInt8 → ℕ → EntryType → σ → Bool × σ),
        (∀ name ino s, (todo name ino .node s).1 = true) →
        ∀ (uses : List Use) (s : σ) (ddSize : ℤ) (ddBuf : Mem), ∃ d q,
          (pathsearch (extracted junk dirbuf (dir :: dirs)).2.df
            (extracted junk dirbuf (dir :: dirs)).1 maxino [46] ⟨0, 0, ddSize, ddBuf⟩).map
              Prod.snd = some d ∧
          (runUses (extracted junk dirbuf (dir :: dirs)).2.df
            (extracted junk dirbuf (dir :: dirs)).1 maxino todo (s, d) uses).map Prod.snd = some q ∧
          (treescan (extracted junk dirbuf (dir :: dirs)).2.df
            (extracted junk dirbuf (dir :: dirs)).1 maxino todo (maxpathlen + 1) pname ino q.1
              q.2).map Prod.fst =
            some (cs.foldl (fun s c => (todo c.1 c.2.1 c.2.2 s).2) q.1) := by
  have hfiled := (extracting_extracted junk dirbuf (dir :: dirs) hinos).filed
  have hfuel := Nat.lt_add_left pname.length (Nat.lt_succ_self maxpathlen)
  have hpos : ∀ ino es, dirsOf (dir :: dirs) ino = some es → ∀ e ∈ es, 0 < e.dNamlen :=
    fun ino es hes e he => (hfiled.entries ino es hes e he).1.dName_pos
  refine ⟨calls (dirsOf (dir :: dirs)) (maxpathlen + 1) pname ino,
    fun path i type => mem_calls hpos hlen.le hfuel, pairwise_calls hpos hnames hlen.le hfuel, ?_⟩
  intro σ todo hall uses s ddSize ddBuf
  obtain ⟨d, hdot, hidle⟩ := pathsearch_dot junk dirbuf dir dirs hinos hroot ddSize ddBuf
  obtain ⟨d', hrun, hidle'⟩ := runUses_eq todo hfiled hclear uses s hidle
  obtain ⟨d'', hscan, -⟩ := treescan_eq todo hfiled hclear hlen.le hfuel ino
    (meanings (dirsOf (dir :: dirs)) todo s uses).2 hidle'
  refine ⟨d, ((meanings (dirsOf (dir :: dirs)) todo s uses).2, d'), ?_, ?_, ?_⟩
  · rw [hdot, Option.map_some]
  · rw [hrun, Option.map_some]
  · rw [hscan, Option.map_some, visit_eq_foldl hall]

theorem treescan_calls_rootDir : ∃ cs : List (List UInt8 × ℕ × EntryType),
    (∀ path i type, (path, i, type) ∈ cs ↔ Reaches (dirsOf [rootDir, subDir]) [46] 2 path i ∧
      type = if dirsOf [rootDir, subDir] i = none then .leaf else .node) ∧
    (cs.Pairwise fun a b => ¬ Under b.1 a.1) ∧
    ∀ (σ : Type) (todo : List UInt8 → ℕ → EntryType → σ → Bool × σ),
      (∀ name ino s, (todo name ino .node s).1 = true) →
      ∀ (uses : List Use) (s : σ) (ddSize : ℤ) (ddBuf : Mem), ∃ d q,
        (pathsearch (extracted (fun _ => 0) (fun _ => 0) [rootDir, subDir]).2.df
          (extracted (fun _ => 0) (fun _ => 0) [rootDir, subDir]).1 100 [46]
            ⟨0, 0, ddSize, ddBuf⟩).map Prod.snd = some d ∧
        (runUses (extracted (fun _ => 0) (fun _ => 0) [rootDir, subDir]).2.df
          (extracted (fun _ => 0) (fun _ => 0) [rootDir, subDir]).1 100 todo (s, d)
            uses).map Prod.snd = some q ∧
        (treescan (extracted (fun _ => 0) (fun _ => 0) [rootDir, subDir]).2.df
          (extracted (fun _ => 0) (fun _ => 0) [rootDir, subDir]).1 100 todo (maxpathlen + 1) [46]
            2 q.1 q.2).map Prod.fst = some (cs.foldl (fun s c => (todo c.1 c.2.1 c.2.2 s).2) q.1) :=
  treescan_calls rootDir [subDir] rootDir_inos rfl rootDir_clear (fun _ _ => rootDir_names) [46]
    dot_lt 2

end Results

end TreeScan

end DumpRestore
