import Mathlib.Data.List.Chain
import Mathlib.Order.Defs.LinearOrder

/-!
# Extracting the leaves

For the commands `r` and `R` the files on tape are merged with the leaves of the symbol table that
are to be extracted. Both are in the order of inode numbers.

* `createleaves` is the merge. The next leaf is found by a search of the symbol table, the next
  file by extracting or skipping one.
* `notFound_eq`: the loop that reports leaves goes up to the file on tape.
* `merge_eq`: what the merge does from any file on.
* `createleaves_merge`: what is extracted, reported and skipped.
-/

namespace DumpRestore.Leaves

/-! ## The state -/

/-- The entry that heads the links of an inode. -/
structure InoHead where
  node : Bool
  new : Bool
  extract : Bool
  deriving DecidableEq

/-- What stands on tape: a file, or a map at the start of a volume. -/
inductive Item where
  | file (ino : ℕ) (vol : ℤ)
  | map (vol : ℤ)
  deriving DecidableEq

/-- The volume of an item. -/
def Item.vol : Item → ℤ
  | .file _ vol => vol
  | .map vol => vol

/-- `TS_BITS` and `TS_CLRI`. -/
def Item.isMap : Item → Bool
  | .file .. => false
  | .map _ => true

/-- The state: the symbol table by inode numbers, the tape from the current file on, `volno`, and
what has been done so far. An extraction is the inode of the entry with the file it is made from. -/
structure State where
  maxino : ℕ
  entry : ℕ → Option InoHead
  tape : List Item
  volno : ℤ
  extracted : List (ℕ × Item) := []
  skipped : List Item := []
  reported : List ℕ := []

/-- `WINO`. -/
def wino : ℕ := 1

/-- `ROOTINO`. -/
def rootino : ℕ := 2

namespace State

variable (s : State)

/-- `lookupino`. -/
def lookupino (inum : ℕ) : Option InoHead :=
  if inum < wino ∨ s.maxino ≤ inum then none else s.entry inum

/-- The test in the loop of `lowerbnd`. -/
def wanted (start : ℕ) : Bool :=
  match s.lookupino start with
  | none => false
  | some ep => !ep.node && (ep.new || ep.extract)

/-- The loop of `lowerbnd`, for `n` inodes. -/
def lowerbndFrom : ℕ → ℕ → ℕ
  | 0, start => start
  | n + 1, start => if s.wanted start then start else lowerbndFrom n (start + 1)

/-- `lowerbnd`. -/
def lowerbnd (start : ℕ) : ℕ := s.lowerbndFrom (s.maxino - start) start

/-- `curfile.ino`. -/
def curfileIno : ℕ :=
  match s.tape with
  | [] => s.maxino
  | .file ino _ :: _ => ino
  | .map _ :: _ => 0

/-- `ep->e_flags &= ~(NEW|EXTRACT)`. -/
def clear (ino : ℕ) : State :=
  { s with entry := fun i =>
      if i = ino then (s.entry i).map fun ep => { ep with new := false, extract := false }
      else s.entry i }

/-- The tape goes on to the next item. -/
def advance : State :=
  { s with
    tape := s.tape.tail
    volno := (s.tape.tail.head?.map Item.vol).getD s.volno }

/-- `skipmaps`, for `n` items. -/
def skipmaps : ℕ → State → State
  | 0, s => s
  | n + 1, s =>
    match s.tape with
    | .map _ :: _ => skipmaps n s.advance
    | _ => s

end State

/-! ## The merge -/

/-- The loop that reports leaves as not found. It gives up `first` and the state, or panics. -/
def notFound : ℕ → ℕ → State → Option (ℕ × State)
  | 0, _, _ => none
  | n + 1, first, s =>
    if first < s.curfileIno then
      match s.lookupino first with
      | none => none
      | some _ =>
        let s := ({ s with reported := s.reported ++ [first] }).clear first
        notFound n (s.lowerbnd first) s
    else some (first, s)

/-- The file on tape: it is skipped if another leaf comes first, and extracted otherwise. -/
def takeFile (first : ℕ) (f : Item) (s : State) : Option State :=
  if first ≠ s.curfileIno then some ({ s with skipped := s.skipped ++ [f] }).advance
  else match s.lookupino s.curfileIno with
    | none => none
    | some ep =>
      if !ep.new && !ep.extract then none
      else
        let ino := s.curfileIno
        some ((({ s with extracted := s.extracted ++ [(ino, f)] }).advance).clear ino)

/-- The main loop. -/
def mergeLoop : ℕ → ℕ → ℤ → State → Option (ℕ × State)
  | 0, _, _, _ => none
  | n + 1, first, curvol, s =>
    match s.tape with
    | [] => some (first, s)
    | f :: _ =>
      if s.curfileIno < s.maxino then
        match notFound (s.maxino + 1) (s.lowerbnd first) s with
        | none => none
        | some (first, s) =>
          match takeFile first f s with
          | none => none
          | some s =>
            if curvol ≠ s.volno then
              let s := State.skipmaps s.tape.length s
              mergeLoop n first s.volno s
            else mergeLoop n first curvol s
      else some (first, s)

/-- `createleaves`. -/
def createleaves (s : State) : Option State :=
  match mergeLoop (s.tape.length + 1) (s.lowerbnd rootino) s.volno s with
  | none => none
  | some (first, s) => (notFound (s.maxino + 1) (s.lowerbnd first) s).map Prod.snd

/-! ## The next leaf -/

namespace State

variable {s : State}

/-- A leaf that is to be extracted. Whiteouts, which have the inode `WINO`, are not. -/
def Leaf (s : State) (i : ℕ) : Prop := rootino ≤ i ∧ s.wanted i = true

instance (s : State) : DecidablePred s.Leaf := fun _ => inferInstanceAs (Decidable (_ ∧ _))

theorem lookupino_of_wanted {i : ℕ} (h : s.wanted i = true) : i < s.maxino ∧
    ∃ ep, s.lookupino i = some ep ∧ ep.node = false ∧ (ep.new || ep.extract) = true := by
  rw [wanted] at h
  split at h
  · cases h
  · next ep hep =>
    rw [Bool.and_eq_true, Bool.not_eq_true'] at h
    refine ⟨?_, ep, hep, h⟩
    by_contra hge
    rw [lookupino, if_pos (.inr (le_of_not_gt hge))] at hep
    cases hep

theorem wanted_congr {s' : State} (hmax : s'.maxino = s.maxino) (hentry : s'.entry = s.entry)
    (i : ℕ) : s'.wanted i = s.wanted i := by
  rw [wanted, wanted, lookupino, lookupino, hmax, hentry]

theorem wanted_clear (a i : ℕ) : (s.clear a).wanted i = (s.wanted i && decide (i ≠ a)) := by
  have hlook : (s.clear a).lookupino i = if i = a then
      (s.lookupino i).map fun ep => { ep with new := false, extract := false }
      else s.lookupino i := by
    by_cases hrange : i < wino ∨ s.maxino ≤ i
    · simp [lookupino, clear, hrange]
    · change (if i < wino ∨ s.maxino ≤ i then none else (s.clear a).entry i) = _
      rw [lookupino, if_neg hrange, if_neg hrange]
      rfl
  rw [wanted, wanted, hlook]
  by_cases hi : i = a
  · subst hi
    cases s.lookupino i <;> simp
  · simp [hi]

theorem lowerbndFrom_spec (n start : ℕ) : start ≤ s.lowerbndFrom n start ∧
    s.lowerbndFrom n start ≤ start + n ∧
    (s.lowerbndFrom n start < start + n → s.wanted (s.lowerbndFrom n start) = true) ∧
    ∀ i, start ≤ i → i < s.lowerbndFrom n start → s.wanted i = false := by
  induction n generalizing start with
  | zero => exact ⟨le_rfl, le_rfl, fun h => absurd h (lt_irrefl _), fun i h h' => by
      rw [lowerbndFrom] at h'; omega⟩
  | succ n ih =>
    rw [lowerbndFrom]
    split
    · next h => exact ⟨le_rfl, by omega, fun _ => h, fun i h h' => by omega⟩
    · next h =>
      obtain ⟨h1, h2, h3, h4⟩ := ih (start + 1)
      refine ⟨by omega, by omega, fun hlt => h3 (by omega), fun i hi hlt => ?_⟩
      rcases Nat.eq_or_lt_of_le hi with rfl | hi
      · simpa using h
      · exact h4 i hi hlt

/-- `first` is the next leaf: none comes before it, and it is one where it is an inode. -/
structure Next (s : State) (first : ℕ) : Prop where
  root : rootino ≤ first
  least : ∀ i, s.Leaf i → first ≤ i
  leaf : first < s.maxino → s.Leaf first

/-- **`lowerbnd`** gives the next leaf from any inode that is not above it. -/
theorem next_lowerbnd {first : ℕ} (hroot : rootino ≤ first) (hleast : ∀ i, s.Leaf i → first ≤ i) :
    s.Next (s.lowerbnd first) := by
  obtain ⟨hge, hle, hwanted, hnone⟩ := s.lowerbndFrom_spec (s.maxino - first) first
  refine ⟨hroot.trans hge, fun i hi => ?_, fun hlt => ⟨hroot.trans hge, hwanted ?_⟩⟩
  · by_contra hlt
    have hfalse := hnone i (hleast i hi) (lt_of_not_ge hlt)
    rw [hi.2] at hfalse
    cases hfalse
  · rw [lowerbnd] at hlt
    omega

end State

open State

/-- The files of a tape. -/
def files (tape : List Item) : List Item := tape.filter fun f => !f.isMap

/-- The inode of an item. -/
def Item.ino : Item → ℕ
  | .file ino _ => ino
  | .map _ => 0

/-- What the loop that reports leaves does not touch. -/
structure SameTape (s s' : State) : Prop where
  maxino : s'.maxino = s.maxino
  tape : s'.tape = s.tape
  volno : s'.volno = s.volno
  extracted : s'.extracted = s.extracted
  skipped : s'.skipped = s.skipped

theorem curfileIno_congr {s s' : State} (h : SameTape s s') : s'.curfileIno = s.curfileIno := by
  rw [State.curfileIno, State.curfileIno, h.tape, h.maxino]

/-- **The leaves that are not found** up to the file on tape are reported in order. -/
theorem notFound_eq (n : ℕ) {first : ℕ} {s : State} (hnext : s.Next first)
    (hcur : s.curfileIno ≤ s.maxino) (hn : s.curfileIno - first < n) :
    ∃ first' s' l, notFound n first s = some (first', s') ∧ SameTape s s' ∧
      s'.reported = s.reported ++ l ∧ l.Pairwise (· < ·) ∧
      (∀ i, i ∈ l ↔ s.Leaf i ∧ i < s.curfileIno) ∧
      (∀ i, s'.Leaf i ↔ s.Leaf i ∧ s.curfileIno ≤ i) ∧ s'.Next first' ∧
      s.curfileIno ≤ first' := by
  induction n generalizing first s with
  | zero => omega
  | succ n ih =>
    rw [notFound]
    split
    · next hlt =>
      have hleaf := hnext.leaf (by omega)
      obtain ⟨-, ep, hep, -⟩ := lookupino_of_wanted hleaf.2
      rw [hep]
      generalize hs₁ : ({ s with reported := s.reported ++ [first] } : State).clear first = s₁
      have hsame : SameTape s s₁ := by rw [← hs₁]; exact ⟨rfl, rfl, rfl, rfl, rfl⟩
      have hreported : s₁.reported = s.reported ++ [first] := by rw [← hs₁]; rfl
      have hleaf₁ (i : ℕ) : s₁.Leaf i ↔ s.Leaf i ∧ i ≠ first := by
        have hwanted : s₁.wanted i = (s.wanted i && decide (i ≠ first)) := by
          rw [← hs₁, wanted_clear]
          rfl
        rw [Leaf, Leaf, hwanted, Bool.and_eq_true, decide_eq_true_iff, and_assoc]
      have hafter (i : ℕ) (hi : s₁.Leaf i) : first < i := by
        obtain ⟨hi, hne⟩ := (hleaf₁ i).mp hi
        exact lt_of_le_of_ne (hnext.least i hi) (Ne.symm hne)
      have hnext₁ := next_lowerbnd hnext.root fun i hi => (hafter i hi).le
      have hgt : first < s₁.lowerbnd first ∨ s₁.maxino ≤ s₁.lowerbnd first := by
        by_contra hcon
        rw [not_or] at hcon
        exact hcon.1 (hafter _ (hnext₁.leaf (by omega)))
      have hcur₁ := curfileIno_congr hsame
      have hmax := hsame.maxino
      obtain ⟨first', s', l, hrun, hsame', hrep, hsorted, hmem, hleaf', hnext', hge⟩ :=
        ih hnext₁ (by omega) (by omega)
      refine ⟨first', s', first :: l, hrun, ?_, ?_, ?_, fun i => ?_, fun i => ?_, hnext',
        hcur₁ ▸ hge⟩
      · exact ⟨hsame'.maxino.trans hsame.maxino, hsame'.tape.trans hsame.tape,
          hsame'.volno.trans hsame.volno, hsame'.extracted.trans hsame.extracted,
          hsame'.skipped.trans hsame.skipped⟩
      · rw [hrep, hreported, List.append_assoc, List.singleton_append]
      · exact List.pairwise_cons.mpr ⟨fun i hi => hafter i ((hmem i).mp hi).1, hsorted⟩
      · rw [List.mem_cons, hmem, hleaf₁, hcur₁]
        constructor
        · rintro (rfl | ⟨⟨hi, -⟩, hlt'⟩)
          · exact ⟨hleaf, hlt⟩
          · exact ⟨hi, hlt'⟩
        · rintro ⟨hi, hlt'⟩
          by_cases heq : i = first
          · exact .inl heq
          · exact .inr ⟨⟨hi, heq⟩, hlt'⟩
      · rw [hleaf', hleaf₁, hcur₁]
        constructor
        · exact fun ⟨⟨hi, _⟩, hge'⟩ => ⟨hi, hge'⟩
        · exact fun ⟨hi, hge'⟩ => ⟨⟨hi, by omega⟩, hge'⟩
    · next hge =>
      refine ⟨first, s, [], rfl, ⟨rfl, rfl, rfl, rfl, rfl⟩, by simp, .nil, fun i => ?_, fun i => ?_,
        hnext, le_of_not_gt hge⟩
      · simp only [List.not_mem_nil, false_iff, not_and]
        intro hi
        have := hnext.least i hi
        omega
      · refine ⟨fun hi => ⟨hi, ?_⟩, And.left⟩
        have := hnext.least i hi
        omega

/-! ## The tape -/

/-- A tape from the current file on: the inodes of its files ascend, and after a file a map only
comes with another volume. -/
structure Valid (s : State) : Prop where
  ascending : (files s.tape).Pairwise fun f g => f.ino < g.ino
  inRange : ∀ f ∈ files s.tape, f.ino < s.maxino
  maps : s.tape.IsChain fun f g => f.isMap = false → g.isMap = true → f.vol ≠ g.vol
  head : ∀ f ∈ s.tape.head?, f.isMap = false ∧ f.vol = s.volno

theorem files_cons_file {f : Item} (h : f.isMap = false) (tape : List Item) :
    files (f :: tape) = f :: files tape :=
  List.filter_cons_of_pos (by simp [h])

theorem files_dropWhile (tape : List Item) : files (tape.dropWhile Item.isMap) = files tape := by
  induction tape with
  | nil => rfl
  | cons f tape ih =>
    by_cases h : f.isMap = true
    · rw [List.dropWhile_cons_of_pos h, ih, files, files, List.filter_cons_of_neg (by simp [h])]
    · rw [List.dropWhile_cons_of_neg h]

theorem curfileIno_cons {s : State} {f : Item} {tape : List Item} (h : s.tape = f :: tape) :
    s.curfileIno = f.ino := by
  rw [State.curfileIno, h]
  cases f <;> rfl

/-- **`skipmaps`** goes on to the next file, and does nothing else. -/
theorem skipmaps_eq (n : ℕ) {s : State} (hn : s.tape.length ≤ n)
    (hvol : ∀ f ∈ s.tape.head?, f.vol = s.volno) :
    ∃ s', State.skipmaps n s = s' ∧ s'.tape = s.tape.dropWhile Item.isMap ∧
      (∀ f ∈ s'.tape.head?, f.vol = s'.volno) ∧ s'.maxino = s.maxino ∧ s'.entry = s.entry ∧
      s'.extracted = s.extracted ∧ s'.skipped = s.skipped ∧ s'.reported = s.reported := by
  induction n generalizing s with
  | zero =>
    have hnil : s.tape = [] := List.length_eq_zero_iff.mp (Nat.le_zero.mp hn)
    exact ⟨s, rfl, by rw [hnil]; rfl, hvol, rfl, rfl, rfl, rfl, rfl⟩
  | succ n ih =>
    rw [State.skipmaps]
    split
    · next vol tape htape =>
      have hlen : s.advance.tape.length ≤ n := by
        change s.tape.tail.length ≤ n
        rw [htape] at hn ⊢
        exact Nat.le_of_succ_le_succ hn
      have hadv : ∀ f ∈ s.advance.tape.head?, f.vol = s.advance.volno := by
        intro f hf
        change f ∈ s.tape.tail.head? at hf
        change f.vol = (s.tape.tail.head?.map Item.vol).getD s.volno
        rw [Option.mem_def.mp hf]
        rfl
      obtain ⟨s', hs', htape', hrest⟩ := ih hlen hadv
      refine ⟨s', hs', ?_, hrest⟩
      rw [htape', htape]
      change s.tape.tail.dropWhile Item.isMap = _
      rw [htape]
      rfl
    · next hnot =>
      refine ⟨s, rfl, ?_, hvol, rfl, rfl, rfl, rfl, rfl⟩
      cases htape : s.tape with
      | nil => rfl
      | cons f tape =>
        cases f with
        | file ino vol => rfl
        | map vol => exact absurd htape (hnot vol tape)

/-- One file: it is extracted if it belongs to a leaf, and skipped otherwise. -/
theorem takeFile_eq {s : State} {f : Item} {tape : List Item} {first : ℕ}
    (htape : s.tape = f :: tape) (hmax : f.ino < s.maxino) (hnext : s.Next first)
    (hge : f.ino ≤ first) :
    ∃ s', takeFile first f s = some s' ∧ s'.tape = tape ∧
      s'.volno = (tape.head?.map Item.vol).getD s.volno ∧ s'.maxino = s.maxino ∧
      s'.reported = s.reported ∧
      s'.extracted = s.extracted ++ (if s.Leaf f.ino then [(f.ino, f)] else []) ∧
      s'.skipped = s.skipped ++ (if s.Leaf f.ino then [] else [f]) ∧
      ∀ i, s'.Leaf i ↔ s.Leaf i ∧ i ≠ f.ino := by
  have hcur := curfileIno_cons htape
  rw [takeFile, hcur]
  split
  · next hne =>
    have hnot : ¬s.Leaf f.ino := fun h => hne (le_antisymm (hnext.least _ h) hge)
    refine ⟨_, rfl, by simp [State.advance, htape], by simp [State.advance, htape], rfl, rfl,
      by simp [hnot, State.advance], by simp [hnot, State.advance], fun i => ?_⟩
    change s.Leaf i ↔ _
    exact ⟨fun hi => ⟨hi, fun heq => hnot (heq ▸ hi)⟩, And.left⟩
  · next heq =>
    rw [ne_eq, not_not] at heq
    have hleaf : s.Leaf f.ino := heq ▸ hnext.leaf (heq ▸ hmax)
    obtain ⟨-, ep, hep, -, hflags⟩ := lookupino_of_wanted hleaf.2
    rw [hep]
    dsimp only
    rw [if_neg (by rw [Bool.or_eq_true] at hflags; rcases hflags with h | h <;> simp [h])]
    refine ⟨_, rfl, by simp [State.advance, State.clear, htape],
      by simp [State.advance, State.clear, htape], rfl, rfl,
      by simp [hleaf, State.advance, State.clear], by simp [hleaf, State.advance, State.clear],
      fun i => ?_⟩
    have hwanted (s₁ : State) (h : ∀ j, s₁.wanted j = s.wanted j) :
        (s₁.clear f.ino).Leaf i ↔ s.Leaf i ∧ i ≠ f.ino := by
      rw [State.Leaf, State.Leaf, wanted_clear, Bool.and_eq_true, decide_eq_true_iff, and_assoc, h]
    exact hwanted _ fun j => rfl

/-- The tape after a file, where the next maps are skipped. -/
theorem Valid.tail {s s' : State} {f : Item} {tape : List Item} (h : Valid s)
    (htape : s.tape = f :: tape) (hmax : s'.maxino = s.maxino)
    (htape' : s'.tape = tape.dropWhile Item.isMap) (hvol : ∀ g ∈ s'.tape.head?, g.vol = s'.volno) :
    Valid s' := by
  have hfile : f.isMap = false := (h.head f (by rw [htape]; rfl)).1
  have hfiles : files s.tape = f :: files s'.tape := by
    rw [htape, files_cons_file hfile, htape', files_dropWhile]
  refine ⟨?_, fun g hg => ?_, ?_, fun g hg => ⟨?_, hvol g hg⟩⟩
  · have := h.ascending
    rw [hfiles] at this
    exact (List.pairwise_cons.mp this).2
  · rw [hmax]
    exact h.inRange g (hfiles ▸ List.mem_cons_of_mem _ hg)
  · have := h.maps
    rw [htape] at this
    rw [htape']
    exact this.tail.suffix (List.dropWhile_suffix _)
  · have hnot := List.head?_dropWhile_not Item.isMap tape
    rw [← htape', Option.mem_def.mp hg] at hnot
    simpa using hnot

/-- What has become of the tape: every file is extracted or skipped, and the leaves up to the last
file are extracted or reported. -/
structure Merged (s s' : State) : Prop where
  maxino : s'.maxino = s.maxino
  extracted : s'.extracted = s.extracted ++
    ((files s.tape).filter fun f => s.Leaf f.ino).map fun f => (f.ino, f)
  skipped : s'.skipped = s.skipped ++ (files s.tape).filter fun f => ¬s.Leaf f.ino
  reported : ∃ l, s'.reported = s.reported ++ l ∧ l.Pairwise (· < ·) ∧
    ∀ i, i ∈ l ↔ s.Leaf i ∧ (∃ f ∈ files s.tape, i < f.ino) ∧ ∀ f ∈ files s.tape, i ≠ f.ino
  leaves : ∀ i, s'.Leaf i ↔ s.Leaf i ∧ ∀ f ∈ files s.tape, f.ino < i

/-- One file and the leaves before it, and then the rest. -/
theorem Merged.cons {s s₂ s' : State} {f : Item} {rest : List Item} {l : List ℕ}
    (hfiles : files s.tape = f :: rest)
    (hascending : (files s.tape).Pairwise fun f g => f.ino < g.ino)
    (hrest : files s₂.tape = rest) (hmax : s₂.maxino = s.maxino)
    (hextracted : s₂.extracted = s.extracted ++ (if s.Leaf f.ino then [(f.ino, f)] else []))
    (hskipped : s₂.skipped = s.skipped ++ (if s.Leaf f.ino then [] else [f]))
    (hreported : s₂.reported = s.reported ++ l) (hsorted : l.Pairwise (· < ·))
    (hl : ∀ i, i ∈ l ↔ s.Leaf i ∧ i < f.ino) (hleaf : ∀ i, s₂.Leaf i ↔ s.Leaf i ∧ f.ino < i)
    (h : Merged s₂ s') : Merged s s' := by
  rw [hfiles] at hascending
  have hlater := (List.pairwise_cons.mp hascending).1
  have hsame : ∀ g ∈ rest, s₂.Leaf g.ino ↔ s.Leaf g.ino := fun g hg => by
    rw [hleaf]
    exact and_iff_left (hlater g hg)
  obtain ⟨l', hreported', hsorted', hl'⟩ := h.reported
  rw [hrest] at hl'
  refine ⟨h.maxino.trans hmax, ?_, ?_, ⟨l ++ l', ?_, ?_, fun i => ?_⟩, fun i => ?_⟩
  · have hcongr : rest.filter (fun g => decide (s₂.Leaf g.ino)) =
        rest.filter fun g => decide (s.Leaf g.ino) :=
      List.filter_congr fun g hg => by rw [decide_eq_decide]; exact hsame g hg
    rw [h.extracted, hextracted, hrest, hfiles, hcongr, List.filter_cons]
    by_cases hf : s.Leaf f.ino <;> simp [hf]
  · have hcongr : rest.filter (fun g => decide (¬s₂.Leaf g.ino)) =
        rest.filter fun g => decide (¬s.Leaf g.ino) :=
      List.filter_congr fun g hg => by rw [decide_eq_decide]; exact not_congr (hsame g hg)
    rw [h.skipped, hskipped, hrest, hfiles, hcongr, List.filter_cons]
    by_cases hf : s.Leaf f.ino <;> simp [hf]
  · rw [hreported', hreported, List.append_assoc]
  · refine List.pairwise_append.mpr ⟨hsorted, hsorted', fun i hi j hj => ?_⟩
    have hi := ((hl i).mp hi).2
    have hj := ((hleaf j).mp ((hl' j).mp hj).1).2
    omega
  · rw [List.mem_append, hl, hl', hleaf, hfiles]
    simp only [List.mem_cons, exists_eq_or_imp, forall_eq_or_imp]
    constructor
    · rintro (⟨hi, hlt⟩ | ⟨⟨hi, hlt⟩, hbelow, hne⟩)
      · exact ⟨hi, .inl hlt, by omega, fun g hg => by have := hlater g hg; omega⟩
      · exact ⟨hi, .inr hbelow, by omega, hne⟩
    · rintro ⟨hi, hbelow, hne, hnes⟩
      rcases Nat.lt_or_gt_of_ne hne with hlt | hgt
      · exact .inl ⟨hi, hlt⟩
      · exact .inr ⟨⟨hi, hgt⟩, hbelow.resolve_left (by omega), hnes⟩
  · rw [h.leaves, hleaf, hrest, hfiles]
    simp only [List.mem_cons, forall_eq_or_imp, and_assoc]

/-- **The main loop** goes to the end of the tape. -/
theorem mergeLoop_eq (n : ℕ) {first : ℕ} {s : State} (hvalid : Valid s) (hn : s.tape.length < n)
    (hroot : rootino ≤ first) (hleast : ∀ i, s.Leaf i → first ≤ i) :
    ∃ first' s', mergeLoop n first s.volno s = some (first', s') ∧ s'.tape = [] ∧
      rootino ≤ first' ∧ (∀ i, s'.Leaf i → first' ≤ i) ∧ Merged s s' := by
  induction n generalizing first s with
  | zero => omega
  | succ n ih =>
    rw [mergeLoop]
    cases htape : s.tape with
    | nil =>
      refine ⟨first, s, rfl, htape, hroot, hleast, rfl, ?_, ?_, ⟨[], ?_⟩, ?_⟩
      all_goals simp [htape, files]
    | cons f tape =>
      obtain ⟨hfile, hvol⟩ := hvalid.head f (by rw [htape]; rfl)
      have hfiles : files s.tape = f :: files tape := by rw [htape, files_cons_file hfile]
      have hmax : f.ino < s.maxino := hvalid.inRange f (hfiles ▸ List.mem_cons_self)
      have hcur := curfileIno_cons htape
      dsimp only
      rw [if_pos (hcur ▸ hmax)]
      obtain ⟨first₁, s₁, l, hreport, hsame, hreported, hsorted, hl, hleaf₁, hnext₁, hge⟩ :=
        notFound_eq (s.maxino + 1) (next_lowerbnd hroot hleast) (by omega) (by omega)
      rw [hcur] at hl hleaf₁ hge
      obtain ⟨s₂, htake, htape₂, hvol₂, hmax₂, hreported₂, hextracted₂, hskipped₂, hleaf₂⟩ :=
        takeFile_eq (hsame.tape.trans htape) (hsame.maxino ▸ hmax) hnext₁ hge
      rw [hreport]
      dsimp only
      rw [htake]
      dsimp only
      have hleaf_f : s₁.Leaf f.ino ↔ s.Leaf f.ino := by rw [hleaf₁]; exact and_iff_left le_rfl
      have hleaf₂' (i : ℕ) : s₂.Leaf i ↔ s.Leaf i ∧ f.ino < i := by
        rw [hleaf₂, hleaf₁, and_assoc]
        exact and_congr_right fun _ => by omega
      have hhead₂ : ∀ g ∈ s₂.tape.head?, g.vol = s₂.volno := by
        intro g hg
        rw [htape₂] at hg
        rw [hvol₂, Option.mem_def.mp hg]
        rfl
      obtain ⟨s₃, hskip, htape₃, hhead₃, hmax₃, hentry₃, hextracted₃, hskipped₃, hreported₃⟩ :=
        skipmaps_eq s₂.tape.length le_rfl hhead₂
      -- where the volume does not change, no map follows
      have hloop : (if s.volno ≠ s₂.volno then
          mergeLoop n first₁ (State.skipmaps s₂.tape.length s₂).volno
            (State.skipmaps s₂.tape.length s₂)
          else mergeLoop n first₁ s.volno s₂) = mergeLoop n first₁ s₃.volno s₃ := by
        split
        · rw [hskip]
        · next hsamevol =>
          rw [ne_eq, not_not] at hsamevol
          have hnomap : ∀ g ∈ s₂.tape.head?, g.isMap = false := by
            intro g hg
            have hgvol := hhead₂ g hg
            rw [htape₂] at hg
            have hchain := hvalid.maps
            cases htail : tape with
            | nil => rw [htail] at hg; cases hg
            | cons g' more =>
              rw [htail] at hg
              obtain rfl : g' = g := Option.some.inj hg
              rw [htape, htail, List.isChain_cons_cons] at hchain
              by_contra hmap
              exact hchain.1 hfile (by simpa using hmap) (by rw [hvol, hgvol, hsamevol])
          have hstill : State.skipmaps s₂.tape.length s₂ = s₂ := by
            cases htail : s₂.tape with
            | nil => rfl
            | cons g more =>
              have hg := hnomap g (by rw [htail]; rfl)
              cases g with
              | file ino vol => rw [List.length_cons, State.skipmaps, htail]
              | map vol => cases hg
          rw [← hskip, hstill, hsamevol]
      rw [hloop]
      have htape₃' : s₃.tape = tape.dropWhile Item.isMap := by rw [htape₃, htape₂]
      have hmax' : s₃.maxino = s.maxino := hmax₃.trans (hmax₂.trans hsame.maxino)
      have hleaf₃ (i : ℕ) : s₃.Leaf i ↔ s.Leaf i ∧ f.ino < i := by
        rw [← hleaf₂', State.Leaf, State.Leaf, wanted_congr hmax₃ hentry₃]
      have hlen : s₃.tape.length < n := by
        rw [htape₃']
        have := (List.dropWhile_sublist Item.isMap (l := tape)).length_le
        rw [htape, List.length_cons] at hn
        omega
      obtain ⟨first', s', hrun, hnil, hroot', hleast', hmerged⟩ :=
        ih (hvalid.tail htape hmax' htape₃' hhead₃) hlen hnext₁.root fun i hi =>
          hnext₁.least i ((hleaf₁ i).mpr (((hleaf₃ i).mp hi).imp_right le_of_lt))
      refine ⟨first', s', hrun, hnil, hroot', hleast', hmerged.cons hfiles hvalid.ascending ?_ hmax'
        ?_ ?_ ?_ hsorted hl hleaf₃⟩
      · rw [htape₃', files_dropWhile]
      · rw [hextracted₃, hextracted₂, hsame.extracted]
        simp only [hleaf_f]
      · rw [hskipped₃, hskipped₂, hsame.skipped]
        simp only [hleaf_f]
      · rw [hreported₃, hreported₂, hreported]

/-- **The merge is exact**, for the leaves other than whiteouts: a file on tape is extracted, from
its own file and once, if it belongs to a leaf, and skipped otherwise; the leaves without a file are
reported, each once; and no leaf is left. -/
theorem createleaves_merge {s : State} (hvalid : Valid s)
    (hnew : s.extracted = [] ∧ s.skipped = [] ∧ s.reported = []) : ∃ s', createleaves s = some s' ∧
      s'.extracted = ((files s.tape).filter fun f => s.Leaf f.ino).map (fun f => (f.ino, f)) ∧
      s'.skipped = (files s.tape).filter (fun f => ¬s.Leaf f.ino) ∧
      s'.reported.Pairwise (· < ·) ∧
      (∀ i, i ∈ s'.reported ↔ s.Leaf i ∧ ∀ f ∈ files s.tape, i ≠ f.ino) ∧
      ∀ i, ¬s'.Leaf i := by
  obtain ⟨hext, hskip, hrep⟩ := hnew
  obtain ⟨first, s₁, hloop, hnil, hroot, hleast, hmerged⟩ :=
    mergeLoop_eq (s.tape.length + 1) hvalid (Nat.lt_succ_self _)
      (next_lowerbnd (s := s) le_rfl fun i hi => hi.1).root
      (next_lowerbnd (s := s) le_rfl fun i hi => hi.1).least
  have hcur : s₁.curfileIno = s₁.maxino := by rw [State.curfileIno, hnil]
  obtain ⟨first', s', l, hreport, hsame, hreported, hsorted, hl, hleaf', -, -⟩ :=
    notFound_eq (s₁.maxino + 1) (next_lowerbnd hroot hleast) (by omega) (by omega)
  rw [hcur] at hl hleaf'
  obtain ⟨l₁, hreported₁, hsorted₁, hl₁⟩ := hmerged.reported
  have hmem (i : ℕ) : i ∈ l ↔ s.Leaf i ∧ ∀ f ∈ files s.tape, f.ino < i := by
    rw [hl, ← hmerged.leaves]
    exact and_iff_left_of_imp fun hi => (lookupino_of_wanted hi.2).1
  refine ⟨s', by rw [createleaves, hloop]; simp [hreport], ?_, ?_, ?_, fun i => ?_, fun i hi => ?_⟩
  · rw [hsame.extracted, hmerged.extracted, hext, List.nil_append]
  · rw [hsame.skipped, hmerged.skipped, hskip, List.nil_append]
  · rw [hreported, hreported₁, hrep, List.nil_append]
    refine List.pairwise_append.mpr ⟨hsorted₁, hsorted, fun i hi j hj => ?_⟩
    obtain ⟨-, ⟨f, hf, hlt⟩, -⟩ := (hl₁ i).mp hi
    exact hlt.trans (((hmem j).mp hj).2 f hf)
  · rw [hreported, hreported₁, hrep, List.nil_append, List.mem_append, hl₁, hmem]
    constructor
    · rintro (⟨hi, -, hne⟩ | ⟨hi, hlt⟩)
      · exact ⟨hi, hne⟩
      · exact ⟨hi, fun f hf => (hlt f hf).ne'⟩
    · rintro ⟨hi, hne⟩
      by_cases hbelow : ∃ f ∈ files s.tape, i < f.ino
      · exact .inl ⟨hi, hbelow, hne⟩
      · refine .inr ⟨hi, fun f hf => lt_of_le_of_ne ?_ (hne f hf).symm⟩
        exact le_of_not_gt fun hlt => hbelow ⟨f, hf, hlt⟩
  · obtain ⟨hi, hge⟩ := (hleaf' i).mp hi
    have := (lookupino_of_wanted hi.2).1
    omega

/-- Leaves 5 and 7 and a whiteout; files 5 and 6, with a map at the start of the second volume. -/
def twoVolumes : State where
  maxino := 9
  entry i := if i = 1 ∨ i = 5 then some ⟨false, true, false⟩
    else if i = 7 then some ⟨false, false, true⟩ else none
  tape := [.file 5 1, .map 2, .file 6 2]
  volno := 1

theorem valid_twoVolumes : Valid twoVolumes where
  ascending := by decide
  inRange := by decide
  maps := by
    refine List.isChain_cons_cons.mpr ⟨fun _ _ => by decide, ?_⟩
    exact List.isChain_cons_cons.mpr ⟨(fun h => nomatch h), List.isChain_singleton _⟩
  head f hf := by
    obtain rfl : Item.file 5 1 = f := Option.some.inj hf
    exact ⟨rfl, rfl⟩

theorem createleaves_twoVolumes : ∃ s', createleaves twoVolumes = some s' ∧
    s'.extracted = ((files twoVolumes.tape).filter fun f => twoVolumes.Leaf f.ino).map
      (fun f => (f.ino, f)) ∧
    s'.skipped = (files twoVolumes.tape).filter (fun f => ¬twoVolumes.Leaf f.ino) ∧
    s'.reported.Pairwise (· < ·) ∧
    (∀ i, i ∈ s'.reported ↔ twoVolumes.Leaf i ∧ ∀ f ∈ files twoVolumes.tape, i ≠ f.ino) ∧
    ∀ i, ¬s'.Leaf i :=
  createleaves_merge valid_twoVolumes ⟨rfl, rfl, rfl⟩

/-- A whiteout that is new is still new after the merge. -/
theorem not_createleaves_whiteout : ¬∀ s : State, Valid s →
    s.extracted = [] ∧ s.skipped = [] ∧ s.reported = [] →
    ∃ s', createleaves s = some s' ∧
      s'.extracted = ((files s.tape).filter fun f => s.wanted f.ino).map (fun f => (f.ino, f)) ∧
      s'.skipped = (files s.tape).filter (fun f => ¬s.wanted f.ino) ∧
      (∀ i, i ∈ s'.reported ↔ s.wanted i = true ∧ ∀ f ∈ files s.tape, i ≠ f.ino) ∧
      ∀ i, s'.wanted i = false := by
  intro hall
  obtain ⟨s', hrun, -, -, -, hnone⟩ := hall twoVolumes valid_twoVolumes ⟨rfl, rfl, rfl⟩
  have hleft : (createleaves twoVolumes).map (fun s => s.wanted 1) = some true := by decide
  rw [hrun, Option.map_some, hnone 1] at hleft
  cases hleft

end DumpRestore.Leaves
