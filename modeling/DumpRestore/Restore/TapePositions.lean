import DumpRestore.Foundations.Decimal
import DumpRestore.Foundations.Lines

/-!
# Tape positions from a file

The file of tape positions has one line for every inode on the tape, in ascending order. A search
in it starts where the last one stopped.

* `inode2Tapepos` is the search. It keeps the offset of the last line that it read.
* `inode2Tapepos_eq`: on a well formed file, a search is one over the records from that line on.
* `specified_iff`: when all answers of a sequence of searches are those of the whole file.
-/

namespace DumpRestore.Qfa

open Decimal

/-! ## The search -/

/-- The fields of a line. There are none if one of the tabs is missing. -/
def parseLine (gTps : List UInt8) : Option (ℕ × ℤ × ℤ) :=
  match gTps.dropWhile (· ≠ 9) with
  | [] => none
  | _ :: p =>
    match p.dropWhile (· ≠ 9) with
    | [] => none
    | _ :: q =>
      some ((strtol (gTps.takeWhile (· ≠ 9)) % 2 ^ 64).toNat, strtol (p.takeWhile (· ≠ 9)),
        strtol (q.takeWhile (· ≠ 9)))

/-- What a search leaves: its value, the answer, and `gSeekstart`. -/
structure Found where
  ret : ℤ
  tnum : ℤ
  tpos : ℤ
  seekstart : ℕ
  deriving DecidableEq

/-- The loop of `Inode2Tapepos`, over what `fgets` reads. -/
def tapeposLoop (ino : ℕ) (exactmatch : Bool) :
    List (List UInt8) → ℤ → ℤ → ℕ → Found
  | [], tnum, tpos, seekstart => ⟨0, tnum, tpos, seekstart⟩
  | gTps :: lines, tnum, tpos, seekstart =>
    match parseLine gTps.dropLast with
    | none => ⟨1, tnum, tpos, seekstart⟩
    | some (tmpino, tmptnum, tmptpos) =>
      if exactmatch then
        if tmpino = ino then ⟨0, tmptnum, tmptpos, seekstart⟩
        else tapeposLoop ino exactmatch lines tnum tpos (seekstart + gTps.length)
      else
        if tmpino > ino then ⟨0, tnum, tpos, seekstart⟩
        else tapeposLoop ino exactmatch lines tmptnum tmptpos (seekstart + gTps.length)

/-- `sizeof (gTps)`. -/
def gTpsSize : ℕ := 255

/-- `Inode2Tapepos`. -/
def inode2Tapepos (file : List UInt8) (seekstart ino : ℕ) (exactmatch : Bool) : Found :=
  tapeposLoop ino exactmatch (fgetsFrom gTpsSize 0 (file.drop seekstart)) 0 0 seekstart

/-! ## The file -/

/-- The record of an inode: its volume and its position there. -/
structure TapeRecord where
  ino : ℕ
  tnum : ℤ
  tpos : ℤ
  deriving DecidableEq

/-- The ranges of the fields. The first volume has the number 1. -/
structure TapeRecord.InRange (r : TapeRecord) : Prop where
  ino : r.ino < 2 ^ 32
  tnum : 1 ≤ r.tnum ∧ r.tnum < 2 ^ 63
  tpos : 0 ≤ r.tpos ∧ r.tpos < 2 ^ 63

/-- The line of a record: `"%ld\t%ld\t%lld\n"`. -/
def lineBody (r : TapeRecord) : List UInt8 :=
  decimal r.ino ++ 9 :: (decimal r.tnum ++ 9 :: decimal r.tpos)

/-- The lines of records. -/
def text (records : List TapeRecord) : List UInt8 :=
  (records.map fun r => lineBody r ++ [10]).flatten

/-- A file of well formed lines after its header, in ascending order. -/
structure QfaFile where
  header : List UInt8
  records : List TapeRecord
  inRange : ∀ r ∈ records, r.InRange
  ascending : records.Pairwise fun r s => r.ino < s.ino

/-- The bytes of a file. -/
def QfaFile.bytes (f : QfaFile) : List UInt8 := f.header ++ text f.records

/-! ## A search over records -/

/-- One search: an inode, and whether the match is exact. -/
structure Call where
  ino : ℕ
  exactmatch : Bool
  deriving DecidableEq

/-- The records that a search passes. -/
def Call.passes (c : Call) (r : TapeRecord) : Bool :=
  if c.exactmatch then r.ino ≠ c.ino else r.ino ≤ c.ino

/-- Where the next search starts. -/
def Call.next (c : Call) (rest : List TapeRecord) : List TapeRecord := rest.dropWhile c.passes

/-- The record that answers a search over these records. -/
def Call.answer (c : Call) (rest : List TapeRecord) : Option TapeRecord :=
  if c.exactmatch then (c.next rest).head? else (rest.takeWhile c.passes).getLast?

/-- The volume and the position of a record, or zeros. -/
def position (r : Option TapeRecord) : ℤ × ℤ := (r.map fun r => (r.tnum, r.tpos)).getD (0, 0)

theorem length_lineBody {r : TapeRecord} (h : r.InRange) : (lineBody r).length + 1 < gTpsSize := by
  obtain ⟨hino, htnum, htpos⟩ := h
  have h1 := length_decimal_le (z := r.ino) (k := 20) (by decide) (by omega)
  have h2 := length_decimal_le (z := r.tnum) (k := 20) (by decide) (by omega)
  have h3 := length_decimal_le (z := r.tpos) (k := 20) (by decide) (by omega)
  simp only [lineBody, List.length_append, List.length_cons, gTpsSize]
  omega

theorem not_mem_lineBody (r : TapeRecord) : 10 ∉ lineBody r := by
  have hdecimal (z : ℤ) : 10 ∉ decimal z := not_mem_decimal z (by decide) (by decide)
  simp only [lineBody, List.mem_append, List.mem_cons, not_or]
  exact ⟨hdecimal _, by decide, hdecimal _, by decide, hdecimal _⟩

theorem fgetsFrom_text {records : List TapeRecord} (h : ∀ r ∈ records, r.InRange) :
    fgetsFrom gTpsSize 0 (text records) = records.map fun r => lineBody r ++ [10] := by
  induction records with
  | nil => rfl
  | cons r records ih =>
    obtain ⟨hr, hrest⟩ := List.forall_mem_cons.mp h
    have hlen := length_lineBody hr
    rw [text, List.map_cons, List.flatten_cons, List.append_assoc, List.singleton_append,
      fgetsFrom_line (not_mem_lineBody r) (by omega), ← text, ih hrest]

theorem parseLine_lineBody {r : TapeRecord} (h : r.InRange) :
    parseLine (lineBody r) = some (r.ino, r.tnum, r.tpos) := by
  have htab (z : ℤ) : ∀ c ∈ decimal z, decide (c ≠ 9) = true := fun c hc => decide_eq_true fun h9 =>
    not_mem_decimal z (by decide) (by decide) (h9 ▸ hc : (9 : UInt8) ∈ decimal z)
  have hstrtol (z : ℤ) : strtol (decimal z) = z := by
    have h := strtol_decimal z (by simp : ∀ c ∈ ([] : List UInt8).head?, isDigit c = false)
    rwa [List.append_nil] at h
  have hend (z : ℤ) : (decimal z).takeWhile (· ≠ 9) = decimal z :=
    List.takeWhile_eq_self_iff.mpr (htab z)
  have htake (z : ℤ) (rest : List UInt8) :
      (decimal z ++ 9 :: rest).takeWhile (· ≠ 9) = decimal z := by
    rw [List.takeWhile_append_of_pos (htab z), List.takeWhile_cons_of_neg (by decide),
      List.append_nil]
  have hdrop (z : ℤ) (rest : List UInt8) :
      (decimal z ++ 9 :: rest).dropWhile (· ≠ 9) = 9 :: rest := by
    rw [List.dropWhile_append_of_pos (htab z), List.dropWhile_cons_of_neg (by decide)]
  have hmod : ((r.ino : ℤ) % 2 ^ 64).toNat = r.ino := by
    have := h.ino
    omega
  simp only [parseLine, lineBody, hdrop, htake, hend, hstrtol, hmod]

/-- The loop on the lines of records. -/
theorem tapeposLoop_lines (c : Call) {records : List TapeRecord} (h : ∀ r ∈ records, r.InRange)
    (tnum tpos : ℤ) (seekstart : ℕ) :
    tapeposLoop c.ino c.exactmatch (records.map fun r => lineBody r ++ [10]) tnum tpos seekstart =
      ⟨0, (((c.answer records).map fun r => (r.tnum, r.tpos)).getD (tnum, tpos)).1,
        (((c.answer records).map fun r => (r.tnum, r.tpos)).getD (tnum, tpos)).2,
        seekstart + (text (records.takeWhile c.passes)).length⟩ := by
  induction records generalizing tnum tpos seekstart with
  | nil => cases hexact : c.exactmatch <;> simp [tapeposLoop, Call.answer, Call.next, text, hexact]
  | cons r records ih =>
    obtain ⟨hr, hrest⟩ := List.forall_mem_cons.mp h
    have hlen : (lineBody r ++ [10]).length + (text (records.takeWhile c.passes)).length =
        (text ((r :: records.takeWhile c.passes))).length := by
      simp only [text, List.map_cons, List.flatten_cons, List.length_append]
    rw [List.map_cons, tapeposLoop, List.dropLast_concat, parseLine_lineBody hr]
    cases hexact : c.exactmatch with
    | true =>
      by_cases hino : r.ino = c.ino
      · have hpass : ¬c.passes r = true := by simp [Call.passes, hexact, hino]
        simp [Call.answer, Call.next, hexact, hino, List.dropWhile_cons_of_neg hpass,
          List.takeWhile_cons_of_neg hpass, text]
      · have hpass : c.passes r = true := by simp [Call.passes, hexact, hino]
        have ih := ih hrest tnum tpos (seekstart + (lineBody r ++ [10]).length)
        rw [hexact] at ih
        simp only [if_true, if_neg hino, ih, Call.answer, Call.next, hexact,
          List.dropWhile_cons_of_pos hpass, List.takeWhile_cons_of_pos hpass, ← hlen, Nat.add_assoc]
    | false =>
      by_cases hino : r.ino > c.ino
      · have hpass : ¬c.passes r = true := by simpa [Call.passes, hexact] using hino
        simp [Call.answer, hexact, hino, List.takeWhile_cons_of_neg hpass, text]
      · have hpass : c.passes r = true := by simpa [Call.passes, hexact] using hino
        have ih := ih hrest r.tnum r.tpos (seekstart + (lineBody r ++ [10]).length)
        rw [hexact] at ih
        simp only [Bool.false_eq_true, if_false, if_neg hino, ih, Call.answer, hexact,
          List.takeWhile_cons_of_pos hpass, ← hlen, Nat.add_assoc, List.getLast?_cons]
        cases (records.takeWhile c.passes).getLast? <;> rfl

/-- The offset in front of the last lines of a file. -/
def QfaFile.offset (f : QfaFile) (rest : List TapeRecord) : ℕ := f.bytes.length - (text rest).length

theorem QfaFile.drop_offset (f : QfaFile) {before rest : List TapeRecord}
    (h : f.records = before ++ rest) : f.bytes.drop (f.offset rest) = text rest := by
  have hbytes : f.bytes = (f.header ++ text before) ++ text rest := by
    rw [QfaFile.bytes, h, text, List.map_append, List.flatten_append, ← text, ← text,
      List.append_assoc]
  rw [QfaFile.offset, hbytes, List.length_append, Nat.add_sub_cancel, List.drop_left]

/-- **A search** in the last records of a file. -/
theorem inode2Tapepos_eq (f : QfaFile) {before rest : List TapeRecord}
    (h : f.records = before ++ rest) (c : Call) :
    inode2Tapepos f.bytes (f.offset rest) c.ino c.exactmatch =
      ⟨0, (position (c.answer rest)).1, (position (c.answer rest)).2, f.offset (c.next rest)⟩ := by
  have hrange : ∀ r ∈ rest, r.InRange := fun r hr =>
    f.inRange r (h ▸ List.mem_append_right _ hr)
  have hsplit : text rest = text (rest.takeWhile c.passes) ++ text (c.next rest) := by
    conv_lhs => rw [← List.takeWhile_append_dropWhile (p := c.passes) (l := rest)]
    simp only [text, List.map_append, List.flatten_append, Call.next]
  have hle : (text rest).length ≤ f.bytes.length := by
    rw [← f.drop_offset h]
    exact (List.drop_sublist _ _).length_le
  have hoffset : f.offset rest + (text (rest.takeWhile c.passes)).length =
      f.offset (c.next rest) := by
    rw [hsplit, List.length_append] at hle
    rw [QfaFile.offset, QfaFile.offset, hsplit, List.length_append]
    omega
  rw [inode2Tapepos, f.drop_offset h, fgetsFrom_text hrange, tapeposLoop_lines c hrange, hoffset]
  rfl

/-! ## What a search is asked for -/

/-- The record that a search is asked for. -/
def Call.Wanted (c : Call) (records : List TapeRecord) (r : TapeRecord) : Prop :=
  r ∈ records ∧
    if c.exactmatch then r.ino = c.ino
    else r.ino ≤ c.ino ∧ ∀ s ∈ records, s.ino ≤ c.ino → s.ino ≤ r.ino

/-- The answer that a search is asked for: the volume and the position of the record, or zeros. -/
def Specified (records : List TapeRecord) (c : Call) (found : Found) : Prop :=
  found.ret = 0 ∧
    ((∃ r, c.Wanted records r ∧ (found.tnum, found.tpos) = (r.tnum, r.tpos)) ∨
      (∀ r, ¬c.Wanted records r) ∧ (found.tnum, found.tpos) = (0, 0))

/-- After a search, a record can still be found by the next one. -/
def Call.Leaves (c : Call) (records : List TapeRecord) (r : TapeRecord) : Prop :=
  if c.exactmatch then c.ino ≤ r.ino ∧ ∃ s ∈ records, s.ino = c.ino else c.ino < r.ino

/-- A sequence of searches. -/
def searches (file : List UInt8) : ℕ → List Call → List Found
  | _, [] => []
  | seekstart, c :: calls =>
    let found := inode2Tapepos file seekstart c.ino c.exactmatch
    found :: searches file found.seekstart calls

section Sorted

variable {records before rest : List TapeRecord} {c : Call}

/-- A search splits the records: it passes those in front, and stops at the next one. -/
theorem split_next (c : Call) (rest : List TapeRecord) :
    rest = rest.takeWhile c.passes ++ c.next rest ∧
      (∀ s ∈ rest.takeWhile c.passes, c.passes s = true) ∧
      ∀ s ∈ (c.next rest).head?, c.passes s = false := by
  refine ⟨List.takeWhile_append_dropWhile.symm, fun s hs => List.mem_takeWhile_imp hs, ?_⟩
  intro s hs
  have hnot := List.head?_dropWhile_not c.passes rest
  rw [← Call.next, Option.mem_def.mp hs] at hnot
  simpa using hnot

/-- A search that is not exact stops in front of the larger inodes. -/
theorem lt_of_mem_next (hsorted : rest.Pairwise fun r s => r.ino < s.ino)
    (hexact : c.exactmatch = false) {s : TapeRecord} (hs : s ∈ c.next rest) : c.ino < s.ino := by
  obtain ⟨hsplit, -, hhead⟩ := split_next c rest
  cases hnext : c.next rest with
  | nil => rw [hnext] at hs; cases hs
  | cons s₀ more =>
    rw [hnext] at hs hhead hsplit
    have hfirst : c.ino < s₀.ino := by simpa [Call.passes, hexact] using hhead s₀ rfl
    rw [hsplit] at hsorted
    have hmore := (List.pairwise_append.mp hsorted).2.1
    rcases List.mem_cons.mp hs with rfl | hs
    · exact hfirst
    · exact hfirst.trans ((List.pairwise_cons.mp hmore).1 s hs)

/-- The next search starts at the record of an exact match, or after the records that are not
larger. -/
theorem mem_next (hsorted : rest.Pairwise fun r s => r.ino < s.ino) {r : TapeRecord} :
    r ∈ c.next rest ↔ r ∈ rest ∧
      if c.exactmatch then c.ino ≤ r.ino ∧ ∃ s ∈ rest, s.ino = c.ino else c.ino < r.ino := by
  obtain ⟨hsplit, hpass, hhead⟩ := split_next c rest
  have hin {s : TapeRecord} : s ∈ rest ↔ s ∈ rest.takeWhile c.passes ∨ s ∈ c.next rest := by
    conv_lhs => rw [hsplit]
    exact List.mem_append
  cases hexact : c.exactmatch with
  | true =>
    simp only [Call.passes, hexact, if_true, decide_eq_true_eq] at hpass hhead ⊢
    cases hnext : c.next rest with
    | nil =>
      rw [hnext] at hin
      refine ⟨fun h => (nomatch h), fun ⟨_, _, s, hs, hino⟩ => ?_⟩
      rcases hin.mp hs with hs | hs
      · exact absurd hino (hpass s hs)
      · cases hs
    | cons s₀ more =>
      rw [hnext] at hin hhead hsplit
      have hfirst : s₀.ino = c.ino := by simpa using hhead s₀ rfl
      rw [hsplit] at hsorted
      obtain ⟨-, hmore, hcross⟩ := List.pairwise_append.mp hsorted
      constructor
      · intro hr
        refine ⟨hin.mpr (.inr hr), ?_, s₀, hin.mpr (.inr List.mem_cons_self), hfirst⟩
        rcases List.mem_cons.mp hr with rfl | hr
        · exact hfirst.ge
        · exact hfirst ▸ ((List.pairwise_cons.mp hmore).1 r hr).le
      · rintro ⟨hr, hle, -⟩
        rcases hin.mp hr with hr | hr
        · have := hcross r hr s₀ List.mem_cons_self
          omega
        · exact hr
  | false =>
    simp only [Call.passes, hexact, Bool.false_eq_true, if_false, decide_eq_true_eq] at hpass ⊢
    constructor
    · exact fun hr => ⟨hin.mpr (.inr hr), lt_of_mem_next hsorted hexact hr⟩
    · rintro ⟨hr, hlt⟩
      rcases hin.mp hr with hr | hr
      · exact absurd (hpass r hr) (not_le_of_gt hlt)
      · exact hr

/-- The last record of an ascending list is the greatest one. -/
theorem getLast?_eq_some_iff {l : List TapeRecord} (hsorted : l.Pairwise fun r s => r.ino < s.ino)
    {r : TapeRecord} : l.getLast? = some r ↔ r ∈ l ∧ ∀ s ∈ l, s.ino ≤ r.ino := by
  induction l using List.reverseRecOn with
  | nil => simp
  | append_singleton l t =>
    have hcross := (List.pairwise_append.mp hsorted).2.2
    rw [List.getLast?_concat, Option.some.injEq]
    constructor
    · rintro rfl
      refine ⟨List.mem_append_right _ (List.mem_singleton_self _), fun s hs => ?_⟩
      rcases List.mem_append.mp hs with hs | hs
      · exact (hcross s hs t (List.mem_singleton_self _)).le
      · rw [List.mem_singleton.mp hs]
    · rintro ⟨hr, hmax⟩
      rcases List.mem_append.mp hr with hr | hr
      · have h1 := hcross r hr t (List.mem_singleton_self _)
        have h2 := hmax t (List.mem_append_right _ (List.mem_singleton_self _))
        omega
      · exact (List.mem_singleton.mp hr).symm

/-- **The answer** of a search over ascending records is the record that is wanted. -/
theorem answer_eq_some_iff (hsorted : rest.Pairwise fun r s => r.ino < s.ino) {r : TapeRecord} :
    c.answer rest = some r ↔ c.Wanted rest r := by
  obtain ⟨hsplit, hpass, hhead⟩ := split_next c rest
  have hin {s : TapeRecord} : s ∈ rest ↔ s ∈ rest.takeWhile c.passes ∨ s ∈ c.next rest := by
    conv_lhs => rw [hsplit]
    exact List.mem_append
  unfold Call.answer Call.Wanted
  cases hexact : c.exactmatch with
  | true =>
    simp only [Call.passes, hexact, if_true, decide_eq_true_eq] at hpass hhead ⊢
    constructor
    · intro h
      exact ⟨hin.mpr (.inr (List.mem_of_head? h)), by simpa using hhead r h⟩
    · rintro ⟨hr, hino⟩
      rcases hin.mp hr with hr | hr
      · exact absurd hino (hpass r hr)
      · cases hnext : c.next rest with
        | nil => rw [hnext] at hr; cases hr
        | cons s₀ more =>
          rw [hnext] at hr hhead hsplit
          have hfirst : s₀.ino = c.ino := by simpa using hhead s₀ rfl
          rw [hsplit] at hsorted
          have hmore := (List.pairwise_append.mp hsorted).2.1
          rcases List.mem_cons.mp hr with rfl | hr
          · rfl
          · have := (List.pairwise_cons.mp hmore).1 r hr
            omega
  | false =>
    simp only [Bool.false_eq_true, if_false]
    rw [getLast?_eq_some_iff (hsorted.sublist (List.takeWhile_sublist _))]
    have hle {s : TapeRecord} : s ∈ rest.takeWhile c.passes ↔ s ∈ rest ∧ s.ino ≤ c.ino := by
      constructor
      · intro hs
        exact ⟨hin.mpr (.inl hs), by simpa [Call.passes, hexact] using hpass s hs⟩
      · rintro ⟨hs, hino⟩
        rcases hin.mp hs with hs | hs
        · exact hs
        · exact absurd hino (not_le_of_gt (lt_of_mem_next hsorted hexact hs))
    simp only [hle, and_assoc, and_imp]

theorem Call.Wanted.unique (hsorted : records.Pairwise fun r s => r.ino < s.ino)
    {r s : TapeRecord} (hr : c.Wanted records r) (hs : c.Wanted records s) : r = s :=
  Option.some.inj (((answer_eq_some_iff hsorted).mpr hr).symm.trans
    ((answer_eq_some_iff hsorted).mpr hs))

/-- What is wanted of the last records is wanted of all. -/
theorem Call.Wanted.of_suffix (hsorted : (before ++ rest).Pairwise fun r s => r.ino < s.ino)
    {r : TapeRecord} (h : c.Wanted rest r) : c.Wanted (before ++ rest) r := by
  obtain ⟨hr, h⟩ := h
  refine ⟨List.mem_append_right _ hr, ?_⟩
  split_ifs at h ⊢
  · exact h
  · refine ⟨h.1, fun s hs hino => ?_⟩
    rcases List.mem_append.mp hs with hs | hs
    · exact ((List.pairwise_append.mp hsorted).2.2 s hs r hr).le
    · exact h.2 s hs hino

theorem Call.Wanted.to_suffix {r : TapeRecord} (h : c.Wanted (before ++ rest) r) (hr : r ∈ rest) :
    c.Wanted rest r := by
  obtain ⟨-, h⟩ := h
  refine ⟨hr, ?_⟩
  split_ifs at h ⊢
  · exact h
  · exact ⟨h.1, fun s hs => h.2 s (List.mem_append_right _ hs)⟩

/-- A search is right just if the record that is wanted has not been passed. -/
theorem specified_position (hsorted : (before ++ rest).Pairwise fun r s => r.ino < s.ino)
    (hrange : ∀ r ∈ before ++ rest, r.InRange) (seekstart : ℕ) :
    Specified (before ++ rest) c
      ⟨0, (position (c.answer rest)).1, (position (c.answer rest)).2, seekstart⟩ ↔
      ∀ r, c.Wanted (before ++ rest) r → r ∈ rest := by
  have hrest := (List.pairwise_append.mp hsorted).2.1
  constructor
  · rintro ⟨-, ⟨r', hr', hpos⟩ | ⟨hnone, -⟩⟩ r hr
    · obtain rfl := hr'.unique hsorted hr
      cases hanswer : c.answer rest with
      | none =>
        rw [hanswer] at hpos
        have hzero : 0 = r'.tnum := congrArg Prod.fst hpos
        have := (hrange r' hr.1).tnum.1
        omega
      | some s =>
        have hs := (answer_eq_some_iff hrest).mp hanswer
        obtain rfl := (hs.of_suffix hsorted).unique hsorted hr
        exact hs.1
    · exact absurd hr (hnone r)
  · intro hin
    refine ⟨rfl, ?_⟩
    cases hanswer : c.answer rest with
    | some s =>
      exact .inl ⟨s, ((answer_eq_some_iff hrest).mp hanswer).of_suffix hsorted, rfl⟩
    | none =>
      refine .inr ⟨fun r hr => ?_, rfl⟩
      have hsome := (answer_eq_some_iff hrest).mpr (hr.to_suffix (hin r hr))
      rw [hanswer] at hsome
      cases hsome

/-- What a right search leaves to be found. -/
theorem mem_next_iff (hsorted : (before ++ rest).Pairwise fun r s => r.ino < s.ino)
    (hin : ∀ r, c.Wanted (before ++ rest) r → r ∈ rest) {r : TapeRecord} :
    r ∈ c.next rest ↔ r ∈ rest ∧ c.Leaves (before ++ rest) r := by
  rw [mem_next (List.pairwise_append.mp hsorted).2.1, Call.Leaves]
  cases hexact : c.exactmatch with
  | false => rfl
  | true =>
    simp only [if_true]
    refine and_congr_right fun _ => and_congr_right fun _ => ⟨?_, ?_⟩
    · exact fun ⟨s, hs, hino⟩ => ⟨s, List.mem_append_right _ hs, hino⟩
    · rintro ⟨s, hs, hino⟩
      exact ⟨s, hin s ⟨hs, by rw [hexact]; exact hino⟩, hino⟩

end Sorted

/-! ## Sequences of searches -/

/-- A sequence of searches from a line on. -/
theorem specified_searches (f : QfaFile) (calls : List Call) {before rest : List TapeRecord}
    (h : f.records = before ++ rest) :
    List.Forall₂ (Specified f.records) calls (searches f.bytes (f.offset rest) calls) ↔
      (∀ c ∈ calls, ∀ r, c.Wanted f.records r → r ∈ rest) ∧
      calls.Pairwise fun c later => ∀ r, later.Wanted f.records r → c.Leaves f.records r := by
  induction calls generalizing before rest with
  | nil => simp [searches]
  | cons c calls ih =>
    have hnext : f.records = (before ++ rest.takeWhile c.passes) ++ c.next rest := by
      rw [List.append_assoc, ← (split_next c rest).1, h]
    have hsorted := h ▸ f.ascending
    have hrange := h ▸ f.inRange
    rw [searches, inode2Tapepos_eq f h]
    dsimp only
    rw [List.forall₂_cons, ih hnext, List.forall_mem_cons, List.pairwise_cons]
    nth_rewrite 1 [h]
    rw [specified_position hsorted hrange, ← h]
    constructor
    · rintro ⟨hc, hmem, hpair⟩
      have hleft {r : TapeRecord} (hr : r ∈ c.next rest) : r ∈ rest ∧ c.Leaves f.records r := by
        rw [h] at hc ⊢
        exact (mem_next_iff hsorted hc).mp hr
      exact ⟨⟨hc, fun c' hc' r hr => (hleft (hmem c' hc' r hr)).1⟩,
        fun c' hc' r hr => (hleft (hmem c' hc' r hr)).2, hpair⟩
    · rintro ⟨⟨hc, hmem⟩, hleave, hpair⟩
      refine ⟨hc, fun c' hc' r hr => ?_, hpair⟩
      have hleaves := hleave c' hc' r hr
      rw [h] at hc hleaves
      exact (mem_next_iff hsorted hc).mpr ⟨hmem c' hc' r hr, hleaves⟩

/-- **When the answers do not depend on the history.** All answers of a sequence of searches are
the specified ones if and only if, for every two of them where the later one has a record, the
earlier one was an exact match of an inode in the file not above that record, or one that was not
exact, for a smaller inode. -/
theorem specified_iff (f : QfaFile) (calls : List Call) :
    List.Forall₂ (Specified f.records) calls (searches f.bytes f.header.length calls) ↔
      calls.Pairwise fun c later => ∀ r, later.Wanted f.records r → c.Leaves f.records r := by
  have hstart : f.offset f.records = f.header.length := by
    rw [QfaFile.offset, QfaFile.bytes, List.length_append, Nat.add_sub_cancel]
  rw [← hstart, specified_searches f calls (List.nil_append _).symm]
  exact and_iff_right fun c _ r hr => hr.1

/-- A file with two records. -/
def twoRecords : QfaFile where
  header := str "header\n"
  records := [⟨3, 1, 100⟩, ⟨7, 1, 200⟩]
  inRange := by
    intro r hr
    rcases List.mem_cons.mp hr with rfl | hr
    · exact ⟨by decide, by decide, by decide⟩
    · rw [List.mem_singleton.mp hr]
      exact ⟨by decide, by decide, by decide⟩
  ascending := by simp

/-- A search that is repeated has another answer. -/
theorem not_specified : ¬∀ (f : QfaFile) (calls : List Call),
    List.Forall₂ (Specified f.records) calls (searches f.bytes f.header.length calls) := by
  intro hall
  have hboth := hall twoRecords [⟨5, false⟩, ⟨5, false⟩]
  have hfound : searches twoRecords.bytes twoRecords.header.length [⟨5, false⟩, ⟨5, false⟩] =
      [⟨0, 1, 100, 15⟩, ⟨0, 0, 0, 15⟩] := by
    decide
  rw [hfound] at hboth
  obtain ⟨-, hsecond⟩ := List.forall₂_cons.mp hboth
  obtain ⟨⟨-, hpos⟩, -⟩ := List.forall₂_cons.mp hsecond
  have hwanted : Call.Wanted ⟨5, false⟩ twoRecords.records ⟨3, 1, 100⟩ := by
    refine ⟨List.mem_cons_self, by decide, ?_⟩
    simp [twoRecords]
  rcases hpos with ⟨r, hr, heq⟩ | ⟨hnone, -⟩
  · obtain rfl := hr.unique twoRecords.ascending hwanted
    exact absurd heq (by decide)
  · exact hnone _ hwanted

end DumpRestore.Qfa
