import DumpRestore.Dump.DumpDatesFile
import Mathlib.Data.List.ReduceOption

/-!
# The table of dump dates in its file

`putdumptime` reads the table, changes one record and writes the table over the file. What it does
not read is gone, and what it cannot read back is gone at the next run.

* `getrecords_dumprecsOut`: what comes back of a table that is printed.
* `rewriteFile_iff`: when the other records of a file survive.
* `dates_iff`: when the dates come back, the base date included.
-/

namespace DumpRestore

open Decimal Calendar

variable {z : Zone}

/-! ## The lines of a file -/

/-- The names in a file. -/
theorem name_of_mem_recordsIn {file : List UInt8} {ddp : Dumpdates} (h : ddp ∈ recordsIn z file) :
    0 ∉ ddp.ddName ∧ ProperName ddp.ddName ∧ 0 ≤ ddp.ddDdate ∧ ddp.ddLevel < 2 ^ 31 := by
  rw [recordsIn, List.reduceOption_mem_iff, getrecords, List.mem_map] at h
  obtain ⟨line, hline, hmake⟩ := h
  obtain ⟨hspace, hlen, hdate, hlevel, rest, heq⟩ := of_makedumpdate hmake
  obtain ⟨text, htext, rfl⟩ := List.mem_map.mp hline
  refine ⟨fun h0 => ?_, ⟨hspace, fun h10 => ?_, hlen⟩, hdate, hlevel⟩
  · have hmem : (0 : UInt8) ∈ text.takeWhile (· ≠ 0) := heq ▸ List.mem_append_left _ h0
    exact of_decide_eq_true (List.mem_takeWhile_imp (p := fun c : UInt8 => decide (c ≠ 0)) hmem) rfl
  · -- the name is in front of a blank, so the blank is not the end of the line
    refine not_mem_dropLast_fgetsFrom text htext ?_
    have hsplit : text = ddp.ddName ++ 32 :: (rest ++ text.dropWhile (· ≠ 0)) := by
      conv_lhs => rw [← List.takeWhile_append_dropWhile (p := fun c : UInt8 => decide (c ≠ 0))
        (l := text), heq]
      simp
    rw [hsplit, List.dropLast_append_of_ne_nil (List.cons_ne_nil _ _)]
    exact List.mem_append_left _ h10

/-! ## A table that is printed -/

/-- What a later run makes of a record. -/
def reread (z : Zone) (what : Dumpdates) : Option Dumpdates :=
  if what.ddDdate + z.lost what.ddDdate < 0 then none
  else some ⟨what.ddName, what.ddLevel, what.ddDdate + z.lost what.ddDdate⟩

theorem reread_of_nonneg {what : Dumpdates} (hdate : 0 ≤ what.ddDdate)
    (hoff : z.WholeMinutes what.ddDdate) : reread z what = some what := by
  rw [reread, hoff.lost, add_zero, if_neg (by omega)]

theorem dumprecsOut_cons (z : Zone) (what : Dumpdates) (ddatev : List Dumpdates) :
    dumprecsOut z (what :: ddatev) = (dumprecout z what).bind fun line =>
      (dumprecsOut z ddatev).map (line ++ ·) := by
  simp only [dumprecsOut, List.mapM_cons]
  cases dumprecout z what with
  | none => rfl
  | some line => cases List.mapM (dumprecout z) ddatev <;> rfl

theorem dateText_line {gmtoff : ℤ} (hoff : gmtoff.natAbs < 86400) (tm : Tm)
    (hbuf : (asctime tm).length = 25) : ∃ body, dateText (asctime tm) gmtoff = body ++ [10] ∧
      10 ∉ body ∧ 0 ∉ body ∧ body.length = 30 := by
  have hfree (c : UInt8) (hc : c = 0 ∨ c = 10) : c ∉ (asctime tm).take 24 ++
      32 :: (if gmtoff < 0 then 45 else 43) ::
        padLeft 2 48 (decimal ((gmtoff.natAbs : ℤ) / 3600)) ++
      padLeft 2 48 (decimal ((gmtoff.natAbs : ℤ) % 3600 / 60)) := by
    obtain ⟨body, hbody, hnot⟩ := not_mem_asctime hc tm
    have hlen : body.length = 24 := by
      rw [hbody, List.length_append, List.length_singleton] at hbuf
      omega
    have hdecimal (z : ℤ) : c ∉ padLeft 2 48 (decimal z) := by
      rcases hc with rfl | rfl <;>
        exact not_mem_padLeft (by decide) 2 (not_mem_decimal z (by decide) (by decide))
    have hsign : c ≠ 32 ∧ c ≠ (if gmtoff < 0 then 45 else 43) := by
      rcases hc with rfl | rfl <;> split <;> decide
    rw [hbody, List.take_left' hlen]
    simp only [List.mem_append, List.mem_cons, not_or]
    exact ⟨⟨hnot, hsign.1, hsign.2, hdecimal _⟩, hdecimal _⟩
  refine ⟨_, rfl, hfree 10 (.inr rfl), hfree 0 (.inl rfl), ?_⟩
  have htwo {n : ℤ} (h0 : 0 ≤ n) (hn : n < 100) : (padLeft 2 48 (decimal n)).length = 2 := by
    rw [decimal_of_nonneg h0, padLeft_two (by omega)]
    rfl
  rw [List.length_append, List.length_append, List.length_cons, List.length_cons,
    List.length_take, hbuf, htwo (by omega) (by omega), htwo (by omega) (by omega)]
  rfl

/-- The line of a record ends where the record does. -/
theorem dumprecout_line {what : Dumpdates} (h : Printable z what) : ∃ body,
    dumprecout z what = some (body ++ [10]) ∧ 10 ∉ body ∧ 0 ∉ body ∧ body.length + 1 < bufsiz := by
  obtain ⟨⟨hnul, -, hnl, hlen⟩, ⟨hlevel0, hlevel1⟩, hoff, hlo, hhi⟩ := h
  obtain ⟨hbuf, hend, -⟩ := unctime_dateText z z hoff hlo hhi
  obtain ⟨date, hdate, h10, h0, hdatelen⟩ := dateText_line hoff (z.localtime what.ddDdate) hbuf
  refine ⟨what.ddName ++ 32 :: (decimal what.ddLevel ++ 32 :: date), ?_, ?_, ?_, ?_⟩
  · rw [dumprecout, if_neg (not_or.mpr ⟨not_not.mpr hbuf, not_not.mpr hend⟩)]
    simp only [List.append_assoc, List.cons_append]
    rw [← hdate]
    rfl
  · simp only [List.mem_append, List.mem_cons, not_or]
    exact ⟨hnl, by decide, not_mem_decimal _ (by decide) (by decide), by decide, h10⟩
  · simp only [List.mem_append, List.mem_cons, not_or]
    exact ⟨hnul, by decide, not_mem_decimal _ (by decide) (by decide), by decide, h0⟩
  · have hlevel : (decimal what.ddLevel).length ≤ 10 + 1 :=
      length_decimal_le (by decide) (by omega)
    simp only [List.length_append, List.length_cons, hdatelen]
    unfold maxpathlen at hlen
    unfold bufsiz
    omega

/-- **What comes back of a table.** -/
theorem getrecords_dumprecsOut (z' : Zone) {ddatev : List Dumpdates}
    (h : ∀ what ∈ ddatev, Printable z what) : ∃ file, dumprecsOut z ddatev = some file ∧
      getrecords z' file = ddatev.map (reread z) := by
  induction ddatev with
  | nil => exact ⟨[], rfl, rfl⟩
  | cons what ddatev ih =>
    obtain ⟨hwhat, hrest⟩ := List.forall_mem_cons.mp h
    obtain ⟨file, hfile, hget⟩ := ih hrest
    obtain ⟨body, hline, h10, h0, hlen⟩ := dumprecout_line hwhat
    obtain ⟨line, hline', hmake⟩ := makedumpdate_of_dumprecout z' hwhat
    obtain rfl : body ++ [10] = line := Option.some.inj (hline.symm.trans hline')
    refine ⟨body ++ [10] ++ file, ?_, ?_⟩
    · rw [dumprecsOut_cons, hline, hfile]
      rfl
    · have htext : (body ++ [10]).takeWhile (· ≠ 0) = body ++ [10] := by
        refine List.takeWhile_eq_self_iff.mpr fun c hc => decide_eq_true ?_
        rintro rfl
        rcases List.mem_append.mp hc with hc | hc
        · exact h0 hc
        · exact absurd (List.mem_singleton.mp hc) (by decide)
      rw [getrecords, fgetsLines, List.append_assoc, List.singleton_append,
        fgetsFrom_line h10 (by omega), List.map_cons, List.map_cons, htext, hmake, List.map_cons]
      exact congrArg _ hget

theorem mem_recordsIn {file : List UInt8} {ddp : Dumpdates} :
    ddp ∈ recordsIn z file ↔ some ddp ∈ getrecords z file := List.reduceOption_mem_iff

theorem reduceOption_map_some (ddatev : List Dumpdates) :
    (ddatev.map some).reduceOption = ddatev := by
  rw [List.reduceOption, List.filterMap_map]
  exact List.filterMap_some

/-- A file of which every line parses. -/
theorem readdumptimes_eq {file : List UInt8} {ddatev : List Dumpdates}
    (h : getrecords z file = ddatev.map some) : readdumptimes z file = ddatev := by
  have hall : ∀ o ∈ ddatev.map some, o.isSome = true := by
    intro o ho
    obtain ⟨ddp, -, rfl⟩ := List.mem_map.mp ho
    rfl
  rw [readdumptimes, h, List.takeWhile_eq_self_iff.mpr hall, reduceOption_map_some]

theorem readdumptimes_sublist (z : Zone) (file : List UInt8) :
    (readdumptimes z file).Sublist (recordsIn z file) :=
  (List.takeWhile_sublist _).filterMap _

/-! ## The record that is put -/

/-- The record of a disk and a level. -/
def Dumpdates.Own (disk : List UInt8) (level : ℕ) (ddp : Dumpdates) : Prop :=
  ddp.ddName = disk ∧ ddp.ddLevel = level

instance (disk : List UInt8) (level : ℕ) : DecidablePred (Dumpdates.Own disk level) :=
  fun _ => inferInstanceAs (Decidable (_ ∧ _))

/-- A name that is not longer than a path is compared as a whole. -/
theorem matches_iff {disk : List UInt8} {ddp : Dumpdates} (h : ddp.ddName.length ≤ maxpathlen) :
    ddp.Matches disk ↔ ddp.ddName = disk := by
  unfold maxpathlen at h
  rw [Dumpdates.Matches, List.take_of_length_le (l := ddp.ddName) (by unfold ddNameSize; omega)]
  constructor
  · intro heq
    have hlen := congrArg List.length heq
    rw [List.length_take, ddNameSize] at hlen
    rw [← heq, List.take_of_length_le (by unfold ddNameSize; omega)]
  · rintro rfl
    exact List.take_of_length_le (by unfold ddNameSize; omega)

theorem newDumpdates_eq {disk : List UInt8} (h : disk.length ≤ maxpathlen) (level : ℕ) (date : ℤ) :
    newDumpdates disk level date = ⟨disk, level, date⟩ := by
  unfold maxpathlen at h
  rw [newDumpdates, List.take_of_length_le (by unfold ddNameSize; omega)]

/-- If there is at most one record of the disk and the level, it is the new one that remains. -/
theorem filter_putdumptime {disk : List UInt8} (hdisk : disk.length ≤ maxpathlen) {level : ℕ}
    {date : ℤ} {ddatev : List Dumpdates} (hnames : ∀ ddp ∈ ddatev, ddp.ddName.length ≤ maxpathlen)
    (hone : ddatev.countP (Dumpdates.Own disk level ·) ≤ 1) :
    (putdumptime disk level date ddatev).filter (Dumpdates.Own disk level ·) =
      [⟨disk, level, date⟩] := by
  have hnew : Dumpdates.Own disk level ⟨disk, level, date⟩ := ⟨rfl, rfl⟩
  induction ddatev with
  | nil => rw [putdumptime, newDumpdates_eq hdisk, List.filter_singleton, decide_eq_true hnew]; rfl
  | cons ddp ddatev ih =>
    obtain ⟨hname, hnames⟩ := List.forall_mem_cons.mp hnames
    rw [putdumptime]
    by_cases hown : Dumpdates.Own disk level ddp
    · rw [List.countP_cons_of_pos (by simpa using hown)] at hone
      have hnone : ddatev.countP (Dumpdates.Own disk level ·) = 0 := by omega
      rw [if_pos ⟨(matches_iff hname).mpr hown.1, hown.2⟩, newDumpdates_eq hdisk,
        List.filter_cons_of_pos (by simpa using hnew),
        List.filter_eq_nil_iff.mpr (List.countP_eq_zero.mp hnone)]
    · rw [List.countP_cons_of_neg (by simpa using hown)] at hone
      rw [if_neg fun h => hown ⟨(matches_iff hname).mp h.1, h.2⟩,
        List.filter_cons_of_neg (by simpa using hown), ih hnames hone]

/-- What is asked of the new file: the records of other names or levels are still there, and if
there was at most one record of the disk and the level, there is one now, with the new date. -/
def OwnRecordOnly (z : Zone) (disk : List UInt8) (level : ℕ) (date : ℤ) (file file' : List UInt8) :
    Prop :=
  (∀ ddp ∈ recordsIn z file, ¬ddp.Own disk level → ddp ∈ recordsIn z file') ∧
  ((recordsIn z file).countP (Dumpdates.Own disk level ·) ≤ 1 →
    (recordsIn z file').filter (Dumpdates.Own disk level ·) = [⟨disk, level, date⟩])

/-- The zones: every offset is less than a day, and from a minute before the epoch on it is a whole
number of minutes. -/
structure Zone.Civil (z : Zone) : Prop where
  day : ∀ t, (z.gmtoff t).natAbs < 86400
  minutes : ∀ t, -60 ≤ t → z.gmtoff t % 60 = 0

theorem Zone.Civil.wholeMinutes (hz : z.Civil) {t : ℤ} (h : 0 ≤ t) : z.WholeMinutes t :=
  ⟨hz.day t, hz.minutes t (by omega)⟩

/-- A date before the epoch does not come back. -/
theorem reread_of_neg (hz : z.Civil) {what : Dumpdates} (h : what.ddDdate < 0) :
    reread z what = none := by
  have hlost : what.ddDdate + z.lost what.ddDdate < 0 := by
    by_cases hlate : -60 ≤ what.ddDdate
    · have hwhole : z.WholeMinutes what.ddDdate := ⟨hz.day _, hz.minutes _ hlate⟩
      rw [hwhole.lost]
      omega
    · have := (z.abs_lost what.ddDdate).2
      omega
  rw [reread, if_pos hlost]

/-- A line for a date that fits a header. -/
theorem printable_new (hz : z.Civil) {name : List UInt8} {level date : ℤ} (hnul : 0 ∉ name)
    (hname : ProperName name) (hlevel : 0 ≤ level ∧ level < 2 ^ 31)
    (hdate : -2 ^ 31 ≤ date ∧ date < 2 ^ 32) : Printable z ⟨name, level, date⟩ := by
  have hday := hz.day date
  obtain ⟨hlo, hhi⟩ := tmYear_gmtime (t := date + z.gmtoff date) (by omega) (by omega)
  exact ⟨⟨hnul, hname⟩, hlevel, hday, le_trans (by decide) hlo, hhi⟩

theorem exists_dumprecout {what : Dumpdates} (hoff : (z.gmtoff what.ddDdate).natAbs < 86400)
    (hlo : -900 ≤ (z.localtime what.ddDdate).tmYear)
    (hhi : (z.localtime what.ddDdate).tmYear ≤ 8099) : ∃ line, dumprecout z what = some line := by
  obtain ⟨hbuf, hend, -⟩ := unctime_dateText z z hoff hlo hhi
  exact ⟨_, if_neg (not_or.mpr ⟨not_not.mpr hbuf, not_not.mpr hend⟩)⟩

theorem exists_dumprecsOut {ddatev : List Dumpdates}
    (h : ∀ what ∈ ddatev, ∃ line, dumprecout z what = some line) :
    ∃ file, dumprecsOut z ddatev = some file := by
  induction ddatev with
  | nil => exact ⟨[], rfl⟩
  | cons what ddatev ih =>
    obtain ⟨⟨line, hline⟩, hrest⟩ := List.forall_mem_cons.mp h
    obtain ⟨file, hfile⟩ := ih hrest
    exact ⟨line ++ file, by rw [dumprecsOut_cons, hline, hfile]; rfl⟩

/-- The records of a file have levels that are not negative and years of four digits. -/
def WellFormed (z : Zone) (file : List UInt8) : Prop :=
  ∀ ddp ∈ recordsIn z file, 0 ≤ ddp.ddLevel ∧ 1900 + (z.localtime ddp.ddDdate).tmYear ≤ 9999

/-- A record that was read can be printed. -/
theorem printable_of_mem (hz : z.Civil) {file : List UInt8} (hfile : WellFormed z file)
    {ddp : Dumpdates} (h : ddp ∈ recordsIn z file) : Printable z ddp := by
  obtain ⟨hnul, hname, hdate, hlevel⟩ := name_of_mem_recordsIn h
  obtain ⟨hlevel0, hyear⟩ := hfile ddp h
  have hday := hz.day ddp.ddDdate
  have hlo : 69 ≤ (z.localtime ddp.ddDdate).tmYear := tmYear_gmtime_ge (by omega)
  exact ⟨⟨hnul, hname⟩, ⟨hlevel0, hlevel⟩, hday, by omega, by omega⟩

section Rewrite

variable {disk : List UInt8} {level : ℕ} {date : ℤ} {file file' : List UInt8}

/-- What comes back of the file that `putdumptime` leaves. -/
theorem getrecords_rewriteFile (z' : Zone) (hz : z.Civil) (hnul : 0 ∉ disk)
    (hdisk : ProperName disk) (hlevel : level < 2 ^ 31) (hdate : -2 ^ 31 ≤ date ∧ date < 2 ^ 31)
    (hfile : WellFormed z file) (h : rewriteFile z disk level date file = some file') :
    getrecords z' file' = (putdumptime disk level date (readdumptimes z file)).map (reread z) := by
  have hprint : ∀ what ∈ putdumptime disk level date (readdumptimes z file), Printable z what := by
    intro what hwhat
    rcases mem_putdumptime hwhat with rfl | hold
    · rw [newDumpdates_eq hdisk.2.2]
      exact printable_new hz hnul hdisk (by omega) (by omega)
    · exact printable_of_mem hz hfile ((readdumptimes_sublist z file).subset hold)
  obtain ⟨text, htext, hget⟩ := getrecords_dumprecsOut z' hprint
  obtain rfl : text = file' := Option.some.inj (htext.symm.trans h)
  exact hget

theorem exists_rewriteFile (hz : z.Civil) (disk : List UInt8) (level : ℕ)
    (hdate : -2 ^ 31 ≤ date ∧ date < 2 ^ 31) (hfile : WellFormed z file) :
    ∃ file', rewriteFile z disk level date file = some file' := by
  refine exists_dumprecsOut fun what hwhat => ?_
  rcases mem_putdumptime hwhat with rfl | hold
  · have hday := hz.day date
    obtain ⟨hlo, hhi⟩ := tmYear_gmtime (t := date + z.gmtoff date) (by omega) (by omega)
    exact exists_dumprecout hday (le_trans (by decide) hlo) hhi
  · have hprint := printable_of_mem hz hfile ((readdumptimes_sublist z file).subset hold)
    exact exists_dumprecout hprint.offset hprint.year.1 hprint.year.2

/-- The records that were read come back. -/
theorem reread_of_mem (hz : z.Civil) {ddp : Dumpdates} (h : ddp ∈ readdumptimes z file) :
    reread z ddp = some ddp := by
  obtain ⟨-, -, hdate, -⟩ := name_of_mem_recordsIn ((readdumptimes_sublist z file).subset h)
  exact reread_of_nonneg hdate (hz.wholeMinutes hdate)

/-- **When only the own record changes.** A new file has the other records and the new date if and
only if the name of the disk can stand in a line, the date is not negative where one is asked for,
and every other record stands before the first line that does not parse. -/
theorem rewriteFile_iff (hz : z.Civil) (hnul : 0 ∉ disk) (hlevel : level < 2 ^ 31)
    (hdate : -2 ^ 31 ≤ date ∧ date < 2 ^ 31) (hfile : WellFormed z file) :
    ∃ file', rewriteFile z disk level date file = some file' ∧
      (OwnRecordOnly z disk level date file file' ↔ ProperName disk ∧
        ((recordsIn z file).countP (Dumpdates.Own disk level ·) ≤ 1 → 0 ≤ date) ∧
        ∀ ddp ∈ recordsIn z file, ¬ddp.Own disk level →
          some ddp ∈ (getrecords z file).takeWhile Option.isSome) := by
  have hread {ddp : Dumpdates} : ddp ∈ readdumptimes z file ↔
      some ddp ∈ (getrecords z file).takeWhile Option.isSome := List.reduceOption_mem_iff
  obtain ⟨file', hfile'⟩ := exists_rewriteFile hz disk level hdate hfile
  refine ⟨file', hfile', ?_, ?_⟩
  · rintro ⟨hothers, hown⟩
    have hdisk : ProperName disk := by
      by_cases hone : (recordsIn z file).countP (Dumpdates.Own disk level ·) ≤ 1
      · have hmem : (⟨disk, level, date⟩ : Dumpdates) ∈ recordsIn z file' :=
          List.mem_of_mem_filter ((hown hone).symm ▸ List.mem_singleton_self _)
        exact (name_of_mem_recordsIn hmem).2.1
      · obtain ⟨ddp, hmem, hddp⟩ := List.countP_pos_iff.mp (by omega :
          0 < (recordsIn z file).countP (Dumpdates.Own disk level ·))
        exact (of_decide_eq_true hddp).1 ▸ (name_of_mem_recordsIn hmem).2.1
    refine ⟨hdisk, fun hone => ?_, fun ddp hmem hnot => ?_⟩
    · have hmem : (⟨disk, level, date⟩ : Dumpdates) ∈ recordsIn z file' :=
        List.mem_of_mem_filter ((hown hone).symm ▸ List.mem_singleton_self _)
      exact (name_of_mem_recordsIn hmem).2.2.1
    · have hnew := mem_recordsIn.mp (hothers ddp hmem hnot)
      rw [getrecords_rewriteFile z hz hnul hdisk hlevel hdate hfile hfile', List.mem_map] at hnew
      obtain ⟨what, hwhat, heq⟩ := hnew
      rcases mem_putdumptime hwhat with rfl | hold
      · rw [newDumpdates_eq hdisk.2.2, reread] at heq
        split at heq
        · cases heq
        · exact absurd (Option.some.inj heq ▸ ⟨rfl, rfl⟩) hnot
      · rw [reread_of_mem hz hold] at heq
        exact Option.some.inj heq ▸ hread.mp hold
  · rintro ⟨hdisk, hnonneg, hbefore⟩
    have hget := getrecords_rewriteFile z hz hnul hdisk hlevel hdate hfile hfile'
    refine ⟨fun ddp hmem hnot => ?_, fun hone => ?_⟩
    · have hold := hread.mpr (hbefore ddp hmem hnot)
      have hne : ¬(ddp.Matches disk ∧ ddp.ddLevel = level) := fun hm =>
        hnot ⟨(matches_iff (name_of_mem_recordsIn hmem).2.1.2.2).mp hm.1, hm.2⟩
      rw [mem_recordsIn, hget, List.mem_map]
      exact ⟨ddp, mem_putdumptime_of_ne hold hne, reread_of_mem hz hold⟩
    · have hall : ∀ what ∈ putdumptime disk level date (readdumptimes z file),
          reread z what = some what := by
        intro what hwhat
        rcases mem_putdumptime hwhat with rfl | hold
        · exact reread_of_nonneg (hnonneg hone) (hz.wholeMinutes (hnonneg hone))
        · exact reread_of_mem hz hold
      have hsub := readdumptimes_sublist z file
      rw [recordsIn, hget, List.map_congr_left hall, reduceOption_map_some]
      exact filter_putdumptime hdisk.2.2
        (fun ddp hmem => (name_of_mem_recordsIn (hsub.subset hmem)).2.1.2.2)
        ((hsub.countP_le).trans hone)

end Rewrite

theorem civil_greenwich : greenwich.Civil := ⟨fun _ => Nat.zero_lt_succ _, fun _ _ => rfl⟩

/-- A line that does not parse, and the record of another disk. -/
def strayLine : List UInt8 := str "?\n/dev/sdb1 0 Tue Feb 29 00:00:00 2000 +0000\n"

theorem getrecords_strayLine : getrecords greenwich strayLine =
    [none, some ⟨str "/dev/sdb1", 0, 951782400⟩] := by
  decide

theorem wellFormed_strayLine : WellFormed greenwich strayLine := by
  rw [WellFormed, recordsIn, getrecords_strayLine]
  decide

theorem rewriteFile_strayLine : ∃ file',
    rewriteFile greenwich (str "/dev/sda1") 1 951868800 strayLine = some file' ∧
      (OwnRecordOnly greenwich (str "/dev/sda1") 1 951868800 strayLine file' ↔
        ProperName (str "/dev/sda1") ∧
        ((recordsIn greenwich strayLine).countP (Dumpdates.Own (str "/dev/sda1") 1 ·) ≤ 1 →
          (0 : ℤ) ≤ 951868800) ∧
        ∀ ddp ∈ recordsIn greenwich strayLine, ¬ddp.Own (str "/dev/sda1") 1 →
          some ddp ∈ (getrecords greenwich strayLine).takeWhile Option.isSome) :=
  rewriteFile_iff civil_greenwich (by decide) (by decide) (by decide) wellFormed_strayLine

/-- The record after a line that does not parse is lost. -/
theorem not_ownRecordOnly : ¬∀ (z : Zone), z.Civil → ∀ (disk : List UInt8) (level : ℕ) (date : ℤ),
    0 ∉ disk → ProperName disk → level < 2 ^ 31 → 0 ≤ date ∧ date < 2 ^ 31 →
    ∀ file file' : List UInt8, WellFormed z file →
      rewriteFile z disk level date file = some file' →
      OwnRecordOnly z disk level date file file' := by
  intro hall
  have hdisk : ProperName (str "/dev/sda1") := ⟨by decide, by decide, by decide⟩
  have hprint : Printable greenwich ⟨str "/dev/sda1", 1, 951868800⟩ :=
    printable_new civil_greenwich (by decide) hdisk (by decide) (by decide)
  have hold : readdumptimes greenwich strayLine = [] := by
    rw [readdumptimes, getrecords_strayLine]
    rfl
  obtain ⟨line, hline, -⟩ := makedumpdate_of_dumprecout greenwich hprint
  have hfile' :
      rewriteFile greenwich (str "/dev/sda1") 1 951868800 strayLine = some (line ++ []) := by
    rw [rewriteFile, hold, putdumptime, newDumpdates_eq hdisk.2.2, dumprecsOut_cons]
    exact congrArg (Option.bind · _) hline
  have hget := getrecords_rewriteFile greenwich civil_greenwich (by decide) hdisk (by decide)
    (by decide) wellFormed_strayLine hfile'
  have hlost := (hall greenwich civil_greenwich _ 1 951868800 (by decide) hdisk (by decide)
    (by decide) _ _ wellFormed_strayLine hfile').1 ⟨str "/dev/sdb1", 0, 951782400⟩
    (by rw [mem_recordsIn, getrecords_strayLine]; decide) (by decide)
  rw [mem_recordsIn, hget, hold, putdumptime, newDumpdates_eq hdisk.2.2] at hlost
  exact absurd hlost (by decide)

/-! ## Dates of 32 bits -/

theorem putdumptime_of_none {disk : List UInt8} {level : ℕ} {date : ℤ} {ddatev : List Dumpdates}
    (h : ∀ ddp ∈ ddatev, ¬(ddp.Matches disk ∧ ddp.ddLevel = level)) :
    putdumptime disk level date ddatev = ddatev ++ [newDumpdates disk level date] := by
  induction ddatev with
  | nil => rfl
  | cons ddp ddatev ih =>
    obtain ⟨hddp, hrest⟩ := List.forall_mem_cons.mp h
    rw [putdumptime, if_neg hddp, ih hrest, List.cons_append]

/-- What `getdumptime` makes of the dates of the records that count. -/
def baseDate (dates : List ℤ) : ℤ :=
  dates.foldl (fun ddate date => if date ≤ ddate then ddate else int32 date) 0

/-- The dates of the records of a disk with a lower level. -/
def lowerDates (disk : List UInt8) (level : ℕ) (ddatev : List Dumpdates) : List ℤ :=
  (ddatev.filter fun ddp => decide (ddp.Matches disk ∧ ddp.ddLevel < (level : ℤ))).map
    Dumpdates.ddDdate

theorem getdumptime_eq (disk : List UInt8) (level : ℕ) (ddatev : List Dumpdates) :
    (getdumptime disk level ddatev).1 = baseDate (lowerDates disk level ddatev) := by
  induction ddatev using List.reverseRecOn with
  | nil => rfl
  | append_singleton ddatev ddp ih =>
    rw [getdumptime, List.foldl_concat, ← getdumptime, lowerDates, List.filter_append,
      List.map_append, baseDate, List.foldl_append, ← lowerDates, ← baseDate, ← ih]
    by_cases hm : ddp.Matches disk
    · by_cases hlevel : ddp.ddLevel < level
      · rw [List.filter_cons_of_pos (by simpa using ⟨hm, hlevel⟩), if_neg (not_not.mpr hm),
          if_neg (not_le_of_gt hlevel)]
        simp only [List.filter_nil, List.map_cons, List.map_nil, List.foldl_cons, List.foldl_nil]
        split <;> rfl
      · rw [List.filter_cons_of_neg (by simpa using fun _ => le_of_not_gt hlevel),
          if_neg (not_not.mpr hm), if_pos (le_of_not_gt hlevel)]
        rfl
    · rw [List.filter_cons_of_neg (by simp [hm]), if_pos hm]
      rfl

theorem int32_range (x : ℤ) : -2 ^ 31 ≤ int32 x ∧ int32 x < 2 ^ 31 := by
  have hlo := Int.le_bmod (x := x) (m := 2 ^ 32) (by decide)
  have hhi := Int.bmod_lt (x := x) (m := 2 ^ 32) (by decide)
  unfold int32
  omega

/-- A date from 2^31 on is stored as a negative number. -/
theorem int32_neg {x : ℤ} (h : 2 ^ 31 ≤ x) (hlt : x < 2 ^ 32) : int32 x < 0 := by
  have hmod : x % (2 ^ 32 : ℕ) = x := Int.emod_eq_of_lt (by omega) hlt
  rw [int32, Int.bmod_eq_emod, hmod, if_pos (by norm_num; omega)]
  norm_num
  exact hlt

theorem baseDate_range (dates : List ℤ) : -2 ^ 31 ≤ baseDate dates ∧ baseDate dates < 2 ^ 31 := by
  induction dates using List.reverseRecOn with
  | nil => exact ⟨by decide, by decide⟩
  | append_singleton dates date ih =>
    rw [baseDate, List.foldl_concat, ← baseDate]
    split
    · exact ih
    · exact int32_range date

/-- Among dates that are not negative as numbers of 32 bits, the base date is the greatest one. -/
theorem baseDate_greatest {dates : List ℤ} (h : ∀ date ∈ dates, 0 ≤ date ∧ date < 2 ^ 31) :
    (∀ date ∈ dates, date ≤ baseDate dates) ∧ (baseDate dates = 0 ∨ baseDate dates ∈ dates) := by
  induction dates using List.reverseRecOn with
  | nil => exact ⟨by simp, .inl rfl⟩
  | append_singleton dates date ih =>
    obtain ⟨hle, hmem⟩ := ih fun d hd => h d (List.mem_append_left _ hd)
    obtain ⟨h0, hlt⟩ := h date (List.mem_append_right _ (List.mem_singleton_self _))
    rw [baseDate, List.foldl_concat, ← baseDate]
    split
    · next hold =>
      refine ⟨fun d hd => ?_, hmem.imp_right (List.mem_append_left _)⟩
      rcases List.mem_append.mp hd with hd | hd
      · exact hle d hd
      · exact List.mem_singleton.mp hd ▸ hold
    · next hnew =>
      rw [int32_of_lt h0 hlt]
      refine ⟨fun d hd => ?_, .inr (List.mem_append_right _ (List.mem_singleton_self _))⟩
      rcases List.mem_append.mp hd with hd | hd
      · exact (hle d hd).trans (le_of_not_ge hnew)
      · rw [List.mem_singleton.mp hd]

/-- When a date that needs no sign comes last, the base date without its sign is the greatest one
just if no date before it needs the sign. -/
theorem baseDate_iff {dates : List ℤ} {date M : ℤ} (hdates : ∀ d ∈ dates, 0 ≤ d)
    (hdate : 0 ≤ date ∧ date < 2 ^ 31) (hM : IsGreatest {d | d ∈ dates ++ [date]} M) :
    baseDate (dates ++ [date]) % 2 ^ 32 = M ↔ ∀ d ∈ dates, d < 2 ^ 31 := by
  constructor
  · intro heq d hd
    have hle : d ≤ M := hM.2 (List.mem_append_left _ hd)
    have hrange := baseDate_range dates
    rw [baseDate, List.foldl_concat, ← baseDate] at heq
    split at heq
    · omega
    · rw [int32_of_lt hdate.1 hdate.2] at heq
      omega
  · intro hlt
    have hall : ∀ d ∈ dates ++ [date], 0 ≤ d ∧ d < 2 ^ 31 := by
      intro d hd
      rcases List.mem_append.mp hd with hd | hd
      · exact ⟨hdates d hd, hlt d hd⟩
      · exact List.mem_singleton.mp hd ▸ hdate
    obtain ⟨hle, hmem⟩ := baseDate_greatest hall
    have hge := hle date (List.mem_append_right _ (List.mem_singleton_self _))
    have hmax : baseDate (dates ++ [date]) = M := by
      refine le_antisymm ?_ (hle M hM.1)
      rcases hmem with h0 | hmem
      · rw [h0]
        exact (hall M hM.1).1
      · exact hM.2 hmem
    rw [← hmax, Int.emod_eq_of_lt (by omega)]
    exact lt_trans (baseDate_range _).2 (by decide)

/-- The dates that count for a dump of a higher level: the new one, and those of the other records
of the disk with a lower level. -/
def LowerDate (disk : List UInt8) (higher : ℕ) (d : ℤ) (others : List Dumpdates) : Set ℤ :=
  {date | date = d ∨ ∃ ddp ∈ others, ddp.ddName = disk ∧ ddp.ddLevel < higher ∧ ddp.ddDdate = date}

/-- The base date without its sign, as the mapping passes see it. -/
def MapFs.since (t : MapFs) (ddate : ℤ) : MapFs := { t with ddate := (ddate % 2 ^ 32).toNat }

theorem wanttodump_since (t : MapFs) {ddate M : ℤ} (h : ddate % 2 ^ 32 = M) (ino : ℕ)
    (excluded : Finset ℕ) : (t.since ddate).wanttodump ino excluded = true ↔
      M ≤ (t.getino ino).diCtime ∧ t.nodumpFlag ino = false ∧ ino ∉ excluded := by
  have hctime : (t.since ddate).csince ino = true ↔ M ≤ (t.getino ino).diCtime := by
    rw [MapFs.csince, decide_eq_true_iff]
    change (ddate % 2 ^ 32).toNat ≤ (t.getino ino).diCtime ↔ _
    omega
  have hflag : (t.since ddate).nodumpFlag ino = t.nodumpFlag ino := rfl
  rw [MapFs.wanttodump, Bool.and_eq_true, Bool.and_eq_true, hctime, hflag, decide_eq_true_iff,
    Bool.not_eq_true', and_assoc]

/-- A later run reads the new date, takes the greatest date of a lower level as its base date, and
selects the inodes that are not older. -/
def DatesWork (z' : Zone) (disk : List UInt8) (level higher : ℕ) (d M : ℤ) (file' : List UInt8) :
    Prop :=
  let ddatev := readdumptimes z' file'
  let ddate := (getdumptime disk higher ddatev).1
  ⟨disk, level, d⟩ ∈ ddatev ∧ ddate % 2 ^ 32 = M ∧
    ∀ (t : MapFs) (ino : ℕ) (excluded : Finset ℕ),
      (t.since ddate).wanttodump ino excluded = true ↔
        M ≤ (t.getino ino).diCtime ∧ t.nodumpFlag ino = false ∧ ino ∉ excluded

/-- **When dates of 32 bits work.** The start of a dump is recorded in a table of other records, and
read for a dump of a higher level. This works if and only if the name of the disk can stand in a
line, the start is before 2^31, and so are the dates of the other records that count. -/
theorem dates_iff {z z' : Zone} (hz : z.Civil) {disk : List UInt8} (hnul : 0 ∉ disk)
    {level higher : ℕ} (hlevel : level < 2 ^ 31) (hhigher : level < higher) {d : ℤ}
    (hd : 0 ≤ d ∧ d < 2 ^ 32) {file : List UInt8} {others : List Dumpdates}
    (hfile : getrecords z file = others.map some)
    (hothers : ∀ ddp ∈ others, 0 ≤ ddp.ddLevel ∧ ddp.ddDdate < 2 ^ 32 ∧ ¬ddp.Own disk level) {M : ℤ}
    (hM : IsGreatest (LowerDate disk higher d others) M) :
    ∃ file', rewriteFile z disk level (int32 d) file = some file' ∧
      (DatesWork z' disk level higher d M file' ↔ ProperName disk ∧ d < 2 ^ 31 ∧
        ∀ ddp ∈ others, ddp.ddName = disk → ddp.ddLevel < higher → ddp.ddDdate < 2 ^ 31) := by
  have hin : recordsIn z file = others := by rw [recordsIn, hfile, reduceOption_map_some]
  have hread : readdumptimes z file = others := readdumptimes_eq hfile
  have hname {ddp : Dumpdates} (h : ddp ∈ others) := name_of_mem_recordsIn (hin.symm ▸ h)
  have hday {ddp : Dumpdates} (h : ddp ∈ others) : z.WholeMinutes ddp.ddDdate :=
    hz.wholeMinutes (hname h).2.2.1
  have hwell : WellFormed z file := by
    intro ddp hmem
    rw [hin] at hmem
    have hoff := hz.day ddp.ddDdate
    obtain ⟨hlevel0, hlt, -⟩ := hothers ddp hmem
    have hdate := (hname hmem).2.2.1
    have hyear := (tmYear_gmtime (t := ddp.ddDdate + z.gmtoff ddp.ddDdate) (by omega) (by omega)).2
    refine ⟨hlevel0, ?_⟩
    change 1900 + (gmtime _).tmYear ≤ 9999
    omega
  have hrange := int32_range d
  obtain ⟨file', hfile'⟩ := exists_rewriteFile hz disk level hrange hwell
  refine ⟨file', hfile', ?_⟩
  have hmatch {ddp : Dumpdates} (h : ddp ∈ others) : ddp.Matches disk ↔ ddp.ddName = disk :=
    matches_iff (hname h).2.1.2.2
  have hput : putdumptime disk level (int32 d) others =
      others ++ [newDumpdates disk level (int32 d)] :=
    putdumptime_of_none fun ddp h hm => (hothers ddp h).2.2 ⟨(hmatch h).mp hm.1, hm.2⟩
  -- where the name is proper, the other records come back in any case
  have hget (hdisk : ProperName disk) : getrecords z' file' =
      others.map some ++ [reread z ⟨disk, level, int32 d⟩] := by
    have hothers' : others.map (reread z) = others.map some :=
      List.map_congr_left fun ddp h => reread_of_nonneg (hname h).2.2.1 (hday h)
    rw [getrecords_rewriteFile z' hz hnul hdisk hlevel hrange hwell hfile', hread, hput,
      List.map_append, hothers', newDumpdates_eq hdisk.2.2]
    rfl
  have hbase (hdisk : ProperName disk) (hlt : d < 2 ^ 31) :
      readdumptimes z' file' = others ++ [⟨disk, level, d⟩] ∧
      ((getdumptime disk higher (others ++ [⟨disk, level, d⟩])).1 % 2 ^ 32 = M ↔
        ∀ ddp ∈ others, ddp.ddName = disk → ddp.ddLevel < higher → ddp.ddDdate < 2 ^ 31) := by
    have hall : getrecords z' file' = (others ++ [(⟨disk, level, d⟩ : Dumpdates)]).map some := by
      rw [hget hdisk, int32_of_lt hd.1 hlt, reread_of_nonneg hd.1 (hz.wholeMinutes hd.1),
        List.map_append]
      rfl
    have hmem {date : ℤ} : date ∈ lowerDates disk higher others ↔
        ∃ ddp ∈ others, ddp.ddName = disk ∧ ddp.ddLevel < higher ∧ ddp.ddDdate = date := by
      simp only [lowerDates, List.mem_map, List.mem_filter, decide_eq_true_eq]
      constructor
      · rintro ⟨ddp, ⟨h, hm, hl⟩, hdate⟩
        exact ⟨ddp, h, (hmatch h).mp hm, hl, hdate⟩
      · rintro ⟨ddp, h, hm, hl, hdate⟩
        exact ⟨ddp, ⟨h, (hmatch h).mpr hm, hl⟩, hdate⟩
    have hlower : lowerDates disk higher (others ++ [⟨disk, level, d⟩]) =
        lowerDates disk higher others ++ [d] := by
      have hnew : (⟨disk, level, d⟩ : Dumpdates).Matches disk := (matches_iff hdisk.2.2).mpr rfl
      rw [lowerDates, List.filter_append, List.map_append,
        List.filter_cons_of_pos (by simpa using ⟨hnew, hhigher⟩)]
      rfl
    have hset : LowerDate disk higher d others =
        {x | x ∈ lowerDates disk higher others ++ [d]} := by
      ext date
      change (date = d ∨ _) ↔ date ∈ lowerDates disk higher others ++ [d]
      rw [List.mem_append, List.mem_singleton, hmem]
      exact or_comm
    rw [hset] at hM
    have hnonneg : ∀ date ∈ lowerDates disk higher others, 0 ≤ date := by
      intro date h
      obtain ⟨ddp, hmem', -, -, rfl⟩ := hmem.mp h
      exact (hname hmem').2.2.1
    refine ⟨readdumptimes_eq hall, ?_⟩
    rw [getdumptime_eq, hlower, baseDate_iff hnonneg ⟨hd.1, hlt⟩ hM]
    constructor
    · exact fun h ddp hmem' hm hl => h _ (hmem.mpr ⟨ddp, hmem', hm, hl, rfl⟩)
    · intro h date hdate
      obtain ⟨ddp, hmem', hm, hl, rfl⟩ := hmem.mp hdate
      exact h ddp hmem' hm hl
  constructor
  · rintro ⟨hnew, hddate, -⟩
    have hin' := (readdumptimes_sublist z' file').subset hnew
    have hdisk : ProperName disk := (name_of_mem_recordsIn hin').2.1
    have hlt : d < 2 ^ 31 := by
      by_contra hge
      have hneg : int32 d < 0 := int32_neg (by omega) hd.2
      rw [mem_recordsIn, hget hdisk, reread_of_neg hz hneg] at hin'
      rcases List.mem_append.mp hin' with h | h
      · obtain ⟨ddp, hmem, heq⟩ := List.mem_map.mp h
        obtain rfl := Option.some.inj heq
        exact (hothers _ hmem).2.2 ⟨rfl, rfl⟩
      · exact absurd (List.mem_singleton.mp h) (by simp)
    obtain ⟨heq, hiff⟩ := hbase hdisk hlt
    rw [heq] at hddate
    exact ⟨hdisk, hlt, hiff.mp hddate⟩
  · rintro ⟨hdisk, hlt, hall⟩
    obtain ⟨heq, hiff⟩ := hbase hdisk hlt
    have hddate := hiff.mpr hall
    rw [DatesWork, heq]
    exact ⟨List.mem_append_right _ (List.mem_singleton_self _), hddate,
      fun t ino excluded => wanttodump_since t hddate ino excluded⟩

/-- The line of a dump of level 0. -/
def oneLine : List UInt8 := str "/dev/sda1 0 Tue Feb 29 00:00:00 2000 +0000\n"

theorem dates_oneLine : ∃ file',
    rewriteFile greenwich (str "/dev/sda1") 1 (int32 951868800) oneLine = some file' ∧
      (DatesWork halfHourWest (str "/dev/sda1") 1 2 951868800 951868800 file' ↔
        ProperName (str "/dev/sda1") ∧ (951868800 : ℤ) < 2 ^ 31 ∧
        ∀ ddp ∈ [(⟨str "/dev/sda1", 0, 951782400⟩ : Dumpdates)], ddp.ddName = str "/dev/sda1" →
          ddp.ddLevel < (2 : ℕ) → ddp.ddDdate < 2 ^ 31) := by
  refine dates_iff civil_greenwich (by decide) (by decide) (by decide) ⟨by decide, by decide⟩
    (by decide) (by decide) ⟨.inl rfl, ?_⟩
  rintro date (rfl | ⟨ddp, hmem, -, -, rfl⟩)
  · exact le_rfl
  · rw [List.mem_singleton.mp hmem]
    decide

/-- A dump that starts in 2038 is recorded before the epoch, and its record does not parse. -/
theorem not_datesWork : ¬∀ (z z' : Zone), z.Civil → z'.Civil → ∀ (disk : List UInt8)
    (level higher : ℕ) (d M : ℤ) (file file' : List UInt8) (others : List Dumpdates),
    0 ∉ disk → ProperName disk → level < 2 ^ 31 → level < higher → 0 ≤ d ∧ d < 2 ^ 32 →
    getrecords z file = others.map some →
    (∀ ddp ∈ others, 0 ≤ ddp.ddLevel ∧ ddp.ddDdate < 2 ^ 32 ∧ ¬ddp.Own disk level) →
    IsGreatest (LowerDate disk higher d others) M →
    rewriteFile z disk level (int32 d) file = some file' →
    DatesWork z' disk level higher d M file' := by
  intro hall
  have hdisk : ProperName (str "/dev/sda1") := ⟨by decide, by decide, by decide⟩
  have hrange := int32_range (2 ^ 31)
  have hwell : WellFormed greenwich [] := List.forall_mem_nil _
  obtain ⟨file', hfile'⟩ := exists_rewriteFile civil_greenwich (str "/dev/sda1") 0 hrange hwell
  have hget := getrecords_rewriteFile greenwich civil_greenwich (by decide) hdisk (by decide) hrange
    hwell hfile'
  have hneg : reread greenwich ⟨str "/dev/sda1", 0, int32 (2 ^ 31)⟩ = none :=
    reread_of_neg civil_greenwich (int32_neg le_rfl (by decide))
  have hwork := hall greenwich greenwich civil_greenwich civil_greenwich _ 0 1 (2 ^ 31) (2 ^ 31)
    [] file' [] (by decide) hdisk (by decide) (by decide) ⟨by decide, by decide⟩ rfl (by simp)
    ⟨.inl rfl, by rintro date (rfl | ⟨ddp, hmem, -⟩) <;> [exact le_rfl; cases hmem]⟩ hfile'
  have hread : readdumptimes greenwich file' = [] := by
    have hput : putdumptime (str "/dev/sda1") 0 (int32 (2 ^ 31)) (readdumptimes greenwich []) =
        [⟨str "/dev/sda1", 0, int32 (2 ^ 31)⟩] := by
      rw [show readdumptimes greenwich [] = [] from rfl, putdumptime, newDumpdates_eq hdisk.2.2]
      rfl
    rw [readdumptimes, hget, hput, List.map_singleton, hneg]
    rfl
  rw [DatesWork, hread] at hwork
  cases hwork.1

end DumpRestore
