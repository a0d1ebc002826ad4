import DumpRestore.Dump.DumpDates
import DumpRestore.Foundations.Calendar
import DumpRestore.Foundations.Lines

/-!
# The text of the file of dump dates

The file of dump dates is text: one line for every record, with the name, the level, the local time
as `asctime` prints it and the offset of the zone. It is read up to the first line that does not
parse, and written again as a whole.

* `dumprecout` prints a record, `makedumpdate` reads a line.
* `makedumpdate_dumprecout`: a line gives its record back.
* `rewriteFile`: `putdumptime` on the text of the file.
-/

namespace DumpRestore

open Decimal Calendar

/-! ## A line -/

/-- `MAXPATHLEN`. -/
def maxpathlen : ℕ := 4096

/-- The zone of a run: the offset from Greenwich at every time, and `timelocal`. -/
structure Zone where
  gmtoff : ℤ → ℤ
  timelocal : Tm → ℤ

/-- `localtime`. -/
def Zone.localtime (z : Zone) (t : ℤ) : Tm :=
  { gmtime (t + z.gmtoff t) with tmGmtoff := z.gmtoff t }

/-- What `dumprecout` prints after the level, with `buf` the text of `asctime`. -/
def dateText (buf : List UInt8) (gmtoff : ℤ) : List UInt8 :=
  buf.take 24 ++ 32 :: (if gmtoff < 0 then 45 else 43) ::
    padLeft 2 48 (decimal ((gmtoff.natAbs : ℤ) / 3600)) ++
    padLeft 2 48 (decimal ((gmtoff.natAbs : ℤ) % 3600 / 60)) ++ [10]

/-- `dumprecout`. There is no text where it quits. -/
def dumprecout (z : Zone) (what : Dumpdates) : Option (List UInt8) :=
  let tms := z.localtime what.ddDdate
  let buf := asctime tms
  if buf.length ≠ 25 ∨ buf[24]? ≠ some 10 then none
  else some (what.ddName ++ 32 :: (decimal what.ddLevel ++ 32 :: dateText buf tms.tmGmtoff))

/-- `months`. -/
def months : List UInt8 := str "JanFebMarAprMayJunJulAugSepOctNovDec"

/-- The loop of `lookup`. -/
def lookupFrom (text : List UInt8) : List UInt8 → ℕ → Option ℕ
  | c₁ :: c₂ :: c₃ :: cp, n =>
    if [c₁, c₂, c₃] = text.take 3 then some n else lookupFrom text cp (n + 1)
  | _, _ => none

/-- `lookup`. -/
def lookup (text : List UInt8) : Option ℕ := lookupFrom text months 0

/-- `unctime`. The year ends at column 24, and the offset of the zone starts at column 25. -/
def unctime (z : Zone) (text : List UInt8) : ℤ :=
  let dbuf := text.take 31
  match lookup ((dbuf.drop 4).take 3) with
  | none => -1
  | some mon =>
    let tm : Tm :=
      { tmSec := atoi (dbuf.drop 17)
        tmMin := atoi (dbuf.drop 14)
        tmHour := atoi (dbuf.drop 11)
        tmMday := atoi (dbuf.drop 8)
        tmMon := mon
        tmYear := atoi (dbuf.drop 20) - 1900
        tmWday := 0
        tmGmtoff := 0 }
    if 30 ≤ text.length then
      let tzoffset := atoi (dbuf.drop 25)
      timegm tm - (tzoffset.tdiv 100 * 3600 + tzoffset.tmod 100 * 60)
    else z.timelocal tm

/-- `makedumpdate`, without the search in the table of filesystems. -/
def makedumpdate (z : Zone) (tbuf : List UInt8) : Option Dumpdates :=
  let tok := tbuf.takeWhile (· ≠ 32)
  match tbuf.dropWhile (· ≠ 32) with
  | [] => none
  | _ :: tbuf =>
    if tok.length > maxpathlen then none
    else
      let tbuf := tbuf.dropWhile (· = 32)
      let date := unctime z ((tbuf.dropWhile isDigit).dropWhile (· = 32))
      if date < 0 then none else some ⟨tok, atoi tbuf, date⟩

/-! ## The file -/

/-- `BUFSIZ`. -/
def bufsiz : ℕ := 8192

/-- The lines of a file as `getrecord` sees them. A zero byte ends a text. -/
def fgetsLines (file : List UInt8) : List (List UInt8) :=
  (fgetsFrom bufsiz 0 file).map (List.takeWhile (· ≠ 0))

/-- What `getrecord` makes of every line. -/
def getrecords (z : Zone) (file : List UInt8) : List (Option Dumpdates) :=
  (fgetsLines file).map (makedumpdate z)

/-- `readdumptimes`: the records of the lines up to the first one that does not parse. -/
def readdumptimes (z : Zone) (file : List UInt8) : List Dumpdates :=
  ((getrecords z file).takeWhile Option.isSome).reduceOption

/-- The records of all lines. -/
def recordsIn (z : Zone) (file : List UInt8) : List Dumpdates := (getrecords z file).reduceOption

/-- The text of a table. -/
def dumprecsOut (z : Zone) (ddatev : List Dumpdates) : Option (List UInt8) :=
  (ddatev.mapM (dumprecout z)).map List.flatten

/-- `putdumptime` on the file: the table is read, changed and printed, and the file ends there. -/
def rewriteFile (z : Zone) (disk : List UInt8) (level : ℕ) (date : ℤ) (file : List UInt8) :
    Option (List UInt8) :=
  dumprecsOut z (putdumptime disk level date (readdumptimes z file))

/-! ## The date of a line -/

/-- The offset of a zone at a time is a whole number of minutes and less than a day. -/
def Zone.WholeMinutes (z : Zone) (t : ℤ) : Prop :=
  (z.gmtoff t).natAbs < 86400 ∧ (z.gmtoff t) % 60 = 0

theorem lookup_monthNames {mon : ℕ} (h : mon < 12) :
    lookup (monthNames.getD mon (str "???")) = some mon := by
  revert mon
  decide

theorem atoi_one {a : ℕ} (ha : a < 10) {rest : List UInt8}
    (hrest : ∀ c ∈ rest.head?, isDigit c = false) : atoi (digit a :: rest) = a := by
  have hvalue := value_digits [a] (by simpa using ha) hrest
  refine atoi_of_strtol ?_ (by omega) (by omega)
  rw [strtol_of_digit (isDigit_digit ha)]
  simpa using hvalue

theorem atoi_two {n : ℕ} (h : n < 100) {rest : List UInt8}
    (hrest : ∀ c ∈ rest.head?, isDigit c = false) :
    atoi (digit (n / 10) :: digit (n % 10) :: rest) = n := by
  have hvalue := value_digits [n / 10, n % 10] (by simp; omega) hrest
  refine atoi_of_strtol ?_ (by omega) (by omega)
  rw [strtol_of_digit (isDigit_digit (by omega))]
  simp only [List.map_cons, List.map_nil, List.foldl_cons, List.foldl_nil, List.cons_append,
    List.nil_append] at hvalue
  rw [hvalue]
  omega

theorem atoi_four {n : ℕ} (h : n < 10000) {rest : List UInt8}
    (hrest : ∀ c ∈ rest.head?, isDigit c = false) :
    atoi (digit (n / 1000) :: digit (n / 100 % 10) :: digit (n / 10 % 10) :: digit (n % 10) ::
      rest) = n := by
  have hvalue := value_digits [n / 1000, n / 100 % 10, n / 10 % 10, n % 10] (by simp; omega) hrest
  refine atoi_of_strtol ?_ (by omega) (by omega)
  rw [strtol_of_digit (isDigit_digit (by omega))]
  simp only [List.map_cons, List.map_nil, List.foldl_cons, List.foldl_nil, List.cons_append,
    List.nil_append] at hvalue
  rw [hvalue]
  omega

/-- The day of the month starts in its second column, with a blank where it has one digit. -/
theorem atoi_mday {n : ℕ} (h : n < 100) {rest : List UInt8}
    (hrest : ∀ c ∈ rest.head?, isDigit c = false) :
    atoi ((if n < 10 then 32 else digit (n / 10)) :: digit (n % 10) :: rest) = n := by
  by_cases hn : n < 10
  · rw [if_pos hn, atoi, strtol_cons_space, ← atoi, atoi_one (Nat.mod_lt _ (by decide)) hrest,
      Nat.mod_eq_of_lt hn]
  · rw [if_neg hn, atoi_two h hrest]

/-- The sign goes with the hours and the minutes. -/
theorem atoi_tzoffset {hour minute : ℕ} (hhour : hour < 100) (hminute : minute < 60) (neg : Prop)
    [Decidable neg] {rest : List UInt8} (hrest : ∀ c ∈ rest.head?, isDigit c = false) :
    atoi ((if neg then 45 else 43) :: digit (hour / 10) :: digit (hour % 10) ::
      digit (minute / 10) :: digit (minute % 10) :: rest) =
      (if neg then -1 else 1) * (100 * hour + minute : ℤ) := by
  have hvalue := value_digits [hour / 10, hour % 10, minute / 10, minute % 10]
    (by simp; omega) hrest
  simp only [List.map_cons, List.map_nil, List.foldl_cons, List.foldl_nil, List.cons_append,
    List.nil_append] at hvalue
  refine atoi_of_strtol ?_ (by split <;> omega) (by split <;> omega)
  split
  · rw [strtol_minus, hvalue]
    omega
  · rw [strtol_plus, hvalue]
    omega

/-- The seconds of an offset that is printed in hours and minutes, and taken apart again with the
sign on it. -/
theorem tzoffset_seconds (gmtoff : ℤ) :
    let hour := gmtoff.natAbs / 3600
    let minute := gmtoff.natAbs % 3600 / 60
    let tzoffset : ℤ := (if gmtoff < 0 then -1 else 1) * (100 * hour + minute)
    tzoffset.tdiv 100 * 3600 + tzoffset.tmod 100 * 60 =
      (if gmtoff < 0 then -1 else 1) * (gmtoff.natAbs / 60 * 60 : ℕ) := by
  have hpos (hour minute : ℕ) (hminute : minute < 60) :
      (100 * hour + minute : ℤ).tdiv 100 = hour ∧ (100 * hour + minute : ℤ).tmod 100 = minute := by
    rw [Int.tdiv_eq_ediv_of_nonneg (by omega), Int.tmod_eq_emod_of_nonneg (by omega)]
    omega
  intro hour minute tzoffset
  obtain ⟨hdiv, hmod⟩ := hpos hour minute (by omega)
  by_cases hneg : gmtoff < 0
  · simp only [tzoffset, if_pos hneg, neg_one_mul, Int.neg_tdiv, Int.neg_tmod, hdiv, hmod]
    omega
  · simp only [tzoffset, if_neg hneg, one_mul, hdiv, hmod]
    omega

/-- Where `unctime` reads the fields. -/
theorem unctime_columns (z : Zone) {d₁ d₂ d₃ m₁ m₂ m₃ e₁ e₂ h₁ h₂ i₁ i₂ s₁ s₂ y₁ y₂ y₃ y₄ o₁ o₂ o₃
    o₄ o₅ : UInt8} {mon : ℕ} (hmon : lookup [m₁, m₂, m₃] = some mon) :
    unctime z (d₁ :: d₂ :: d₃ :: 32 :: m₁ :: m₂ :: m₃ :: 32 :: e₁ :: e₂ :: 32 :: h₁ :: h₂ :: 58 ::
      i₁ :: i₂ :: 58 :: s₁ :: s₂ :: 32 :: y₁ :: y₂ :: y₃ :: y₄ :: 32 :: o₁ :: o₂ :: o₃ :: o₄ ::
      o₅ :: [10]) =
    timegm
      { tmSec := atoi (s₁ :: s₂ :: 32 :: y₁ :: y₂ :: y₃ :: y₄ :: 32 :: o₁ :: o₂ :: o₃ :: o₄ ::
          o₅ :: [10])
        tmMin := atoi (i₁ :: i₂ :: 58 :: s₁ :: s₂ :: 32 :: y₁ :: y₂ :: y₃ :: y₄ :: 32 :: o₁ ::
          o₂ :: o₃ :: o₄ :: o₅ :: [10])
        tmHour := atoi (h₁ :: h₂ :: 58 :: i₁ :: i₂ :: 58 :: s₁ :: s₂ :: 32 :: y₁ :: y₂ :: y₃ ::
          y₄ :: 32 :: o₁ :: o₂ :: o₃ :: o₄ :: o₅ :: [10])
        tmMday := atoi (e₁ :: e₂ :: 32 :: h₁ :: h₂ :: 58 :: i₁ :: i₂ :: 58 :: s₁ :: s₂ :: 32 ::
          y₁ :: y₂ :: y₃ :: y₄ :: 32 :: o₁ :: o₂ :: o₃ :: o₄ :: o₅ :: [10])
        tmMon := mon
        tmYear := atoi (y₁ :: y₂ :: y₃ :: y₄ :: 32 :: o₁ :: o₂ :: o₃ :: o₄ :: o₅ :: [10]) - 1900
        tmWday := 0
        tmGmtoff := 0 } -
      ((atoi (o₁ :: o₂ :: o₃ :: o₄ :: o₅ :: [10])).tdiv 100 * 3600 +
        (atoi (o₁ :: o₂ :: o₃ :: o₄ :: o₅ :: [10])).tmod 100 * 60) := by
  simp only [unctime, List.take_succ_cons, List.take_zero, List.drop_succ_cons, List.drop_zero,
    hmon]
  rfl

/-- What is lost of an offset: it is printed without its seconds. -/
def Zone.lost (z : Zone) (t : ℤ) : ℤ :=
  z.gmtoff t - (if z.gmtoff t < 0 then -1 else 1) * ((z.gmtoff t).natAbs / 60 * 60 : ℕ)

theorem Zone.WholeMinutes.lost {z : Zone} {t : ℤ} (h : z.WholeMinutes t) : z.lost t = 0 := by
  obtain ⟨-, hmod⟩ := h
  unfold Zone.lost
  split <;> omega

theorem Zone.abs_lost (z : Zone) (t : ℤ) : -60 < z.lost t ∧ z.lost t < 60 := by
  unfold Zone.lost
  split <;> omega

/-- **The date of a line.** -/
theorem unctime_dateText (z z' : Zone) {t : ℤ} (hoff : (z.gmtoff t).natAbs < 86400)
    (hlo : -900 ≤ (z.localtime t).tmYear) (hhi : (z.localtime t).tmYear ≤ 8099) :
    (asctime (z.localtime t)).length = 25 ∧ (asctime (z.localtime t))[24]? = some 10 ∧
    ∃ d text, dateText (asctime (z.localtime t)) (z.gmtoff t) = d :: text ∧ d ≠ 32 ∧
      unctime z' (dateText (asctime (z.localtime t)) (z.gmtoff t)) = t + z.lost t := by
  have hin : InRange (z.localtime t) := by
    obtain ⟨hsec, hmin, hhour, hmday, hmon, hwday⟩ := inRange_gmtime (t + z.gmtoff t)
    exact ⟨hsec, hmin, hhour, hmday, hmon, hwday⟩
  have htime : timegm (z.localtime t) = t + z.gmtoff t := timegm_gmtime _
  obtain ⟨d₁, d₂, d₃, m₁, m₂, m₃, hblank, hmonth, heq⟩ := asctime_eq hin hlo hhi
  have hlookup : lookup [m₁, m₂, m₃] = some (z.localtime t).tmMon.toNat := by
    rw [← hmonth]
    exact lookup_monthNames (by have := hin.mon; omega)
  obtain ⟨hsec, hmin, hhour, hmday, hmon, -⟩ := hin
  have hhours : (z.gmtoff t).natAbs / 3600 < 24 := by omega
  have hminutes : (z.gmtoff t).natAbs % 3600 / 60 < 60 := by omega
  rw [heq]
  refine ⟨rfl, rfl, d₁, _, rfl, hblank, ?_⟩
  have hoffset := tzoffset_seconds (z.gmtoff t)
  rw [dateText, decimal_of_nonneg (by omega), decimal_of_nonneg (by omega),
    show (((z.gmtoff t).natAbs : ℤ) / 3600).toNat = (z.gmtoff t).natAbs / 3600 by omega,
    show (((z.gmtoff t).natAbs : ℤ) % 3600 / 60).toNat = (z.gmtoff t).natAbs % 3600 / 60 by omega,
    padLeft_two (by omega), padLeft_two (by omega)]
  refine (unctime_columns z' hlookup).trans ?_
  have hend (c : UInt8) (cs : List UInt8) (h : isDigit c = false) :
      ∀ c' ∈ (c :: cs).head?, isDigit c' = false := fun c' hc' => Option.some.inj hc' ▸ h
  rw [atoi_two (by omega) (hend _ _ (by decide)), atoi_two (by omega) (hend _ _ (by decide)),
    atoi_two (by omega) (hend _ _ (by decide)), atoi_mday (by omega) (hend _ _ (by decide)),
    atoi_four (by omega) (hend _ _ (by decide)),
    atoi_tzoffset (by omega) hminutes _ (hend _ _ (by decide)), hoffset]
  have hfields (tm tm' : Tm) (h : tm.tmSec = tm'.tmSec ∧ tm.tmMin = tm'.tmMin ∧
      tm.tmHour = tm'.tmHour ∧ tm.tmMday = tm'.tmMday ∧ tm.tmMon = tm'.tmMon ∧
      tm.tmYear = tm'.tmYear) : timegm tm = timegm tm' := by
    simp only [timegm, h]
  rw [hfields _ (z.localtime t) (by dsimp only; omega), htime]
  unfold Zone.lost
  omega

/-! ## A record and its line -/

/-- A name that a line can hold. -/
def ProperName (name : List UInt8) : Prop :=
  32 ∉ name ∧ 10 ∉ name ∧ name.length ≤ maxpathlen

/-- A record that `dumprecout` prints. -/
structure Printable (z : Zone) (what : Dumpdates) : Prop where
  name : 0 ∉ what.ddName ∧ ProperName what.ddName
  level : 0 ≤ what.ddLevel ∧ what.ddLevel < 2 ^ 31
  offset : (z.gmtoff what.ddDdate).natAbs < 86400
  year : -900 ≤ (z.localtime what.ddDdate).tmYear ∧ (z.localtime what.ddDdate).tmYear ≤ 8099

theorem takeWhile_dropWhile_name {name : List UInt8} (h : 32 ∉ name) (text : List UInt8) :
    (name ++ 32 :: text).takeWhile (· ≠ 32) = name ∧
      (name ++ 32 :: text).dropWhile (· ≠ 32) = 32 :: text := by
  have hall : ∀ c ∈ name, decide (c ≠ 32) = true := fun c hc =>
    decide_eq_true fun heq => h (heq ▸ hc)
  rw [List.takeWhile_append_of_pos hall, List.dropWhile_append_of_pos hall]
  simp

/-- The level ends before the date. -/
theorem dropWhile_level {level : ℤ} (h : 0 ≤ level) {d : UInt8} (hd : d ≠ 32) (text : List UInt8) :
    (decimal level ++ 32 :: d :: text).dropWhile (· = 32) = decimal level ++ 32 :: d :: text ∧
      ((decimal level ++ 32 :: d :: text).dropWhile isDigit).dropWhile (· = 32) = d :: text := by
  rw [decimal_of_nonneg h]
  obtain ⟨c, cs, heq, hdigit⟩ := isDigit_head_natural level.toNat (32 :: d :: text)
  constructor
  · rw [heq]
    refine List.dropWhile_cons_of_neg ?_
    rw [decide_eq_true_eq]
    rintro rfl
    exact absurd hdigit (by decide)
  · rw [List.dropWhile_append_of_pos (forall_natural _), List.dropWhile_cons_of_neg (by decide),
      List.dropWhile_cons_of_pos (by decide), List.dropWhile_cons_of_neg (by simpa using hd)]

/-- What comes back of a record that is printed. -/
theorem makedumpdate_of_dumprecout {z : Zone} (z' : Zone) {what : Dumpdates}
    (h : Printable z what) : ∃ line, dumprecout z what = some line ∧
      makedumpdate z' line = if what.ddDdate + z.lost what.ddDdate < 0 then none
        else some ⟨what.ddName, what.ddLevel, what.ddDdate + z.lost what.ddDdate⟩ := by
  obtain ⟨⟨-, hspace, -, hlen⟩, ⟨hlevel0, hlevel1⟩, hoff, hlo, hhi⟩ := h
  obtain ⟨hbuf, hnl, d, text, hdate, hd, hunctime⟩ := unctime_dateText z z' hoff hlo hhi
  refine ⟨_, if_neg (not_or.mpr ⟨not_not.mpr hbuf, not_not.mpr hnl⟩), ?_⟩
  obtain ⟨htake, hdrop⟩ := takeWhile_dropWhile_name hspace (decimal what.ddLevel ++ 32 :: d :: text)
  obtain ⟨hlevel, hrest⟩ := dropWhile_level hlevel0 hd text
  have hatoi : atoi (decimal what.ddLevel ++ 32 :: d :: text) = what.ddLevel :=
    atoi_decimal (by omega) hlevel1 (by simp [isDigit])
  simp only [Zone.localtime] at hdate hunctime ⊢
  rw [hdate] at hunctime ⊢
  rw [makedumpdate, htake, hdrop]
  simp only [if_neg (not_lt_of_ge hlen), hlevel, hrest, hatoi, hunctime]

/-- **Records come back.** A record with a name free of white space that is not longer than a path,
with a level and a date that are not negative and a year of four digits, is read from its line as it
was printed, in every zone whose offset is a whole number of minutes. -/
theorem makedumpdate_dumprecout (z z' : Zone) {what : Dumpdates}
    (hname : what.ddName ≠ [] ∧ (∀ c ∈ what.ddName, isSpace c = false) ∧ 0 ∉ what.ddName)
    (hlen : what.ddName.length ≤ maxpathlen) (hlevel : 0 ≤ what.ddLevel ∧ what.ddLevel < 2 ^ 31)
    (hdate : 0 ≤ what.ddDdate) (hyear : 1900 + (z.localtime what.ddDdate).tmYear ≤ 9999)
    (hoff : z.WholeMinutes what.ddDdate) :
    ∃ line, dumprecout z what = some line ∧ makedumpdate z' line = some what := by
  have hnot (c : UInt8) (hc : isSpace c = true) : c ∉ what.ddName := fun hmem => by
    rw [hname.2.1 c hmem] at hc
    cases hc
  have hlo : 69 ≤ (z.localtime what.ddDdate).tmYear := by
    refine tmYear_gmtime_ge ?_
    have := hoff.1
    omega
  obtain ⟨line, hline, hmake⟩ := makedumpdate_of_dumprecout z'
    ⟨⟨hname.2.2, hnot 32 (by decide), hnot 10 (by decide), hlen⟩, hlevel, hoff.1,
      by omega, by omega⟩
  refine ⟨line, hline, ?_⟩
  rw [hmake, hoff.lost, add_zero, if_neg (by omega)]

/-- The zone of Greenwich. -/
def greenwich : Zone := ⟨fun _ => 0, timegm⟩

/-- Half an hour to the west. -/
def halfHourWest : Zone := ⟨fun _ => -1800, fun tm => timegm tm + 1800⟩

theorem makedumpdate_dumprecout_west : ∃ line,
    dumprecout halfHourWest ⟨str "/dev/sda1", 1, 951782400⟩ = some line ∧
      makedumpdate greenwich line = some ⟨str "/dev/sda1", 1, 951782400⟩ :=
  makedumpdate_dumprecout halfHourWest greenwich (by decide +kernel) (by decide) (by decide)
    (by decide) (by decide) ⟨by decide, by decide⟩

/-- A name comes from the front of its line, and no date is negative. -/
theorem of_makedumpdate {z : Zone} {line : List UInt8} {ddp : Dumpdates}
    (h : makedumpdate z line = some ddp) : 32 ∉ ddp.ddName ∧ ddp.ddName.length ≤ maxpathlen ∧
      0 ≤ ddp.ddDdate ∧ ddp.ddLevel < 2 ^ 31 ∧ ∃ rest, line = ddp.ddName ++ 32 :: rest := by
  rw [makedumpdate] at h
  split at h
  · cases h
  · next c rest heq =>
    dsimp only at h
    split at h
    · cases h
    · next hlen =>
      split at h
      · cases h
      · next hdate =>
        obtain rfl := Option.some.inj h
        have hlevel (text : List UInt8) : atoi text < 2 ^ 31 := by
          have := Int.bmod_lt (x := strtol text) (m := 2 ^ 32) (by decide)
          unfold atoi
          omega
        refine ⟨fun hmem => ?_, le_of_not_gt hlen, le_of_not_gt hdate, hlevel _, rest, ?_⟩
        · have hne := List.mem_takeWhile_imp (p := fun c : UInt8 => decide (c ≠ 32)) hmem
          exact of_decide_eq_true hne rfl
        · have hc : c = 32 := by
            have := List.head?_dropWhile_not (fun c : UInt8 => decide (c ≠ 32)) line
            rw [heq] at this
            simpa using this
          have happ := List.takeWhile_append_dropWhile (p := fun c : UInt8 => decide (c ≠ 32))
            (l := line)
          rw [heq, hc] at happ
          exact happ.symm

/-- A name that is longer than a path does not come back. -/
theorem not_makedumpdate_dumprecout : ¬∀ (z z' : Zone) (what : Dumpdates),
    (what.ddName ≠ [] ∧ (∀ c ∈ what.ddName, isSpace c = false) ∧ 0 ∉ what.ddName) →
    (∀ line, dumprecout z what = some line → line.length < bufsiz) →
    (0 ≤ what.ddLevel ∧ what.ddLevel < 2 ^ 31) → 0 ≤ what.ddDdate →
    1900 + (z.localtime what.ddDdate).tmYear ≤ 9999 → z.WholeMinutes what.ddDdate →
    ∃ line, dumprecout z what = some line ∧ makedumpdate z' line = some what := by
  intro hall
  let what : Dumpdates := ⟨List.replicate (maxpathlen + 1) 97, 0, 0⟩
  have hmem {c : UInt8} (hc : c ∈ what.ddName) : c = 97 := List.eq_of_mem_replicate hc
  have hdate : (dateText (asctime (greenwich.localtime 0)) 0).length = 31 := by decide
  have hlen (line : List UInt8) (hline : dumprecout greenwich what = some line) :
      line.length < bufsiz := by
    rw [dumprecout] at hline
    split at hline
    · cases hline
    · obtain rfl := Option.some.inj hline
      have hlevel : (decimal what.ddLevel).length = 1 := by decide
      have hname : what.ddName.length = maxpathlen + 1 := List.length_replicate
      simp only [List.length_append, List.length_cons, hlevel, hname]
      change _ + ((_ + ((dateText (asctime (greenwich.localtime 0)) 0).length + 1)) + 1) < bufsiz
      rw [hdate]
      decide
  obtain ⟨line, -, hmake⟩ := hall greenwich greenwich what
    ⟨List.cons_ne_nil _ _, fun c hc => hmem hc ▸ rfl, fun h0 => absurd (hmem h0) (by decide)⟩ hlen
    ⟨by decide, by decide⟩ le_rfl (by decide) ⟨by decide, by decide⟩
  have hle := (of_makedumpdate hmake).2.1
  rw [show what.ddName.length = maxpathlen + 1 from List.length_replicate] at hle
  omega

end DumpRestore
