import DumpRestore.Foundations.Decimal
import Mathlib.Data.List.GetD

/-!
# Broken-down time

The C library splits a time into the fields of a `struct tm`, and prints them in 25 columns.

* `gmtime` and `timegm`: years are counted from March, so that a leap day is the last of its year.
* `timegm_gmtime`: the fields give the time back.
* `asctime_eq`: where the fields stand in the text of `asctime`.
-/

namespace DumpRestore

/-- `struct tm`, without the fields that the callers here never use. -/
structure Tm where
  tmSec : ℤ
  tmMin : ℤ
  tmHour : ℤ
  tmMday : ℤ
  tmMon : ℤ
  tmYear : ℤ
  tmWday : ℤ
  tmGmtoff : ℤ
  deriving DecidableEq

namespace Calendar

open Decimal

/-! ## Days -/

/-- The days of the first years of a period of 400 years. -/
def yearDays (yoe : ℤ) : ℤ := 365 * yoe + yoe / 4 - yoe / 100

/-- The year of a day in a period of 400 years: centuries, periods of four years, years. The last
one of each kind may be a day longer. -/
def yearOfEra (doe : ℤ) : ℤ :=
  let century := min (doe / 36524) 3
  let day := doe - 36524 * century
  let cycle := day / 1461
  100 * century + 4 * cycle + min ((day - 1461 * cycle) / 365) 3

/-- The day of the year on which a month starts. -/
def monthDays (mp : ℤ) : ℤ := (153 * mp + 2) / 5

/-- The month of a day of the year. -/
def monthOfYear (doy : ℤ) : ℤ := (5 * doy + 2) / 153

/-- The days from 1 March of the year 0 to the epoch. -/
def epochDays : ℤ := 719468

theorem yearOfEra_range {doe : ℤ} (h0 : 0 ≤ doe) (h1 : doe < 146097) :
    0 ≤ yearOfEra doe ∧ yearOfEra doe < 400 := by
  simp only [yearOfEra]
  omega

/-- The leap days that the first years of a period have. -/
theorem yearDays_eq {century cycle year : ℤ} (hcycle : 0 ≤ cycle ∧ cycle ≤ 24)
    (hyear : 0 ≤ year ∧ year ≤ 3) :
    yearDays (100 * century + 4 * cycle + year) =
      36524 * century + 1461 * cycle + 365 * year := by
  have h4 : (100 * century + 4 * cycle + year) / 4 = 25 * century + cycle := by omega
  have h100 : (100 * century + 4 * cycle + year) / 100 = century := by omega
  rw [yearDays, h4, h100]
  ring

theorem dayOfYear_range {doe : ℤ} (h0 : 0 ≤ doe) (h1 : doe < 146097) :
    0 ≤ doe - yearDays (yearOfEra doe) ∧ doe - yearDays (yearOfEra doe) ≤ 365 := by
  have hday : 0 ≤ doe - 36524 * min (doe / 36524) 3 ∧
      doe - 36524 * min (doe / 36524) 3 ≤ 36524 := by omega
  obtain ⟨day, hd⟩ : ∃ day, doe - 36524 * min (doe / 36524) 3 = day := ⟨_, rfl⟩
  simp only [yearOfEra, hd] at hday ⊢
  rw [yearDays_eq (by omega) (by omega)]
  omega

theorem dayOfMonth_range {doy : ℤ} (h0 : 0 ≤ doy) (h1 : doy ≤ 365) :
    (0 ≤ monthOfYear doy ∧ monthOfYear doy ≤ 11) ∧
      0 ≤ doy - monthDays (monthOfYear doy) ∧ doy - monthDays (monthOfYear doy) ≤ 30 := by
  unfold monthOfYear monthDays
  omega

/-! ## Times -/

/-- `gmtime`. -/
def gmtime (t : ℤ) : Tm :=
  let z := t / 86400 + epochDays
  let secs := t % 86400
  let yoe := yearOfEra (z % 146097)
  let doy := z % 146097 - yearDays yoe
  let mp := monthOfYear doy
  { tmSec := secs % 60
    tmMin := secs / 60 % 60
    tmHour := secs / 3600
    tmMday := doy - monthDays mp + 1
    tmMon := if mp < 10 then mp + 2 else mp - 10
    tmYear := yoe + z / 146097 * 400 + (if mp < 10 then 0 else 1) - 1900
    tmWday := (t / 86400 + 4) % 7
    tmGmtoff := 0 }

/-- `timegm`, for a month of the year. The other fields may be out of their ranges. -/
def timegm (tm : Tm) : ℤ :=
  let y := tm.tmYear + 1900 - (if tm.tmMon ≤ 1 then 1 else 0)
  let mp := if tm.tmMon ≤ 1 then tm.tmMon + 10 else tm.tmMon - 2
  let days := y / 400 * 146097 + yearDays (y % 400) + monthDays mp + (tm.tmMday - 1) - epochDays
  days * 86400 + tm.tmHour * 3600 + tm.tmMin * 60 + tm.tmSec

/-- The ranges of the fields. -/
structure InRange (tm : Tm) : Prop where
  sec : 0 ≤ tm.tmSec ∧ tm.tmSec < 60
  min : 0 ≤ tm.tmMin ∧ tm.tmMin < 60
  hour : 0 ≤ tm.tmHour ∧ tm.tmHour < 24
  mday : 1 ≤ tm.tmMday ∧ tm.tmMday ≤ 31
  mon : 0 ≤ tm.tmMon ∧ tm.tmMon < 12
  wday : 0 ≤ tm.tmWday ∧ tm.tmWday < 7

theorem inRange_gmtime (t : ℤ) : InRange (gmtime t) := by
  obtain ⟨hdoy0, hdoy1⟩ := dayOfYear_range
    (Int.emod_nonneg (t / 86400 + epochDays) (by decide)) (Int.emod_lt_of_pos _ (by decide))
  obtain ⟨⟨hm0, hm1⟩, hd0, hd1⟩ := dayOfMonth_range hdoy0 hdoy1
  refine ⟨?_, ?_, ?_, ?_, ?_, ?_⟩ <;> simp only [gmtime]
  · omega
  · omega
  · omega
  · omega
  · split <;> omega
  · omega

/-- `timegm` where the year is counted from March. -/
theorem timegm_eq {tm : Tm} {year mp : ℤ} (hmp : 0 ≤ mp ∧ mp ≤ 11)
    (hmon : tm.tmMon = if mp < 10 then mp + 2 else mp - 10)
    (hyear : tm.tmYear = year + (if mp < 10 then 0 else 1) - 1900) :
    timegm tm = (year / 400 * 146097 + yearDays (year % 400) + monthDays mp + (tm.tmMday - 1) -
      epochDays) * 86400 + tm.tmHour * 3600 + tm.tmMin * 60 + tm.tmSec := by
  have hmonth : (if tm.tmMon ≤ 1 then tm.tmMon + 10 else tm.tmMon - 2) = mp := by
    rw [hmon]
    split_ifs <;> omega
  have hstart : tm.tmYear + 1900 - (if tm.tmMon ≤ 1 then 1 else 0) = year := by
    rw [hyear, hmon]
    split_ifs <;> omega
  rw [timegm, hmonth, hstart]

/-- **The fields of a time give it back.** -/
theorem timegm_gmtime (t : ℤ) : timegm (gmtime t) = t := by
  have hdoe : 0 ≤ (t / 86400 + epochDays) % 146097 ∧ (t / 86400 + epochDays) % 146097 < 146097 :=
    ⟨Int.emod_nonneg _ (by decide), Int.emod_lt_of_pos _ (by decide)⟩
  obtain ⟨hyoe0, hyoe1⟩ := yearOfEra_range hdoe.1 hdoe.2
  obtain ⟨hdoy0, hdoy1⟩ := dayOfYear_range hdoe.1 hdoe.2
  rw [timegm_eq (dayOfMonth_range hdoy0 hdoy1).1 rfl rfl]
  simp only [gmtime]
  generalize yearOfEra ((t / 86400 + epochDays) % 146097) = yoe at hyoe0 hyoe1 ⊢
  rw [show (yoe + (t / 86400 + epochDays) / 146097 * 400) % 400 = yoe by omega,
    show (yoe + (t / 86400 + epochDays) / 146097 * 400) / 400 =
      (t / 86400 + epochDays) / 146097 by omega]
  omega

/-- The years of the times around the epoch that fit in 32 bits. -/
theorem tmYear_gmtime {t : ℤ} (h0 : -2 ^ 31 - 86400 ≤ t) (h1 : t ≤ 2 ^ 32 + 86400) :
    1 ≤ (gmtime t).tmYear ∧ (gmtime t).tmYear ≤ 8099 := by
  simp only [gmtime, yearOfEra, epochDays]
  split_ifs <;> omega

/-- No time of day of the epoch is in an earlier year than 1969. -/
theorem tmYear_gmtime_ge {t : ℤ} (h0 : -86400 ≤ t) : 69 ≤ (gmtime t).tmYear := by
  simp only [gmtime, yearOfEra, yearDays, monthOfYear, epochDays]
  split_ifs <;> omega

/-! ## Text -/

/-- The names of the days. -/
def dayNames : List (List UInt8) :=
  [str "Sun", str "Mon", str "Tue", str "Wed", str "Thu", str "Fri", str "Sat"]

/-- The names of the months. -/
def monthNames : List (List UInt8) :=
  [str "Jan", str "Feb", str "Mar", str "Apr", str "May", str "Jun",
    str "Jul", str "Aug", str "Sep", str "Oct", str "Nov", str "Dec"]

/-- `asctime`: `"%.3s %.3s%3d %.2d:%.2d:%.2d %d\n"`. -/
def asctime (tm : Tm) : List UInt8 :=
  dayNames.getD tm.tmWday.toNat (str "???") ++ 32 :: monthNames.getD tm.tmMon.toNat (str "???") ++
    padLeft 3 32 (decimal tm.tmMday) ++ 32 :: padLeft 2 48 (decimal tm.tmHour) ++
    58 :: padLeft 2 48 (decimal tm.tmMin) ++ 58 :: padLeft 2 48 (decimal tm.tmSec) ++
    32 :: decimal (1900 + tm.tmYear) ++ [10]

/-- The columns of a day of the month. -/
theorem padLeft_mday {n : ℕ} (h : n < 100) : padLeft 3 32 (natural n) =
    [32, if n < 10 then 32 else digit (n / 10), digit (n % 10)] := by
  by_cases hn : n < 10
  · rw [natural_of_lt hn, if_pos hn, Nat.mod_eq_of_lt hn]
    rfl
  · rw [natural_two (by omega) h, if_neg hn]
    rfl

theorem length_getD_dayNames {n : ℕ} (h : n < 7) : (dayNames.getD n (str "???")).length = 3 := by
  revert n
  decide

theorem head_getD_dayNames {n : ℕ} (h : n < 7) : (dayNames.getD n (str "???")).head! ≠ 32 := by
  revert n
  decide

theorem length_getD_monthNames {n : ℕ} (h : n < 12) :
    (monthNames.getD n (str "???")).length = 3 := by
  revert n
  decide

/-- **The columns of `asctime`.** -/
theorem asctime_eq {tm : Tm} (h : InRange tm) (hlo : -900 ≤ tm.tmYear) (hhi : tm.tmYear ≤ 8099) :
    ∃ d₁ d₂ d₃ m₁ m₂ m₃, d₁ ≠ 32 ∧ monthNames.getD tm.tmMon.toNat (str "???") = [m₁, m₂, m₃] ∧
      asctime tm = d₁ :: d₂ :: d₃ :: 32 :: m₁ :: m₂ :: m₃ :: 32 ::
        (if tm.tmMday.toNat < 10 then 32 else digit (tm.tmMday.toNat / 10)) ::
        digit (tm.tmMday.toNat % 10) :: 32 ::
        digit (tm.tmHour.toNat / 10) :: digit (tm.tmHour.toNat % 10) :: 58 ::
        digit (tm.tmMin.toNat / 10) :: digit (tm.tmMin.toNat % 10) :: 58 ::
        digit (tm.tmSec.toNat / 10) :: digit (tm.tmSec.toNat % 10) :: 32 ::
        digit ((1900 + tm.tmYear).toNat / 1000) :: digit ((1900 + tm.tmYear).toNat / 100 % 10) ::
        digit ((1900 + tm.tmYear).toNat / 10 % 10) :: digit ((1900 + tm.tmYear).toNat % 10) ::
        [10] := by
  obtain ⟨hwday0, hwday1⟩ := h.wday
  obtain ⟨hmon0, hmon1⟩ := h.mon
  obtain ⟨⟨hsec0, hsec1⟩, ⟨hmin0, hmin1⟩, ⟨hhour0, hhour1⟩, ⟨hmday0, hmday1⟩, -, -⟩ := h
  have hwday : tm.tmWday.toNat < 7 := by omega
  have hmon : tm.tmMon.toNat < 12 := by omega
  obtain ⟨d₁, d₂, d₃, hd⟩ := List.length_eq_three.mp (length_getD_dayNames hwday)
  obtain ⟨m₁, m₂, m₃, hm⟩ := List.length_eq_three.mp (length_getD_monthNames hmon)
  have hblank : d₁ ≠ 32 := by
    have h := head_getD_dayNames hwday
    rw [hd] at h
    exact h
  refine ⟨d₁, d₂, d₃, m₁, m₂, m₃, hblank, hm, ?_⟩
  rw [asctime, hd, hm, decimal_of_nonneg (by omega), decimal_of_nonneg (by omega),
    decimal_of_nonneg (by omega), decimal_of_nonneg (by omega), decimal_of_nonneg (by omega),
    padLeft_mday (by omega), padLeft_two (by omega), padLeft_two (by omega),
    padLeft_two (by omega), natural_four (by omega) (by omega)]
  rfl

/-- The names are letters. -/
theorem not_mem_names {c : UInt8} (hc : c = 0 ∨ c = 10) (n : ℕ) :
    c ∉ dayNames.getD n (str "???") ∧ c ∉ monthNames.getD n (str "???") := by
  have hday : ∀ n < 7, ∀ c, c = 0 ∨ c = 10 → c ∉ dayNames.getD n (str "???") := by
    rintro n hn c (rfl | rfl) <;> revert n <;> decide
  have hmonth : ∀ n < 12, ∀ c, c = 0 ∨ c = 10 → c ∉ monthNames.getD n (str "???") := by
    rintro n hn c (rfl | rfl) <;> revert n <;> decide
  have hother : c ∉ str "???" := by rcases hc with rfl | rfl <;> decide
  constructor
  · by_cases hn : n < 7
    · exact hday n hn c hc
    · rwa [List.getD_eq_default _ _ (by simpa [dayNames] using hn)]
  · by_cases hn : n < 12
    · exact hmonth n hn c hc
    · rwa [List.getD_eq_default _ _ (by simpa [monthNames] using hn)]

theorem not_mem_padLeft {c fill : UInt8} (hfill : c ≠ fill) (width : ℕ) {text : List UInt8}
    (h : c ∉ text) : c ∉ padLeft width fill text := by
  rw [padLeft, List.mem_append, List.mem_replicate]
  rintro (⟨-, hc⟩ | hc)
  · exact hfill hc
  · exact h hc

/-- The text of a time has one end of line, at its end. -/
theorem not_mem_asctime {c : UInt8} (hc : c = 0 ∨ c = 10) (tm : Tm) :
    ∃ body, asctime tm = body ++ [10] ∧ c ∉ body := by
  refine ⟨_, rfl, ?_⟩
  have hdecimal (z : ℤ) : c ∉ decimal z := by
    rcases hc with rfl | rfl <;> exact not_mem_decimal z (by decide) (by decide)
  have hpad (width : ℕ) {fill : UInt8} (hfill : fill = 32 ∨ fill = 48) (z : ℤ) :
      c ∉ padLeft width fill (decimal z) := by
    refine not_mem_padLeft ?_ width (hdecimal z)
    rcases hc with rfl | rfl <;> rcases hfill with rfl | rfl <;> decide
  have hsep : c ≠ 32 ∧ c ≠ 58 := by rcases hc with rfl | rfl <;> decide
  simp only [List.mem_append, List.mem_cons, not_or]
  exact ⟨⟨⟨⟨⟨⟨(not_mem_names hc _).1, hsep.1, (not_mem_names hc _).2⟩, hpad 3 (.inl rfl) _⟩,
    hsep.1, hpad 2 (.inr rfl) _⟩, hsep.2, hpad 2 (.inr rfl) _⟩, hsep.2, hpad 2 (.inr rfl) _⟩,
    hsep.1, hdecimal _⟩

end Calendar

end DumpRestore
