/-
  `new Date(t).toISOString()`, for a time `t` in milliseconds from 1970 on.

  A day has 86400000 milliseconds, 400 years have 146097 days.  Years are counted from March, so that
  the day of a leap year comes last.  A year from 10000 on is written with six digits and a sign; a
  `Date` ends in the year 275760, so no text is longer than 27 characters (`length_toISOString_le`).

  The length is bounded part by part: a number that fits its width is padded to that width
  (`length_padded`), months and days have two digits (`civil_lt`), and a year up to the end of
  time has six at most (`year_lt`).
-/
import Mathlib.Algebra.Ring.Nat

namespace Dates

/-- The last time that a `Date` can hold. -/
def MAX_TIME : Nat := 8640000000000000

/-- A date of the civil calendar. -/
structure Civil where
  year : Nat
  month : Nat
  day : Nat
deriving DecidableEq

/-- The date of a day, counted from 1970-01-01. -/
def civil (days : Nat) : Civil :=
  let fromMarch := days + 719468
  let era := fromMarch / 146097
  let dayOfEra := fromMarch % 146097
  let yearOfEra := (dayOfEra - dayOfEra / 1460 + dayOfEra / 36524 - dayOfEra / 146096) / 365
  let dayOfYear := dayOfEra - (365 * yearOfEra + yearOfEra / 4 - yearOfEra / 100)
  let month := (5 * dayOfYear + 2) / 153
  { year := era * 400 + yearOfEra + (if month < 10 then 0 else 1)
    month := if month < 10 then month + 3 else month - 9
    day := dayOfYear - (153 * month + 2) / 5 + 1 }

/-- Decimal digits, with zeros in front up to `width`. -/
def padded (width n : Nat) : List Char :=
  List.replicate (width - (Nat.toDigits 10 n).length) '0' ++ Nat.toDigits 10 n

/-- A year, with a sign and six digits from 10000 on. -/
def yearText (year : Nat) : List Char := if year < 10000 then padded 4 year else '+' :: padded 6 year

/-- A date, and the milliseconds of its day. -/
def isoText (date : Civil) (ms : Nat) : List Char :=
  yearText date.year ++ '-' :: padded 2 date.month ++ '-' :: padded 2 date.day ++
    'T' :: padded 2 (ms / 3600000) ++ ':' :: padded 2 (ms / 60000 % 60) ++
    ':' :: padded 2 (ms / 1000 % 60) ++ '.' :: padded 3 (ms % 1000) ++ ['Z']

/-- `toISOString()` of a time in milliseconds. -/
def toISOString (t : Nat) : String :=
  String.ofList (isoText (civil (t / 86400000)) (t % 86400000))

example : toISOString 1709210096789 = "2024-02-29T12:34:56.789Z" := by decide

/-! ## How long the text is -/

/-- A number that fits has the width it is padded to. -/
theorem length_padded {width n : Nat} (hwidth : 0 < width) (h : n < 10 ^ width) :
    (padded width n).length = width := by
  have hdigits := (Nat.length_toDigits_le_iff (b := 10) (by decide) hwidth).mpr h
  rw [padded, List.length_append, List.length_replicate]
  omega

/-- Up to the largest time of the language, years have six digits at most. -/
theorem year_lt {days : Nat} (h : days ≤ MAX_TIME / 86400000) : (civil days).year < 10 ^ 6 := by
  have hmax : MAX_TIME / 86400000 = 100000000 := by decide
  have hera : (days + 719468) / 146097 < 700 := by omega
  have hyear : ((days + 719468) % 146097 - (days + 719468) % 146097 / 1460 +
      (days + 719468) % 146097 / 36524 - (days + 719468) % 146097 / 146096) / 365 < 500 := by omega
  simp only [civil]
  split
  · omega
  · omega

/-- A day of an era lies in the year that the division finds, give or take a leap day per four. -/
theorem dayOfYear_lt {doe yoe : Nat}
    (h : yoe = (doe - doe / 1460 + doe / 36524 - doe / 146096) / 365) (hdoe : doe < 146097) :
    doe - (365 * yoe + yoe / 4 - yoe / 100) < 600 := by
  omega

/-- Months and days have two digits. -/
theorem civil_lt (days : Nat) : (civil days).month < 10 ^ 2 ∧ (civil days).day < 10 ^ 2 := by
  have hlt := dayOfYear_lt rfl (Nat.mod_lt (days + 719468) (by decide : 0 < 146097))
  simp only [civil]
  generalize (days + 719468) % 146097 - _ = doy at hlt ⊢
  constructor
  · split <;> omega
  · omega

theorem length_yearText_le {year : Nat} (h : year < 10 ^ 6) : (yearText year).length ≤ 7 := by
  unfold yearText
  split
  · rename_i hshort
    rw [length_padded (Nat.succ_pos 3) hshort]
    decide
  · rw [List.length_cons, length_padded (Nat.succ_pos 5) h]

/-- The parts of an ISO text, added up. -/
theorem length_isoText_le {date : Civil} {ms : Nat} (hyear : date.year < 10 ^ 6)
    (hmonth : date.month < 10 ^ 2) (hday : date.day < 10 ^ 2) (hms : ms < 86400000) :
    (isoText date ms).length ≤ 27 := by
  have hyears := length_yearText_le hyear
  have hmonths : (padded 2 date.month).length = 2 := length_padded (by decide) hmonth
  have hdays : (padded 2 date.day).length = 2 := length_padded (by decide) hday
  have hhours : (padded 2 (ms / 3600000)).length = 2 := length_padded (by decide) (by omega)
  have hminutes : (padded 2 (ms / 60000 % 60)).length = 2 := length_padded (by decide) (by omega)
  have hseconds : (padded 2 (ms / 1000 % 60)).length = 2 := length_padded (by decide) (by omega)
  have hrest : (padded 3 (ms % 1000)).length = 3 := length_padded (by decide) (by omega)
  simp only [isoText, List.length_append, List.length_cons, List.length_nil, hmonths, hdays, hhours,
    hminutes, hseconds, hrest]
  omega

/-- An ISO text has 27 characters at most. -/
theorem length_toISOString_le {t : Nat} (h : t ≤ MAX_TIME) : (toISOString t).length ≤ 27 := by
  have hdate := civil_lt (t / 86400000)
  rw [toISOString, String.length_ofList]
  exact length_isoText_le (year_lt (Nat.div_le_div_right h)) hdate.1 hdate.2
    (Nat.mod_lt t (by decide))

end Dates
