import JMan.Cli.Audit
import JMan.Lib.Calendar

/-!
# JMan — the date of today

`civil_date_from_unix_days` and `utc_date` of `main.rs`: the date of a day by arithmetic on
the number of days since 1970-01-01, and its text.

* `civilDate_spec` — the dates are those of the calendar, one after the other, and their
  texts order as they do up to the end of the year 9999.
-/

namespace JMan.Cli

open Calendar

def civilDateFromUnixDays (days : Int) : Date :=
  let shifted := days + 719468
  let era := (if shifted ≥ 0 then shifted else shifted - 146096).tdiv 146097
  let dayOfEra := shifted - era * 146097
  let yearOfEra :=
    (dayOfEra - dayOfEra.tdiv 1460 + dayOfEra.tdiv 36524 - dayOfEra.tdiv 146096).tdiv 365
  let dayOfYear := dayOfEra - (365 * yearOfEra + yearOfEra.tdiv 4 - yearOfEra.tdiv 100)
  let monthPrime := (5 * dayOfYear + 2).tdiv 153
  let day := dayOfYear - (153 * monthPrime + 2).tdiv 5 + 1
  let month := monthPrime + if monthPrime < 10 then 3 else -9
  let year := yearOfEra + era * 400 + if month ≤ 2 then 1 else 0
  ⟨year, month, day⟩

/-- `utc_date`, by the seconds since the epoch. -/
def utcDate (seconds : Nat) : String :=
  let date := civilDateFromUnixDays (seconds / 86400 : Nat)
  (⟨date.year.toNat, date.month.toNat, date.day.toNat⟩ : CalendarDate).format

-- Eras
-- ---

/-- A day of an era of 400 years: the century, the four years in it, and the year in these. -/
structure EraDay (dayOfEra century quad year dayOfYear : Int) : Prop where
  centuries : 0 ≤ century ∧ century ≤ 3
  quads : 0 ≤ quad ∧ quad ≤ 24
  years : 0 ≤ year ∧ year ≤ 3
  within : 0 ≤ dayOfYear ∧ dayOfYear ≤ 365
  leap : dayOfYear = 365 → year = 3 ∧ (quad = 24 → century = 3)
  counted : dayOfEra = 36524 * century + 1461 * quad + 365 * year + dayOfYear

section Eras

variable {days year dayOfYear dayOfEra century quad yearOfQuad : Int}

theorem EraDay.nonneg (h : EraDay dayOfEra century quad yearOfQuad dayOfYear) : 0 ≤ dayOfEra ∧ dayOfEra < 146097 := by
  obtain ⟨hcentury, hquad, hyear, hday, hleap, hera⟩ := h
  omega

theorem exists_eraDay (h : MarchDay year dayOfYear days) :
    ∃ era century quad yearOfQuad, EraDay (days - era * 146097) century quad yearOfQuad dayOfYear ∧
      year = era * 400 + century * 100 + quad * 4 + yearOfQuad := by
  obtain ⟨hnonneg, hlt, hdays⟩ := h
  unfold daysBefore at hdays
  unfold IsLeap at hlt
  refine ⟨year / 400, year % 400 / 100, year % 100 / 4, year % 4, ⟨?_, ?_, ?_, ?_, ?_, ?_⟩, ?_⟩
  all_goals omega

theorem yearOfEra_eq (h : EraDay dayOfEra century quad yearOfQuad dayOfYear) :
    (dayOfEra - dayOfEra / 1460 + dayOfEra / 36524 - dayOfEra / 146096) / 365 =
      century * 100 + quad * 4 + yearOfQuad := by
  obtain ⟨hcentury, hquad, hyear, hday, hleap, hera⟩ := h
  -- a last day of four years is one too many for 1460, that of an era one too many for 36524
  have hquads : dayOfEra / 1460 =
      25 * century + quad + if 24 * century + quad + 365 * yearOfQuad + dayOfYear < 1460 then 0 else 1 := by
    split <;> omega
  have hcenturies : dayOfEra / 36524 - dayOfEra / 146096 = century := by
    by_cases hlast : dayOfEra = 146096
    · omega
    · have hbegun : 36524 * century ≤ dayOfEra ∧ dayOfEra < 36524 * (century + 1) := by omega
      omega
  have hyears : dayOfEra - dayOfEra / 1460 + dayOfEra / 36524 - dayOfEra / 146096 =
      365 * (century * 100 + quad * 4 + yearOfQuad) +
        (dayOfYear - if 24 * century + quad + 365 * yearOfQuad + dayOfYear < 1460 then 0 else 1) := by omega
  rw [hyears]
  split <;> omega

theorem dayOfYear_eq (h : EraDay dayOfEra century quad yearOfQuad dayOfYear) :
    dayOfEra - (365 * (century * 100 + quad * 4 + yearOfQuad) + (century * 100 + quad * 4 + yearOfQuad) / 4 -
      (century * 100 + quad * 4 + yearOfQuad) / 100) = dayOfYear := by
  obtain ⟨hcentury, hquad, hyear, hday, hleap, hera⟩ := h
  have hyear4 : (century * 100 + quad * 4 + yearOfQuad) / 4 = 25 * century + quad := by omega
  have hyear100 : (century * 100 + quad * 4 + yearOfQuad) / 100 = century := by omega
  omega

theorem era_eq {shifted era : Int} (h : 0 ≤ shifted - era * 146097 ∧ shifted - era * 146097 < 146097) :
    (if shifted ≥ 0 then shifted else shifted - 146096).tdiv 146097 = era := by
  split
  · rw [Int.tdiv_eq_ediv_of_nonneg (by omega)]
    omega
  · have hneg : (shifted - 146096).tdiv 146097 = -((-(shifted - 146096)) / 146097) := by
      rw [← Int.tdiv_eq_ediv_of_nonneg (by omega), Int.neg_tdiv, Int.neg_neg]
    omega

/-- **The arithmetic finds the place of the day in its year.** -/
theorem civilDate_eq_marchDate (h : MarchDay year dayOfYear (days + 719468)) :
    civilDateFromUnixDays days = marchDate year dayOfYear := by
  obtain ⟨era, century, quad, yearOfQuad, hera, hyear⟩ := exists_eraDay h
  have hdayOfEra := hera.nonneg
  have hfind := yearOfEra_eq hera
  have hplace := dayOfYear_eq hera
  have hpositive : 0 ≤ century * 100 + quad * 4 + yearOfQuad := by
    obtain ⟨hcentury, hquad, hyears, -⟩ := hera
    omega
  have hmonth := h.month_le
  have hday := h.nonneg
  unfold civilDateFromUnixDays
  dsimp only
  rw [era_eq hdayOfEra]
  generalize days + 719468 - era * 146097 = dayOfEra at *
  have hnumerator : 0 ≤ dayOfEra - dayOfEra / 1460 + dayOfEra / 36524 - dayOfEra / 146096 :=
    (Int.ediv_nonneg_iff_of_pos (by decide : (0 : Int) < 365)).mp (hfind ▸ hpositive)
  simp only [Int.tdiv_eq_ediv_of_nonneg hdayOfEra.1]
  rw [Int.tdiv_eq_ediv_of_nonneg hnumerator, hfind]
  simp only [Int.tdiv_eq_ediv_of_nonneg hpositive]
  rw [hplace, Int.tdiv_eq_ediv_of_nonneg (by omega), ← marchMonth, Int.tdiv_eq_ediv_of_nonneg (by omega),
    ← daysBeforeMonth, marchDate, monthDate, hyear]
  clear hfind hplace hnumerator hera
  split
  · next hspring =>
    rw [if_neg (by omega), Int.add_zero]
    congr 1
    omega
  · next hwinter =>
    rw [if_pos (by omega)]
    congr 1
    omega

end Eras

-- Dates and their texts
-- ---

theorem civilDate_next (n : Int) : civilDateFromUnixDays (n + 1) = (civilDateFromUnixDays n).next := by
  have hshift : ∀ year dayOfYear days, MarchDay year dayOfYear days →
      civilDateFromUnixDays (days - 719468) = marchDate year dayOfYear := fun year dayOfYear days h =>
    civilDate_eq_marchDate (by rwa [Int.sub_add_cancel])
  have hnext := next_of_forall_marchDate hshift (n + 719468)
  rwa [add_right_comm, Int.add_sub_cancel, Int.add_sub_cancel] at hnext

theorem civilDate_isDate (n : Int) : (civilDateFromUnixDays n).IsDate := by
  obtain ⟨year, dayOfYear, h⟩ := exists_marchDay (n + 719468)
  rw [civilDate_eq_marchDate h]
  exact h.isDate

/-- The day of which the year 9999 is the last. -/
def lastDay : Nat := 2932896

theorem civilDate_lastDay : civilDateFromUnixDays lastDay = ⟨9999, 12, 31⟩ := by decide

theorem civilDate_zero : civilDateFromUnixDays 0 = ⟨1970, 1, 1⟩ := by decide

theorem utcDate_writable {days : Nat} (h : days ≤ lastDay) :
    let date := civilDateFromUnixDays days
    (⟨date.year.toNat, date.month.toNat, date.day.toNat⟩ : CalendarDate).Writable ∧ 0 ≤ date.year := by
  have hfirst : ¬ (civilDateFromUnixDays days).Before (civilDateFromUnixDays 0) := fun hbefore =>
    absurd ((lt_iff_before civilDate_next _ _).mpr hbefore) (by omega)
  have hlast : ¬ (civilDateFromUnixDays lastDay).Before (civilDateFromUnixDays days) := fun hbefore =>
    absurd ((lt_iff_before civilDate_next _ _).mpr hbefore) (by omega)
  rw [civilDate_zero] at hfirst
  rw [civilDate_lastDay] at hlast
  obtain ⟨hmonth, hday⟩ := civilDate_isDate days
  have hlength : monthLength (civilDateFromUnixDays days).year (civilDateFromUnixDays days).month ≤ 31 := by
    unfold monthLength
    split <;> split <;> decide
  unfold Date.Before at hfirst hlast
  dsimp only at hfirst hlast ⊢
  refine ⟨⟨?_, ?_, ?_⟩, ?_⟩
  · dsimp only
    omega
  · dsimp only
    omega
  · dsimp only
    omega
  · omega

theorem before_toNat {date other : Date} (h : date.IsDate) (h' : other.IsDate) (hyear : 0 ≤ date.year)
    (hyear' : 0 ≤ other.year) :
    (⟨date.year.toNat, date.month.toNat, date.day.toNat⟩ : CalendarDate).Before
      ⟨other.year.toNat, other.month.toNat, other.day.toNat⟩ ↔ date.Before other := by
  obtain ⟨hmonth, hday⟩ := h
  obtain ⟨hmonth', hday'⟩ := h'
  unfold CalendarDate.Before Date.Before
  dsimp only
  omega

theorem utcDate_lt_iff {seconds later : Nat} (h : seconds / 86400 ≤ lastDay) (hlater : later / 86400 ≤ lastDay) :
    utcDate seconds < utcDate later ↔
      (civilDateFromUnixDays (seconds / 86400 : Nat)).Before (civilDateFromUnixDays (later / 86400 : Nat)) := by
  obtain ⟨hwritable, hyear⟩ := utcDate_writable h
  obtain ⟨hwritable', hyear'⟩ := utcDate_writable hlater
  unfold utcDate
  rw [format_lt_iff hwritable hwritable']
  exact before_toNat (civilDate_isDate _) (civilDate_isDate _) hyear hyear'

/-- **The dates are those of the calendar, one after the other, and their texts order as they
do up to the end of the year 9999.** -/
theorem civilDate_spec :
    civilDateFromUnixDays 0 = ⟨1970, 1, 1⟩ ∧
      (∀ n, (civilDateFromUnixDays n).IsDate ∧ civilDateFromUnixDays (n + 1) = (civilDateFromUnixDays n).next) ∧
      ∀ seconds later, seconds / 86400 ≤ lastDay → later / 86400 ≤ lastDay →
        (utcDate seconds < utcDate later ↔
          (civilDateFromUnixDays (seconds / 86400 : Nat)).Before (civilDateFromUnixDays (later / 86400 : Nat))) :=
  ⟨civilDate_zero, fun n => ⟨civilDate_isDate n, civilDate_next n⟩, fun _ _ => utcDate_lt_iff⟩

theorem civilDate_succ_lastDay : civilDateFromUnixDays (lastDay + 1 : Nat) = ⟨10000, 1, 1⟩ := by
  rw [Nat.cast_succ, civilDate_next, civilDate_lastDay]
  rfl

/-- The first text with five digits for the year is not behind the last with four. -/
theorem texts_of_year_10000 :
    (civilDateFromUnixDays lastDay).Before (civilDateFromUnixDays (lastDay + 1 : Nat)) ∧
      ¬ utcDate (86400 * lastDay) < utcDate (86400 * (lastDay + 1)) := by
  have htexts : ¬ (⟨9999, 12, 31⟩ : CalendarDate).format < (⟨10000, 1, 1⟩ : CalendarDate).format := by
    rw [String.lt_iff_toList_lt]
    decide
  unfold utcDate
  rw [Nat.mul_div_cancel_left _ (by decide), Nat.mul_div_cancel_left _ (by decide), civilDate_succ_lastDay,
    civilDate_lastDay]
  exact ⟨by decide, htexts⟩

end JMan.Cli
