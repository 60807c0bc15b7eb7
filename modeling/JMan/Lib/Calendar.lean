import Mathlib.Tactic.IntervalCases

/-!
# Calendar

Dates of the proleptic Gregorian calendar, and a count of its days. Years are counted from
the first of March, so that the leap day is the last of a year.

* `exists_marchDay` — every day is a day of one of these years.
* `next_marchDate` — the date of the day after a day.
* `lt_iff_before` — days that follow each other date by date order as their dates do.
-/

namespace Calendar

structure Date where
  year : Int
  month : Int
  day : Int
deriving DecidableEq

def IsLeap (year : Int) : Prop := 4 ∣ year ∧ (100 ∣ year → 400 ∣ year)

instance (year : Int) : Decidable (IsLeap year) := inferInstanceAs (Decidable (_ ∧ _))

def monthLength (year month : Int) : Int :=
  if month = 2 then if IsLeap year then 29 else 28
  else if month = 4 ∨ month = 6 ∨ month = 9 ∨ month = 11 then 30
  else 31

namespace Date

structure IsDate (date : Date) : Prop where
  month : 1 ≤ date.month ∧ date.month ≤ 12
  day : 1 ≤ date.day ∧ date.day ≤ monthLength date.year date.month

def next (date : Date) : Date :=
  if date.day < monthLength date.year date.month then ⟨date.year, date.month, date.day + 1⟩
  else if date.month < 12 then ⟨date.year, date.month + 1, 1⟩
  else ⟨date.year + 1, 1, 1⟩

def Before (date other : Date) : Prop :=
  date.year < other.year ∨ (date.year = other.year ∧
    (date.month < other.month ∨ (date.month = other.month ∧ date.day < other.day)))

instance (date other : Date) : Decidable (date.Before other) := by
  unfold Before
  infer_instance

variable {date other later : Date}

theorem Before.trans (h : date.Before other) (h' : other.Before later) : date.Before later := by
  unfold Before at *
  omega

theorem not_before_self (date : Date) : ¬ date.Before date := by
  unfold Before
  omega

theorem before_next (date : Date) : date.Before date.next := by
  unfold next
  split
  · exact .inr ⟨rfl, .inr ⟨rfl, lt_add_one _⟩⟩
  · split
    · exact .inr ⟨rfl, .inl (lt_add_one _)⟩
    · exact .inl (lt_add_one _)

end Date

/-- **Days that follow each other date by date order as their dates do.** -/
theorem lt_iff_before {dateOf : Int → Date} (h : ∀ n, dateOf (n + 1) = (dateOf n).next) (n m : Int) :
    n < m ↔ (dateOf n).Before (dateOf m) := by
  have hforward : ∀ (k : Nat) (n : Int), (dateOf n).Before (dateOf (n + (k + 1))) := by
    intro k
    induction k with
    | zero =>
      intro n
      rw [Nat.cast_zero, zero_add, h]
      exact (dateOf n).before_next
    | succ k ih =>
      intro n
      have hlast : n + ((k + 1 : Nat) + 1 : Int) = n + (k + 1) + 1 := by omega
      rw [hlast, h]
      exact (ih n).trans (Date.before_next _)
  have hlt : ∀ {n m : Int}, n < m → (dateOf n).Before (dateOf m) := by
    intro n m hnm
    have hm : n + (((m - n - 1).toNat : Int) + 1) = m := by omega
    exact hm ▸ hforward (m - n - 1).toNat n
  refine ⟨hlt, fun hbefore => ?_⟩
  rcases lt_trichotomy n m with hnm | rfl | hmn
  · exact hnm
  · exact absurd hbefore (Date.not_before_self _)
  · exact absurd (hbefore.trans (hlt hmn)) (Date.not_before_self _)

-- Years from March

def daysBefore (year : Int) : Int := 365 * year + year / 4 - year / 100 + year / 400

/-- A day by its number in a year from March, each counted from 0. -/
structure MarchDay (year dayOfYear days : Int) : Prop where
  nonneg : 0 ≤ dayOfYear
  lt : dayOfYear < 365 ∨ (dayOfYear = 365 ∧ IsLeap (year + 1))
  days : days = daysBefore year + dayOfYear

theorem daysBefore_succ (year : Int) :
    daysBefore (year + 1) = daysBefore year + 365 + if IsLeap (year + 1) then 1 else 0 := by
  unfold daysBefore
  by_cases hleap : IsLeap (year + 1)
  · rw [if_pos hleap]
    unfold IsLeap at hleap
    omega
  · rw [if_neg hleap]
    unfold IsLeap at hleap
    omega

namespace MarchDay

variable {year dayOfYear days : Int}

theorem succ (h : MarchDay year dayOfYear days) :
    (dayOfYear ≠ 365 ∧ MarchDay year (dayOfYear + 1) (days + 1)) ∨
      ((dayOfYear = 365 ∨ (dayOfYear = 364 ∧ ¬ IsLeap (year + 1))) ∧ MarchDay (year + 1) 0 (days + 1)) := by
  obtain ⟨hnonneg, hlt, hdays⟩ := h
  have hyear := daysBefore_succ year
  by_cases hleap : IsLeap (year + 1)
  · rw [if_pos hleap] at hyear
    rcases hlt with hlt | ⟨hlast, -⟩
    · refine .inl ⟨by omega, by omega, ?_, by omega⟩
      by_cases hlast : dayOfYear = 364
      · exact .inr ⟨by omega, hleap⟩
      · exact .inl (by omega)
    · exact .inr ⟨.inl hlast, Int.le_refl 0, .inl (by decide), by omega⟩
  · rw [if_neg hleap] at hyear
    rcases hlt with hlt | ⟨-, habsurd⟩
    · by_cases hlast : dayOfYear = 364
      · exact .inr ⟨.inr ⟨hlast, hleap⟩, Int.le_refl 0, .inl (by decide), by omega⟩
      · exact .inl ⟨by omega, by omega, .inl (by omega), by omega⟩
    · exact absurd habsurd hleap

theorem pred (h : MarchDay year dayOfYear days) : ∃ y d, MarchDay y d (days - 1) := by
  obtain ⟨hnonneg, hlt, hdays⟩ := h
  by_cases hfirst : dayOfYear = 0
  · have hyear := daysBefore_succ (year - 1)
    rw [Int.sub_add_cancel] at hyear
    by_cases hleap : IsLeap year
    · rw [if_pos hleap] at hyear
      exact ⟨year - 1, 365, by decide, .inr ⟨rfl, by rwa [Int.sub_add_cancel]⟩, by omega⟩
    · rw [if_neg hleap] at hyear
      exact ⟨year - 1, 364, by decide, .inl (by decide), by omega⟩
  · exact ⟨year, dayOfYear - 1, by omega, .inl (by omega), by omega⟩

end MarchDay

/-- **Every day is a day of a year.** -/
theorem exists_marchDay (days : Int) : ∃ year dayOfYear, MarchDay year dayOfYear days := by
  induction days using Int.induction_on with
  | zero => exact ⟨0, 0, Int.le_refl 0, .inl (by decide), rfl⟩
  | succ n ih =>
    obtain ⟨year, dayOfYear, h⟩ := ih
    rcases h.succ with ⟨-, hsame⟩ | ⟨-, hnext⟩
    · exact ⟨_, _, hsame⟩
    · exact ⟨_, _, hnext⟩
  | pred n ih =>
    obtain ⟨year, dayOfYear, h⟩ := ih
    exact h.pred

-- Months from March

/-- The number of the month in a year from March, from 0. -/
def marchMonth (dayOfYear : Int) : Int := (5 * dayOfYear + 2) / 153

def daysBeforeMonth (month : Int) : Int := (153 * month + 2) / 5

def monthDate (year month day : Int) : Date :=
  if month < 10 then ⟨year, month + 3, day⟩ else ⟨year + 1, month - 9, day⟩

def marchDate (year dayOfYear : Int) : Date :=
  monthDate year (marchMonth dayOfYear) (dayOfYear - daysBeforeMonth (marchMonth dayOfYear) + 1)

variable {year month day dayOfYear days : Int}

theorem marchMonth_eq_iff : marchMonth dayOfYear = month ↔
    daysBeforeMonth month ≤ dayOfYear ∧ dayOfYear < daysBeforeMonth (month + 1) := by
  unfold marchMonth daysBeforeMonth
  omega

theorem next_monthDate (hlow : 0 ≤ month) (hhigh : month ≤ 10) :
    (monthDate year month day).next =
      if day < daysBeforeMonth (month + 1) - daysBeforeMonth month then monthDate year month (day + 1)
      else monthDate year (month + 1) 1 := by
  interval_cases month <;> rfl

theorem monthLength_monthDate (hlow : 0 ≤ month) (hhigh : month ≤ 10) :
    monthLength (monthDate year month day).year (monthDate year month day).month =
      daysBeforeMonth (month + 1) - daysBeforeMonth month := by
  interval_cases month <;> rfl

theorem month_monthDate (hlow : 0 ≤ month) (hhigh : month ≤ 11) :
    1 ≤ (monthDate year month day).month ∧ (monthDate year month day).month ≤ 12 := by
  unfold monthDate
  split <;> constructor <;> dsimp only <;> omega

theorem day_monthDate : (monthDate year month day).day = day := by
  unfold monthDate
  split <;> rfl

theorem next_february :
    (monthDate year 11 day).next =
      if day < (if IsLeap (year + 1) then 29 else 28) then monthDate year 11 (day + 1)
      else monthDate (year + 1) 0 1 := rfl

theorem marchDate_zero : marchDate year 0 = monthDate year 0 1 := rfl

theorem MarchDay.month_le (h : MarchDay year dayOfYear days) :
    0 ≤ marchMonth dayOfYear ∧ marchMonth dayOfYear ≤ 11 := by
  obtain ⟨hnonneg, hlt, -⟩ := h
  unfold marchMonth
  omega

theorem MarchDay.isDate (h : MarchDay year dayOfYear days) : (marchDate year dayOfYear).IsDate := by
  have hmonth := h.month_le
  obtain ⟨hbegun, hover⟩ := marchMonth_eq_iff.mp (Eq.refl (marchMonth dayOfYear))
  refine ⟨month_monthDate hmonth.1 hmonth.2, ?_⟩
  rw [marchDate, day_monthDate]
  by_cases hfebruary : marchMonth dayOfYear = 11
  · have hdays : daysBeforeMonth 11 = 337 := rfl
    have hlength : monthLength (monthDate year 11 (dayOfYear - 337 + 1)).year
        (monthDate year 11 (dayOfYear - 337 + 1)).month = if IsLeap (year + 1) then 29 else 28 := rfl
    rw [hfebruary, hdays] at hbegun ⊢
    rw [hlength]
    rcases h.lt with hlt | ⟨hlast, hleap⟩
    · split <;> omega
    · rw [if_pos hleap]
      omega
  · rw [monthLength_monthDate hmonth.1 (by omega)]
    omega

/-- **The date of the day after a day.** -/
theorem next_marchDate (h : MarchDay year dayOfYear days) :
    (marchDate year dayOfYear).next =
      if dayOfYear = 365 ∨ (dayOfYear = 364 ∧ ¬ IsLeap (year + 1)) then marchDate (year + 1) 0
      else marchDate year (dayOfYear + 1) := by
  have hmonth := h.month_le
  obtain ⟨hnonneg, hlt, -⟩ := h
  obtain ⟨hbegun, hover⟩ := marchMonth_eq_iff.mp (Eq.refl (marchMonth dayOfYear))
  by_cases hfebruary : marchMonth dayOfYear = 11
  · have hdays : daysBeforeMonth 11 = 337 := rfl
    have hsame : marchDate year (dayOfYear + 1) = monthDate year 11 (dayOfYear - 337 + 1 + 1) := by
      have hnext : marchMonth (dayOfYear + 1) = 11 := by
        have hend : daysBeforeMonth (11 + 1) = 367 := rfl
        rw [hfebruary] at hbegun
        exact marchMonth_eq_iff.mpr ⟨by omega, by omega⟩
      rw [marchDate, hnext, hdays, add_sub_right_comm]
    rw [marchDate_zero, hsame, marchDate, hfebruary, next_february, hdays]
    by_cases hleap : IsLeap (year + 1)
    · by_cases hlast : dayOfYear = 365
      · rw [if_pos hleap, if_neg (by omega), if_pos (.inl hlast)]
      · rw [if_pos hleap, if_pos (by omega), if_neg (by tauto)]
    · by_cases hlast : dayOfYear = 364
      · rw [if_neg hleap, if_neg (by omega), if_pos (.inr ⟨hlast, hleap⟩)]
      · have hbefore : dayOfYear < 364 := by
          rcases hlt with hlt | ⟨-, habsurd⟩
          · omega
          · exact absurd habsurd hleap
        rw [if_neg hleap, if_pos (by omega), if_neg (by omega)]
  · have hyear : dayOfYear < 337 := by
      unfold daysBeforeMonth at hover
      omega
    rw [if_neg (by omega), marchDate, next_monthDate hmonth.1 (by omega), marchDate]
    -- the month goes on, or the next one begins
    by_cases hmonth' : dayOfYear + 1 < daysBeforeMonth (marchMonth dayOfYear + 1)
    · have hnext : marchMonth (dayOfYear + 1) = marchMonth dayOfYear := marchMonth_eq_iff.mpr ⟨by omega, hmonth'⟩
      rw [if_pos (by omega), hnext, add_sub_right_comm]
    · have hnext : marchMonth (dayOfYear + 1) = marchMonth dayOfYear + 1 := by
        refine marchMonth_eq_iff.mpr ⟨by omega, ?_⟩
        unfold daysBeforeMonth at *
        omega
      have hfirst : dayOfYear + 1 = daysBeforeMonth (marchMonth dayOfYear + 1) := by omega
      rw [if_neg (by omega), hnext, ← hfirst, Int.sub_self]
      rfl

section Counting

variable {dateOf : Int → Date}

theorem next_of_forall_marchDate (h : ∀ year dayOfYear days, MarchDay year dayOfYear days →
    dateOf days = marchDate year dayOfYear) (n : Int) : dateOf (n + 1) = (dateOf n).next := by
  obtain ⟨year, dayOfYear, hday⟩ := exists_marchDay n
  rw [h _ _ _ hday, next_marchDate hday]
  rcases hday.succ with ⟨hlast, hsame⟩ | ⟨hlast, hnext⟩
  · rw [h _ _ _ hsame]
    refine (if_neg ?_).symm
    rintro (hend | ⟨hend, hleap⟩)
    · exact hlast hend
    · rcases hsame.lt with hlt | ⟨-, habsurd⟩
      · omega
      · exact hleap habsurd
  · rw [h _ _ _ hnext, if_pos hlast]

end Counting

end Calendar
