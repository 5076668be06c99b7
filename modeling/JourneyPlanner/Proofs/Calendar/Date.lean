import JourneyPlanner.Calendar.Date

/-!
# Days and their numbers

Every number is that of the date that it stands for, so the seconds between two moments are those
between the times that they were made of.

* `Date.dayNumber_ofDayNumber`: the number of the date with a number.
* `Moment.secondsTo_after`: the seconds between two moments counted from one midnight.
-/

namespace JourneyPlanner

namespace Date

/-- A day of an era is in one of its 400 years, and at most 365 days of that year are before it. -/
theorem yearOfEra_bounds {day year : Int} (h : 0 ≤ day) (hlt : day < 146097)
    (hyear : year = (day - day / 1460 + day / 36524 - day / 146096) / 365) :
    0 ≤ year ∧ year < 400 ∧ 0 ≤ day - (365 * year + year / 4 - year / 100) ∧
      day - (365 * year + year / 4 - year / 100) ≤ 365 := by
  -- only the last day of an era is after a leap day that is not counted yet
  by_cases hlast : day = 146096
  · subst hlast
    subst hyear
    decide
  · have hcentury : day / 36524 = 0 ∨ day / 36524 = 1 ∨ day / 36524 = 2 ∨ day / 36524 = 3 := by
      omega
    have hnone : day / 146096 = 0 := by omega
    rw [hnone] at hyear
    have hquarter : year / 4 ≤ day / 1460 ∧ day / 1460 ≤ year / 4 + 1 := by omega
    have hhundred : year / 100 = day / 36524 := by
      rcases hcentury with hc | hc | hc | hc <;> rw [hc] at hyear ⊢ <;> omega
    omega

/-- A day of a year is in one of its twelve months, and not before the first day of it. -/
theorem monthFromMarch_bounds {day month : Int} (h : 0 ≤ day) (hle : day ≤ 365)
    (hmonth : month = (5 * day + 2) / 153) :
    0 ≤ month ∧ month ≤ 11 ∧ (153 * month + 2) / 5 ≤ day := by
  omega

/-- The number of a day of a year, both counted from March. -/
theorem dayNumber_fromMarch {era year day month calendarMonth : Int} (hyear : 0 ≤ year)
    (hyear' : year < 400) (hday : 0 ≤ day) (hday' : day ≤ 365)
    (hmonth : month = (5 * day + 2) / 153)
    (hcalendar : calendarMonth = if month < 10 then month + 3 else month - 9) :
    dayNumber ⟨year + era * 400 + (if calendarMonth ≤ 2 then 1 else 0), calendarMonth.toNat,
      (day - (153 * month + 2) / 5 + 1).toNat⟩ =
      era * 146097 + year * 365 + year / 4 - year / 100 + day - 719468 := by
  obtain ⟨hfirst, hlast, hbefore⟩ := monthFromMarch_bounds hday hday' hmonth
  clear hmonth
  have hagain : ((calendarMonth.toNat + 9) % 12 : Nat) = month := by
    split at hcalendar <;> omega
  simp only [dayNumber, hagain]
  by_cases hspring : month < 10
  · rw [if_pos hspring] at hcalendar
    rw [if_neg (by omega), if_neg (by omega)]
    omega
  · rw [if_neg hspring] at hcalendar
    rw [if_pos (by omega), if_pos (by omega)]
    omega

/-- The date with a number has that number. -/
theorem dayNumber_ofDayNumber (n : Int) : (ofDayNumber n).dayNumber = n := by
  obtain ⟨hyear, hyear', hday, hday'⟩ :=
    yearOfEra_bounds (Int.emod_nonneg (n + 719468) (by decide))
      (Int.emod_lt_of_pos (n + 719468) (by decide)) rfl
  refine (dayNumber_fromMarch hyear hyear' hday hday' rfl rfl).trans ?_
  omega

end Date

/-- The seconds between two moments are those between their times, counted from one midnight. -/
theorem Moment.secondsTo_after {date : Date} {start stop : Int} {a b : Moment}
    (ha : Moment.after date start = .ok a) (hb : Moment.after date stop = .ok b) :
    a.secondsTo b = stop - start := by
  simp only [after] at ha hb
  split at ha <;> split at hb <;> cases ha <;> cases hb
  simp only [secondsTo, Date.dayNumber_ofDayNumber]
  omega

end JourneyPlanner
