import Mathlib.Tactic

/-! The proleptic Gregorian calendar.

    A date is a year, a month and a day of that month, and the days are numbered from the epoch. The
    year is counted from March here, so that a leap day is its last one:

        marchFirst y        marchFirst y + 306        marchFirst (y + 1)
        1 March y    ...    1 January y + 1    ...    1 March y + 1

    `Date.ofDay` and `Date.dayNumber` are inverse to one another, and the date of the next day is the
    next date. -/

namespace Arcature.Lib

/-! ### Dates -/

/-- The 4/100/400 rule. -/
def IsLeap (year : ℤ) : Prop := 4 ∣ year ∧ (¬ 100 ∣ year ∨ 400 ∣ year)

instance (year : ℤ) : Decidable (IsLeap year) := inferInstanceAs (Decidable (_ ∧ _))

/-- The length of a month, in a leap year or not. -/
def monthLength (leap : Bool) : ℕ → ℕ
  | 2 => if leap then 29 else 28
  | 4 | 6 | 9 | 11 => 30
  | _ => 31

/-- The length of a month of a year. -/
def daysInMonth (year : ℤ) (month : ℕ) : ℕ := monthLength (decide (IsLeap year)) month

theorem monthLength_pos (leap : Bool) (month : ℕ) : 1 ≤ monthLength leap month := by
  unfold monthLength
  split
  · cases leap <;> decide
  all_goals decide

theorem daysInMonth_pos (year : ℤ) (month : ℕ) : 1 ≤ daysInMonth year month := monthLength_pos ..

theorem daysInMonth_le (year : ℤ) (month : ℕ) : daysInMonth year month ≤ 31 := by
  unfold daysInMonth monthLength
  split
  · split <;> decide
  all_goals decide

/-- A date of the calendar. -/
@[ext] structure Date where
  year : ℤ
  month : ℕ
  day : ℕ
  month_ok : 1 ≤ month ∧ month ≤ 12
  day_ok : 1 ≤ day ∧ day ≤ daysInMonth year month
  deriving DecidableEq

namespace Date

/-- The first of January 1970. -/
def epoch : Date := ⟨1970, 1, 1, by decide, by decide⟩

/-- The day after a date. -/
def next (date : Date) : Date :=
  if h : date.day < daysInMonth date.year date.month then
    ⟨date.year, date.month, date.day + 1, date.month_ok, Nat.le_add_left .., h⟩
  else if h : date.month < 12 then
    ⟨date.year, date.month + 1, 1, ⟨Nat.le_add_left .., h⟩, le_rfl, daysInMonth_pos ..⟩
  else ⟨date.year + 1, 1, 1, by decide, le_rfl, daysInMonth_pos ..⟩

/-- The order of the calendar. -/
instance : LT Date where
  lt a b := a.year < b.year ∨ a.year = b.year ∧ (a.month < b.month ∨ a.month = b.month ∧ a.day < b.day)

theorem lt_def {a b : Date} : a < b ↔ a.year < b.year ∨
    a.year = b.year ∧ (a.month < b.month ∨ a.month = b.month ∧ a.day < b.day) := Iff.rfl

theorem lt_trans {a b c : Date} (h : a < b) (h' : b < c) : a < c := by
  rw [lt_def] at *
  omega

/-- The next date is a later one. -/
theorem lt_next (date : Date) : date < date.next := by
  rw [lt_def, next]
  split
  · simp
  · split <;> simp

end Date

/-! ### Years from March to February -/

/-- The days before 1 March of a year, from 1 March of year 0 on. -/
def marchFirst (year : ℤ) : ℤ := 365 * year + year / 4 - year / 100 + year / 400

/-- A year from March on has a leap day if the year in which it ends is a leap year. -/
theorem marchFirst_succ (year : ℤ) :
    marchFirst (year + 1) = marchFirst year + 365 + if IsLeap (year + 1) then 1 else 0 := by
  unfold marchFirst
  by_cases h : IsLeap (year + 1)
  · rw [if_pos h]
    unfold IsLeap at h
    omega
  · rw [if_neg h]
    unfold IsLeap at h
    omega

theorem marchFirst_strictMono : StrictMono marchFirst := by
  refine strictMono_int_of_lt_succ fun year => ?_
  rw [marchFirst_succ]
  split <;> omega

/-- The year from March on in which a day falls: a guess by the mean length of a year is at most one
    too low. -/
def marchYear (day : ℤ) : ℤ :=
  let year := day * 400 / 146097
  if marchFirst (year + 1) ≤ day then year + 1 else year

theorem marchYear_spec (day : ℤ) :
    marchFirst (marchYear day) ≤ day ∧ day < marchFirst (marchYear day + 1) := by
  unfold marchYear
  simp only
  split
  · rename_i h
    refine ⟨h, ?_⟩
    unfold marchFirst
    omega
  · rename_i h
    refine ⟨?_, not_le.mp h⟩
    unfold marchFirst
    omega

/-- There is only one such year. -/
theorem marchYear_eq {day year : ℤ} (h : marchFirst year ≤ day) (h' : day < marchFirst (year + 1)) :
    marchYear day = year := by
  obtain ⟨hle, hlt⟩ := marchYear_spec day
  have hle' := marchFirst_strictMono.lt_iff_lt.mp (hle.trans_lt h')
  have hlt' := marchFirst_strictMono.lt_iff_lt.mp (h.trans_lt hlt)
  omega

/-- The lengths of the months from March to January. -/
def marchMonths : List ℕ := [31, 30, 31, 30, 31, 31, 30, 31, 30, 31, 31]

/-- The month in which a day falls and the days of that month before it, the months counted from 0. -/
def placeIn : List ℕ → ℕ → ℕ × ℕ
  | [], day => (0, day)
  | length :: lengths, day =>
    if day < length then (0, day)
    else ((placeIn lengths (day - length)).1 + 1, (placeIn lengths (day - length)).2)

/-- The month and the day of a day of the year, from 0 for 1 March on. -/
def monthAndDay (dayOfYear : ℕ) : ℕ × ℕ :=
  let place := placeIn marchMonths dayOfYear
  (if place.1 < 10 then place.1 + 3 else place.1 - 9, place.2 + 1)

/-- The day of the year of a month and a day. -/
def dayOfYear (month day : ℕ) : ℕ := (marchMonths.take ((month + 9) % 12)).sum + (day - 1)

/-! ### The days of a year -/

/-- The days of a year from March on, of which the leap day is the last. -/
def yearLength (leap : Bool) : ℕ := 365 + leap.toNat

theorem monthAndDay_ok : ∀ leap : Bool, ∀ n < yearLength leap,
    (1 ≤ (monthAndDay n).1 ∧ (monthAndDay n).1 ≤ 12) ∧
      1 ≤ (monthAndDay n).2 ∧ (monthAndDay n).2 ≤ monthLength leap (monthAndDay n).1 := by
  decide +kernel

theorem dayOfYear_monthAndDay : ∀ n < 366, dayOfYear (monthAndDay n).1 (monthAndDay n).2 = n := by
  decide +kernel

/-- The next day of the year: of the same month, the first of the next one, or the first of January. -/
theorem monthAndDay_succ : ∀ leap : Bool, ∀ n, n + 1 < yearLength leap →
    if (monthAndDay n).2 < monthLength leap (monthAndDay n).1 then
      monthAndDay (n + 1) = ((monthAndDay n).1, (monthAndDay n).2 + 1)
    else if (monthAndDay n).1 < 12 then
      (monthAndDay n).1 ≠ 2 ∧ monthAndDay (n + 1) = ((monthAndDay n).1 + 1, 1)
    else monthAndDay (n + 1) = (1, 1) := by
  have h : ∀ leap : Bool, ∀ n < yearLength leap - 1, if (monthAndDay n).2 < monthLength leap (monthAndDay n).1 then
      monthAndDay (n + 1) = ((monthAndDay n).1, (monthAndDay n).2 + 1)
    else if (monthAndDay n).1 < 12 then
      (monthAndDay n).1 ≠ 2 ∧ monthAndDay (n + 1) = ((monthAndDay n).1 + 1, 1)
    else monthAndDay (n + 1) = (1, 1) := by
    decide +kernel
  exact fun leap n hn => h leap n (Nat.lt_sub_of_add_lt hn)

/-- The last day of the year is that of February. -/
theorem monthAndDay_last (leap : Bool) : monthAndDay (yearLength leap - 1) = (2, monthLength leap 2) := by
  cases leap <;> rfl

/-- Only February has a day more in a leap year. -/
theorem monthLength_eq {month : ℕ} (h : month ≠ 2) (leap leap' : Bool) :
    monthLength leap month = monthLength leap' month := by
  unfold monthLength
  split
  · contradiction
  all_goals rfl

theorem marchFirst_next (year : ℤ) :
    marchFirst (year + 1) = marchFirst year + yearLength (decide (IsLeap (year + 1))) := by
  rw [marchFirst_succ, yearLength]
  split <;> rename_i h <;> simp [h, add_assoc]

/-- The days from 1 March of year 0 to the epoch. -/
def epochDay : ℤ := 719468

namespace Date

/-- The days of the year before a day that is counted from 1 March of year 0. -/
def daysBefore (day : ℤ) : ℕ := (day - marchFirst (marchYear day)).toNat

theorem daysBefore_lt (day : ℤ) :
    daysBefore day < yearLength (decide (IsLeap (marchYear day + 1))) := by
  have hspec := marchYear_spec day
  rw [marchFirst_next] at hspec
  unfold daysBefore
  omega

/-- The year of the calendar, of a month in a year from March on. -/
def yearOf (year : ℤ) (month : ℕ) : ℤ := if month ≤ 2 then year + 1 else year

theorem daysInMonth_yearOf (year : ℤ) (month : ℕ) :
    daysInMonth (yearOf year month) month = monthLength (decide (IsLeap (year + 1))) month := by
  by_cases h : month = 2
  · subst h
    rfl
  · exact monthLength_eq h _ _

/-- The date of a day that is counted from 1 March of year 0. -/
def ofMarchDay (day : ℤ) : Date where
  year := yearOf (marchYear day) (monthAndDay (daysBefore day)).1
  month := (monthAndDay (daysBefore day)).1
  day := (monthAndDay (daysBefore day)).2
  month_ok := (monthAndDay_ok _ _ (daysBefore_lt day)).1
  day_ok := by
    rw [daysInMonth_yearOf]
    exact (monthAndDay_ok _ _ (daysBefore_lt day)).2

/-- The date of a day since the epoch. -/
def ofDay (day : ℤ) : Date := ofMarchDay (day + epochDay)

/-- The days of a date since the epoch. -/
def dayNumber (date : Date) : ℤ :=
  marchFirst (if date.month ≤ 2 then date.year - 1 else date.year) + dayOfYear date.month date.day - epochDay

theorem ofDay_zero : ofDay 0 = epoch := by
  decide

theorem marchYear_daysBefore (day : ℤ) : marchFirst (marchYear day) + daysBefore day = day := by
  have hspec := marchYear_spec day
  unfold daysBefore
  omega

@[simp] theorem dayNumber_ofDay (day : ℤ) : (ofDay day).dayNumber = day := by
  have hyear : (if (ofDay day).month ≤ 2 then (ofDay day).year - 1 else (ofDay day).year) =
      marchYear (day + epochDay) := by
    show (if (monthAndDay _).1 ≤ 2 then yearOf _ _ - 1 else yearOf _ _) = _
    unfold yearOf
    split <;> omega
  have hlt : daysBefore (day + epochDay) < 366 := by
    refine (daysBefore_lt _).trans_le ?_
    cases decide (IsLeap (marchYear (day + epochDay) + 1)) <;> decide
  have hday : dayOfYear (ofDay day).month (ofDay day).day = daysBefore (day + epochDay) :=
    dayOfYear_monthAndDay _ hlt
  have htotal := marchYear_daysBefore (day + epochDay)
  rw [dayNumber, hyear, hday]
  omega

/-- The next day in the same year from March on. -/
theorem ofMarchDay_succ {day : ℤ} (h : day + 1 < marchFirst (marchYear day + 1)) :
    ofMarchDay (day + 1) = (ofMarchDay day).next := by
  have hspec := marchYear_spec day
  have hyear : marchYear (day + 1) = marchYear day := marchYear_eq (by omega) h
  have hdays : daysBefore (day + 1) = daysBefore day + 1 := by
    unfold daysBefore
    rw [hyear]
    omega
  have hlt : daysBefore day + 1 < yearLength (decide (IsLeap (marchYear day + 1))) := by
    have hlt := daysBefore_lt (day + 1)
    rwa [hyear, hdays] at hlt
  have hnext := monthAndDay_succ _ _ hlt
  have hlength : daysInMonth (ofMarchDay day).year (ofMarchDay day).month =
      monthLength (decide (IsLeap (marchYear day + 1))) (monthAndDay (daysBefore day)).1 := daysInMonth_yearOf ..
  split at hnext
  · rename_i hday
    rw [next, dif_pos (hlength ▸ hday)]
    ext <;> simp [ofMarchDay, hyear, hdays, hnext]
  · rename_i hday
    rw [next, dif_neg (hlength ▸ hday)]
    split at hnext
    · rename_i hmonth
      rw [dif_pos (show (ofMarchDay day).month < 12 from hmonth)]
      -- February is the last month
      have hle : (monthAndDay (daysBefore day)).1 + 1 ≤ 2 ↔ (monthAndDay (daysBefore day)).1 ≤ 2 := by omega
      ext <;> simp only [ofMarchDay, hyear, hdays, hnext, yearOf, hle]
    · rename_i hmonth
      have hyear' : ¬ (monthAndDay (daysBefore day)).1 ≤ 2 := by omega
      rw [dif_neg (show ¬ (ofMarchDay day).month < 12 from hmonth)]
      ext <;> simp [ofMarchDay, hyear, hdays, hnext, yearOf, hyear']

/-- The first of March comes after the last of February. -/
theorem ofMarchDay_march {day : ℤ} (h : day + 1 = marchFirst (marchYear day + 1)) :
    ofMarchDay (day + 1) = (ofMarchDay day).next := by
  have hyear : marchYear (day + 1) = marchYear day + 1 :=
    marchYear_eq h.ge (h ▸ marchFirst_strictMono (Int.lt_succ _))
  have hdays : daysBefore (day + 1) = 0 := by
    unfold daysBefore
    rw [hyear]
    omega
  have hlast : daysBefore day = yearLength (decide (IsLeap (marchYear day + 1))) - 1 := by
    have htotal := marchYear_daysBefore day
    rw [marchFirst_next] at h
    omega
  have hfields := monthAndDay_last (decide (IsLeap (marchYear day + 1)))
  rw [← hlast] at hfields
  have hlength : daysInMonth (ofMarchDay day).year (ofMarchDay day).month =
      monthLength (decide (IsLeap (marchYear day + 1))) (monthAndDay (daysBefore day)).1 := daysInMonth_yearOf ..
  have hday : ¬ (ofMarchDay day).day < daysInMonth (ofMarchDay day).year (ofMarchDay day).month := by
    rw [hlength]
    simp [ofMarchDay, hfields]
  have hmonth : (ofMarchDay day).month < 12 := by simp [ofMarchDay, hfields]
  rw [next, dif_neg hday, dif_pos hmonth]
  have hmarch : monthAndDay 0 = (3, 1) := rfl
  ext <;> simp [ofMarchDay, hyear, hdays, hfields, hmarch, yearOf]

/-- The date of the next day is the next date. -/
theorem ofDay_succ (day : ℤ) : ofDay (day + 1) = (ofDay day).next := by
  have hspec := marchYear_spec (day + epochDay)
  rw [ofDay, ofDay, add_right_comm]
  rcases lt_or_eq_of_le (Int.add_one_le_iff.mpr hspec.2) with h | h
  · exact ofMarchDay_succ h
  · exact ofMarchDay_march h

/-- A later day has a later date. -/
theorem ofDay_lt {a b : ℤ} (h : a < b) : ofDay a < ofDay b := by
  induction b, h using Int.leInduction with
  | base => exact ofDay_succ a ▸ lt_next _
  | succ b _ ih =>
    rw [ofDay_succ]
    exact lt_trans ih (lt_next _)

end Date

end Arcature.Lib
