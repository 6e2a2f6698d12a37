import Arcature.Lib.Calendar
import Arcature.Observe.JsonLog

/-! The timestamps of the log are the calendar.

    `civil_from_days` (`observe/json_log.rs`) goes from a day to its date by divisions alone:

        day ── era of 400 years ── year of the era ── day of the year ── month, day

    Each of them finds what the calendar has (`civilFromDays_eq`), on every day before or after the
    epoch. A timestamp writes the date and the time of day in fields of fixed width, and so two of them
    are in the order of their texts, for the years of four digits (`timestamps_gregorian`). -/

namespace Arcature.Observe
open Arcature.Lib

/-! ### The divisions -/

/-- The days of an era, less the leap days before. -/
def ordinaryDays (dayOfEra : ℕ) : ℕ := dayOfEra - dayOfEra / 1460 + dayOfEra / 36524 - dayOfEra / 146096

theorem ordinaryDays_mono : Monotone ordinaryDays := by
  refine monotone_nat_of_le_succ fun n => ?_
  unfold ordinaryDays
  -- what is taken off again in the last division was added in the one before
  rw [show 146096 = 36524 * 4 from rfl, ← Nat.div_div_eq_div_mul, ← Nat.div_div_eq_div_mul]
  omega

/-- The year is right on the first and on the last day of every year of an era. -/
theorem yearOfEra_ends : ∀ year : ℕ, year < 400 → ordinaryDays (marchFirst year).toNat / 365 = year ∧
    ordinaryDays (marchFirst (year + 1) - 1).toNat / 365 = year := by
  decide +kernel

/-- And so on the days in between. -/
theorem yearOfEra_eq {dayOfEra : ℕ} (h : dayOfEra < 146097) :
    ((ordinaryDays dayOfEra / 365 : ℕ) : ℤ) = marchYear dayOfEra := by
  obtain ⟨hfirst, hlast⟩ := marchYear_spec dayOfEra
  have hlow : -1 < marchYear dayOfEra := by
    have hlt : marchFirst 0 < marchFirst (marchYear dayOfEra + 1) :=
      lt_of_le_of_lt (by rw [show marchFirst 0 = 0 from rfl]; omega) hlast
    have := marchFirst_strictMono.lt_iff_lt.mp hlt
    omega
  have hhigh : marchYear dayOfEra < 400 := by
    refine marchFirst_strictMono.lt_iff_lt.mp (hfirst.trans_lt ?_)
    rw [show marchFirst 400 = 146097 from rfl]
    omega
  obtain ⟨year, hyear⟩ := Int.eq_ofNat_of_zero_le (show 0 ≤ marchYear dayOfEra by omega)
  rw [hyear] at hfirst hlast hhigh ⊢
  obtain ⟨hleft, hright⟩ := yearOfEra_ends year (by omega)
  have hmono := @ordinaryDays_mono (marchFirst year).toNat dayOfEra (by omega)
  have hmono' := @ordinaryDays_mono dayOfEra (marchFirst (year + 1) - 1).toNat (by omega)
  have hdiv := Nat.div_le_div_right (c := 365) hmono
  have hdiv' := Nat.div_le_div_right (c := 365) hmono'
  rw [hleft] at hdiv
  rw [hright] at hdiv'
  exact congrArg Nat.cast (le_antisymm hdiv' hdiv)

/-- Rounding down, by a division that rounds towards zero. -/
theorem era_eq (shifted : ℤ) :
    (if 0 ≤ shifted then shifted else shifted - 146096).tdiv 146097 = shifted / 146097 := by
  split
  · rename_i h
    exact Int.tdiv_eq_ediv_of_nonneg h
  · rename_i h
    obtain ⟨n, hn⟩ : ∃ n : ℤ, shifted - 146096 = -n := ⟨146096 - shifted, by omega⟩
    rw [hn, Int.neg_tdiv, Int.tdiv_eq_ediv_of_nonneg (by omega)]
    omega

theorem monthPosition_eq : ∀ n < 366,
    (if (5 * n + 2) / 153 < 10 then (5 * n + 2) / 153 + 3 else (5 * n + 2) / 153 - 9,
      n - (153 * ((5 * n + 2) / 153) + 2) / 5 + 1) = monthAndDay n := by
  decide +kernel

/-- The eras repeat. -/
theorem marchFirst_era (year era : ℤ) : marchFirst (year + era * 400) = marchFirst year + era * 146097 := by
  unfold marchFirst
  omega

/-- The year, the month and the day of a date. -/
def fields (date : Date) : ℤ × ℕ × ℕ := (date.year, date.month, date.day)

/-- The formula yields the date of the day. -/
theorem civilFromDays_eq (days : ℤ) : civilFromDays days = fields (.ofDay days) := by
  unfold civilFromDays
  simp only [era_eq]
  rw [show days + 719468 = days + epochDay from rfl]
  generalize hshifted : days + epochDay = shifted
  generalize hdoe : (shifted - shifted / 146097 * 146097).toNat = dayOfEra
  have hlt : dayOfEra < 146097 := by omega
  have hsum : shifted = dayOfEra + shifted / 146097 * 146097 := by omega
  have hyear := yearOfEra_eq hlt
  rw [ordinaryDays] at hyear
  generalize hyoe : (dayOfEra - dayOfEra / 1460 + dayOfEra / 36524 - dayOfEra / 146096) / 365 = yearOfEra at *
  obtain ⟨hfirst, hlast⟩ := marchYear_spec dayOfEra
  rw [← hyear] at hfirst hlast
  have hmarch : marchYear shifted = yearOfEra + shifted / 146097 * 400 := by
    apply marchYear_eq
    · rw [marchFirst_era]
      omega
    · rw [add_right_comm, marchFirst_era]
      omega
  have hdays : dayOfEra - (365 * yearOfEra + yearOfEra / 4 - yearOfEra / 100) = Date.daysBefore shifted := by
    rw [Date.daysBefore, hmarch, marchFirst_era]
    unfold marchFirst at hfirst hlast ⊢
    omega
  have hplace := monthPosition_eq (Date.daysBefore shifted) ((Date.daysBefore_lt shifted).trans_le (by
    cases decide (IsLeap (marchYear shifted + 1)) <;> decide))
  rw [hdays]
  rw [Prod.mk.injEq] at hplace
  rw [hplace.1, hplace.2, fields, Date.ofDay, hshifted, ← hmarch]
  rfl

/-! ### Fields of fixed width -/

theorem padded_injective {width n m : ℕ} (h : padded width n = padded width m) : n = m := by
  have hread := congrArg (fun digits => Nat.ofDigitChars 10 digits 0) h
  simpa [padded, Nat.ofDigitChars_append, Nat.ofDigitChars_replicate_zero, Nat.ofDigitChars_ten_toDigits]
    using hread

/-- There are only digits in a number. -/
theorem notMem_padded {sep : Char} (hsep : sep.isDigit = false) (width n : ℕ) : sep ∉ padded width n := by
  intro h
  have hdigit : sep.isDigit = true := by
    rcases List.mem_append.mp h with h | h
    · rw [List.eq_of_mem_replicate h]
      rfl
    · exact Nat.isDigit_of_mem_toDigits (by decide) le_rfl h
  rw [hsep] at hdigit
  cases hdigit

/-- The last digit stands at the end. -/
theorem padded_succ {width : ℕ} (hwidth : 0 < width) (n : ℕ) :
    padded (width + 1) n = padded width (n / 10) ++ [(n % 10).digitChar] := by
  obtain ⟨width, rfl⟩ := Nat.exists_eq_succ_of_ne_zero hwidth.ne'
  rcases lt_or_ge n 10 with h | h
  · rw [Nat.div_eq_of_lt h, Nat.mod_eq_of_lt h]
    simp [padded, Nat.toDigits_of_lt_base h, Nat.toDigits_zero, List.replicate_succ']
  · simp [padded, Nat.toDigits_of_base_le (by decide) h]

theorem length_padded {width n : ℕ} (hwidth : 0 < width) (h : n < 10 ^ width) :
    (padded width n).length = width := by
  have hdigits := (Nat.length_toDigits_le_iff (by decide : 1 < 10) hwidth).mpr h
  simp [padded, Nat.sub_add_cancel hdigits]

theorem digitChar_lt : ∀ a < 10, ∀ b < 10, a < b → Nat.digitChar a < Nat.digitChar b := by
  decide

/-- Of two numbers of one width the smaller one is first. -/
theorem padded_lt {width n m : ℕ} (hwidth : 0 < width) (h : n < m) (hm : m < 10 ^ width) :
    padded width n < padded width m := by
  induction width generalizing n m with
  | zero => exact absurd hwidth (lt_irrefl 0)
  | succ width ih =>
    rcases Nat.eq_zero_or_pos width with rfl | hpos
    · have hsmall : m < 10 := hm
      simp only [padded, Nat.toDigits_of_lt_base hsmall, Nat.toDigits_of_lt_base (h.trans hsmall)]
      simp [List.cons_lt_cons_iff, digitChar_lt n (h.trans hsmall) m hsmall h]
    · have hm' : m / 10 < 10 ^ width := Nat.div_lt_of_lt_mul (by rwa [pow_succ'] at hm)
      rw [padded_succ hpos, padded_succ hpos]
      rcases Nat.lt_or_ge (n / 10) (m / 10) with hlt | hge
      · exact Str.append_lt_append _ _ (by
          rw [length_padded hpos (hlt.trans hm'), length_padded hpos hm']) (ih hpos hlt hm')
      · have heq : n / 10 = m / 10 := by omega
        have hdigit : n % 10 < m % 10 := by omega
        rw [heq]
        refine List.append_left_lt ?_
        simp [List.cons_lt_cons_iff, digitChar_lt _ (Nat.mod_lt _ (by decide)) _ (Nat.mod_lt _ (by decide)) hdigit]

/-- Numbers in fields, each with its width and what follows it. -/
def written : List (ℕ × Char) → List ℕ → Str
  | (width, sep) :: layout, n :: values => padded width n ++ sep :: written layout values
  | _, _ => []

theorem written_injective : ∀ {layout : List (ℕ × Char)} {values values' : List ℕ},
    (∀ p ∈ layout, p.2.isDigit = false) → values.length = layout.length → values'.length = layout.length →
    written layout values = written layout values' → values = values'
  | [], values, values', _, hlen, hlen', _ => by
    rw [List.eq_nil_of_length_eq_zero hlen, List.eq_nil_of_length_eq_zero hlen']
  | (width, sep) :: layout, n :: values, n' :: values', hseps, hlen, hlen', h => by
    rw [List.forall_mem_cons] at hseps
    obtain ⟨hn, hrest⟩ := Str.append_sep_inj (notMem_padded hseps.1 _ _) (notMem_padded hseps.1 _ _) h
    rw [padded_injective hn, written_injective hseps.2 (Nat.succ.inj hlen) (Nat.succ.inj hlen') hrest]

/-- The order of the values is that of the texts, where each value has room. -/
theorem written_lt {layout : List (ℕ × Char)} (hwidth : ∀ p ∈ layout, 0 < p.1) {values values' : List ℕ}
    (hroom : List.Forall₂ (fun p n => n < 10 ^ p.1) layout values)
    (hroom' : List.Forall₂ (fun p n => n < 10 ^ p.1) layout values') (h : values < values') :
    written layout values < written layout values' := by
  induction hroom generalizing values' with
  | nil =>
    cases hroom'
    exact absurd h (List.lt_irrefl [])
  | @cons p n layout values hn hroom ih =>
    cases hroom' with
    | @cons _ n' _ values' hn' hroom' =>
      rw [List.forall_mem_cons] at hwidth
      rw [List.cons_lt_cons_iff] at h
      simp only [written]
      rcases h with h | ⟨rfl, h⟩
      · exact Str.append_lt_append _ _ (by rw [length_padded hwidth.1 hn, length_padded hwidth.1 hn'])
          (padded_lt hwidth.1 h hn')
      · refine List.append_left_lt ?_
        rw [List.cons_lt_cons_iff]
        exact Or.inr ⟨rfl, ih hwidth.2 hroom' h⟩

/-! ### Timestamps -/

/-- The fields of a timestamp. -/
def layout : List (ℕ × Char) := [(4, '-'), (2, '-'), (2, 'T'), (2, ':'), (2, ':'), (2, '.'), (3, 'Z')]

/-- The day of a time in milliseconds. -/
def dayOf (now : ℕ) : ℕ := now / 1000 / 86400

/-- The values of a timestamp. -/
def values (now : ℕ) : List ℕ :=
  let date := Date.ofDay (dayOf now)
  let timeOfDay := now / 1000 % 86400
  [date.year.toNat, date.month, date.day, timeOfDay / 3600, timeOfDay % 3600 / 60, timeOfDay % 60, now % 1000]

theorem rfc3339Utc_of {now : ℕ} {year : ℤ} {month day : ℕ}
    (h : civilFromDays (dayOf now) = (year, month, day)) :
    rfc3339Utc now = written layout [year.toNat, month, day, now / 1000 % 86400 / 3600,
      now / 1000 % 86400 % 3600 / 60, now / 1000 % 86400 % 60, now % 1000] := by
  rw [dayOf] at h
  simp only [rfc3339Utc, Int.toNat_natCast, h, written, layout, List.append_assoc, List.cons_append, List.nil_append]

theorem rfc3339Utc_eq (now : ℕ) : rfc3339Utc now = written layout (values now) :=
  rfc3339Utc_of (civilFromDays_eq (dayOf now))

/-- Since the epoch there are only years from 1970 on. -/
theorem year_pos (day : ℕ) : 1970 ≤ (Date.ofDay day).year := by
  rcases Nat.eq_zero_or_pos day with rfl | h
  · exact le_of_eq (congrArg Date.year Date.ofDay_zero).symm
  · have hlater : Date.ofDay 0 < Date.ofDay day := Date.ofDay_lt (by omega)
    rw [Date.ofDay_zero, Date.lt_def] at hlater
    simp only [Date.epoch] at hlater
    omega

theorem length_values (now : ℕ) : (values now).length = layout.length := by
  simp only [values, layout, List.length_cons, List.length_nil]

/-- Of two numbers the quotients decide, and then the remainders. -/
theorem div_lt_or_mod_lt {n m : ℕ} (k : ℕ) (h : n < m) : n / k < m / k ∨ n / k = m / k ∧ n % k < m % k := by
  rcases lt_or_eq_of_le (Nat.div_le_div_right (c := k) h.le) with hdiv | hdiv
  · exact Or.inl hdiv
  · have hn := Nat.div_add_mod n k
    have hm := Nat.div_add_mod m k
    rw [hdiv] at hn
    exact Or.inr ⟨hdiv, by omega⟩

/-- A later day is later by the fields of its date. -/
theorem date_lt {day day' : ℕ} (h : day < day') :
    (Date.ofDay day).year.toNat < (Date.ofDay day').year.toNat ∨
      (Date.ofDay day).year.toNat = (Date.ofDay day').year.toNat ∧
      ((Date.ofDay day).month < (Date.ofDay day').month ∨
        (Date.ofDay day).month = (Date.ofDay day').month ∧ (Date.ofDay day).day < (Date.ofDay day').day) := by
  have hdate : Date.ofDay day < Date.ofDay day' := Date.ofDay_lt (by omega)
  have hyear := year_pos day
  rw [Date.lt_def] at hdate
  omega

/-- A later time of a day is later by hour, minute and second. -/
theorem time_lt {time time' : ℕ} (h : time < time') :
    time / 3600 < time' / 3600 ∨ time / 3600 = time' / 3600 ∧
      (time % 3600 / 60 < time' % 3600 / 60 ∨ time % 3600 / 60 = time' % 3600 / 60 ∧ time % 60 < time' % 60) := by
  rcases div_lt_or_mod_lt 3600 h with hhour | ⟨hhour, hrest⟩
  · exact Or.inl hhour
  · rcases div_lt_or_mod_lt 60 hrest with hminute | ⟨hminute, hsecond⟩
    · exact Or.inr ⟨hhour, Or.inl hminute⟩
    · rw [Nat.mod_mod_of_dvd _ (by decide), Nat.mod_mod_of_dvd _ (by decide)] at hsecond
      exact Or.inr ⟨hhour, Or.inr ⟨hminute, hsecond⟩⟩

/-- A later time has later values. -/
theorem values_lt {now now' : ℕ} (h : now < now') : values now < values now' := by
  simp only [values, List.cons_lt_cons_iff, List.lt_irrefl, and_false, or_false]
  rcases div_lt_or_mod_lt 1000 h with hseconds | ⟨hseconds, hmillis⟩
  · rcases div_lt_or_mod_lt 86400 hseconds with hday | ⟨hday, htime⟩
    · rcases date_lt hday with hyear | ⟨hyear, hmonth | ⟨hmonth, hday⟩⟩
      · exact Or.inl hyear
      · exact Or.inr ⟨hyear, Or.inl hmonth⟩
      · exact Or.inr ⟨hyear, Or.inr ⟨hmonth, Or.inl hday⟩⟩
    · rw [dayOf, dayOf, hday]
      refine Or.inr ⟨rfl, Or.inr ⟨rfl, Or.inr ⟨rfl, ?_⟩⟩⟩
      rcases time_lt htime with hhour | ⟨hhour, hminute | ⟨hminute, hsecond⟩⟩
      · exact Or.inl hhour
      · exact Or.inr ⟨hhour, Or.inl hminute⟩
      · exact Or.inr ⟨hhour, Or.inr ⟨hminute, Or.inl hsecond⟩⟩
  · rw [dayOf, dayOf, hseconds]
    exact Or.inr ⟨rfl, Or.inr ⟨rfl, Or.inr ⟨rfl, Or.inr ⟨rfl, Or.inr ⟨rfl, Or.inr ⟨rfl, hmillis⟩⟩⟩⟩⟩⟩

/-- Each value of a timestamp has room, for a year of four digits. -/
theorem values_room {now : ℕ} (h : (Date.ofDay (dayOf now)).year ≤ 9999) :
    List.Forall₂ (fun p n => n < 10 ^ p.1) layout (values now) := by
  have hmonth := (Date.ofDay (dayOf now)).month_ok
  have hday := (Date.ofDay (dayOf now)).day_ok
  have hlength := daysInMonth_le (Date.ofDay (dayOf now)).year (Date.ofDay (dayOf now)).month
  simp only [layout, values, List.forall₂_cons, List.forall₂_nil_left_iff, and_true]
  omega

theorem rfc3339Utc_lt {now now' : ℕ} (hyear : (Date.ofDay (dayOf now)).year ≤ 9999)
    (hyear' : (Date.ofDay (dayOf now')).year ≤ 9999) (h : now < now') : rfc3339Utc now < rfc3339Utc now' := by
  rw [rfc3339Utc_eq, rfc3339Utc_eq]
  exact written_lt (by decide) (values_room hyear) (values_room hyear') (values_lt h)

theorem rfc3339Utc_injective {now now' : ℕ} (h : rfc3339Utc now = rfc3339Utc now') : now = now' := by
  rw [rfc3339Utc_eq, rfc3339Utc_eq] at h
  have hvalues := written_injective (by decide) (length_values now) (length_values now') h
  rcases lt_trichotomy now now' with hlt | heq | hlt
  · have hlater := values_lt hlt
    rw [hvalues] at hlater
    exact absurd hlater (List.lt_irrefl _)
  · exact heq
  · have hlater := values_lt hlt
    rw [hvalues] at hlater
    exact absurd hlater (List.lt_irrefl _)

/-- The date of every day, before or after the epoch, is one of the calendar: day 0 is the first of
    January 1970, and the date of the next day is the next date. No two times have one timestamp, and
    up to the year 9999 the order of the texts is that of the times. -/
theorem timestamps_gregorian :
    (∀ day : ℤ, ∃ date : Date, civilFromDays day = fields date ∧ civilFromDays (day + 1) = fields date.next) ∧
    civilFromDays 0 = (1970, 1, 1) ∧
    (∀ now now' : ℕ, rfc3339Utc now = rfc3339Utc now' → now = now') ∧
    ∀ now now' : ℕ, (civilFromDays (now / 1000 / 86400 : ℕ)).1 ≤ 9999 →
      (civilFromDays (now' / 1000 / 86400 : ℕ)).1 ≤ 9999 → (rfc3339Utc now < rfc3339Utc now' ↔ now < now') := by
  refine ⟨fun day => ⟨.ofDay day, civilFromDays_eq day, ?_⟩, ?_, fun _ _ => rfc3339Utc_injective, ?_⟩
  · rw [civilFromDays_eq, Date.ofDay_succ]
  · rw [civilFromDays_eq, Date.ofDay_zero]
    rfl
  · intro now now' hyear hyear'
    rw [civilFromDays_eq] at hyear hyear'
    refine ⟨fun h => ?_, rfc3339Utc_lt hyear hyear'⟩
    rcases lt_trichotomy now now' with hlt | rfl | hlt
    · exact hlt
    · exact absurd h (List.lt_irrefl _)
    · exact absurd (List.lt_trans h (rfc3339Utc_lt hyear' hyear hlt)) (List.lt_irrefl _)

example : rfc3339Utc 951782400000 = "2000-02-29T00:00:00.000Z".toList := by decide +kernel

end Arcature.Observe
