import Arcature.Lib.Calendar
import Arcature.Lib.Clock
import Arcature.Lib.Decimal
import Arcature.Lib.Machine

/-! When a recurring job fires.

    A schedule is written in a module and read by the macro (`macros/module/schedule_spec.rs`); the
    scheduler computes from it the next instant to fire at, and after every firing the one after that
    (`jobs/scheduler.rs`):

        every "5m"        now ──▶ now + 5m
        daily "03:00"     now ──▶ 03:00:00 today, or tomorrow if that is not after now

    A daily schedule always moves forward, to the least such instant. An interval does if it is not zero
    and its end can be named: the macro takes zero, and intervals beyond the range of the calendar
    (`moves_forward`). Where each computation moves forward, an entry fires once in an iteration of the
    loop, and never again for the same instant. -/

namespace Arcature.Jobs.Scheduler
open Arcature.Lib

/-! ### What the macro reads -/

/-- `ScheduleCadence`, which `ScheduleSpec` is expanded to. -/
inductive ScheduleCadence where
  | every (seconds : ℕ)
  | daily (hour minute : ℕ)
  deriving DecidableEq

/-- `split_at_checked`. -/
def splitAtChecked (s : Str) (k : ℕ) : Option (Str × Str) :=
  if s.isCharBoundary k then some (s.sliceTo k, s.drop (s.sliceTo k).length) else none

/-- `u64::checked_mul`. -/
def checkedMul (n m : ℕ) : Option ℕ := if n * m < 2 ^ 64 then some (n * m) else none

/-- `parse_interval`. -/
def parseInterval (s : Str) : Option ℕ := do
  let last ← if s.len = 0 then none else some (s.len - 1)
  let (number, unit) ← splitAtChecked s last
  let n ← parseUnsigned (2 ^ 64) number
  if unit = ['s'] then some n
  else if unit = ['m'] then checkedMul n 60
  else if unit = ['h'] then checkedMul n 3600
  else if unit = ['d'] then checkedMul n 86400
  else none

/-- `parse_time`. -/
def parseTime (s : Str) : Option (ℕ × ℕ) := do
  let parts := s.splitOn ':'
  let hour ← parseUnsigned 256 (← parts[0]?)
  let minute ← parseUnsigned 256 (← parts[1]?)
  if parts[2]?.isSome ∨ hour > 23 ∨ minute > 59 then none
  else some (hour, minute)

/-- `parse_cadence`: a word, and a literal. -/
def parseCadence (cadence value : Str) : Except Str ScheduleCadence :=
  if cadence = "every".toList then
    match parseInterval value with
    | some seconds => .ok (.every seconds)
    | none => .error ("invalid interval `".toList ++ value ++ "` (expected like `5m`, `1h`, `30s`, `1d`)".toList)
  else if cadence = "daily".toList then
    match parseTime value with
    | some (hour, minute) => .ok (.daily hour minute)
    | none => .error ("invalid time `".toList ++ value ++ "` (expected `HH:MM`)".toList)
  else .error ("unknown cadence `".toList ++ cadence ++ "` (expected `every` or `daily`)".toList)

/-! ### The next instant -/

/-- A day in nanoseconds. -/
def dayNanos : ℤ := 86400 * 10 ^ 9

/-- `i64::MAX`. -/
def i64Max : ℕ := 2 ^ 63 - 1

/-- The date of an instant. -/
def dateOf (t : Instant) : Date := .ofDay (t / dayNanos)

/-- `with_ymd_and_hms`, which in UTC is a single instant or none. -/
def withYmdAndHms (year : ℤ) (month day hour minute second : ℕ) : Option Instant :=
  if h : (1 ≤ month ∧ month ≤ 12) ∧ 1 ≤ day ∧ day ≤ daysInMonth year month then
    let date : Date := ⟨year, month, day, h.1, h.2⟩
    let t := date.dayNumber * dayNanos + (hour * 3600 + minute * 60 + second : ℕ) * 10 ^ 9
    if (hour < 24 ∧ minute < 60 ∧ second < 60) ∧ Clock.minUtc ≤ t ∧ t ≤ Clock.maxUtc then some t else none
  else none

/-- The time of a daily schedule on the date of an instant. -/
def onDateOf (t : Instant) (hour minute : ℕ) : Option Instant :=
  withYmdAndHms (dateOf t).year (dateOf t).month (dateOf t).day hour minute 0

/-- `compute_next_fire`; `none` is a panic. -/
def computeNextFire (cadence : ScheduleCadence) (now : Instant) : Option Instant :=
  match cadence with
  | .every seconds => do
    let seconds := if seconds ≤ i64Max then seconds else i64Max
    let duration ← Clock.fromStd (seconds * 10 ^ 9)
    Clock.checkedAdd now duration
  | .daily hour minute =>
    let tomorrow := (Clock.checkedAdd now dayNanos).map fun tomorrow => (onDateOf tomorrow hour minute).getD now
    match onDateOf now hour minute with
    | some t => if t > now then some t else tomorrow
    | none => tomorrow

/-! ### The loop -/

/-- `ScheduleEntry`; what it enqueues is named by its place in the list. -/
structure ScheduleEntry where
  kind : Str
  version : ℤ
  cadence : ScheduleCadence
  nextFire : Instant

/-- `Scheduler::schedule`; `none` is a panic. -/
def schedule (entries : List ScheduleEntry) (kind : Str) (version : ℤ) (cadence : ScheduleCadence) (now : Instant) :
    Option (List ScheduleEntry) :=
  (computeNextFire cadence now).map fun nextFire => entries ++ [⟨kind, version, cadence, nextFire⟩]

/-- The inner loop of `Scheduler::run`, over the entries from a place on: the firings, each with the
    instant that it was scheduled for, and the entries then. An error of an enqueue is only printed. -/
def sweep (now : Instant) : ℕ → List ScheduleEntry → List (ℕ × Instant) × Option (List ScheduleEntry)
  | _, [] => ([], some [])
  | place, entry :: entries =>
    if entry.nextFire ≤ now then
      match computeNextFire entry.cadence now with
      | some nextFire =>
        let (fired, rest) := sweep now (place + 1) entries
        ((place, entry.nextFire) :: fired, rest.map fun rest => { entry with nextFire } :: rest)
      | none => ([(place, entry.nextFire)], none)
    else
      let (fired, rest) := sweep now (place + 1) entries
      (fired, rest.map fun rest => entry :: rest)

/-- `Scheduler::run`, an iteration for each reading of the clock after a sleep; `none` is a panic. -/
def machine (entries : List ScheduleEntry) : Machine (Option (List ScheduleEntry)) Instant (List (ℕ × Instant)) where
  init := some entries
  step
    | none, _ => (none, [])
    | some entries, now => ((sweep now 0 entries).2, (sweep now 0 entries).1)

/-! ### Moving forward -/

/-- An instant of the form hh:mm:00. -/
def OnTheMinute (hour minute : ℕ) (t : ℤ) : Prop :=
  ∃ day : ℤ, t = day * dayNanos + (hour * 3600 + minute * 60 : ℕ) * 10 ^ 9

/-- A cadence moves forward: the next instant is computed without a panic and is after now, and that of a
    daily schedule is the least one of its time. -/
structure MovesForward (cadence : ScheduleCadence) (now : ℤ) : Prop where
  later : ∃ t, computeNextFire cadence now = some t ∧ now < t
  least : ∀ hour minute, cadence = .daily hour minute → ∃ t, computeNextFire cadence now = some t ∧
    IsLeast {t | now < t ∧ OnTheMinute hour minute t} t

/-- A cadence that the macro reads. -/
def Accepted (cadence : ScheduleCadence) : Prop := ∃ word value, parseCadence word value = .ok cadence

/-- An interval is not zero and ends within the range of the calendar. -/
def InReach (cadence : ScheduleCadence) (now : ℤ) : Prop :=
  ∀ seconds, cadence = .every seconds → 0 < seconds ∧ now + seconds * 10 ^ 9 ≤ Clock.maxUtc

/-- A reading of the clock in the range of the calendar, with a day to spare. -/
def InRange (now : ℤ) : Prop := Clock.minUtc ≤ now ∧ now + dayNanos ≤ Clock.maxUtc

/-- The firings of an iteration. -/
def firedAt (entries : List ScheduleEntry) (nows : List Instant) (i : ℕ) : List (ℕ × Instant) :=
  (nows[i]?.map fun now => (machine entries).out ((machine entries).run (nows.take i)) now).getD []

/-- A run of the loop: it never panics, an entry fires at most once in an iteration, and what it fires
    for in a later iteration is a later instant. -/
structure FiresOnce (entries : List ScheduleEntry) (nows : List Instant) : Prop where
  alive : ((machine entries).run nows).isSome
  once : ∀ i, ((firedAt entries nows i).map Prod.fst).Nodup
  apart : ∀ i j, i < j → ∀ place t t', (place, t) ∈ firedAt entries nows i → (place, t') ∈ firedAt entries nows j →
    t < t'

/-! ### Daily schedules -/

theorem parseTime_bounds {s : Str} {hour minute : ℕ} (h : parseTime s = some (hour, minute)) :
    hour ≤ 23 ∧ minute ≤ 59 := by
  simp only [parseTime, Option.bind_eq_bind, Option.bind_eq_some_iff] at h
  obtain ⟨_, -, _, -, _, -, _, -, h⟩ := h
  split_ifs at h with hbad
  rw [Option.some_inj, Prod.mk.injEq] at h
  obtain ⟨rfl, rfl⟩ := h
  omega

theorem bounds_of_parseCadence {word value : Str} {hour minute : ℕ}
    (h : parseCadence word value = .ok (.daily hour minute)) : hour ≤ 23 ∧ minute ≤ 59 := by
  unfold parseCadence at h
  split_ifs at h
  · split at h <;> cases h
  · split at h
    · rename_i hparse
      cases h
      exact parseTime_bounds hparse
    · cases h

/-- The range in seconds; its ends are those of days. -/
theorem inRange_iff {now : ℤ} : InRange now ↔
    -8334601228800 * 10 ^ 9 ≤ now ∧ now + 86400 * 10 ^ 9 ≤ 8210266876799 * 10 ^ 9 + 999999999 := Iff.rfl

theorem withinUtc_iff {t : ℤ} : Clock.minUtc ≤ t ∧ t ≤ Clock.maxUtc ↔
    -8334601228800 * 10 ^ 9 ≤ t ∧ t ≤ 8210266876799 * 10 ^ 9 + 999999999 := Iff.rfl

/-- The time of a daily schedule on the date of an instant, if it is in range. -/
theorem onDateOf_eq {t : ℤ} {hour minute : ℕ} (hhour : hour ≤ 23) (hminute : minute ≤ 59)
    (h : Clock.minUtc ≤ t ∧ t ≤ Clock.maxUtc) :
    onDateOf t hour minute = some (t / dayNanos * dayNanos + (hour * 3600 + minute * 60 : ℕ) * 10 ^ 9) := by
  have hdate : (⟨(dateOf t).year, (dateOf t).month, (dateOf t).day, (dateOf t).month_ok, (dateOf t).day_ok⟩ : Date) =
      dateOf t := rfl
  rw [onDateOf, withYmdAndHms, dif_pos ⟨(dateOf t).month_ok, (dateOf t).day_ok⟩, hdate]
  simp only [dateOf, Date.dayNumber_ofDay, Nat.add_zero]
  refine if_pos ⟨by omega, withinUtc_iff.mpr ?_⟩
  rw [withinUtc_iff] at h
  simp only [dayNanos]
  omega

/-- A daily schedule computes today's time, or tomorrow's if that is not after now. -/
theorem computeNextFire_daily {now : ℤ} {hour minute : ℕ} (hhour : hour ≤ 23) (hminute : minute ≤ 59)
    (hrange : InRange now) : computeNextFire (.daily hour minute) now =
      if now < now / dayNanos * dayNanos + (hour * 3600 + minute * 60 : ℕ) * 10 ^ 9 then
        some (now / dayNanos * dayNanos + (hour * 3600 + minute * 60 : ℕ) * 10 ^ 9)
      else some ((now / dayNanos + 1) * dayNanos + (hour * 3600 + minute * 60 : ℕ) * 10 ^ 9) := by
  have hbounds := inRange_iff.mp hrange
  have hnow : Clock.minUtc ≤ now ∧ now ≤ Clock.maxUtc := withinUtc_iff.mpr (by omega)
  have hnext : Clock.minUtc ≤ now + dayNanos ∧ now + dayNanos ≤ Clock.maxUtc :=
    withinUtc_iff.mpr (by simp only [dayNanos]; omega)
  have hadd : Clock.checkedAdd now dayNanos = some (now + dayNanos) := if_pos hnext
  have hday : (now + dayNanos) / dayNanos = now / dayNanos + 1 := by
    simp only [dayNanos]
    omega
  rw [computeNextFire, hadd, onDateOf_eq hhour hminute hnow, Option.map_some, onDateOf_eq hhour hminute hnext, hday]
  rfl

/-- It is the least instant of its time after now. -/
theorem least_daily {now : ℤ} {hour minute : ℕ} (hhour : hour ≤ 23) (hminute : minute ≤ 59)
    (hrange : InRange now) : ∃ t, computeNextFire (.daily hour minute) now = some t ∧
      IsLeast {t | now < t ∧ OnTheMinute hour minute t} t := by
  rw [computeNextFire_daily hhour hminute hrange]
  split
  · rename_i hlater
    refine ⟨_, rfl, ⟨hlater, _, rfl⟩, ?_⟩
    rintro _ ⟨hafter, day, rfl⟩
    simp only [dayNanos] at hafter ⊢
    omega
  · rename_i hpast
    refine ⟨_, rfl, ⟨?_, _, rfl⟩, ?_⟩
    · simp only [dayNanos] at hpast ⊢
      omega
    · rintro _ ⟨hafter, day, rfl⟩
      simp only [dayNanos] at hafter hpast ⊢
      omega

/-! ### Intervals -/

/-- The seconds of an interval as an `i64`, where those that do not fit have the largest. -/
def asI64 (seconds : ℕ) : ℕ := if seconds ≤ i64Max then seconds else i64Max

theorem fromStd_iff {n : ℕ} {duration : ℤ} : Clock.fromStd (n * 10 ^ 9) = some duration ↔
    n * 10 ^ 9 ≤ (2 ^ 63 - 1) * 10 ^ 6 ∧ duration = n * 10 ^ 9 := by
  have hbound : ((n * 10 ^ 9 : ℕ) : ℤ) ≤ Clock.deltaMax ↔ n * 10 ^ 9 ≤ (2 ^ 63 - 1) * 10 ^ 6 := by
    simp only [Clock.deltaMax]
    omega
  rw [Clock.fromStd]
  by_cases h : n * 10 ^ 9 ≤ (2 ^ 63 - 1) * 10 ^ 6
  · rw [if_pos (hbound.mpr h), Option.some_inj]
    push_cast
    exact ⟨fun heq => ⟨h, heq.symm⟩, fun heq => heq.2.symm⟩
  · rw [if_neg fun hle => h (hbound.mp hle)]
    exact ⟨nofun, fun heq => absurd heq.1 h⟩

theorem checkedAdd_iff {now duration t : ℤ} : Clock.checkedAdd now duration = some t ↔
    (-8334601228800 * 10 ^ 9 ≤ now + duration ∧ now + duration ≤ 8210266876799 * 10 ^ 9 + 999999999) ∧
      now + duration = t := by
  rw [Clock.checkedAdd, ← withinUtc_iff]
  split
  · rename_i h
    exact ⟨fun heq => ⟨h, Option.some.inj heq⟩, fun heq => congrArg some heq.2⟩
  · rename_i h
    exact ⟨nofun, fun heq => absurd heq.1 h⟩

/-- An interval is computed without a panic exactly if its end is in range. -/
theorem computeNextFire_every {now t : ℤ} {seconds : ℕ} (hrange : InRange now) :
    computeNextFire (.every seconds) now = some t ↔
      now + seconds * 10 ^ 9 ≤ 8210266876799 * 10 ^ 9 + 999999999 ∧ now + seconds * 10 ^ 9 = t := by
  have hbounds := inRange_iff.mp hrange
  have hcompute : computeNextFire (.every seconds) now =
      (Clock.fromStd (asI64 seconds * 10 ^ 9)).bind fun duration => Clock.checkedAdd now duration := rfl
  have hfits : now + seconds * 10 ^ 9 ≤ 8210266876799 * 10 ^ 9 + 999999999 → asI64 seconds = seconds := by
    intro hend
    refine if_pos ?_
    simp only [i64Max]
    omega
  have hlarge : asI64 seconds * 10 ^ 9 ≤ (2 ^ 63 - 1) * 10 ^ 6 → asI64 seconds = seconds := by
    intro hle
    unfold asI64 at hle ⊢
    split_ifs at hle ⊢
    · rfl
    · simp only [i64Max] at hle
      omega
  rw [hcompute, Option.bind_eq_some_iff]
  constructor
  · rintro ⟨duration, hduration, hadd⟩
    obtain ⟨hle, rfl⟩ := fromStd_iff.mp hduration
    obtain ⟨hwithin, rfl⟩ := checkedAdd_iff.mp hadd
    rw [hlarge hle] at hwithin ⊢
    exact ⟨hwithin.2, rfl⟩
  · rintro ⟨hend, rfl⟩
    rw [hfits hend]
    exact ⟨_, fromStd_iff.mpr ⟨by omega, rfl⟩, checkedAdd_iff.mpr ⟨⟨by omega, hend⟩, rfl⟩⟩

/-- A cadence that was read moves forward exactly if it is daily, or its interval is not zero and ends in
    range. -/
theorem movesForward_iff {cadence : ScheduleCadence} (haccepted : Accepted cadence) {now : ℤ} (hrange : InRange now) :
    MovesForward cadence now ↔ InReach cadence now := by
  cases cadence with
  | daily hour minute =>
    obtain ⟨word, value, hparse⟩ := haccepted
    obtain ⟨hhour, hminute⟩ := bounds_of_parseCadence hparse
    obtain ⟨t, ht, hleast⟩ := least_daily hhour hminute hrange
    refine iff_of_true ⟨⟨t, ht, hleast.1.1⟩, ?_⟩ nofun
    rintro _ _ ⟨⟩
    exact ⟨t, ht, hleast⟩
  | every seconds =>
    constructor
    · intro h s hs
      cases hs
      obtain ⟨t, ht, hlt⟩ := h.later
      obtain ⟨hend, rfl⟩ := (computeNextFire_every hrange).mp ht
      exact ⟨by omega, hend⟩
    · intro h
      obtain ⟨hpos, hend⟩ := h seconds rfl
      exact ⟨⟨_, (computeNextFire_every hrange).mpr ⟨hend, rfl⟩, by omega⟩, nofun⟩

/-! ### Runs of the loop -/

/-- The places of an iteration's firings are in order. -/
theorem sweep_places (now : Instant) (place : ℕ) (entries : List ScheduleEntry) :
    (∀ p ∈ (sweep now place entries).1, place ≤ p.1) ∧
      ((sweep now place entries).1.map Prod.fst).Pairwise (· < ·) := by
  induction entries generalizing place with
  | nil => exact ⟨by simp [sweep], .nil⟩
  | cons entry entries ih =>
    obtain ⟨hle, hpairwise⟩ := ih (place + 1)
    have hrest : ∀ p ∈ (sweep now (place + 1) entries).1, place < p.1 := hle
    rw [sweep]
    split
    · split
      · refine ⟨?_, List.pairwise_cons.mpr ⟨?_, hpairwise⟩⟩
        · rintro p hp
          rcases List.mem_cons.mp hp with rfl | hp
          · exact le_rfl
          · exact (hrest p hp).le
        · rintro k hk
          obtain ⟨p, hp, rfl⟩ := List.mem_map.mp hk
          exact hrest p hp
      · exact ⟨by simp, List.pairwise_singleton _ _⟩
    · exact ⟨fun p hp => (hrest p hp).le, hpairwise⟩

/-- Every cadence of a list has a next instant, after now. -/
def Forward (cadences : List ScheduleCadence) (now : Instant) : Prop :=
  ∀ cadence ∈ cadences, ∃ t, computeNextFire cadence now = some t ∧ now < t

/-- What an iteration does where every computation moves forward: no entry goes back, one that is due goes
    past the reading, and what is fired is what was due, for its instant. -/
theorem sweep_spec {now : Instant} {entries : List ScheduleEntry}
    (h : Forward (entries.map ScheduleEntry.cadence) now) (place : ℕ) :
    ∃ entries', (sweep now place entries).2 = some entries' ∧
      entries'.map ScheduleEntry.cadence = entries.map ScheduleEntry.cadence ∧
      (∀ (k : ℕ) (entry : ScheduleEntry), entries[k]? = some entry → ∃ entry' : ScheduleEntry,
        entries'[k]? = some entry' ∧ entry.nextFire ≤ entry'.nextFire ∧
          (entry.nextFire ≤ now → now < entry'.nextFire)) ∧
      ∀ p ∈ (sweep now place entries).1, ∃ (k : ℕ) (entry : ScheduleEntry), p = (place + k, entry.nextFire) ∧
        entries[k]? = some entry ∧ entry.nextFire ≤ now := by
  induction entries generalizing place with
  | nil => exact ⟨[], rfl, rfl, by simp, by simp [sweep]⟩
  | cons entry entries ih =>
    rw [List.map_cons, Forward, List.forall_mem_cons] at h
    obtain ⟨⟨t, hcompute, hlater⟩, hrest⟩ := h
    obtain ⟨entries', hsome, hcadences, hnext, hfired⟩ := ih hrest (place + 1)
    have hfired' : ∀ p ∈ (sweep now (place + 1) entries).1, ∃ (k : ℕ) (e : ScheduleEntry),
        p = (place + k, e.nextFire) ∧ (entry :: entries)[k]? = some e ∧ e.nextFire ≤ now := fun p hp => by
      obtain ⟨k, e, rfl, hk, hle⟩ := hfired p hp
      exact ⟨k + 1, e, by rw [Nat.add_right_comm, Nat.add_assoc], hk, hle⟩
    rw [sweep]
    by_cases hdue : entry.nextFire ≤ now
    · rw [if_pos hdue, hcompute]
      refine ⟨{ entry with nextFire := t } :: entries', by simp [hsome], by simp [hcadences], ?_, ?_⟩
      · rintro (_ | k) e he
        · cases he
          exact ⟨_, rfl, hdue.trans hlater.le, fun _ => hlater⟩
        · exact hnext k e he
      · intro p hp
        rcases List.mem_cons.mp hp with rfl | hp
        · exact ⟨0, entry, rfl, rfl, hdue⟩
        · exact hfired' p hp
    · rw [if_neg hdue]
      refine ⟨entry :: entries', by simp [hsome], by simp [hcadences], ?_, hfired'⟩
      rintro (_ | k) e he
      · cases he
        exact ⟨_, rfl, le_rfl, fun hle => absurd hle hdue⟩
      · exact hnext k e he

section
variable {entries : List ScheduleEntry} {nows : List Instant}

/-- The loop does not panic, and keeps the cadences. -/
theorem run_some (h : ∀ now ∈ nows, Forward (entries.map ScheduleEntry.cadence) now) :
    ∃ entries', (machine entries).run nows = some entries' ∧
      entries'.map ScheduleEntry.cadence = entries.map ScheduleEntry.cadence := by
  induction nows using List.reverseRecOn with
  | nil => exact ⟨entries, rfl, rfl⟩
  | append_singleton nows now ih =>
    obtain ⟨before, hbefore, hcadences⟩ := ih fun n hn => h n (List.mem_append_left _ hn)
    have hnow := h now (List.mem_append_right _ (List.mem_singleton_self now))
    rw [← hcadences] at hnow
    obtain ⟨entries', hsome, hkeep, -, -⟩ := sweep_spec hnow 0
    exact ⟨entries', by rw [Machine.run_concat, hbefore]; exact hsome, hkeep.trans hcadences⟩

/-- What the loop does with a reading: the entries before and after it, as `sweep_spec` has them. -/
theorem run_step (h : ∀ now ∈ nows, Forward (entries.map ScheduleEntry.cadence) now) {i : ℕ} {now : Instant}
    (hi : nows[i]? = some now) :
    ∃ before after, (machine entries).run (nows.take i) = some before ∧
      (machine entries).run (nows.take (i + 1)) = some after ∧
      firedAt entries nows i = (sweep now 0 before).1 ∧
      Forward (before.map ScheduleEntry.cadence) now ∧ (sweep now 0 before).2 = some after := by
  obtain ⟨before, hbefore, hcadences⟩ := run_some fun n hn => h n (List.mem_of_mem_take hn)
  have hnow := h now (List.mem_of_getElem? hi)
  rw [← hcadences] at hnow
  obtain ⟨after, hafter, -⟩ := sweep_spec hnow 0
  refine ⟨before, after, hbefore, ?_, ?_, hnow, hafter⟩
  · rw [Machine.run_take_succ hi, hbefore]
    exact hafter
  · rw [firedAt, hi, hbefore]
    rfl

/-- No entry goes back in a run. -/
theorem nextFire_le (h : ∀ now ∈ nows, Forward (entries.map ScheduleEntry.cadence) now) {i j : ℕ} (hij : i ≤ j)
    {before : List ScheduleEntry} (hbefore : (machine entries).run (nows.take i) = some before) {k : ℕ}
    {entry : ScheduleEntry} (hk : before[k]? = some entry) :
    ∃ (after : List ScheduleEntry) (entry' : ScheduleEntry), (machine entries).run (nows.take j) = some after ∧
      after[k]? = some entry' ∧ entry.nextFire ≤ entry'.nextFire := by
  induction j, hij using Nat.le_induction with
  | base => exact ⟨before, entry, hbefore, hk, le_rfl⟩
  | succ j _ ih =>
    obtain ⟨mid, entry', hmid, hk', hle⟩ := ih
    cases hj : nows[j]? with
    | none =>
      have hend := List.getElem?_eq_none_iff.mp hj
      rw [List.take_of_length_le hend] at hmid
      exact ⟨mid, entry', by rw [List.take_of_length_le (by omega), hmid], hk', hle⟩
    | some now =>
      obtain ⟨mid', after, hmid', hafter, -, hforward, hsweep⟩ := run_step h hj
      obtain rfl : mid = mid' := Option.some.inj (hmid.symm.trans hmid')
      obtain ⟨after', hafter', -, hnext, -⟩ := sweep_spec hforward 0
      obtain rfl : after = after' := Option.some.inj (hsweep.symm.trans hafter')
      obtain ⟨entry'', hk'', hle', -⟩ := hnext k entry' hk'
      exact ⟨after, entry'', hafter, hk'', hle.trans hle'⟩

/-- A firing is of an entry that was due, for its instant, and the entry then goes past the reading. -/
theorem fired_spec (h : ∀ now ∈ nows, Forward (entries.map ScheduleEntry.cadence) now) {i : ℕ} {place : ℕ} {t : Instant}
    (hfired : (place, t) ∈ firedAt entries nows i) :
    ∃ (before after : List ScheduleEntry) (entry entry' : ScheduleEntry),
      (machine entries).run (nows.take i) = some before ∧ before[place]? = some entry ∧ entry.nextFire = t ∧
      (machine entries).run (nows.take (i + 1)) = some after ∧ after[place]? = some entry' ∧ t < entry'.nextFire := by
  cases hi : nows[i]? with
  | none => simp [firedAt, hi] at hfired
  | some now =>
    obtain ⟨before, after, hbefore, hafter, hout, hforward, hsweep⟩ := run_step h hi
    obtain ⟨after', hafter', -, hnext, hdue⟩ := sweep_spec hforward 0
    obtain rfl : after = after' := Option.some.inj (hsweep.symm.trans hafter')
    rw [hout] at hfired
    obtain ⟨k, entry, heq, hk, hle⟩ := hdue _ hfired
    rw [Prod.mk.injEq, Nat.zero_add] at heq
    obtain ⟨rfl, rfl⟩ := heq
    obtain ⟨entry', hk', -, hpast⟩ := hnext place entry hk
    exact ⟨before, after, entry, entry', hbefore, hk, rfl, hafter, hk', hle.trans_lt (hpast hle)⟩

/-- A loop whose computations all move forward fires once. -/
theorem firesOnce_of_forward (h : ∀ now ∈ nows, Forward (entries.map ScheduleEntry.cadence) now) :
    FiresOnce entries nows where
  alive := by
    obtain ⟨_, hsome, -⟩ := run_some h
    rw [hsome]
    rfl
  once i := by
    cases hi : nows[i]? with
    | none => simp [firedAt, hi]
    | some now =>
      obtain ⟨before, _, -, -, hout, -⟩ := run_step h hi
      rw [hout]
      exact (sweep_places now 0 before).2.imp ne_of_lt
  apart i j hij place t t' ht ht' := by
    obtain ⟨_, _, _, entry, -, -, -, hafter, hk, hlt⟩ := fired_spec h ht
    obtain ⟨before, _, entry', _, hbefore, hk', rfl, -⟩ := fired_spec h ht'
    obtain ⟨before', entry'', hbefore', hk'', hle⟩ := nextFire_le h hij hafter hk
    obtain rfl : before = before' := Option.some.inj (hbefore.symm.trans hbefore')
    obtain rfl : entry' = entry'' := Option.some.inj (hk'.symm.trans hk'')
    exact hlt.trans_le hle

end

/-- A schedule that moves forward is added, to fire later. -/
theorem schedule_of_movesForward {cadence : ScheduleCadence} {now : Instant} (h : MovesForward cadence now)
    (entries : List ScheduleEntry) (kind : Str) (version : ℤ) : ∃ nextFire, now < nextFire ∧
      schedule entries kind version cadence now = some (entries ++ [⟨kind, version, cadence, nextFire⟩]) := by
  obtain ⟨t, ht, hlt⟩ := h.later
  exact ⟨t, hlt, by rw [schedule, ht]; rfl⟩

/-! ### Every schedule in reach moves forward -/

/-- A schedule that the macro reads moves forward exactly if it is daily, or an interval that is not zero and
    ends in the range of the calendar; and where the schedules of a loop do so at each of its readings,
    whatever their order, no entry fires twice for an instant. -/
theorem moves_forward (entries : List ScheduleEntry) (haccepted : ∀ entry ∈ entries, Accepted entry.cadence) :
    (∀ entry ∈ entries, ∀ now, InRange now → (MovesForward entry.cadence now ↔ InReach entry.cadence now)) ∧
      ∀ nows, (∀ now ∈ nows, InRange now ∧ ∀ entry ∈ entries, InReach entry.cadence now) →
        FiresOnce entries nows := by
  have hiff : ∀ entry ∈ entries, ∀ now, InRange now → (MovesForward entry.cadence now ↔ InReach entry.cadence now) :=
    fun entry hentry now hrange => movesForward_iff (haccepted entry hentry) hrange
  refine ⟨hiff, fun nows hnows => firesOnce_of_forward fun now hnow cadence hcadence => ?_⟩
  obtain ⟨entry, hentry, rfl⟩ := List.mem_map.mp hcadence
  obtain ⟨hrange, hreach⟩ := hnows now hnow
  exact ((hiff entry hentry now hrange).mpr (hreach entry hentry)).later

theorem inRange_of_le {now : ℤ} (h : 0 ≤ now ∧ now ≤ dayNanos) : InRange now := by
  simp only [dayNanos] at h
  exact inRange_iff.mpr (by omega)

/-- `daily "03:00"`, over two readings a day apart. -/
theorem moves_forward_daily :
    FiresOnce [⟨"reminder".toList, 1, .daily 3 0, 10800 * 10 ^ 9⟩] [20000 * 10 ^ 9, 86400 * 10 ^ 9] := by
  have hread : parseCadence "daily".toList "03:00".toList = .ok (.daily 3 0) := by decide +kernel
  refine (moves_forward _ fun entry hentry => ?_).2 _ fun now hnow => ⟨inRange_of_le ?_, ?_⟩
  · rw [List.mem_singleton.mp hentry]
    exact ⟨_, _, hread⟩
  · simp only [List.mem_cons, List.not_mem_nil, or_false, dayNanos] at hnow ⊢
    rcases hnow with rfl | rfl <;> norm_num
  · intro entry hentry
    rw [List.mem_singleton.mp hentry]
    exact nofun

/-- `every "0s"` is read, does not move, and fires twice for one instant; an interval of 2^63 - 1 seconds is read,
    and panics. -/
theorem zero_interval_stands :
    parseCadence "every".toList "0s".toList = .ok (.every 0) ∧ InRange 0 ∧
      computeNextFire (.every 0) 0 = some 0 ∧
      schedule [] "reminder".toList 1 (.every 0) 0 = some [⟨"reminder".toList, 1, .every 0, 0⟩] ∧
      firedAt [⟨"reminder".toList, 1, .every 0, 0⟩] [0, 0] 0 = [(0, 0)] ∧
      firedAt [⟨"reminder".toList, 1, .every 0, 0⟩] [0, 0] 1 = [(0, 0)] ∧
      ¬ FiresOnce [⟨"reminder".toList, 1, .every 0, 0⟩] [0, 0] ∧
      parseCadence "every".toList "9223372036854775807s".toList = .ok (.every 9223372036854775807) ∧
      computeNextFire (.every 9223372036854775807) 0 = none := by
  have hnext : computeNextFire (.every 0) 0 = some 0 := by decide +kernel
  have hfirst : firedAt [⟨"reminder".toList, 1, .every 0, 0⟩] [0, 0] 0 = [(0, 0)] := by decide +kernel
  have hsecond : firedAt [⟨"reminder".toList, 1, .every 0, 0⟩] [0, 0] 1 = [(0, 0)] := by decide +kernel
  refine ⟨by decide +kernel, inRange_of_le (by decide), hnext, by rw [schedule, hnext]; rfl, hfirst, hsecond, ?_,
    by decide +kernel, by decide +kernel⟩
  intro h
  have hlt := h.apart 0 1 one_pos 0 0 0 (by rw [hfirst]; simp) (by rw [hsecond]; simp)
  exact absurd hlt (lt_irrefl _)

end Arcature.Jobs.Scheduler
