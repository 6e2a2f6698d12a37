import Arcature.Lib.Tasks

/-! The count of live connections (`realtime/registry.rs`).

    Connections share one counter. `acquire` and the drop of a guard each load it and then exchange it, which
    fails if another task came in between, or for no reason at all, and is then tried again from the load:

        acquire max   load ── at max ──▶ refused
                      load ── below ──▶ exchange current → current + 1 ──▶ a guard
        drop          load ── zero ──▶ nothing to take away
                      load ── above ──▶ exchange current → current - 1
        drain bound   load ── above ──▶ wait, load, …  ── zero or bound ──▶ load, report

    Under every schedule the counter is the number of guards, so that a drop never finds it at zero, no task is
    refused while there is room for it, and of the guards that were admitted under a limit of `m` or less there
    are never more than `m` (`counted`). The sum `current + 1` is at most `max`, within the counter's range. -/

namespace Arcature.Realtime
open Arcature.Lib

/-- Where a task is. The limit of a guard is the one it was admitted under; no code reads it. -/
inductive Place where
  | acquiring (max : ℕ)
  | loaded (max current : ℕ)
  | refused
  | holding (max : ℕ)
  | dropping (max : ℕ)
  | dropLoaded (max current : ℕ)
  | floored
  | released
  | draining
  | waitingForZero
  | reporting
  | drained (remaining : ℕ)
  deriving DecidableEq

/-- What a task calls. -/
inductive Call where
  | acquire (max : ℕ)
  | drain

/-- Where a call starts. -/
def Call.start : Call → Place
  | .acquire max => .acquiring max
  | .drain => .draining

/-- One access to the counter. The scheduler may let a weak exchange fail, and a wait run into its bound. -/
def access (live : ℕ) : Place → Bool → ℕ × Place
  | .acquiring max, _ => if live ≥ max then (live, .refused) else (live, .loaded max live)
  | .loaded max current, fails =>
    if live = current ∧ fails = false then (current + 1, .holding max) else (live, .acquiring max)
  | .holding max, _ => (live, .dropping max)
  | .dropping max, _ => if live = 0 then (live, .floored) else (live, .dropLoaded max live)
  | .dropLoaded max current, fails =>
    if live = current ∧ fails = false then (current - 1, .released) else (live, .dropping max)
  | .draining, _ => if live = 0 then (live, .drained 0) else (live, .waitingForZero)
  | .waitingForZero, elapsed => if live = 0 ∨ elapsed = true then (live, .reporting) else (live, .waitingForZero)
  | .reporting, _ => (live, .drained live)
  | place, _ => (live, place)

/-- The registry, from its default. -/
def registry : Program ℕ Place Call Bool := ⟨0, Call.start, access⟩

/-! ### The vocabulary of the property -/

/-- The limit of the guard a task owns. -/
def Place.guardLimit : Place → Option ℕ
  | .holding max | .dropping max | .dropLoaded max _ => some max
  | _ => none

/-- The task owns a guard. -/
def Place.owns (place : Place) : Bool := place.guardLimit.isSome

/-- The task owns a guard that was admitted under a limit of `m` or less. -/
def Place.ownsWithin (m : ℕ) (place : Place) : Bool := place.guardLimit.any (· ≤ m)

/-- How many guards are out. -/
def guards (s : Tasks ℕ Place) : ℕ := s.places.countP Place.owns

/-- A step that takes a task from one place to another. -/
def Moves (place place' : Place) (s : Tasks ℕ Place) (e : Turn Call Bool) : Prop :=
  ∃ i x, e = .step i x ∧ s.places[i]? = some place ∧ (registry.turn s e).places[i]? = some place'

/-- What the counter, and the answers that are read off it, say of the guards. -/
structure Counted (es : List (Turn Call Bool)) : Prop where
  live : (registry.tasks.run es).memory = guards (registry.tasks.run es)
  floor : .floored ∉ (registry.tasks.run es).places
  limit : ∀ m, (registry.tasks.run es).places.countP (Place.ownsWithin m) ≤ m
  refused : ∀ i max, registry.tasks.Fires es i (Moves (.acquiring max) .refused) →
    registry.tasks.Fires es i fun s _ => max ≤ guards s
  admitted : ∀ i max current, registry.tasks.Fires es i (Moves (.loaded max current) (.holding max)) →
    registry.tasks.Fires es i fun s _ => guards s < max
  drained : ∀ i place remaining, registry.tasks.Fires es i (Moves place (.drained remaining)) →
    place = .drained remaining ∨ registry.tasks.Fires es i fun s _ => guards s = remaining

/-! ### One access -/

/-- What a task has learnt from its loads. -/
def Knows : Place → Prop
  | .loaded max current => current < max
  | .dropLoaded _ current => current ≠ 0
  | .floored => False
  | _ => True

theorem kept : registry.Kept (fun _ => True) (fun _ => Knows) id Place.owns where
  init := trivial
  zero := rfl
  start _ a _ := by cases a <;> exact trivial
  free a := by cases a <;> rfl
  memory _ _ _ _ _ _ := trivial
  place live place x _ hknows hpos := by
    cases place <;> simp only [registry, access]
    case dropping max =>
      -- the guard is one of those counted
      have hlive : live ≠ 0 := (hpos rfl).ne'
      rw [if_neg hlive]
      exact hlive
    all_goals first | exact hknows | (split_ifs <;> simp_all [Knows])
  rely _ _ _ _ _ _ _ hother := hother
  count live place x _ hknows hpos := by
    cases place <;> simp only [registry, access, id]
    case dropping max =>
      have hlive : live ≠ 0 := (hpos rfl).ne'
      rw [if_neg hlive]
      rfl
    case dropLoaded max current =>
      have hcurrent : current ≠ 0 := hknows
      split_ifs with hexchange
      · obtain ⟨rfl, -⟩ := hexchange
        simp [Place.owns, Place.guardLimit]
        omega
      · rfl
    case loaded max current =>
      split_ifs with hexchange
      · obtain ⟨rfl, -⟩ := hexchange
        rfl
      · rfl
    all_goals first | rfl | (split_ifs <;> rfl)

/-- Every owner within `m` is an owner. -/
theorem countP_ownsWithin_le (m : ℕ) (places : List Place) :
    places.countP (Place.ownsWithin m) ≤ places.countP Place.owns := by
  refine List.countP_mono_left fun place _ h => ?_
  rw [Place.ownsWithin] at h
  rw [Place.owns]
  cases hlimit : place.guardLimit with
  | none => simp [hlimit] at h
  | some limit => rfl

/-- A guard keeps its limit, and a new one is within its own. -/
theorem guardLimit_access (live : ℕ) (x : Bool) {place : Place} (hknows : Knows place) :
    (access live place x).2.guardLimit = place.guardLimit ∨ (access live place x).2.guardLimit = none ∨
      ∃ max, (access live place x).2.guardLimit = some max ∧ live < max ∧ place.guardLimit = none := by
  cases place <;> simp only [access]
  case loaded max current =>
    split_ifs with hexchange
    · obtain ⟨rfl, -⟩ := hexchange
      exact .inr (.inr ⟨max, rfl, hknows, rfl⟩)
    · exact .inl rfl
  all_goals first | exact .inl rfl | exact .inl trivial | (split_ifs <;> first | exact .inl rfl | exact .inr (.inl rfl))

/-- There is room within a limit, whatever the limits of the others. -/
theorem limit_run (m : ℕ) (es : List (Turn Call Bool)) :
    (registry.tasks.run es).places.countP (Place.ownsWithin m) ≤ m := by
  induction es using List.reverseRecOn with
  | nil => simp
  | append_singleton es e ih =>
    obtain ⟨-, hknows, hlive⟩ := Program.Kept.run kept es
    rw [Machine.run_concat, Program.next_tasks]
    rcases registry.turn_cases (registry.tasks.run es) e with
      ⟨a, -, hturn⟩ | ⟨i, x, place, -, hplace, hturn⟩ | ⟨-, -, -, -, hturn⟩
    · rw [hturn, List.countP_append, List.countP_singleton]
      cases a <;> simpa [registry, Call.start, Place.ownsWithin, Place.guardLimit] using ih
    · rw [hturn]
      have hset := Program.countP_set (Place.ownsWithin m) (access (registry.tasks.run es).memory place x).2 hplace
      change List.countP _ (List.set _ i (access (registry.tasks.run es).memory place x).2) ≤ m
      rcases guardLimit_access (registry.tasks.run es).memory x
        (hknows place (List.mem_of_getElem? hplace)) with hsame | hnone | ⟨max, hmax, hroom, hfree⟩
      · simp only [Place.ownsWithin, hsame] at hset ih ⊢
        omega
      · simp only [Place.ownsWithin, hnone, Option.any_none, Bool.toNat_false] at hset ih ⊢
        omega
      · -- the new guard is within `m` only if all guards together left room below `m`
        have hall := countP_ownsWithin_le m (registry.tasks.run es).places
        simp only [Place.ownsWithin, hmax, hfree, Option.any_none, Option.any_some, Bool.toNat_false]
          at hset hall ih ⊢
        change (registry.tasks.run es).memory = _ at hlive
        by_cases hm : max ≤ m
        · simp only [hm, decide_true, Bool.toNat_true] at hset
          omega
        · simp only [hm, decide_false, Bool.toNat_false] at hset
          omega
    · rw [hturn]
      exact ih

/-! ### The property -/

/-- A move is one access. -/
theorem moves_iff {place place' : Place} {s : Tasks ℕ Place} {e : Turn Call Bool} :
    Moves place place' s e ↔
      ∃ i x, e = .step i x ∧ s.places[i]? = some place ∧ (access s.memory place x).2 = place' := by
  constructor
  · rintro ⟨i, x, rfl, hplace, hmoved⟩
    rw [registry.getElem?_turn hplace x] at hmoved
    exact ⟨i, x, rfl, hplace, Option.some.inj hmoved⟩
  · rintro ⟨i, x, rfl, hplace, rfl⟩
    exact ⟨i, x, rfl, hplace, registry.getElem?_turn hplace x⟩

/-- What an access shows of the counter it shows of the guards. -/
theorem fires_of_moves {es : List (Turn Call Bool)} {i : ℕ} {place place' : Place} {Q : ℕ → Prop}
    (hQ : ∀ live x, Knows place → (access live place x).2 = place' → Q live)
    (h : registry.tasks.Fires es i (Moves place place')) : registry.tasks.Fires es i fun s _ => Q (guards s) := by
  obtain ⟨e, he, hmoves⟩ := h
  obtain ⟨j, x, -, hplace, hmoved⟩ := moves_iff.mp hmoves
  obtain ⟨-, hknows, hlive⟩ := Program.Kept.run kept (es.take i)
  have hread := hQ _ x (hknows place (List.mem_of_getElem? hplace)) hmoved
  rw [show (registry.tasks.run (es.take i)).memory = _ from hlive] at hread
  exact ⟨e, he, hread⟩

/-- Under every schedule the counter is the number of guards: a drop never finds it at zero, a limit is kept by
    the guards admitted under it, a refused task met a full registry, and a drain reports what is out. -/
theorem counted (es : List (Turn Call Bool)) : Counted es where
  live := (Program.Kept.run kept es).2.2
  floor hmem := (Program.Kept.run kept es).2.1 _ hmem
  limit m := limit_run m es
  refused i max h := by
    refine fires_of_moves (Q := fun live => max ≤ live) (fun live x _ hmoved => ?_) h
    simp only [access] at hmoved
    split_ifs at hmoved with hfull
    exact hfull
  admitted i max current h := by
    refine fires_of_moves (Q := fun live => live < max) (fun live x hknows hmoved => ?_) h
    simp only [access] at hmoved
    split_ifs at hmoved with hexchange
    rw [hexchange.1]
    exact hknows
  drained i place remaining h := by
    by_cases hplace : place = .drained remaining
    · exact .inl hplace
    · refine .inr (fires_of_moves (Q := fun live => live = remaining) (fun live x _ hmoved => ?_) h)
      cases place <;> simp only [access] at hmoved
      case draining =>
        split_ifs at hmoved with hzero
        rw [hzero]
        exact Place.drained.inj hmoved
      case reporting => exact Place.drained.inj hmoved
      case drained => exact absurd hmoved hplace
      all_goals first | cases hmoved | (split_ifs at hmoved)

end Arcature.Realtime
