import Arcature.Lib.Tasks

/-! The drain signal of live connections (`realtime/shutdown.rs`).

    `begin_drain` sets a flag and, if it was the one to set it, wakes whoever waits. A connection that wants to
    know subscribes first and reads the flag afterwards:

        begin_drain      swap draining ── was set ──▶ returns
                                       ── was clear ──▶ notify_waiters ──▶ returns
        drain_notified   notified() ──▶ load draining ── set ──▶ ready
                                                      ── clear ──▶ wait for a `notify_waiters` since notified()

    A waiter is woken by the calls of `notify_waiters` made after it subscribed, whether or not it was being
    polled when they were made. The wake-up is made at most once, never before the flag is set, and never lost:
    from the wake-up on, a task that subscribes or has subscribed is ready within two of its own steps,
    whatever the other tasks do (`announced`). -/

namespace Arcature.Realtime
open Arcature.Lib

/-- `draining`, and how many times `notify_waiters` was called on `drain_notify`. -/
structure DrainSignal where
  draining : Bool
  calls : ℕ
  deriving DecidableEq

/-- Where a task is. A subscription remembers how many calls were made before it. -/
inductive Stage where
  | beginDrain
  | notifying
  | returned
  | drainNotified
  | subscribed (seen : ℕ)
  | waiting (seen : ℕ)
  | ready
  deriving DecidableEq

/-- What a task calls. -/
inductive DrainCall where
  | beginDrain
  | drainNotified

/-- Where a call starts. -/
def DrainCall.start : DrainCall → Stage
  | .beginDrain => .beginDrain
  | .drainNotified => .drainNotified

/-- One access to the flag or to the `Notify`. -/
def advance (s : DrainSignal) : Stage → Unit → DrainSignal × Stage
  | .beginDrain, _ => if s.draining then (s, .returned) else ({ s with draining := true }, .notifying)
  | .notifying, _ => ({ s with calls := s.calls + 1 }, .returned)
  | .drainNotified, _ => (s, .subscribed s.calls)
  | .subscribed seen, _ => if s.draining then (s, .ready) else (s, .waiting seen)
  | .waiting seen, _ => if s.calls = seen then (s, .waiting seen) else (s, .ready)
  | stage, _ => (s, stage)

/-- The signal of a `ShutdownConfig`, as `new` makes it. -/
def shutdown : Program DrainSignal Stage DrainCall Unit := ⟨⟨false, 0⟩, DrainCall.start, advance⟩

/-! ### The vocabulary of the property -/

/-- The task has set the flag and has still to wake the waiters. -/
def Stage.notifies (stage : Stage) : Bool := stage = .notifying

/-- The task is in `drain_notified`. -/
def Stage.Subscribes : Stage → Prop
  | .drainNotified | .subscribed _ | .waiting _ | .ready => True
  | _ => False

/-- What a schedule makes of the signal. In `wakes` the flag is set and no task has still to wake the waiters. -/
structure Announced (before : List (Turn DrainCall Unit)) : Prop where
  once : (shutdown.tasks.run before).memory.calls ≤ 1
  begun : .returned ∈ (shutdown.tasks.run before).places → (shutdown.tasks.run before).memory.draining = true
  ready : .ready ∈ (shutdown.tasks.run before).places → (shutdown.tasks.run before).memory.draining = true
  wakes : (shutdown.tasks.run before).memory.draining = true → .notifying ∉ (shutdown.tasks.run before).places →
    ∀ i stage, (shutdown.tasks.run before).places[i]? = some stage → stage.Subscribes →
      ∀ after, 2 ≤ after.countP (Turn.isOf i) →
        (shutdown.tasks.run (before ++ after)).places[i]? = some .ready

/-! ### One access -/

/-- Only the task that set the flag calls, and it calls once. -/
def DrainSignal.Sound (s : DrainSignal) : Prop := s.calls ≤ 1 ∧ (s.draining = false → s.calls = 0)

/-- How many calls are still to come. -/
def DrainSignal.owed (s : DrainSignal) : ℕ := s.draining.toNat - s.calls

/-- What a task knows of the signal. -/
def Stage.Knows (s : DrainSignal) : Stage → Prop
  | .notifying | .returned | .ready => s.draining = true
  | .subscribed seen => seen ≤ s.calls
  | .waiting seen => seen = 0
  | _ => True

theorem kept_shutdown : shutdown.Kept DrainSignal.Sound Stage.Knows DrainSignal.owed Stage.notifies where
  init := ⟨Nat.zero_le _, fun _ => rfl⟩
  zero := rfl
  start _ a _ := by cases a <;> exact trivial
  free a := by cases a <;> rfl
  memory s stage _ hsound hknows hpos := by
    obtain ⟨hone, hclear⟩ := hsound
    cases stage <;> simp only [shutdown, advance]
    case notifying =>
      have howed : 0 < s.owed := hpos rfl
      have hset : s.draining = true := hknows
      rw [DrainSignal.owed, hset, Bool.toNat_true] at howed
      exact ⟨by dsimp only; omega, fun hclear => by simp [hset] at hclear⟩
    case beginDrain =>
      split_ifs with hset
      · exact ⟨hone, hclear⟩
      · exact ⟨hone, fun hclear => by simp at hclear⟩
    all_goals first | exact ⟨hone, hclear⟩ | (split_ifs <;> exact ⟨hone, hclear⟩)
  place s stage _ hsound hknows hpos := by
    obtain ⟨hone, hclear⟩ := hsound
    cases stage <;> simp only [shutdown, advance]
    case beginDrain =>
      split_ifs with hset
      · exact hset
      · rfl
    case notifying => exact hknows
    case drainNotified => exact le_rfl
    case subscribed seen =>
      split_ifs with hset
      · exact hset
      · have hnone := hclear (by simpa using hset)
        have hseen : seen ≤ s.calls := hknows
        change seen = 0
        omega
    case waiting seen =>
      split_ifs with hcalls
      · exact hknows
      · have hseen : seen = 0 := hknows
        change s.draining = true
        by_contra hunset
        exact hcalls ((hclear (by simpa using hunset)).trans hseen.symm)
    all_goals exact hknows
  rely s stage _ other hsound hknows hpos hother := by
    cases stage <;> simp only [shutdown, advance]
    case beginDrain =>
      split_ifs with hset
      · exact hother
      · cases other <;> first | exact hother | rfl
    case notifying =>
      cases other <;> first | exact hother | exact Nat.le_succ_of_le hother
    all_goals first | exact hother | (split_ifs <;> exact hother)
  count s stage _ hsound hknows hpos := by
    obtain ⟨hone, hclear⟩ := hsound
    cases stage <;> simp only [shutdown, advance]
    case beginDrain =>
      split_ifs with hset
      · rfl
      · have hnone := hclear (by simpa using hset)
        simp [DrainSignal.owed, Stage.notifies, hset, hnone]
    case notifying =>
      have howed : 0 < s.owed := hpos rfl
      simp only [DrainSignal.owed] at howed ⊢
      simp [Stage.notifies]
      omega
    all_goals first | rfl | (split_ifs <;> rfl)

/-! ### After the wake-up -/

/-- How many steps a task in `drain_notified` has left once the wake-up was made. -/
def Stage.left : Stage → ℕ
  | .drainNotified => 2
  | .subscribed _ | .waiting _ => 1
  | _ => 0

/-- The wake-up was made, and no task has another to make. -/
def Woken (s : Tasks DrainSignal Stage) : Prop :=
  Program.Holds DrainSignal.Sound Stage.Knows DrainSignal.owed Stage.notifies s ∧
    s.memory.draining = true ∧ s.memory.calls = 1

/-- No task is about to make one. -/
theorem Woken.quiet {s : Tasks DrainSignal Stage} (h : Woken s) {i : ℕ} {stage : Stage}
    (hstage : s.places[i]? = some stage) : stage ≠ .notifying := by
  obtain ⟨⟨-, -, hcount⟩, hset, hcalls⟩ := h
  rintro rfl
  have hpos : 0 < s.places.countP Stage.notifies := Program.countP_pos_of_getElem? hstage rfl
  rw [← hcount, DrainSignal.owed, hset, hcalls] at hpos
  exact absurd hpos (lt_irrefl 0)

/-- The signal does not change any more. -/
theorem Woken.fixed {s : Tasks DrainSignal Stage} (h : Woken s) {i : ℕ} {stage : Stage}
    (hstage : s.places[i]? = some stage) (x : Unit) : (advance s.memory stage x).1 = s.memory := by
  have hquiet := h.quiet hstage
  obtain ⟨-, hset, -⟩ := h
  cases stage <;> simp only [advance]
  case notifying => exact absurd rfl hquiet
  case beginDrain => rw [if_pos hset]
  all_goals split_ifs <;> rfl

/-- The signal is sound under every schedule, and every task knows what it relies on. -/
theorem holds_shutdown (es : List (Turn DrainCall Unit)) :
    Program.Holds DrainSignal.Sound Stage.Knows DrainSignal.owed Stage.notifies (shutdown.tasks.run es) :=
  Program.Kept.run kept_shutdown es

theorem bounded_shutdown : shutdown.Bounded Woken (fun s stage => stage.Subscribes ∧ stage.Knows s)
    fun _ stage => stage.left where
  turn s e h := by
    refine ⟨Program.Kept.turn kept_shutdown e h.1, ?_⟩
    rcases shutdown.turn_cases s e with ⟨a, -, hturn⟩ | ⟨i, x, stage, -, hstage, hturn⟩ | ⟨-, -, -, -, hturn⟩
    · rw [hturn]
      exact h.2
    · rw [hturn]
      dsimp only
      rw [show (shutdown.act s.memory stage x).1 = s.memory from h.fixed hstage x]
      exact h.2
    · rw [hturn]
      exact h.2
  own s i stage x h hstage hI := by
    have hfixed := h.fixed hstage x
    obtain ⟨-, hset, hcalls⟩ := h
    obtain ⟨hsubscribes, hknows⟩ := hI
    change ((advance s.memory stage x).2.Subscribes ∧ (advance s.memory stage x).2.Knows (advance s.memory stage x).1) ∧
      (advance s.memory stage x).2.left ≤ stage.left - 1
    rw [hfixed]
    cases stage <;> simp only [advance]
    case drainNotified => exact ⟨⟨trivial, le_rfl⟩, le_rfl⟩
    case subscribed seen =>
      rw [if_pos hset]
      exact ⟨⟨trivial, hset⟩, le_rfl⟩
    case waiting seen =>
      have hseen : seen = 0 := hknows
      rw [if_neg (by omega)]
      exact ⟨⟨trivial, hset⟩, le_rfl⟩
    case ready => exact ⟨⟨trivial, hset⟩, le_rfl⟩
    all_goals cases hsubscribes
  other s i stage x stage' h hstage hI := by
    rw [show (shutdown.act s.memory stage x).1 = s.memory from h.fixed hstage x]
    exact ⟨hI, le_rfl⟩

/-! ### The property -/

/-- Under every schedule waiters are woken once at most, not before a drain has begun, and from then on each is
    ready within two of its own steps. -/
theorem announced (before : List (Turn DrainCall Unit)) : Announced before where
  once := (holds_shutdown before).1.1
  begun hmem := (holds_shutdown before).2.1 _ hmem
  ready hmem := (holds_shutdown before).2.1 _ hmem
  wakes hset hquiet i stage hstage hsubscribes after hsteps := by
    have hholds := holds_shutdown before
    have hcalls : (shutdown.tasks.run before).memory.calls = 1 := by
      have hnone : (shutdown.tasks.run before).places.countP Stage.notifies = 0 := by
        refine List.countP_eq_zero.mpr fun stage hmem hnotifies => hquiet ?_
        rwa [← of_decide_eq_true hnotifies]
      have howed := hholds.2.2
      have hone := hholds.1.1
      rw [hnone, DrainSignal.owed, hset, Bool.toNat_true] at howed
      omega
    obtain ⟨-, stage', hstage', ⟨hsubscribes', -⟩, hleft⟩ :=
      Program.Bounded.run bounded_shutdown ⟨hholds, hset, hcalls⟩ hstage
        ⟨hsubscribes, hholds.2.1 _ (List.mem_of_getElem? hstage)⟩ after
    have hbound : stage.left ≤ 2 := by cases stage <;> simp [Stage.left]
    have hzero : stage'.left = 0 := by omega
    rw [hstage']
    cases stage' <;>
      first | rfl | exact (hsubscribes' : False).elim | simp [Stage.left] at hzero

end Arcature.Realtime
