import Arcature.Jobs.Queue
import Arcature.Lib.Clock

/-! The worker's configuration (`jobs/config.rs`) against the lease that `jobs/claim.rs` and
    `jobs/complete.rs` store. The invariants are checked on durations in nanoseconds; the column
    holds whole seconds, at most `i32::MAX` of them.

        configured   |────────── lease ──────────|
        stored       |────── whole seconds ──|xxx    dropped
        validate     a timeout or a heartbeat may still fall into what is dropped -/

namespace Arcature.Jobs
open Arcature.Lib

/-- `Duration::from_secs`. -/
def fromSecs (n : ℕ) : Duration := n * 10 ^ 9

/-- `Duration::from_millis`. -/
def fromMillis (n : ℕ) : Duration := n * 10 ^ 6

/-- `as_secs`: the whole seconds of a duration. -/
def wholeSecs (d : Duration) : ℕ := d / 10 ^ 9

/-- The worker's tuning knobs. -/
structure WorkerConfig where
  concurrency : ℕ
  pollInterval : Duration
  lease : Duration
  pollBatch : ℤ
  sweepInterval : Duration
  sweepBatch : ℤ
  jobTimeout : Duration
  heartbeatInterval : Option Duration
  deriving DecidableEq

namespace WorkerConfig

/-- `Default`. -/
def default : WorkerConfig where
  concurrency := 8
  pollInterval := fromMillis 200
  lease := fromSecs 300
  pollBatch := 8
  sweepInterval := fromSecs 30
  sweepBatch := 64
  jobTimeout := fromSecs 60
  heartbeatInterval := none

/-- The floor each builder puts under its argument. -/
def atLeast {α : Type} [LT α] [DecidableLT α] (floor d : α) : α := if d < floor then floor else d

/-- One builder call. -/
inductive Setter where
  | concurrency (n : ℕ)
  | pollInterval (d : Duration)
  | lease (d : Duration)
  | pollBatch (n : ℤ)
  | sweepInterval (d : Duration)
  | sweepBatch (n : ℤ)
  | jobTimeout (d : Duration)
  | heartbeatInterval (d : Duration)

/-- What a builder call makes of the configuration. -/
def set (c : WorkerConfig) : Setter → WorkerConfig
  | .concurrency n => { c with concurrency := atLeast 1 n }
  | .pollInterval d => { c with pollInterval := atLeast (fromMillis 1) d }
  | .lease d => { c with lease := atLeast (fromSecs 1) d }
  | .pollBatch n => { c with pollBatch := atLeast 1 n }
  | .sweepInterval d => { c with sweepInterval := atLeast (fromMillis 1) d }
  | .sweepBatch n => { c with sweepBatch := atLeast 1 n }
  | .jobTimeout d => { c with jobTimeout := atLeast (fromMillis 1) d }
  | .heartbeatInterval d => { c with heartbeatInterval := some (atLeast (fromMillis 1) d) }

/-- The configuration a chain of builder calls leaves. -/
def build (calls : List Setter) : WorkerConfig := calls.foldl set default

/-- The interval a running job is refreshed at: the one that was set, or a third of the lease. -/
def effectiveHeartbeatInterval (c : WorkerConfig) : Duration :=
  match c.heartbeatInterval with
  | some v => v
  | none => atLeast (fromMillis 1) (c.lease / 3)

/-- `WorkerConfigError`. -/
inductive ConfigError where
  | jobTimeoutExceedsLease (jobTimeout lease : Duration)
  | heartbeatIntervalNotBelowLease (heartbeatInterval lease : Duration)
  deriving DecidableEq

/-- `validate`. -/
def validate (c : WorkerConfig) : Except ConfigError Unit :=
  if c.lease < c.jobTimeout then .error (.jobTimeoutExceedsLease c.jobTimeout c.lease)
  else if c.lease ≤ c.effectiveHeartbeatInterval then
    .error (.heartbeatIntervalNotBelowLease c.effectiveHeartbeatInterval c.lease)
  else .ok ()

/-- `lease_seconds`: what a claim and a heartbeat write for the configured lease. -/
def storedLease (c : WorkerConfig) : ℤ := leaseSeconds (wholeSecs c.lease)

/-! ### What the builders keep -/

theorem le_atLeast (floor d : ℕ) : floor ≤ atLeast floor d := by
  unfold atLeast
  split_ifs with h
  · exact le_rfl
  · exact Nat.le_of_not_lt h

/-- The floors of the builders that the lease arithmetic rests on. -/
structure Floored (c : WorkerConfig) : Prop where
  lease : fromSecs 1 ≤ c.lease
  jobTimeout : fromMillis 1 ≤ c.jobTimeout

theorem Floored.set {c : WorkerConfig} (h : Floored c) (call : Setter) : Floored (c.set call) := by
  cases call with
  | lease d => exact ⟨le_atLeast _ d, h.jobTimeout⟩
  | jobTimeout d => exact ⟨h.lease, le_atLeast _ d⟩
  | concurrency _ | pollInterval _ | pollBatch _ | sweepInterval _ | sweepBatch _
  | heartbeatInterval _ => exact ⟨h.lease, h.jobTimeout⟩

/-- The heartbeat comes before, and the timeout not after, the end of the lease the row holds. -/
def Fits (c : WorkerConfig) : Prop :=
  (c.effectiveHeartbeatInterval : ℤ) < c.storedLease * 1000 * 10 ^ 6 ∧
    (c.jobTimeout : ℤ) ≤ c.storedLease * 1000 * 10 ^ 6

/-- A time into the lease that the column still counts: before the last, started second of the lease
    and within the column's range. -/
def Counted (c : WorkerConfig) (d : Duration) : Prop :=
  wholeSecs d ≠ wholeSecs c.lease ∧ wholeSecs d < 2 ^ 31 - 1

instance (c : WorkerConfig) : Decidable (Fits c) := inferInstanceAs (Decidable (_ ∧ _))

end WorkerConfig

end Arcature.Jobs
