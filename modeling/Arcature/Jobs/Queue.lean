import Mathlib.Data.List.Sort
import Arcature.Lib.Machine
import Arcature.Lib.Table
import Arcature.Lib.Text

/-! The durable job queue: the `arcature_jobs` table and the statements run against it
    (`jobs/dialect/postgres.rs`, with the mutations of `jobs/complete.rs`, `jobs/claim.rs`,
    `jobs/enqueue.rs`, the release of `jobs/worker.rs` and the message cut of `jobs/error.rs`).

    A statement is a function of the table and of what it binds. The server's clock reading is one
    of the binds, as is the set of rows other transactions hold locked, which `SKIP LOCKED` steps
    over. A statement that would break the primary key, a `CHECK` or the range of an integer column
    fails and leaves the table as it was.

        pending ──claim──▶ running ──▶ succeeded | pending (retry, release, sweep) | dead | cancelled -/

namespace Arcature.Jobs
open Arcature.Lib

/-- A version-4 UUID: a job id or a claim token. -/
abbrev Uuid := BitVec 128

instance : LawfulBEq Uuid := inferInstance

/-- An instant of the server's clock, in microseconds. -/
abbrev Time := ℤ

/-- The lifecycle status of a job. -/
inductive JobStatus where | pending | running | succeeded | dead | cancelled
  deriving DecidableEq, Repr

/-- The kind of a permanent failure. -/
inductive ErrorKind where | permanent | exhausted | malformed | unknown | panic | timeout
  deriving DecidableEq, Repr

/-- How a kind is spelled in `last_error_kind`. -/
def ErrorKind.asStr : ErrorKind → String
  | .permanent => "permanent"
  | .exhausted => "exhausted"
  | .malformed => "malformed"
  | .unknown => "unknown"
  | .panic => "panic"
  | .timeout => "timeout"

/-- One row of `arcature_jobs`. -/
structure Row where
  id : Uuid
  kind : String
  version : ℤ
  payload : String
  status : JobStatus
  attempts : ℤ
  maxAttempts : ℤ
  runAt : Time
  availableAt : Time
  lockedAt : Option Time
  lockedBy : Option String
  leaseSeconds : ℤ
  lastError : Option Str
  lastErrorKind : Option String
  failedAt : Option Time
  claimToken : Option Uuid
  createdAt : Time
  updatedAt : Time
  deriving DecidableEq

/-- The largest value of an `INTEGER` column. -/
def i32Max : ℤ := 2 ^ 31 - 1

/-- The `CHECK` constraints of the table, and the ranges of its integer columns. -/
def Row.check (r : Row) : Bool :=
  0 ≤ r.attempts && r.attempts ≤ i32Max && 1 ≤ r.maxAttempts && r.maxAttempts ≤ i32Max &&
    1 ≤ r.version && r.version ≤ 2 ^ 15 - 1 && 1 ≤ r.leaseSeconds && r.leaseSeconds ≤ i32Max

/-- `id` is the primary key. -/
abbrev schema : Schema Row Uuid := ⟨Row.id, Row.check⟩

/-- The job table. -/
abbrev JobTable := Table schema

/-! ### Enqueue and claim -/

/-- The most bytes of an error message the table keeps before the ellipsis. -/
def lastErrorMaxBytes : ℕ := 4096

/-- The loop that walks a cut back to a character boundary. -/
def floorBoundary (value : Str) : ℕ → ℕ
  | 0 => 0
  | k + 1 => if value.isCharBoundary (k + 1) then k + 1 else floorBoundary value k

/-- Truncate a message for `last_error`, on a character boundary, with an ellipsis. -/
def truncateForStorage (value : Str) : Str :=
  if value.len ≤ lastErrorMaxBytes then value
  else value.sliceTo (floorBoundary value lastErrorMaxBytes) ++ ['.', '.', '.']

/-- A lease in whole seconds, clamped to what `lease_seconds` can hold. -/
def leaseSeconds (leaseSecs : ℕ) : ℤ := min (leaseSecs : ℤ) i32Max

/-- `INSERT`, with the columns' defaults. -/
def insert (t : JobTable) (id : Uuid) (kind : String) (version : ℤ) (payload : String)
    (maxAttempts : ℤ) (runAt now : Time) : Option JobTable :=
  t.insert?
    { id, kind, version, payload, status := .pending, attempts := 0, maxAttempts, runAt,
      availableAt := runAt, lockedAt := none, lockedBy := none, leaseSeconds := 300,
      lastError := none, lastErrorKind := none, failedAt := none, claimToken := none,
      createdAt := now, updatedAt := now }

/-- A job as a claim hands it out. -/
structure ClaimedJob where
  id : Uuid
  claimToken : Uuid
  kind : String
  version : ℤ
  payload : String
  attempts : ℤ
  maxAttempts : ℤ
  leaseSeconds : ℤ
  deriving DecidableEq

/-- `ORDER BY available_at, id`. -/
def pickOrder (r r' : Row) : Prop :=
  r.availableAt < r'.availableAt ∨ (r.availableAt = r'.availableAt ∧ r.id ≤ r'.id)

instance : DecidableRel pickOrder := fun _ _ => inferInstanceAs (Decidable (_ ∨ _))

/-- The subquery of `CLAIM`: pending, due, not locked elsewhere; oldest first, at most `limit`. -/
def claimPick (t : JobTable) (now : Time) (locked : List Uuid) (limit : ℕ) : List Row :=
  ((t.rows.filter fun r => r.status = .pending && r.availableAt ≤ now && r.id ∉ locked).insertionSort
    pickOrder).take limit

/-- The `SET` list of `CLAIM`. -/
def claimSet (worker : String) (token : Uuid) (lease : ℤ) (now : Time) : SetList schema where
  fn r :=
    { r with
      status := .running, attempts := r.attempts + 1, lockedBy := some worker, lockedAt := some now,
      claimToken := some token, leaseSeconds := lease, lastError := none, lastErrorKind := none,
      updatedAt := now }
  key _ := rfl

/-- The `RETURNING` list of `CLAIM`, read from the updated row. -/
def returning (token : Uuid) (r : Row) : ClaimedJob :=
  ⟨r.id, token, r.kind, r.version, r.payload, r.attempts, r.maxAttempts, r.leaseSeconds⟩

/-- `CLAIM`: one `UPDATE .. RETURNING` over the picked rows. A negative `LIMIT` is an error. -/
def claim (t : JobTable) (worker : String) (token : Uuid) (leaseSecs : ℕ) (batch : ℤ) (now : Time)
    (locked : List Uuid) : Option (JobTable × List ClaimedJob) :=
  if batch < 0 then none
  else
    let picked := claimPick t now locked batch.toNat
    let set := claimSet worker token (leaseSeconds leaseSecs) now
    (t.update? (fun r => r.id ∈ picked.map Row.id) set).map fun t' =>
      (t', picked.map fun r => returning token (set.fn r))

/-! ### The fenced mutations -/

/-- Whether a completion updated the row or was fenced out. -/
inductive ClaimTransition where | updated | lost
  deriving DecidableEq, Repr

/-- Read off the affected-row count. -/
def ClaimTransition.fromAffected (rows : ℕ) : ClaimTransition :=
  if rows > 0 then .updated else .lost

/-- The fence: `id = ? AND status = 'running' AND claim_token = ?`. -/
def fence (id token : Uuid) (r : Row) : Bool :=
  r.id = id && (r.status = .running && r.claimToken = some token)

/-- `MARK_SUCCEEDED`. -/
def succeededSet (now : Time) : SafeSetList schema where
  fn r :=
    { r with
      status := .succeeded, lockedBy := none, lockedAt := none, claimToken := none,
      lastError := none, lastErrorKind := none, failedAt := none, updatedAt := now }
  key _ := rfl
  check _ h := h

/-- `MARK_RETRY`. -/
def retrySet (availableAt : Time) (message : Str) (now : Time) : SafeSetList schema where
  fn r :=
    { r with
      status := .pending, availableAt, lockedBy := none, lockedAt := none, claimToken := none,
      lastError := some message, lastErrorKind := some "retryable", failedAt := none,
      updatedAt := now }
  key _ := rfl
  check _ h := h

/-- `MARK_DEAD`. -/
def deadSet (message : Str) (errorKind : ErrorKind) (now : Time) : SafeSetList schema where
  fn r :=
    { r with
      status := .dead, lockedBy := none, lockedAt := none, claimToken := none,
      lastError := some message, lastErrorKind := some errorKind.asStr, failedAt := some now,
      updatedAt := now }
  key _ := rfl
  check _ h := h

/-- `RELEASE_CLAIM`, and the `SET` list `SWEEP_REQUEUE` shares with it. -/
def releaseSet (now : Time) : SafeSetList schema where
  fn r :=
    { r with
      status := .pending, availableAt := now, lockedBy := none, lockedAt := none, claimToken := none,
      updatedAt := now }
  key _ := rfl
  check _ h := h

/-- `mark_succeeded`. -/
def markSucceeded (t : JobTable) (id token : Uuid) (now : Time) : JobTable × ClaimTransition :=
  (t.modify (fence id token) (succeededSet now),
    .fromAffected (t.affected (fence id token)))

/-- `mark_retry`, which truncates the message it is given. -/
def markRetry (t : JobTable) (id token : Uuid) (availableAt : Time) (message : Str) (now : Time) :
    JobTable × ClaimTransition :=
  (t.modify (fence id token) (retrySet availableAt (truncateForStorage message) now),
    .fromAffected (t.affected (fence id token)))

/-- `mark_dead`, which truncates the message it is given. -/
def markDead (t : JobTable) (id token : Uuid) (errorKind : ErrorKind) (message : Str) (now : Time) :
    JobTable × ClaimTransition :=
  (t.modify (fence id token) (deadSet (truncateForStorage message) errorKind now),
    .fromAffected (t.affected (fence id token)))

/-- A lease a worker's configuration can hold: the builder floors it at one second. -/
structure Lease where
  secs : ℕ
  pos : 1 ≤ secs

/-- `HEARTBEAT`. -/
def heartbeatSet (lease : Lease) (now : Time) : SafeSetList schema where
  fn r := { r with lockedAt := some now, leaseSeconds := leaseSeconds lease.secs, updatedAt := now }
  key _ := rfl
  check r h := by
    have hl := lease.pos
    simp only [Row.check, Bool.and_eq_true, decide_eq_true_eq] at h ⊢
    refine ⟨⟨h.1.1, ?_⟩, min_le_right _ _⟩
    rw [leaseSeconds, le_min_iff]
    exact ⟨by exact_mod_cast hl, by decide⟩

/-- `heartbeat`: whether the lease was refreshed. -/
def heartbeat (t : JobTable) (id token : Uuid) (lease : Lease) (now : Time) : JobTable × Bool :=
  (t.modify (fence id token) (heartbeatSet lease now), t.affected (fence id token) > 0)

/-- `release_claim`. -/
def releaseClaim (t : JobTable) (id token : Uuid) (now : Time) : JobTable :=
  t.modify (fence id token) (releaseSet now)

/-! ### Sweeps and the administrative statements -/

/-- A running row whose lease has elapsed on the server's clock. -/
def expired (now : Time) (r : Row) : Bool :=
  r.status = .running && match r.lockedAt with
    | none => false
    | some at' => at' + r.leaseSeconds * 1000000 < now

/-- The rows a sweep's subquery picks: at most `limit` of those that satisfy `p`, minus the locked. -/
def sweepPick (t : JobTable) (p : Row → Bool) (locked : List Uuid) (limit : ℕ) : List Uuid :=
  ((t.rows.filter fun r => p r && r.id ∉ locked).take limit).map Row.id

/-- The eligibility of `SWEEP_DEAD`. -/
def exhausted (now : Time) (r : Row) : Bool := expired now r && r.maxAttempts ≤ r.attempts

/-- The eligibility of `SWEEP_REQUEUE`. -/
def requeueable (now : Time) (r : Row) : Bool := expired now r && r.attempts < r.maxAttempts

/-- The `SET` list of `SWEEP_DEAD`. -/
def sweepDeadSet (now : Time) : SafeSetList schema where
  fn r :=
    { r with
      status := .dead, lockedBy := none, lockedAt := none, claimToken := none,
      lastError := some "job exhausted its max_attempts after a crash".toList,
      lastErrorKind := some "exhausted", failedAt := some now, updatedAt := now }
  key _ := rfl
  check _ h := h

/-- `SWEEP_DEAD`. A negative `LIMIT` is an error. -/
def sweepDead (t : JobTable) (batch : ℤ) (now : Time) (locked : List Uuid) : Option (JobTable × ℕ) :=
  if batch < 0 then none
  else
    let p := fun r : Row => decide (r.id ∈ sweepPick t (exhausted now) locked batch.toNat)
    some (t.modify p (sweepDeadSet now), t.affected p)

/-- `SWEEP_REQUEUE`. A negative `LIMIT` is an error. -/
def sweepRequeue (t : JobTable) (batch : ℤ) (now : Time) (locked : List Uuid) :
    Option (JobTable × ℕ) :=
  if batch < 0 then none
  else
    let p := fun r : Row => decide (r.id ∈ sweepPick t (requeueable now) locked batch.toNat)
    some (t.modify p (releaseSet now), t.affected p)

/-- The `SET` list of `CANCEL`. -/
def cancelSet (now : Time) : SafeSetList schema where
  fn r :=
    { r with
      status := .cancelled, lockedBy := none, lockedAt := none, claimToken := none, updatedAt := now }
  key _ := rfl
  check _ h := h

/-- The `WHERE` of `CANCEL`. -/
def cancellable (id : Uuid) (r : Row) : Bool :=
  r.id = id && (r.status = .pending || r.status = .running)

/-- `cancel`. -/
def cancel (t : JobTable) (id : Uuid) (now : Time) : JobTable × ℕ :=
  (t.modify (cancellable id) (cancelSet now),
    t.affected (cancellable id))

/-- The `SET` list of `REQUEUE_DEAD`. -/
def requeueSet (now : Time) : SafeSetList schema where
  fn r :=
    { r with
      status := .pending, attempts := 0, availableAt := now, lockedBy := none, lockedAt := none,
      claimToken := none, lastError := none, lastErrorKind := none, failedAt := none,
      updatedAt := now }
  key _ := rfl
  check r h := by
    simp only [Row.check, Bool.and_eq_true, decide_eq_true_eq] at h ⊢
    obtain ⟨⟨⟨⟨⟨⟨_, hmin⟩, hmax⟩, hvmin⟩, hvmax⟩, hlmin⟩, hlmax⟩ := h
    exact ⟨⟨⟨⟨⟨⟨⟨le_refl (0 : ℤ), by decide⟩, hmin⟩, hmax⟩, hvmin⟩, hvmax⟩, hlmin⟩, hlmax⟩

/-- The `WHERE` of `REQUEUE_DEAD`. -/
def isDead (id : Uuid) (r : Row) : Bool := r.id = id && r.status = .dead

/-- `requeue_dead`. -/
def requeueDead (t : JobTable) (id : Uuid) (now : Time) : JobTable × ℕ :=
  (t.modify (isDead id) (requeueSet now), t.affected (isDead id))

/-! ### The queue as a machine -/

/-- One atomic statement, with what it binds and the server time it runs at. -/
inductive Stmt where
  | insert (id : Uuid) (kind : String) (version : ℤ) (payload : String) (maxAttempts : ℤ)
      (runAt now : Time)
  | claim (worker : String) (token : Uuid) (leaseSecs : ℕ) (batch : ℤ) (now : Time)
      (locked : List Uuid)
  | markSucceeded (id token : Uuid) (now : Time)
  | markRetry (id token : Uuid) (availableAt : Time) (message : Str) (now : Time)
  | markDead (id token : Uuid) (errorKind : ErrorKind) (message : Str) (now : Time)
  | heartbeat (id token : Uuid) (lease : Lease) (now : Time)
  | releaseClaim (id token : Uuid) (now : Time)
  | sweepDead (batch : ℤ) (now : Time) (locked : List Uuid)
  | sweepRequeue (batch : ℤ) (now : Time) (locked : List Uuid)
  | cancel (id : Uuid) (now : Time)
  | requeueDead (id : Uuid) (now : Time)

/-- What a statement answers. -/
inductive Answer where
  | enqueued (id : Uuid)
  | claimed (jobs : List ClaimedJob)
  | transition (c : ClaimTransition)
  | refreshed (b : Bool)
  | released
  | affected (rows : ℕ)
  | error
  deriving DecidableEq

/-- Run one statement. -/
def exec (t : JobTable) : Stmt → JobTable × Answer
  | .insert id kind version payload maxAttempts runAt now =>
    match insert t id kind version payload maxAttempts runAt now with
    | some t' => (t', .enqueued id)
    | none => (t, .error)
  | .claim worker token leaseSecs batch now locked =>
    match claim t worker token leaseSecs batch now locked with
    | some (t', jobs) => (t', .claimed jobs)
    | none => (t, .error)
  | .markSucceeded id token now =>
    let (t', c) := markSucceeded t id token now
    (t', .transition c)
  | .markRetry id token availableAt message now =>
    let (t', c) := markRetry t id token availableAt message now
    (t', .transition c)
  | .markDead id token errorKind message now =>
    let (t', c) := markDead t id token errorKind message now
    (t', .transition c)
  | .heartbeat id token lease now =>
    let (t', b) := heartbeat t id token lease now
    (t', .refreshed b)
  | .releaseClaim id token now => (releaseClaim t id token now, .released)
  | .sweepDead batch now locked =>
    match sweepDead t batch now locked with
    | some (t', n) => (t', .affected n)
    | none => (t, .error)
  | .sweepRequeue batch now locked =>
    match sweepRequeue t batch now locked with
    | some (t', n) => (t', .affected n)
    | none => (t, .error)
  | .cancel id now =>
    let (t', n) := cancel t id now
    (t', .affected n)
  | .requeueDead id now =>
    let (t', n) := requeueDead t id now
    (t', .affected n)

/-- The queue, from an empty table. -/
def queue : Machine JobTable Stmt Answer := ⟨Table.empty, exec⟩

end Arcature.Jobs
