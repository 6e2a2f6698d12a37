import Arcature.Jobs.Fencing

/-! The worker around the queue: what a claimed job passes through (`jobs/worker.rs`), and the pure
    decision its completion is (`jobs/complete.rs`).

    A claimed job waits in its worker's loop for a concurrency permit. With the permit it is handed
    to its handler; without one, on shutdown, it is given back. Either way at most one statement
    goes out for it, fenced on the token of the claim. Whatever holds a job can die with it.

        claim ──▶ waiting ──start──▶ running ──complete | panic──▶ mark_succeeded, mark_retry, mark_dead
                     ├──release──▶ release_claim
                     └──unknown──▶ mark_dead -/

namespace Arcature.Jobs
open Arcature.Lib

/-! ### The completion decision -/

/-- The error a handler returns, with the text of what it wraps. -/
inductive JobError where
  | retryable (inner : Str)
  | permanent (inner : Str)

namespace JobError

/-- `Display`. -/
def display : JobError → Str
  | retryable inner => "retryable: ".toList ++ inner
  | permanent inner => "permanent: ".toList ++ inner

def isPermanent : JobError → Bool
  | retryable _ => false
  | permanent _ => true

/-- The message stored in `last_error`. -/
def storedMessage (e : JobError) : Str := truncateForStorage e.display

end JobError

/-- The attempt count and the max attempts. -/
structure JobState where
  attempts : ℤ
  maxAttempts : ℤ

/-- The outcome of running the handler. -/
inductive DispatchOutcome where
  | succeeded
  | malformed
  | timeout
  | handlerError (err : JobError)

/-- The decision made by `decide`. -/
inductive Outcome where
  | succeeded
  | retry (availableAt : Time)
  | dead (errorKind : ErrorKind) (message : Str)

/-- `decide`. The delay is what the retry policy draws for this attempt. -/
def JobState.decide (state : JobState) (dispatch : DispatchOutcome) (delay : ℕ) (now : Time) :
    Outcome :=
  match dispatch with
  | .succeeded => .succeeded
  | .malformed => .dead .malformed "payload did not deserialize to the registered schema".toList
  | .timeout =>
    if state.attempts ≥ state.maxAttempts then
      .dead .timeout ("job exceeded its per-attempt timeout after ".toList ++
        (toString state.attempts).toList ++ " attempt(s)".toList)
    else .retry (now + delay)
  | .handlerError err =>
    if err.isPermanent then .dead .permanent err.storedMessage
    else if state.attempts ≥ state.maxAttempts then .dead .exhausted err.storedMessage
    else .retry (now + delay)

/-! ### The statement a dispatch issues -/

/-- A UUID in its hyphenated form. -/
def Uuid.text (id : Uuid) : Str :=
  let hex := (List.range 32).map fun i => Nat.digitChar (id.toNat / 16 ^ (31 - i) % 16)
  ['-'].intercalate [hex.take 8, (hex.drop 8).take 4, (hex.drop 12).take 4, (hex.drop 16).take 4,
    hex.drop 20]

/-- The message a retry stores. -/
def retryMessage (job : ClaimedJob) (timeoutSecs : ℕ) : DispatchOutcome → Str
  | .handlerError err => err.storedMessage
  | .timeout =>
    "job ".toList ++ Uuid.text job.id ++ " exceeded its ".toList ++ (toString timeoutSecs).toList ++
      "s timeout".toList
  | _ => []

/-- How a dispatch persists its outcome, at the worker's `clock` and the server's `now`. -/
def persist (job : ClaimedJob) (dispatch : DispatchOutcome) (timeoutSecs delay : ℕ)
    (clock now : Time) : Stmt :=
  match JobState.decide ⟨job.attempts, job.maxAttempts⟩ dispatch delay clock with
  | .succeeded => .markSucceeded job.id job.claimToken now
  | .retry availableAt =>
    .markRetry job.id job.claimToken availableAt (retryMessage job timeoutSecs dispatch) now
  | .dead errorKind message => .markDead job.id job.claimToken errorKind message now

/-- The message of a job no handler is registered for, from the quoted text of its kind. -/
def unknownMessage (job : ClaimedJob) (quotedKind : Str) : Str :=
  "no handler registered for kind ".toList ++ quotedKind ++ " version ".toList ++
    (toString job.version).toList

/-- What a panicking handler leaves in `last_error`. -/
def panicMessage : Str := "handler panicked".toList

/-! ### The table and the workers as one machine -/

/-- The table, the jobs claimed but not started, and the jobs handed to a handler. -/
structure Fleet where
  table : JobTable
  waiting : List ClaimedJob
  running : List ClaimedJob

/-- One atomic step of a worker, a sweeper, an administrator or the outside world. -/
inductive Event where
  | enqueue (id : Uuid) (kind : String) (version : ℤ) (payload : String) (maxAttempts : ℤ)
      (runAt now : Time)
  | claim (worker : String) (token : Uuid) (leaseSecs : ℕ) (batch : ℤ) (now : Time)
      (locked : List Uuid)
  | start (job : ClaimedJob)
  | unknown (job : ClaimedJob) (quotedKind : Str) (now : Time)
  | release (job : ClaimedJob) (now : Time)
  | heartbeat (job : ClaimedJob) (lease : Lease) (now : Time)
  | complete (job : ClaimedJob) (dispatch : DispatchOutcome) (timeoutSecs delay : ℕ)
      (clock now : Time)
  | panic (job : ClaimedJob) (now : Time)
  | crash (job : ClaimedJob)
  | sweepDead (batch : ℤ) (now : Time) (locked : List Uuid)
  | sweepRequeue (batch : ℤ) (now : Time) (locked : List Uuid)
  | cancel (id : Uuid) (now : Time)
  | requeueDead (id : Uuid) (now : Time)

/-- The statement an event issues, if it is enabled and issues one. -/
def Event.stmt (s : Fleet) : Event → Option Stmt
  | .enqueue id kind version payload maxAttempts runAt now =>
    some (.insert id kind version payload maxAttempts runAt now)
  | .claim worker token leaseSecs batch now locked =>
    some (.claim worker token leaseSecs batch now locked)
  | .start _ | .crash _ => none
  | .unknown job quotedKind now =>
    if job ∈ s.waiting then
      some (.markDead job.id job.claimToken .unknown (unknownMessage job quotedKind) now)
    else none
  | .release job now =>
    if job ∈ s.waiting then some (.releaseClaim job.id job.claimToken now) else none
  | .heartbeat job lease now =>
    if job ∈ s.running then some (.heartbeat job.id job.claimToken lease now) else none
  | .complete job dispatch timeoutSecs delay clock now =>
    if job ∈ s.running then some (persist job dispatch timeoutSecs delay clock now) else none
  | .panic job now =>
    if job ∈ s.running then some (.markDead job.id job.claimToken .panic panicMessage now) else none
  | .sweepDead batch now locked => some (.sweepDead batch now locked)
  | .sweepRequeue batch now locked => some (.sweepRequeue batch now locked)
  | .cancel id now => some (.cancel id now)
  | .requeueDead id now => some (.requeueDead id now)

/-- Where the jobs stand after an event, given what its statement answered. -/
def Event.move (s : Fleet) : Event → Option Answer → Fleet
  | .claim .., some (.claimed jobs) => { s with waiting := s.waiting ++ jobs }
  | .start job, _ =>
    if job ∈ s.waiting then { s with waiting := s.waiting.erase job, running := job :: s.running }
    else s
  | .unknown job .., _ | .release job _, _ => { s with waiting := s.waiting.erase job }
  | .complete job .., _ | .panic job _, _ => { s with running := s.running.erase job }
  | .crash job, _ => { s with waiting := s.waiting.erase job, running := s.running.erase job }
  | _, _ => s

/-- One event: its statement, then the worker's bookkeeping. -/
def Fleet.step (s : Fleet) (e : Event) : Fleet × Option Answer :=
  match e.stmt s with
  | none => (e.move s none, none)
  | some st =>
    let (table, answer) := exec s.table st
    (e.move { s with table } (some answer), some answer)

/-- The fleet, from an empty table and idle workers. -/
def fleet : Machine Fleet Event (Option Answer) := ⟨⟨Table.empty, [], []⟩, Fleet.step⟩

/-- The token a claim generates. -/
def Event.freshToken : Event → Option Uuid
  | .claim _ token _ _ _ _ => some token
  | _ => none

end Arcature.Jobs
