import Arcature.Jobs.Dispatch
import Arcature.Jobs.WorkerConfig

/-! The run loop of a worker, and its shutdown (`run_loop` of `jobs/worker.rs`).

    The loop claims a batch, and starts its jobs one after the other, each under a permit. A cancellation may
    come at any await; where both a permit and the cancellation are there, `select!` takes either:

        top ──▶ sweep, if due ──▶ claim ── none ──▶ sleep ──▶ top
         │                          └─ jobs ──▶ look ── running ──▶ acquire ── permit ──▶ spawn ──▶ next
         │                                        └─ cancelled ──▶ release ◀── cancelled ┘
         └─ cancelled ──▶ join what is in flight ──▶ return

    The tasks in flight, other workers, sweepers and administrators run statements of their own in between. No
    claimed job is lost or started twice, no more jobs are in flight than the configuration allows, at most one
    is started after the cancellation, the loop gets to its end within a bounded number of steps, and when it
    has returned it holds no row: each claim was completed or given back, or lost to the database (`worksOff`). -/

namespace Arcature.Jobs
open Arcature.Lib

/-- Where the loop is: the job in hand, and the rest of the batch. -/
inductive Point where
  | top
  | sweeping
  | requeueing
  | claiming
  | sleeping
  | looking (job : ClaimedJob) (rest : List ClaimedJob)
  | acquiring (job : ClaimedJob) (rest : List ClaimedJob)
  | releasing (job : ClaimedJob) (rest : List ClaimedJob)
  | joining
  | returned
  | failed (left : List ClaimedJob)
  deriving DecidableEq

/-- The jobs of the batch the loop has not disposed of. -/
def Point.jobs : Point → List ClaimedJob
  | .looking job rest | .acquiring job rest | .releasing job rest => job :: rest
  | .failed left => left
  | _ => []

/-- The next turn of `for job in claimed`, or the end of it. -/
def Point.next : List ClaimedJob → Point
  | [] => .top
  | job :: rest => .looking job rest

/-- What the loop has done so far; no code reads it. -/
structure LoopLog where
  claimed : List ClaimedJob
  started : List ClaimedJob
  released : List ClaimedJob
  finished : List ClaimedJob
  lost : List ClaimedJob

/-- The table, the cancellation token, the loop, and the jobs its tasks dispatch. -/
structure Loop where
  table : JobTable
  cancelled : Bool
  point : Point
  inFlight : List ClaimedJob
  log : LoopLog

/-- What is not up to the loop: the clocks, the rows locked elsewhere, the token it draws, an error of the
    database, and what `select!` takes where it has the choice. -/
structure LoopChance where
  due : Bool
  elapsed : Bool
  prefers : Bool
  broken : Bool
  token : Uuid
  now : Time
  locked : List Uuid

/-- How a dispatch ends; `broken` is an error of the database in place of the completion. -/
inductive Finish where
  | outcome (dispatch : DispatchOutcome) (timeoutSecs delay : ℕ) (clock : Time)
  | unknown (quotedKind : Str)
  | panic
  | broken

/-- The completion was not made. -/
def Finish.isBroken : Finish → Bool
  | .broken => true
  | _ => false

/-- One event of a schedule. A statement that took effect though its answer was lost is one from outside. -/
inductive LoopEvent where
  | loop (x : LoopChance)
  | finish (job : ClaimedJob) (how : Finish) (now : Time)
  | beat (job : ClaimedJob) (lease : Lease) (now : Time)
  | outside (st : Stmt)
  | cancel

/-- The statement a dispatch ends with. -/
def Finish.stmt (job : ClaimedJob) (now : Time) : Finish → Option Stmt
  | .outcome dispatch timeoutSecs delay clock => some (persist job dispatch timeoutSecs delay clock now)
  | .unknown quotedKind => some (.markDead job.id job.claimToken .unknown (unknownMessage job quotedKind) now)
  | .panic => some (.markDead job.id job.claimToken .panic panicMessage now)
  | .broken => none

section Steps

variable (config : WorkerConfig) (worker : String)

/-- The statement of the loop's own step. -/
def Point.stmt (x : LoopChance) : Point → Option Stmt
  | .sweeping => if x.broken then none else some (.sweepDead config.sweepBatch x.now x.locked)
  | .requeueing => if x.broken then none else some (.sweepRequeue config.sweepBatch x.now x.locked)
  | .claiming =>
    if x.broken then none
    else some (.claim worker x.token (wholeSecs config.lease) config.pollBatch x.now x.locked)
  | .releasing job _ => if x.broken then none else some (.releaseClaim job.id job.claimToken x.now)
  | _ => none

/-- The statement an event issues, if it is enabled and issues one. -/
def Loop.stmt (s : Loop) : LoopEvent → Option Stmt
  | .loop x => s.point.stmt config worker x
  | .finish job how now => if job ∈ s.inFlight then how.stmt job now else none
  | .beat job lease now => if job ∈ s.inFlight then some (.heartbeat job.id job.claimToken lease now) else none
  | .outside st => some st
  | .cancel => none

/-- The loop's own step, given what its statement answered. The errors of a sweep are dropped. -/
def Loop.advance (s : Loop) (x : LoopChance) (answer : Option Answer) : Loop :=
  match s.point with
  | .top => { s with point := if s.cancelled then .joining else if x.due then .sweeping else .claiming }
  | .sweeping => { s with point := if x.broken then .claiming else .requeueing }
  | .requeueing => { s with point := .claiming }
  | .claiming =>
    match answer with
    | some (.claimed []) => { s with point := .sleeping }
    | some (.claimed (job :: rest)) =>
      { s with point := .looking job rest, log := { s.log with claimed := s.log.claimed ++ job :: rest } }
    | _ => { s with point := .failed [] }
  | .sleeping =>
    if x.elapsed ∧ (s.cancelled = false ∨ x.prefers) then { s with point := .top }
    else if s.cancelled then { s with point := .joining }
    else s
  | .looking job rest => { s with point := if s.cancelled then .releasing job rest else .acquiring job rest }
  | .acquiring job rest =>
    if s.inFlight.length < config.concurrency ∧ (s.cancelled = false ∨ x.prefers) then
      { s with
        point := .next rest, inFlight := job :: s.inFlight
        log := { s.log with started := s.log.started ++ [job] } }
    else if s.cancelled then { s with point := .releasing job rest }
    else s
  | .releasing job rest =>
    if x.broken then { s with point := .failed (job :: rest) }
    else { s with point := .next rest, log := { s.log with released := s.log.released ++ [job] } }
  | .joining => if s.inFlight = [] then { s with point := .returned } else s
  | .returned | .failed _ => s

/-- What an event makes of the worker, given what its statement answered. -/
def Loop.move (s : Loop) (answer : Option Answer) : LoopEvent → Loop
  | .loop x => s.advance config x answer
  | .finish job how _ =>
    if job ∈ s.inFlight then
      { s with
        inFlight := s.inFlight.erase job
        log := { s.log with
          finished := s.log.finished ++ [job], lost := if how.isBroken then job :: s.log.lost else s.log.lost } }
    else s
  | .beat .. | .outside _ => s
  | .cancel => { s with cancelled := true }

/-- One event: its statement, then the worker's bookkeeping. -/
def Loop.step (s : Loop) (e : LoopEvent) : Loop × Option Stmt :=
  match s.stmt config worker e with
  | none => (s.move config none e, none)
  | some st => ({ s with table := (exec s.table st).1 }.move config (some (exec s.table st).2) e, some st)

/-- A worker with a valid configuration, from an empty table. -/
def workerLoop : Machine Loop LoopEvent (Option Stmt) :=
  ⟨⟨Table.empty, false, .top, [], ⟨[], [], [], [], []⟩⟩, Loop.step config worker⟩

/-- The statements a schedule issues. -/
def issued (es : List LoopEvent) : List Stmt := ((workerLoop config worker).trace es).filterMap Prod.snd

/-! ### The vocabulary of the property -/

/-- The loop has nothing left to start or to give back. -/
def Point.isLeaving : Point → Bool
  | .joining | .returned | .failed _ => true
  | _ => false

/-- A step of the loop itself. -/
def LoopEvent.isLoop : LoopEvent → Bool
  | .loop _ => true
  | _ => false

/-- What a schedule makes of the claimed jobs. -/
structure WorksOff (es : List LoopEvent) : Prop where
  claimed : ((workerLoop config worker).run es).log.claimed.Perm
    (((workerLoop config worker).run es).point.jobs ++ ((workerLoop config worker).run es).log.started ++
      ((workerLoop config worker).run es).log.released)
  started : ((workerLoop config worker).run es).log.started.Perm
    (((workerLoop config worker).run es).inFlight ++ ((workerLoop config worker).run es).log.finished)
  permits : ((workerLoop config worker).run es).inFlight.length ≤ config.concurrency
  lastStart : ∀ i, ((workerLoop config worker).run (es.take i)).cancelled = true →
    ((workerLoop config worker).run es).log.started.length ≤
      ((workerLoop config worker).run (es.take i)).log.started.length + 1
  leaves : ∀ i, ((workerLoop config worker).run (es.take i)).cancelled = true →
    2 * config.pollBatch.toNat + 5 ≤ (es.drop i).countP LoopEvent.isLoop →
    ((workerLoop config worker).run es).point.isLeaving = true
  settled : ((workerLoop config worker).run es).point = .returned →
    ((workerLoop config worker).run es).inFlight = [] ∧
      ∀ job ∈ ((workerLoop config worker).run es).log.claimed,
        Held job.id job.claimToken ((workerLoop config worker).run es).table →
          job ∈ ((workerLoop config worker).run es).log.lost

end Steps

/-! ### What the statements answer -/

theorem length_claimed {t : JobTable} {worker : String} {token : Uuid} {leaseSecs : ℕ} {batch : ℤ} {now : Time}
    {locked : List Uuid} {jobs : List ClaimedJob}
    (h : (exec t (.claim worker token leaseSecs batch now locked)).2 = .claimed jobs) :
    jobs.length ≤ batch.toNat ∧ ∀ job ∈ jobs, job.claimToken = token := by
  simp only [exec] at h
  cases hclaim : claim t worker token leaseSecs batch now locked with
  | none => simp [hclaim] at h
  | some p =>
    rw [hclaim] at h
    obtain rfl := Answer.claimed.inj h
    rw [(claim_eq_some hclaim).1]
    constructor
    · rw [List.length_map, claimPick, List.length_take]
      exact min_le_left _ _
    · intro job hjob
      obtain ⟨r, -, rfl⟩ := List.mem_map.mp hjob
      rfl

/-- A completion is fenced on the claim of its job. -/
theorem fencedOn_finish {job : ClaimedJob} {now : Time} {how : Finish} {st : Stmt} (h : how.stmt job now = some st) :
    st.fencedOn = some (job.id, job.claimToken) ∧ st.takesAway = true := by
  cases how with
  | outcome dispatch timeoutSecs delay clock =>
    obtain rfl := Option.some.inj h
    unfold persist
    split <;> exact ⟨rfl, rfl⟩
  | unknown quotedKind =>
    obtain rfl := Option.some.inj h
    exact ⟨rfl, rfl⟩
  | panic =>
    obtain rfl := Option.some.inj h
    exact ⟨rfl, rfl⟩
  | broken => cases h

/-- A statement fenced on the claim that holds a row takes it away. -/
theorem disturbs_of_held {st : Stmt} {id token : Uuid} {t : JobTable} (hf : st.fencedOn = some (id, token))
    (haway : st.takesAway = true) (h : Held id token t) : Disturbs id t st := by
  obtain ⟨r, hr, hrunning, htoken⟩ := h
  refine .inr ⟨haway, r, hr, ?_⟩
  have hkey : r.id = id := Table.key_of_get? hr
  rw [hits_of_fencedOn hf, fence, hkey, hrunning, htoken]
  simp

/-! ### What every event keeps -/

section Kept

variable {config : WorkerConfig} {worker : String}

@[simp] theorem jobs_next (rest : List ClaimedJob) : (Point.next rest).jobs = rest := by
  cases rest <;> rfl

/-- The jobs are accounted for, and there are no more of them than there may be. -/
structure Loop.Sound (config : WorkerConfig) (s : Loop) : Prop where
  claimed : ∀ a, s.log.claimed.count a = s.point.jobs.count a + s.log.started.count a + s.log.released.count a
  started : ∀ a, s.log.started.count a = s.inFlight.count a + s.log.finished.count a
  permits : s.inFlight.length ≤ config.concurrency
  batch : s.point.jobs.length ≤ config.pollBatch.toNat

/-- The answer is one that a claim of the batch size gives. -/
def Answered (config : WorkerConfig) (answer : Option Answer) : Prop :=
  ∀ jobs, answer = some (.claimed jobs) → jobs.length ≤ config.pollBatch.toNat

theorem Loop.Sound.advance {s : Loop} (h : s.Sound config) (x : LoopChance) {answer : Option Answer}
    (hanswer : s.point = .claiming → Answered config answer) : (s.advance config x answer).Sound config := by
  obtain ⟨table, cancelled, point, inFlight, log⟩ := s
  obtain ⟨hclaimed, hstarted, hpermits, hbatch⟩ := h
  dsimp only at hclaimed hstarted hpermits hbatch hanswer
  -- where the jobs of the batch stay what they are
  have hkeep : ∀ point', point'.jobs = point.jobs → Loop.Sound config ⟨table, cancelled, point', inFlight, log⟩ :=
    fun point' hjobs => ⟨by simpa [hjobs] using hclaimed, hstarted, hpermits, by simpa [hjobs] using hbatch⟩
  cases point with
  | top | sweeping =>
    refine hkeep _ ?_
    split_ifs <;> rfl
  | requeueing => exact hkeep _ rfl
  | claiming =>
    rcases answer with - | answer
    · exact hkeep _ rfl
    · cases answer with
      | claimed jobs =>
        cases jobs with
        | nil => exact hkeep _ rfl
        | cons job rest =>
          refine ⟨fun a => ?_, hstarted, hpermits, hanswer rfl _ rfl⟩
          have hold := hclaimed a
          simp only [Loop.advance, Point.jobs, List.count_append, List.count_nil] at hold ⊢
          omega
      | _ => exact hkeep _ rfl
  | sleeping =>
    simp only [Loop.advance]
    split_ifs <;> exact hkeep _ rfl
  | looking job rest =>
    refine hkeep _ ?_
    split_ifs <;> rfl
  | acquiring job rest =>
    simp only [Loop.advance]
    split_ifs with hpermit hcancelled
    · refine ⟨fun a => ?_, fun a => ?_, hpermit.1, ?_⟩
      · have hold := hclaimed a
        simp only [Point.jobs, List.count_cons] at hold
        simp only [jobs_next, List.count_append, List.count_cons, List.count_nil]
        omega
      · have hold := hstarted a
        simp only [List.count_append, List.count_cons, List.count_nil] at hold ⊢
        omega
      · simp only [Point.jobs, List.length_cons] at hbatch
        rw [jobs_next]
        omega
    · exact hkeep _ rfl
    · exact hkeep _ rfl
  | releasing job rest =>
    simp only [Loop.advance]
    split_ifs with hbroken
    · exact hkeep _ rfl
    · refine ⟨fun a => ?_, hstarted, hpermits, ?_⟩
      · have hold := hclaimed a
        simp only [Point.jobs, List.count_cons] at hold
        simp only [jobs_next, List.count_append, List.count_cons, List.count_nil]
        omega
      · simp only [Point.jobs, List.length_cons] at hbatch
        rw [jobs_next]
        omega
  | joining =>
    simp only [Loop.advance]
    split_ifs <;> exact hkeep _ rfl
  | returned => exact hkeep _ rfl
  | failed left => exact hkeep _ rfl

theorem Loop.Sound.move {s : Loop} (h : s.Sound config) (e : LoopEvent) {answer : Option Answer}
    (hanswer : ∀ x, e = .loop x → s.point = .claiming → Answered config answer) :
    (s.move config answer e).Sound config := by
  cases e with
  | loop x => exact h.advance x (hanswer x rfl)
  | finish job how now =>
    simp only [Loop.move]
    by_cases hmem : job ∈ s.inFlight
    · rw [if_pos hmem]
      obtain ⟨hclaimed, hstarted, hpermits, hbatch⟩ := h
      refine ⟨hclaimed, fun a => ?_, (List.length_erase_le ..).trans hpermits, hbatch⟩
      have hold := hstarted a
      have hpos := List.count_pos_iff.mpr hmem
      simp only [List.count_append, List.count_cons, List.count_nil, List.count_erase] at hold ⊢
      by_cases hja : job = a
      · subst hja
        simp only [beq_self_eq_true, if_true]
        omega
      · simp only [beq_iff_eq, hja, if_false]
        omega
    · rw [if_neg hmem]
      exact h
  | beat job lease now => exact h
  | outside st => exact h
  | cancel => exact ⟨h.claimed, h.started, h.permits, h.batch⟩

variable (config worker) in
/-- An event runs its statement, if it has one, and then keeps the books. -/
theorem next_cases (s : Loop) (e : LoopEvent) :
    (s.stmt config worker e = none ∧ (workerLoop config worker).next s e = s.move config none e) ∨
      ∃ st, s.stmt config worker e = some st ∧ (workerLoop config worker).next s e =
        ({ s with table := (exec s.table st).1 }.move config (some (exec s.table st).2) e) := by
  cases hst : s.stmt config worker e with
  | none => exact .inl ⟨rfl, by simp [workerLoop, Machine.next, Loop.step, hst]⟩
  | some st => exact .inr ⟨st, rfl, by simp [workerLoop, Machine.next, Loop.step, hst]⟩

/-- The statement of a loop that claims. -/
theorem answered_of_stmt {s : Loop} {x : LoopChance} {st : Stmt} (hst : s.stmt config worker (.loop x) = some st)
    (hpoint : s.point = .claiming) : Answered config (some (exec s.table st).2) := by
  intro jobs hjobs
  simp only [Loop.stmt, hpoint, Point.stmt] at hst
  split_ifs at hst
  obtain rfl := Option.some.inj hst
  exact (length_claimed (Option.some.inj hjobs)).1

theorem Loop.Sound.next {s : Loop} (h : s.Sound config) (e : LoopEvent) :
    ((workerLoop config worker).next s e).Sound config := by
  rcases next_cases config worker s e with ⟨-, hnext⟩ | ⟨st, hst, hnext⟩
  · rw [hnext]
    exact h.move e fun x _ _ jobs hjobs => by cases hjobs
  · rw [hnext]
    have htable : ({ s with table := (exec s.table st).1 } : Loop).Sound config :=
      ⟨h.claimed, h.started, h.permits, h.batch⟩
    refine htable.move e fun x he hpoint => ?_
    subst he
    exact answered_of_stmt hst hpoint

theorem sound_run (es : List LoopEvent) : ((workerLoop config worker).run es).Sound config :=
  (workerLoop config worker).inv
    ⟨fun _ => rfl, fun _ => rfl, Nat.zero_le _, Nat.zero_le _⟩ (fun _ e h => h.next e) es

/-- Nothing is in flight once the loop has returned. -/
def Loop.Joined (s : Loop) : Prop := s.point = .returned → s.inFlight = []

theorem Loop.Joined.move {s : Loop} (h : s.Joined) (e : LoopEvent) (answer : Option Answer) :
    (s.move config answer e).Joined := by
  cases e with
  | loop x =>
    obtain ⟨table, cancelled, point, inFlight, log⟩ := s
    cases point with
    | joining =>
      simp only [Loop.move, Loop.advance]
      split_ifs with hempty
      · exact fun _ => hempty
      · exact h
    | returned => exact h
    | claiming =>
      intro hreturned
      rcases answer with - | answer
      · cases hreturned
      · cases answer with
        | claimed jobs => cases jobs <;> cases hreturned
        | _ => cases hreturned
    | failed left => exact h
    | requeueing => intro hreturned; cases hreturned
    | top | sweeping | sleeping | looking =>
      intro hreturned
      simp only [Loop.move, Loop.advance] at hreturned
      split_ifs at hreturned
    | acquiring job rest | releasing job rest =>
      intro hreturned
      simp only [Loop.move, Loop.advance] at hreturned
      split_ifs at hreturned
      cases rest <;> cases hreturned
  | finish job how now =>
    simp only [Loop.move]
    by_cases hmem : job ∈ s.inFlight
    · rw [if_pos hmem]
      intro hreturned
      rw [h hreturned] at hmem
      cases hmem
    · rw [if_neg hmem]
      exact h
  | beat job lease now => exact h
  | outside st => exact h
  | cancel => exact h

theorem joined_run (es : List LoopEvent) : ((workerLoop config worker).run es).Joined := by
  refine (workerLoop config worker).inv (I := Loop.Joined) (fun h => ?_) (fun s e h => ?_) es
  · cases h
  · rcases next_cases config worker s e with ⟨-, hnext⟩ | ⟨st, -, hnext⟩
    · rw [hnext]
      exact h.move e none
    · rw [hnext]
      exact Loop.Joined.move (s := { s with table := (exec s.table st).1 }) h e _

/-! ### After the cancellation -/

/-- How many steps a cancelled loop has left. -/
def Point.left (batch : ℕ) : Point → ℕ
  | .sweeping => 2 * batch + 5
  | .requeueing => 2 * batch + 4
  | .claiming => 2 * batch + 3
  | .sleeping => 2
  | .top => 1
  | .looking _ rest | .acquiring _ rest => 2 * rest.length + 3
  | .releasing _ rest => 2 * rest.length + 2
  | .joining | .returned | .failed _ => 0

/-- The loop waits for a permit. -/
def Point.acquires : Point → Bool
  | .acquiring .. => true
  | _ => false

/-- What a cancelled loop has started, and the job it may still start. -/
def Loop.begun (s : Loop) : ℕ := s.log.started.length + s.point.acquires.toNat

theorem left_le {s : Loop} (h : s.Sound config) :
    s.point.left config.pollBatch.toNat ≤ 2 * config.pollBatch.toNat + 5 := by
  have hbatch := h.batch
  cases hpoint : s.point <;> rw [hpoint] at hbatch <;> simp only [Point.left, Point.jobs, List.length_cons] at hbatch ⊢ <;>
    omega

theorem isLeaving_of_left {batch : ℕ} {point : Point} (h : point.left batch = 0) : point.isLeaving = true := by
  cases point <;> first | rfl | simp [Point.left] at h

/-- What is left after the job in hand. -/
theorem left_next (batch : ℕ) (rest : List ClaimedJob) : (Point.next rest).left batch = 2 * rest.length + 1 := by
  cases rest with
  | nil => rfl
  | cons job rest => simp only [Point.next, Point.left, List.length_cons]; omega

theorem begun_next (table : JobTable) (cancelled : Bool) (rest inFlight : List ClaimedJob) (log : LoopLog) :
    Loop.begun ⟨table, cancelled, .next rest, inFlight, log⟩ = log.started.length := by
  cases rest <;> rfl

theorem left_advance {s : Loop} (h : s.Sound config) (hcancelled : s.cancelled = true) (x : LoopChance)
    {answer : Option Answer} (hanswer : s.point = .claiming → Answered config answer) :
    (s.advance config x answer).cancelled = true ∧
      (s.advance config x answer).point.left config.pollBatch.toNat ≤ s.point.left config.pollBatch.toNat - 1 ∧
        (s.advance config x answer).begun ≤ s.begun := by
  obtain ⟨table, cancelled, point, inFlight, log⟩ := s
  obtain ⟨-, -, -, hbatch⟩ := h
  dsimp only at hbatch hanswer hcancelled
  cases point with
  | top =>
    simp only [Loop.advance, if_pos hcancelled]
    exact ⟨hcancelled, le_rfl, le_rfl⟩
  | sweeping =>
    simp only [Loop.advance]
    split_ifs <;> exact ⟨hcancelled, by simp only [Point.left]; omega, le_rfl⟩
  | requeueing => exact ⟨hcancelled, le_rfl, le_rfl⟩
  | claiming =>
    rcases answer with - | answer
    · exact ⟨hcancelled, Nat.zero_le _, le_rfl⟩
    · cases answer with
      | claimed jobs =>
        cases jobs with
        | nil => exact ⟨hcancelled, by simp only [Loop.advance, Point.left]; omega, le_rfl⟩
        | cons job rest =>
          have hlength := hanswer rfl _ rfl
          rw [List.length_cons] at hlength
          exact ⟨hcancelled, by simp only [Loop.advance, Point.left]; omega, le_rfl⟩
      | _ => exact ⟨hcancelled, Nat.zero_le _, le_rfl⟩
  | sleeping =>
    simp only [Loop.advance, if_pos hcancelled]
    split_ifs with helapsed
    · exact ⟨hcancelled, le_rfl, le_rfl⟩
    · exact ⟨hcancelled, Nat.zero_le _, le_rfl⟩
  | looking job rest =>
    simp only [Loop.advance, if_pos hcancelled]
    exact ⟨hcancelled, by simp only [Point.left]; omega, le_rfl⟩
  | acquiring job rest =>
    simp only [Loop.advance, if_pos hcancelled]
    split_ifs with hpermit
    · refine ⟨hcancelled, ?_, ?_⟩
      · rw [left_next]
        simp only [Point.left]
        omega
      · rw [begun_next]
        simp [Loop.begun, Point.acquires]
    · refine ⟨hcancelled, ?_, ?_⟩
      · simp only [Point.left]
        omega
      · simp [Loop.begun, Point.acquires]
  | releasing job rest =>
    simp only [Loop.advance]
    split_ifs with hbroken
    · exact ⟨hcancelled, Nat.zero_le _, le_rfl⟩
    · refine ⟨hcancelled, ?_, ?_⟩
      · rw [left_next]
        simp only [Point.left]
        omega
      · rw [begun_next]
        simp [Loop.begun]
  | joining =>
    simp only [Loop.advance]
    split_ifs <;> exact ⟨hcancelled, Nat.zero_le _, le_rfl⟩
  | returned => exact ⟨hcancelled, Nat.zero_le _, le_rfl⟩
  | failed left => exact ⟨hcancelled, Nat.zero_le _, le_rfl⟩

theorem left_move {s : Loop} (h : s.Sound config) (hcancelled : s.cancelled = true) (e : LoopEvent)
    (answer : Option Answer) (hanswer : ∀ x, e = .loop x → s.point = .claiming → Answered config answer) :
    (s.move config answer e).cancelled = true ∧
      (s.move config answer e).point.left config.pollBatch.toNat ≤
        s.point.left config.pollBatch.toNat - [e].countP LoopEvent.isLoop ∧
      (s.move config answer e).begun ≤ s.begun := by
  cases e with
  | loop x => exact left_advance h hcancelled x (hanswer x rfl)
  | finish job how now =>
    simp only [Loop.move]
    by_cases hmem : job ∈ s.inFlight
    · rw [if_pos hmem]
      exact ⟨hcancelled, le_rfl, le_rfl⟩
    · rw [if_neg hmem]
      exact ⟨hcancelled, le_rfl, le_rfl⟩
  | beat job lease now => exact ⟨hcancelled, le_rfl, le_rfl⟩
  | outside st => exact ⟨hcancelled, le_rfl, le_rfl⟩
  | cancel => exact ⟨rfl, le_rfl, le_rfl⟩

/-- A cancelled loop comes a step nearer to its end with each of its steps, and starts one more job at most. -/
theorem left_run {before : List LoopEvent} (hcancelled : ((workerLoop config worker).run before).cancelled = true)
    (after : List LoopEvent) :
    ((workerLoop config worker).run (before ++ after)).cancelled = true ∧
      ((workerLoop config worker).run (before ++ after)).point.left config.pollBatch.toNat ≤
        ((workerLoop config worker).run before).point.left config.pollBatch.toNat -
          after.countP LoopEvent.isLoop ∧
      ((workerLoop config worker).run (before ++ after)).begun ≤ ((workerLoop config worker).run before).begun := by
  induction after using List.reverseRecOn with
  | nil =>
    rw [List.append_nil]
    exact ⟨hcancelled, Nat.le_refl _, le_rfl⟩
  | append_singleton after e ih =>
    obtain ⟨hcancelled, hleft, hbegun⟩ := ih
    have hsound : ((workerLoop config worker).run (before ++ after)).Sound config := sound_run _
    rw [← List.append_assoc, Machine.run_concat, List.countP_append, ← Nat.sub_sub]
    rcases next_cases config worker
      ((workerLoop config worker).run (before ++ after)) e with ⟨-, hnext⟩ | ⟨st, hst, hnext⟩
    · rw [hnext]
      obtain ⟨hc, hl, hb⟩ := left_move hsound hcancelled e none fun x _ _ jobs hjobs => by cases hjobs
      exact ⟨hc, hl.trans (Nat.sub_le_sub_right hleft _), hb.trans hbegun⟩
    · rw [hnext]
      have htable : ({ (workerLoop config worker).run (before ++ after) with
          table := (exec ((workerLoop config worker).run (before ++ after)).table st).1 } : Loop).Sound config :=
        ⟨hsound.claimed, hsound.started, hsound.permits, hsound.batch⟩
      obtain ⟨hc, hl, hb⟩ := left_move htable hcancelled e (some _) fun x he hpoint => by
        subst he
        exact answered_of_stmt hst hpoint
      exact ⟨hc, hl.trans (Nat.sub_le_sub_right hleft _), hb.trans hbegun⟩

/-! ### The rows of the claimed jobs -/

theorem issued_concat (es : List LoopEvent) (e : LoopEvent) :
    issued config worker (es ++ [e]) =
      issued config worker es ++ (((workerLoop config worker).run es).stmt config worker e).toList := by
  rw [issued, issued, Machine.trace_concat, List.filterMap_append]
  congr 1
  cases hst : ((workerLoop config worker).run es).stmt config worker e <;>
    simp [workerLoop, Machine.out, Loop.step, hst] at hst ⊢

/-- The loop or a task still has the job, or the database lost it. -/
def Loop.Tends (s : Loop) (job : ClaimedJob) : Prop :=
  job ∈ s.point.jobs ∨ job ∈ s.inFlight ∨ job ∈ s.log.lost

theorem tends_advance {s : Loop} {job : ClaimedJob} {x : LoopChance} {answer : Option Answer} (h : s.Tends job)
    (hquiet : ∀ st, s.point.stmt config worker x = some st → st.takesAway = true →
      st.fencedOn ≠ some (job.id, job.claimToken)) : (s.advance config x answer).Tends job := by
  obtain ⟨table, cancelled, point, inFlight, log⟩ := s
  -- where the jobs of the batch stay what they are
  have hkeep : ∀ point', point'.jobs = point.jobs → Loop.Tends ⟨table, cancelled, point', inFlight, log⟩ job :=
    fun point' hjobs => h.imp_left fun hjob => (hjobs ▸ hjob : job ∈ point'.jobs)
  cases point with
  | top | sweeping =>
    refine hkeep _ ?_
    split_ifs <;> rfl
  | requeueing => exact hkeep _ rfl
  | claiming =>
    have hrest : job ∈ inFlight ∨ job ∈ log.lost := h.resolve_left List.not_mem_nil
    rcases answer with - | answer
    · exact .inr hrest
    · cases answer with
      | claimed jobs => cases jobs <;> exact .inr hrest
      | _ => exact .inr hrest
  | sleeping =>
    simp only [Loop.advance]
    split_ifs <;> exact hkeep _ rfl
  | looking job' rest =>
    refine hkeep _ ?_
    split_ifs <;> rfl
  | acquiring job' rest =>
    simp only [Loop.advance]
    split_ifs with hpermit hcancelled
    · rcases h with hjob | hjob | hjob
      · rcases List.mem_cons.mp hjob with rfl | hjob
        · exact .inr (.inl List.mem_cons_self)
        · exact .inl ((jobs_next rest).symm ▸ hjob)
      · exact .inr (.inl (List.mem_cons_of_mem _ hjob))
      · exact .inr (.inr hjob)
    · exact hkeep _ rfl
    · exact hkeep _ rfl
  | releasing job' rest =>
    simp only [Loop.advance]
    split_ifs with hbroken
    · exact hkeep _ rfl
    · rcases h with hjob | hjob
      · rcases List.mem_cons.mp hjob with rfl | hjob
        · exact absurd rfl (hquiet (.releaseClaim job.id job.claimToken x.now) (if_neg hbroken) rfl)
        · exact .inl ((jobs_next rest).symm ▸ hjob)
      · exact .inr hjob
  | joining =>
    simp only [Loop.advance]
    split_ifs <;> exact hkeep _ rfl
  | returned => exact hkeep _ rfl
  | failed left => exact hkeep _ rfl

/-- Only a statement that takes its row away ends the care for a claimed job. -/
theorem tends_move {s : Loop} {job : ClaimedJob} {e : LoopEvent} {answer : Option Answer} (h : s.Tends job)
    (hquiet : ∀ st, s.stmt config worker e = some st → st.takesAway = true →
      st.fencedOn ≠ some (job.id, job.claimToken)) : (s.move config answer e).Tends job := by
  cases e with
  | loop x => exact tends_advance h hquiet
  | finish job' how now =>
    simp only [Loop.move]
    by_cases hmem : job' ∈ s.inFlight
    · rw [if_pos hmem]
      rcases h with hjob | hjob | hjob
      · exact .inl hjob
      · by_cases hsame : job = job'
        · subst hsame
          refine .inr (.inr ?_)
          cases hst : how.stmt job now with
          | none =>
            cases how <;> first | exact List.mem_cons_self | cases hst
          | some st =>
            obtain ⟨hfenced, haway⟩ := fencedOn_finish hst
            exact absurd hfenced (hquiet st ((if_pos hmem).trans hst) haway)
        · exact .inr (.inl ((List.mem_erase_of_ne hsame).mpr hjob))
      · refine .inr (.inr ?_)
        split_ifs
        · exact List.mem_cons_of_mem _ hjob
        · exact hjob
    · rw [if_neg hmem]
      exact h
  | beat job' lease now => exact h
  | outside st => exact h
  | cancel => exact h

/-- A job is new to the log if the loop's claim has just handed it out. -/
theorem claimed_move {s : Loop} {job : ClaimedJob} {e : LoopEvent} {answer : Option Answer}
    (h : job ∈ (s.move config answer e).log.claimed) :
    job ∈ s.log.claimed ∨ ∃ x jobs, e = .loop x ∧ s.point = .claiming ∧ answer = some (.claimed jobs) ∧ job ∈ jobs ∧
      job ∈ (s.move config answer e).point.jobs := by
  cases e with
  | loop x =>
    obtain ⟨table, cancelled, point, inFlight, log⟩ := s
    cases point with
    | claiming =>
      rcases answer with - | answer
      · exact .inl h
      · cases answer with
        | claimed jobs =>
          cases jobs with
          | nil => exact .inl h
          | cons job' rest =>
            rcases List.mem_append.mp h with h | h
            · exact .inl h
            · exact .inr ⟨x, _, rfl, rfl, rfl, h, h⟩
        | _ => exact .inl h
    | top | sweeping | requeueing | looking | returned | failed => exact .inl h
    | sleeping | acquiring | releasing | joining =>
      simp only [Loop.move, Loop.advance] at h
      split_ifs at h <;> exact .inl h
  | finish job' how now =>
    simp only [Loop.move] at h
    by_cases hmem : job' ∈ s.inFlight
    · rw [if_pos hmem] at h
      exact .inl h
    · rw [if_neg hmem] at h
      exact .inl h
  | beat job' lease now => exact .inl h
  | outside st => exact .inl h
  | cancel => exact .inl h

/-- The statement of a loop that claims draws the token of what it hands out. -/
theorem drawn_of_claim {s : Loop} {x : LoopChance} {st : Stmt} {jobs : List ClaimedJob} {job : ClaimedJob}
    (hst : s.stmt config worker (.loop x) = some st) (hpoint : s.point = .claiming)
    (hjobs : (exec s.table st).2 = .claimed jobs) (hjob : job ∈ jobs) : st.freshToken = some job.claimToken := by
  simp only [Loop.stmt, hpoint, Point.stmt] at hst
  split_ifs at hst
  obtain rfl := Option.some.inj hst
  rw [(length_claimed hjobs).2 job hjob]
  rfl

theorem table_move (s : Loop) (answer : Option Answer) (e : LoopEvent) : (s.move config answer e).table = s.table := by
  cases e with
  | loop x =>
    obtain ⟨table, cancelled, point, inFlight, log⟩ := s
    cases point with
    | claiming =>
      rcases answer with - | answer
      · rfl
      · cases answer with
        | claimed jobs => cases jobs <;> rfl
        | _ => rfl
    | top | sweeping | requeueing | looking | returned | failed => rfl
    | sleeping | acquiring | releasing | joining =>
      simp only [Loop.move, Loop.advance]
      split_ifs <;> rfl
  | finish job how now =>
    simp only [Loop.move]
    by_cases hmem : job ∈ s.inFlight
    · rw [if_pos hmem]
    · rw [if_neg hmem]
  | beat job lease now => rfl
  | outside st => rfl
  | cancel => rfl

/-- The token of a claimed job was drawn, and who may hold its row under it still tends it. -/
theorem tended_run (es : List LoopEvent) (htok : ((issued config worker es).filterMap Stmt.freshToken).Nodup) :
    ∀ job ∈ ((workerLoop config worker).run es).log.claimed,
      job.claimToken ∈ (issued config worker es).filterMap Stmt.freshToken ∧
        (Held job.id job.claimToken ((workerLoop config worker).run es).table →
          ((workerLoop config worker).run es).Tends job) := by
  induction es using List.reverseRecOn with
  | nil => exact fun job hjob => absurd hjob List.not_mem_nil
  | append_singleton es e ih =>
    rw [issued_concat, List.filterMap_append] at htok
    have ih := ih (List.Nodup.of_append_left htok)
    rw [issued_concat, List.filterMap_append, Machine.run_concat]
    generalize (workerLoop config worker).run es = s at ih htok ⊢
    intro job hjob
    rcases next_cases config worker s e with ⟨hst, hnext⟩ | ⟨st, hst, hnext⟩
    · rw [hnext] at hjob ⊢
      rcases claimed_move hjob with hjob | ⟨x, jobs, -, -, hanswer, -⟩
      · obtain ⟨hdrawn, htends⟩ := ih job hjob
        have hnone : ∀ st, s.stmt config worker e = some st → st.takesAway = true →
            st.fencedOn ≠ some (job.id, job.claimToken) := fun st hsome => by
          rw [hst] at hsome
          cases hsome
        refine ⟨List.mem_append_left _ hdrawn, fun hheld => tends_move (htends ?_) hnone⟩
        rwa [table_move] at hheld
      · cases hanswer
    · rw [hst] at htok ⊢
      rw [hnext] at hjob ⊢
      rcases claimed_move hjob with hjob | ⟨x, jobs, rfl, hpoint, hanswer, hnew, htended⟩
      · obtain ⟨hdrawn, htends⟩ := ih job hjob
        refine ⟨List.mem_append_left _ hdrawn, fun hheld => ?_⟩
        rw [table_move] at hheld
        rcases (held_step _ _ _ _).mp hheld with hhanded | ⟨hheld, hquiet⟩
        · -- the token was drawn before, so no claim draws it now
          have hfresh := (handsOut_iff.mp hhanded).1
          exact absurd (by simpa using hfresh) (List.disjoint_of_nodup_append htok hdrawn)
        · have hother : ∀ st, s.stmt config worker e = some st → st.takesAway = true →
              st.fencedOn ≠ some (job.id, job.claimToken) := by
            intro st' hsome haway hfenced
            obtain rfl := Option.some.inj (hst.symm.trans hsome)
            exact hquiet (disturbs_of_held hfenced haway hheld)
          exact tends_move (s := { s with table := (exec s.table st).1 }) (htends hheld) hother
      · refine ⟨List.mem_append_right _ ?_, fun _ => .inl htended⟩
        have hfresh := drawn_of_claim hst hpoint (Option.some.inj hanswer) hnew
        simpa using hfresh

/-! ### The property -/

/-- Over every schedule whose claims draw distinct tokens, the loop starts or gives back each job it claims, in
    its turn and under a permit; once it is cancelled it starts one more job at most and soon gets to its end;
    and when it has returned, no row is left running under one of its claims unless the database failed it. -/
theorem worksOff (config : WorkerConfig) (worker : String) (es : List LoopEvent)
    (htok : ((issued config worker es).filterMap Stmt.freshToken).Nodup) : WorksOff config worker es where
  claimed := by
    refine List.perm_iff_count.mpr fun a => ?_
    rw [List.count_append, List.count_append]
    exact (sound_run es).claimed a
  started := by
    refine List.perm_iff_count.mpr fun a => ?_
    rw [List.count_append]
    exact (sound_run es).started a
  permits := (sound_run es).permits
  lastStart i hcancelled := by
    obtain ⟨-, -, hbegun⟩ := left_run hcancelled (es.drop i)
    rw [List.take_append_drop] at hbegun
    have hone := Bool.toNat_le ((workerLoop config worker).run (es.take i)).point.acquires
    simp only [Loop.begun] at hbegun
    omega
  leaves i hcancelled hsteps := by
    obtain ⟨-, hleft, -⟩ := left_run hcancelled (es.drop i)
    rw [List.take_append_drop] at hleft
    have hsound : ((workerLoop config worker).run (es.take i)).Sound config := sound_run _
    have hbound := left_le hsound
    have hzero : ((workerLoop config worker).run es).point.left config.pollBatch.toNat = 0 := by omega
    exact isLeaving_of_left hzero
  settled hreturned := by
    have hjoined := joined_run es hreturned
    refine ⟨hjoined, fun job hjob hheld => ?_⟩
    rcases (tended_run es htok job hjob).2 hheld with hpoint | hflight | hlost
    · rw [hreturned] at hpoint
      cases hpoint
    · rw [hjoined] at hflight
      cases hflight
    · exact hlost

end Kept

/-- Two jobs are claimed at once; the second is met after the cancellation. -/
def drainedRun : List LoopEvent :=
  [.outside (.insert 1 "mail" 1 "\x7b\x7d" 3 0 0), .outside (.insert 2 "mail" 1 "\x7b\x7d" 3 0 0),
    .loop ⟨false, false, false, false, 0, 0, []⟩, .loop ⟨false, false, false, false, 7, 0, []⟩,
    .loop ⟨false, false, false, false, 0, 0, []⟩, .loop ⟨false, false, false, false, 0, 0, []⟩, .cancel,
    .loop ⟨false, false, false, false, 0, 0, []⟩, .loop ⟨false, false, false, false, 0, 1, []⟩,
    .finish ⟨1, 7, "mail", 1, "\x7b\x7d", 1, 3, 300⟩ (.outcome .succeeded 60 0 2) 2,
    .loop ⟨false, false, false, false, 0, 0, []⟩, .loop ⟨false, false, false, false, 0, 0, []⟩]

/-- The first job is finished and the second given back by the time the loop returns. -/
theorem worksOff_drained :
    ((workerLoop .default "w1").run drainedRun).point = .returned ∧ WorksOff .default "w1" drainedRun :=
  ⟨by decide, worksOff .default "w1" drainedRun (by decide)⟩

end Arcature.Jobs
