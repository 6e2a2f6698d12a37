import Arcature.Jobs.Dispatch

/-! The attempt budget over every schedule of the fleet.

    The claim statement counts an attempt the moment it hands a job out, and nothing takes one back
    but a requeue. A claim is spent honestly when the job then reaches its handler or dies with its
    holder; a release, or a sweep that overtakes a job still waiting for its permit, puts the row
    back with the attempt counted and no handler run. As long as neither happens to a job:

        pending:  attempts = spent claims,      attempts < max_attempts
        running:  attempts = spent claims + 1,  attempts ≤ max_attempts
        dead (exhausted):  max_attempts ≤ attempts = spent claims

    The count of the claimed job, which `decide` reads, is the row's own: tokens name claims. -/

namespace Arcature.Jobs
open Arcature.Lib

/-! ### The vocabulary of the property -/

/-- The event claims `id` under `token`. -/
def Claims (id token : Uuid) (s : Fleet) (e : Event) : Prop :=
  ∃ st, e.stmt s = some st ∧ HandsOut id token s.table st

/-- The event hands the claim of `id` under `token` to its handler. -/
def Starts (id token : Uuid) (s : Fleet) (e : Event) : Prop :=
  ∃ job ∈ s.waiting, e = .start job ∧ job.id = id ∧ job.claimToken = token

/-- Whoever holds the unstarted claim of `id` under `token` dies with it. -/
def Loses (id token : Uuid) (s : Fleet) (e : Event) : Prop :=
  ∃ job ∈ s.waiting, e = .crash job ∧ job.id = id ∧ job.claimToken = token

/-- A requeue that took effect on `id`: its count starts over. -/
def Resets (id : Uuid) (s : Fleet) (e : Event) : Prop :=
  ∃ now, e = .requeueDead id now ∧ Touches id s.table (.requeueDead id now)

/-- A release that took effect on `id`. -/
def Releases (id : Uuid) (s : Fleet) (e : Event) : Prop :=
  ∃ job now, e = .release job now ∧ job ∈ s.waiting ∧
    Touches id s.table (.releaseClaim job.id job.claimToken now)

/-- The worker loop still holds the claim the row of `id` is running under, unstarted. -/
def Unstarted (id : Uuid) (s : Fleet) : Prop :=
  ∃ r, s.table.get? id = some r ∧ ∃ job ∈ s.waiting, job.id = id ∧ r.claimToken = some job.claimToken

def Stmt.isSweep : Stmt → Bool
  | .sweepDead .. | .sweepRequeue .. => true
  | _ => false

/-- A sweep that took `id` from a worker loop that still holds its claim unstarted. -/
def Overtakes (id : Uuid) (s : Fleet) (e : Event) : Prop :=
  Unstarted id s ∧ ∃ st, e.stmt s = some st ∧ Touches id s.table st ∧ st.isSweep = true

/-- A release or a sweep put the row back, or away, with its claim never started. -/
def Wastes (id : Uuid) (s : Fleet) (e : Event) : Prop := Releases id s e ∨ Overtakes id s e

/-- At `i`, `id` was claimed under `token`, and its count has not started over since. -/
def ClaimedAt (es : List Event) (id token : Uuid) (i : ℕ) : Prop :=
  fleet.Fires es i (Claims id token) ∧ ∀ j, i < j → ¬ fleet.Fires es j (Resets id)

/-- At `i`, `id` was claimed in the current count, and the claim was handed to a handler or lost. -/
def Spent (es : List Event) (id : Uuid) (i : ℕ) : Prop :=
  ∃ token, ClaimedAt es id token i ∧
    ∃ j, fleet.Fires es j (Starts id token) ∨ fleet.Fires es j (Loses id token)

/-! ### What one event does to the table and the queues of jobs -/

theorem next_table (s : Fleet) (e : Event) :
    (fleet.next s e).table = ((e.stmt s).map fun st => (exec s.table st).1).getD s.table := by
  have hmove : ∀ (s' : Fleet) (a : Option Answer), (e.move s' a).table = s'.table := by
    intro s' a
    unfold Event.move
    split <;> (try split) <;> rfl
  simp only [Machine.next, fleet, Fleet.step]
  cases e.stmt s <;> simp [hmove]

/-- What an `INSERT` puts in a row that other rows do not start from. -/
def Row.Fresh (r : Row) : Prop :=
  r.status = .pending ∧ r.attempts = 0 ∧ r.claimToken = none

theorem exec_fresh {t : JobTable} {st : Stmt} {k : Uuid} {r : Row} (hn : t.get? k = none)
    (h : (exec t st).1.get? k = some r) : r.Fresh := by
  rcases get?_exec t st k with hx | ⟨_, r', hr', hp, htok⟩
  · rw [hx, hn] at h
    cases h
  · cases st with
    | insert id kind version payload maxAttempts runAt now =>
      simp only [exec] at h
      cases hi : insert t id kind version payload maxAttempts runAt now with
      | none => rw [hi, hn] at h; cases h
      | some t' =>
        rw [hi, Table.get?_insert? hi] at h
        split at h
        · cases h
          exact ⟨rfl, rfl, rfl⟩
        · rw [hn] at h; cases h
    | claim worker token leaseSecs batch now locked =>
      exact absurd hr' (by
        cases hc : claim t worker token leaseSecs batch now locked with
        | none => simp [exec, hc, hn]
        | some p => simp [exec, hc, (claim_eq_some hc).2, hn])
    | sweepDead batch now locked =>
      by_cases hb : batch < 0 <;> simp [exec, sweepDead, hb, hn] at hr'
    | sweepRequeue batch now locked =>
      by_cases hb : batch < 0 <;> simp [exec, sweepRequeue, hb, hn] at hr'
    | markSucceeded | markRetry | markDead | heartbeat | releaseClaim | cancel | requeueDead =>
      simp [exec, markSucceeded, markRetry, markDead, heartbeat, releaseClaim, cancel, requeueDead,
        hn] at hr'

/-- A row after an event is the row before it, rewritten where the event's statement hit it, or a
    row the statement inserted. -/
theorem row_next {s : Fleet} {e : Event} {k : Uuid} {r' : Row}
    (h : (fleet.next s e).table.get? k = some r') :
    (s.table.get? k = some r' ∧ ∀ st, e.stmt s = some st → st.hits s.table r' = false) ∨
      (∃ r st, s.table.get? k = some r ∧ e.stmt s = some st ∧ st.hits s.table r = true ∧
        r' = st.set r) ∨
      (s.table.get? k = none ∧ r'.Fresh) := by
  rw [next_table] at h
  cases hst : e.stmt s with
  | none =>
    rw [hst] at h
    exact Or.inl ⟨h, fun st hc => by cases hc⟩
  | some st =>
    rw [hst] at h
    change (exec s.table st).1.get? k = some r' at h
    cases hr : s.table.get? k with
    | none => exact Or.inr (Or.inr ⟨rfl, exec_fresh hr h⟩)
    | some r =>
      rw [get?_exec_some hr st] at h
      by_cases hh : st.hits s.table r = true
      · rw [if_pos hh] at h
        cases h
        exact Or.inr (Or.inl ⟨r, st, rfl, rfl, hh, rfl⟩)
      · rw [if_neg hh] at h
        cases h
        refine Or.inl ⟨rfl, fun st' hst' => ?_⟩
        cases hst'
        simpa using hh

/-- Where the jobs held by workers come from: they were held before, or this claim returned them. -/
theorem held_next {s : Fleet} {e : Event} {job : ClaimedJob}
    (h : job ∈ (fleet.next s e).waiting ∨ job ∈ (fleet.next s e).running) :
    (job ∈ s.waiting ∨ job ∈ s.running) ∨
      ∃ token r, e.freshToken = some token ∧ (fleet.next s e).table.get? job.id = some r ∧
        job = returning token r := by
  cases e with
  | claim worker token leaseSecs batch now locked =>
    simp only [Machine.next, fleet, Fleet.step, Event.stmt, exec] at h ⊢
    cases hc : claim s.table worker token leaseSecs batch now locked with
    | none =>
      rw [hc] at h
      exact Or.inl h
    | some p =>
      obtain ⟨t', jobs⟩ := p
      obtain ⟨hjobs, hget⟩ := claim_eq_some hc
      simp only [hc, Event.move, List.mem_append] at h ⊢
      rcases h with (h | h) | h
      · exact Or.inl (Or.inl h)
      · right
        rw [hjobs] at h
        obtain ⟨r, hr, rfl⟩ := List.mem_map.mp h
        refine ⟨token, _, rfl, ?_, rfl⟩
        have hrow : s.table.get? r.id = some r := Table.get?_of_mem (claimPick_pending hr).1
        change t'.get? r.id = _
        rw [hget, hrow]
        simp only [Option.map_some]
        rw [if_pos (List.mem_map_of_mem hr)]
      · exact Or.inl (Or.inr h)
  | start job' =>
    simp only [Machine.next, fleet, Fleet.step, Event.stmt, Event.move] at h
    split at h
    · rename_i hmem
      rcases h with h | h
      · exact Or.inl (Or.inl (List.mem_of_mem_erase h))
      · rcases List.mem_cons.mp h with rfl | h
        · exact Or.inl (Or.inl hmem)
        · exact Or.inl (Or.inr h)
    · exact Or.inl h
  | crash job' =>
    exact Or.inl (h.imp List.mem_of_mem_erase List.mem_of_mem_erase)
  | unknown job' | release job' =>
    simp only [Machine.next, fleet, Fleet.step, Event.stmt] at h
    split at h <;> exact Or.inl (h.imp_left List.mem_of_mem_erase)
  | complete job' | panic job' =>
    simp only [Machine.next, fleet, Fleet.step, Event.stmt] at h
    split at h <;> exact Or.inl (h.imp_right List.mem_of_mem_erase)
  | heartbeat job' =>
    simp only [Machine.next, fleet, Fleet.step, Event.stmt] at h
    split at h <;> exact Or.inl h
  | enqueue | sweepDead | sweepRequeue | cancel | requeueDead => exact Or.inl h

/-- A waiting job waits on, or it is started, lost, refused for want of a handler, or released. -/
theorem waiting_next {s : Fleet} {job : ClaimedJob} (h : job ∈ s.waiting) (e : Event) :
    job ∈ (fleet.next s e).waiting ∨ e = .start job ∨ e = .crash job ∨
      (∃ quotedKind now, e = .unknown job quotedKind now) ∨ ∃ now, e = .release job now := by
  have herase : ∀ job', job' ≠ job → job ∈ s.waiting.erase job' := fun job' hne =>
    (List.mem_erase_of_ne hne.symm).mpr h
  cases e with
  | claim worker token leaseSecs batch now locked =>
    left
    simp only [Machine.next, fleet, Fleet.step, Event.stmt, exec]
    cases claim s.table worker token leaseSecs batch now locked with
    | none => exact h
    | some p => exact List.mem_append_left _ h
  | start job' =>
    rcases eq_or_ne job' job with rfl | hne
    · exact Or.inr (Or.inl rfl)
    · left
      simp only [Machine.next, fleet, Fleet.step, Event.stmt, Event.move]
      split
      · exact herase job' hne
      · exact h
  | crash job' =>
    rcases eq_or_ne job' job with rfl | hne
    · exact Or.inr (Or.inr (Or.inl rfl))
    · exact Or.inl (herase job' hne)
  | unknown job' quotedKind now =>
    rcases eq_or_ne job' job with rfl | hne
    · exact Or.inr (Or.inr (Or.inr (Or.inl ⟨_, _, rfl⟩)))
    · left
      simp only [Machine.next, fleet, Fleet.step, Event.stmt]
      split <;> exact herase job' hne
  | release job' now =>
    rcases eq_or_ne job' job with rfl | hne
    · exact Or.inr (Or.inr (Or.inr (Or.inr ⟨_, rfl⟩)))
    · left
      simp only [Machine.next, fleet, Fleet.step, Event.stmt]
      split <;> exact herase job' hne
  | complete job' | panic job' | heartbeat job' =>
    left
    simp only [Machine.next, fleet, Fleet.step, Event.stmt]
    split <;> exact h
  | enqueue | sweepDead | sweepRequeue | cancel | requeueDead => exact Or.inl h

/-- A job is running once it was started. -/
theorem running_next {s : Fleet} {job : ClaimedJob} {e : Event}
    (h : job ∈ (fleet.next s e).running) : job ∈ s.running ∨ Starts job.id job.claimToken s e := by
  cases e with
  | start job' =>
    simp only [Machine.next, fleet, Fleet.step, Event.stmt, Event.move] at h
    split at h
    · rename_i hmem
      rcases List.mem_cons.mp h with rfl | h
      · exact Or.inr ⟨job, hmem, rfl, rfl, rfl⟩
      · exact Or.inl h
    · exact Or.inl h
  | claim worker token leaseSecs batch now locked =>
    simp only [Machine.next, fleet, Fleet.step, Event.stmt, exec] at h
    cases hc : claim s.table worker token leaseSecs batch now locked <;>
      exact Or.inl (by rwa [hc] at h)
  | crash => exact Or.inl (List.mem_of_mem_erase h)
  | complete | panic =>
    simp only [Machine.next, fleet, Fleet.step, Event.stmt] at h
    split at h <;> exact Or.inl (List.mem_of_mem_erase h)
  | unknown | release | heartbeat =>
    simp only [Machine.next, fleet, Fleet.step, Event.stmt] at h
    split at h <;> exact Or.inl h
  | enqueue | sweepDead | sweepRequeue | cancel | requeueDead => exact Or.inl h

/-! ### Which event a statement comes from -/

theorem JobState.lt_of_retry {state : JobState} {dispatch : DispatchOutcome} {delay : ℕ}
    {now availableAt : Time} (h : state.decide dispatch delay now = .retry availableAt) :
    state.attempts < state.maxAttempts := by
  cases dispatch with
  | succeeded | malformed => cases h
  | timeout =>
    simp only [JobState.decide] at h
    split at h
    · cases h
    · exact not_le.mp ‹_›
  | handlerError err =>
    simp only [JobState.decide] at h
    split at h
    · cases h
    · split at h
      · cases h
      · exact not_le.mp ‹_›

theorem JobState.le_of_exhausted {state : JobState} {dispatch : DispatchOutcome} {delay : ℕ}
    {now : Time} {message : Str} (h : state.decide dispatch delay now = .dead .exhausted message) :
    state.maxAttempts ≤ state.attempts := by
  cases dispatch with
  | succeeded | malformed => cases h
  | timeout =>
    simp only [JobState.decide] at h
    split at h <;> cases h
  | handlerError err =>
    simp only [JobState.decide] at h
    split at h
    · cases h
    · split at h
      · assumption
      · cases h

/-- A completion is that of a running job, as decided or after a panic, or of a waiting one that no
    handler is registered for. -/
theorem completion_of_stmt {s : Fleet} {e : Event} {st : Stmt} (h : e.stmt s = some st)
    (hc : st.isCompletion = true) :
    (∃ job ∈ s.running, ∃ dispatch timeoutSecs delay clock now,
        st = persist job dispatch timeoutSecs delay clock now) ∨
      (∃ job ∈ s.running, ∃ now, st = .markDead job.id job.claimToken .panic panicMessage now) ∨
      ∃ (job : ClaimedJob) (message : Str) (now : Time),
        st = .markDead job.id job.claimToken .unknown message now := by
  cases e with
  | complete job dispatch timeoutSecs delay clock now =>
    simp only [Event.stmt] at h
    split at h <;> cases h
    exact Or.inl ⟨job, ‹_›, _, _, _, _, _, rfl⟩
  | panic job now =>
    simp only [Event.stmt] at h
    split at h <;> cases h
    exact Or.inr (Or.inl ⟨job, ‹_›, _, rfl⟩)
  | unknown job quotedKind now =>
    simp only [Event.stmt] at h
    split at h <;> cases h
    exact Or.inr (Or.inr ⟨job, _, _, rfl⟩)
  | release | heartbeat =>
    simp only [Event.stmt] at h
    split at h <;> cases h
    cases hc
  | enqueue | claim | sweepDead | sweepRequeue | cancel | requeueDead => cases h; cases hc
  | start | crash => cases h

/-- A retry is the completion of a running job with attempts left. -/
theorem running_of_retry {s : Fleet} {e : Event} {id token : Uuid} {availableAt now : Time}
    {message : Str} (h : e.stmt s = some (.markRetry id token availableAt message now)) :
    ∃ job ∈ s.running, job.id = id ∧ job.claimToken = token ∧ job.attempts < job.maxAttempts := by
  rcases completion_of_stmt h rfl with ⟨job, hjob, _, _, _, _, _, heq⟩ | ⟨_, _, _, heq⟩ | ⟨_, _, _, heq⟩
  · unfold persist at heq
    split at heq <;> cases heq
    exact ⟨job, hjob, rfl, rfl, JobState.lt_of_retry ‹_›⟩
  · cases heq
  · cases heq

/-- A job marked dead as exhausted is the completion of a running job with no attempt left. -/
theorem running_of_exhausted {s : Fleet} {e : Event} {id token : Uuid} {message : Str} {now : Time}
    (h : e.stmt s = some (.markDead id token .exhausted message now)) :
    ∃ job ∈ s.running, job.id = id ∧ job.claimToken = token ∧ job.maxAttempts ≤ job.attempts := by
  rcases completion_of_stmt h rfl with ⟨job, hjob, _, _, _, _, _, heq⟩ | ⟨_, _, _, heq⟩ | ⟨_, _, _, heq⟩
  · unfold persist at heq
    split at heq <;> cases heq
    exact ⟨job, hjob, rfl, rfl, JobState.le_of_exhausted ‹_›⟩
  · cases heq
  · cases heq

theorem release_of_stmt {s : Fleet} {e : Event} {id token : Uuid} {now : Time}
    (h : e.stmt s = some (.releaseClaim id token now)) :
    ∃ job ∈ s.waiting, e = .release job now ∧ job.id = id ∧ job.claimToken = token := by
  cases e with
  | release job now' =>
    simp only [Event.stmt] at h
    split at h <;> cases h
    exact ⟨job, ‹_›, rfl, rfl, rfl⟩
  | complete job dispatch timeoutSecs delay clock now' =>
    simp only [Event.stmt, persist] at h
    split at h
    · split at h <;> cases h
    · cases h
  | unknown | heartbeat | panic =>
    simp only [Event.stmt] at h
    split at h <;> cases h
  | enqueue | claim | start | crash | sweepDead | sweepRequeue | cancel | requeueDead => cases h

theorem requeue_of_stmt {s : Fleet} {e : Event} {id : Uuid} {now : Time}
    (h : e.stmt s = some (.requeueDead id now)) : e = .requeueDead id now := by
  cases e with
  | complete job dispatch timeoutSecs delay clock now' =>
    simp only [Event.stmt, persist] at h
    split at h
    · split at h <;> cases h
    · cases h
  | unknown | release | heartbeat | panic =>
    simp only [Event.stmt] at h
    split at h <;> cases h
  | enqueue | claim | start | crash | sweepDead | sweepRequeue | cancel => cases h
  | requeueDead => cases h; rfl

/-- The token of a claim statement is the one its event draws. -/
theorem freshToken_of_stmt {s : Fleet} {e : Event} {st : Stmt} (h : e.stmt s = some st) :
    st.freshToken = e.freshToken := by
  cases e with
  | complete job dispatch timeoutSecs delay clock now' =>
    simp only [Event.stmt, persist] at h
    split at h
    · split at h <;> cases h <;> rfl
    · cases h
  | unknown | release | heartbeat | panic =>
    simp only [Event.stmt] at h
    split at h <;> cases h
    rfl
  | enqueue | claim | sweepDead | sweepRequeue | cancel | requeueDead => cases h; rfl
  | start | crash => cases h

/-! ### What the statements make of the attempt count -/

@[simp] theorem set_maxAttempts (st : Stmt) (r : Row) : (st.set r).maxAttempts = r.maxAttempts := by
  cases st <;> rfl

/-- The rows a sweep picks are eligible. -/
theorem eligible_of_picked {t : JobTable} {p : Row → Bool} {locked : List Uuid} {limit : ℕ}
    {k : Uuid} {r : Row} (h : t.get? k = some r) (hp : r.id ∈ sweepPick t p locked limit) :
    p r = true := by
  obtain ⟨r', hr', hid⟩ := List.mem_map.mp hp
  have hm := List.mem_filter.mp (List.mem_of_mem_take hr')
  rw [List.inj_on_of_nodup_map t.nodup hm.1 (Table.mem_of_get? h) hid] at hm
  exact (Bool.and_eq_true _ _ ▸ hm.2).1

theorem exhausted_of_hits {t : JobTable} {batch : ℤ} {now : Time} {locked : List Uuid} {k : Uuid}
    {r : Row} (h : t.get? k = some r) (hh : (Stmt.sweepDead batch now locked).hits t r = true) :
    r.status = .running ∧ r.maxAttempts ≤ r.attempts := by
  simp only [Stmt.hits, Bool.and_eq_true, decide_eq_true_eq] at hh
  have := eligible_of_picked h hh.2
  simp only [exhausted, expired, Bool.and_eq_true, decide_eq_true_eq] at this
  exact ⟨this.1.1, this.2⟩

theorem requeueable_of_hits {t : JobTable} {batch : ℤ} {now : Time} {locked : List Uuid} {k : Uuid}
    {r : Row} (h : t.get? k = some r) (hh : (Stmt.sweepRequeue batch now locked).hits t r = true) :
    r.status = .running ∧ r.attempts < r.maxAttempts := by
  simp only [Stmt.hits, Bool.and_eq_true, decide_eq_true_eq] at hh
  have := eligible_of_picked h hh.2
  simp only [requeueable, expired, Bool.and_eq_true, decide_eq_true_eq] at this
  exact ⟨this.1.1, this.2⟩

theorem pending_of_hits {t : JobTable} {worker : String} {token : Uuid} {leaseSecs : ℕ} {batch : ℤ}
    {now : Time} {locked : List Uuid} {k : Uuid} {r : Row} (h : t.get? k = some r)
    (hh : (Stmt.claim worker token leaseSecs batch now locked).hits t r = true) :
    r.status = .pending := by
  simp only [Stmt.hits, Bool.and_eq_true, decide_eq_true_eq] at hh
  exact status_of_picked h hh.2

theorem ErrorKind.eq_exhausted : ∀ {k : ErrorKind}, k.asStr = "exhausted" → k = .exhausted
  | .exhausted, _ => rfl
  | .permanent, h | .malformed, h | .unknown, h | .panic, h | .timeout, h => by
    simp [ErrorKind.asStr] at h

theorem fence_iff {id token : Uuid} {r : Row} :
    fence id token r = true ↔ r.id = id ∧ r.status = .running ∧ r.claimToken = some token := by
  simp [fence]

theorem bounds_of_get? {t : JobTable} {k : Uuid} {r : Row} (h : t.get? k = some r) :
    0 ≤ r.attempts ∧ 1 ≤ r.maxAttempts := by
  have := t.checked r (Table.mem_of_get? h)
  simp only [Row.check, Bool.and_eq_true, decide_eq_true_eq] at this
  exact ⟨this.1.1.1.1.1.1.1, this.1.1.1.1.1.2⟩

/-! ### Tokens name claims, so a held job carries its row's count -/

/-- Every token in the table or in a worker's hands was drawn by a claim. -/
def Drawn (es : List Event) (s : Fleet) : Prop :=
  (∀ k r token, s.table.get? k = some r → r.claimToken = some token →
      token ∈ es.filterMap Event.freshToken) ∧
    ∀ job, job ∈ s.waiting ∨ job ∈ s.running → job.claimToken ∈ es.filterMap Event.freshToken

/-- A held job whose claim the row is still running under has the row's count and budget. -/
def Agrees (s : Fleet) : Prop :=
  ∀ job, job ∈ s.waiting ∨ job ∈ s.running → ∀ r, s.table.get? job.id = some r →
    r.claimToken = some job.claimToken →
    job.attempts = r.attempts ∧ job.maxAttempts = r.maxAttempts

/-- The token a statement leaves on a row it hits: a claim's own, or a heartbeat's, which is old. -/
theorem token_of_set {t : JobTable} {st : Stmt} {r : Row} {token : Uuid}
    (hh : st.hits t r = true) (h : (st.set r).claimToken = some token) :
    st.freshToken = some token ∨
      (r.claimToken = some token ∧ r.status = .running ∧ (st.set r).attempts = r.attempts) := by
  cases st with
  | insert => cases hh
  | claim => exact Or.inl h
  | heartbeat id token' lease now =>
    rw [Stmt.hits, fence_iff] at hh
    exact Or.inr ⟨h, hh.2.1, rfl⟩
  | markSucceeded | markRetry | markDead | releaseClaim | sweepDead | sweepRequeue | cancel
  | requeueDead => cases h

theorem drawn_run (es : List Event) : Drawn es (fleet.run es) := by
  induction es using List.reverseRecOn with
  | nil =>
    refine ⟨fun _ _ _ h => ?_, fun _ h => ?_⟩
    · cases h
    · rcases h with h | h <;> cases h
  | append_singleton es e ih =>
    have hmono : ∀ {token}, token ∈ es.filterMap Event.freshToken →
        token ∈ (es ++ [e]).filterMap Event.freshToken := fun h => by
      rw [List.filterMap_append]
      exact List.mem_append_left _ h
    have hnew : ∀ {token}, e.freshToken = some token →
        token ∈ (es ++ [e]).filterMap Event.freshToken := fun h => by
      rw [List.filterMap_append]
      exact List.mem_append_right _ (by simp [h])
    rw [Machine.run_concat]
    refine ⟨fun k r token hr htok => ?_, fun job hjob => ?_⟩
    · rcases row_next hr with ⟨hr, _⟩ | ⟨r₀, st, hr₀, hst, hh, rfl⟩ | ⟨_, _, _, hnone⟩
      · exact hmono (ih.1 k r token hr htok)
      · rcases token_of_set hh htok with hf | ⟨hold, _⟩
        · exact hnew (freshToken_of_stmt hst ▸ hf)
        · exact hmono (ih.1 k r₀ token hr₀ hold)
      · rw [hnone] at htok; cases htok
    · rcases held_next hjob with hold | ⟨token, r, hf, _, rfl⟩
      · exact hmono (ih.2 job hold)
      · exact hnew hf

theorem nodup_freshToken_of_concat {es : List Event} {e : Event} (h : ((es ++ [e]).filterMap Event.freshToken).Nodup) :
    (es.filterMap Event.freshToken).Nodup := by
  rw [List.filterMap_append] at h
  exact h.of_append_left

theorem agrees_run (es : List Event) (htok : (es.filterMap Event.freshToken).Nodup) :
    Agrees (fleet.run es) := by
  induction es using List.reverseRecOn with
  | nil => exact fun _ h => by rcases h with h | h <;> cases h
  | append_singleton es e ih =>
    rw [List.filterMap_append, List.nodup_append] at htok
    obtain ⟨hold, _, hdisj⟩ := htok
    rw [Machine.run_concat]
    intro job hjob r hr htoken
    rcases held_next hjob with hjob | ⟨token, r', _, hr', rfl⟩
    · -- a claim of this step cannot have put an old token on the row
      have hstale : e.freshToken ≠ some job.claimToken := fun hf =>
        hdisj _ ((drawn_run es).2 job hjob) _ (by simp [hf]) rfl
      rcases row_next hr with ⟨hr, _⟩ | ⟨r₀, st, hr₀, hst, hh, rfl⟩ | ⟨_, _, _, hnone⟩
      · exact ih hold job hjob r hr htoken
      · rcases token_of_set hh htoken with hf | ⟨hkept, _, hatt⟩
        · exact absurd (freshToken_of_stmt hst ▸ hf) hstale
        · rw [hatt, set_maxAttempts]
          exact ih hold job hjob r₀ hr₀ hkept
      · rw [hnone] at htoken; cases htoken
    · rw [hr'] at hr
      cases hr
      exact ⟨rfl, rfl⟩

/-! ### The budget -/

/-- The attempts are within the budget, and a pending row has one left. -/
def Budgeted (r : Row) : Prop :=
  r.attempts ≤ r.maxAttempts ∧ (r.status = .pending → r.attempts < r.maxAttempts)

/-- What a statement makes of a row within its budget, unless it gives the claim back. -/
theorem budgeted_set {s : Fleet} {e : Event} {st : Stmt} {k : Uuid} {r : Row}
    (hagree : Agrees s) (hr : s.table.get? k = some r) (hst : e.stmt s = some st)
    (hh : st.hits s.table r = true) (hb : Budgeted r) (hrel : ¬ Releases k s e) :
    Budgeted (st.set r) := by
  cases st with
  | insert => cases hh
  | claim =>
    have hpend := pending_of_hits hr hh
    exact ⟨hb.2 hpend, fun h => by cases h⟩
  | markSucceeded | markDead | sweepDead | cancel => exact ⟨hb.1, fun h => by cases h⟩
  | heartbeat => exact hb
  | markRetry id token availableAt message now =>
    rw [Stmt.hits, fence_iff] at hh
    obtain ⟨hid, _, htoken⟩ := hh
    obtain ⟨job, hjob, rfl, rfl, hlt⟩ := running_of_retry hst
    have hk : r.id = k := Table.key_of_get? hr
    obtain ⟨hatt, hmax⟩ := hagree job (Or.inr hjob) r (by rw [← hid, hk]; exact hr) htoken
    rw [hatt, hmax] at hlt
    exact ⟨hlt.le, fun _ => hlt⟩
  | releaseClaim id token now =>
    obtain ⟨job, hjob, rfl, rfl, rfl⟩ := release_of_stmt hst
    exact absurd ⟨job, now, rfl, hjob, r, hr, hh⟩ hrel
  | sweepRequeue =>
    have hlt := (requeueable_of_hits hr hh).2
    exact ⟨hlt.le, fun _ => hlt⟩
  | requeueDead =>
    have hmax := (bounds_of_get? hr).2
    exact ⟨zero_le_one.trans hmax, fun _ => hmax⟩

theorem budgeted_run {id : Uuid} {es : List Event} (htok : (es.filterMap Event.freshToken).Nodup)
    (hrel : ¬ fleet.Since (Releases id) (Resets id) es) :
    ∀ r, (fleet.run es).table.get? id = some r → Budgeted r := by
  induction es using List.reverseRecOn with
  | nil => exact fun _ h => by cases h
  | append_singleton es e ih =>
    have hold := nodup_freshToken_of_concat htok
    rw [Machine.since_concat, not_or, not_and, not_not] at hrel
    rw [Machine.run_concat]
    intro r hr
    rcases row_next hr with ⟨hr, hmiss⟩ | ⟨r₀, st, hr₀, hst, hh, rfl⟩ | ⟨_, hp, hatt, _⟩
    · refine ih hold (fun hs => ?_) r hr
      obtain ⟨now, rfl, r', hr', hh⟩ := hrel.2 hs
      rw [‹Table.get? (fleet.run es).table id = some r›] at hr'
      cases hr'
      rw [hmiss _ rfl] at hh
      cases hh
    · by_cases hreset : Resets id (fleet.run es) e
      · obtain ⟨now, rfl, _⟩ := hreset
        cases hst
        have hmax := (bounds_of_get? hr₀).2
        exact ⟨zero_le_one.trans hmax, fun _ => hmax⟩
      · exact budgeted_set (agrees_run es hold) hr₀ hst hh
          (ih hold (fun hs => hreset (hrel.2 hs)) r₀ hr₀) hrel.1
    · have hmax := (bounds_of_get? hr).2
      rw [Budgeted, hatt]
      exact ⟨zero_le_one.trans hmax, fun _ => hmax⟩

/-! ### What became of a claim -/

/-- The claim of `id` under `token` was handed to a handler, or lost. -/
def Followed (es : List Event) (id token : Uuid) : Prop :=
  ∃ j, fleet.Fires es j (Starts id token) ∨ fleet.Fires es j (Loses id token)

theorem Followed.concat {es : List Event} {id token : Uuid} (h : Followed es id token) (e : Event) :
    Followed (es ++ [e]) id token := by
  obtain ⟨j, hj⟩ := h
  exact ⟨j, hj.imp (fun h => Machine.fires_concat.mpr (Or.inl h))
    fun h => Machine.fires_concat.mpr (Or.inl h)⟩

theorem started_of_running (es : List Event) :
    ∀ job ∈ (fleet.run es).running, Followed es job.id job.claimToken := by
  induction es using List.reverseRecOn with
  | nil => exact fun _ h => by cases h
  | append_singleton es e ih =>
    rw [Machine.run_concat]
    intro job hjob
    rcases running_next hjob with hjob | hstart
    · exact (ih job hjob).concat e
    · exact ⟨es.length, Or.inl (Machine.fires_last.mpr hstart)⟩

/-- A claim leaves the jobs it hands out waiting. -/
theorem waiting_of_handsOut {s : Fleet} {e : Event} {st : Stmt} {id token : Uuid}
    (hst : e.stmt s = some st) (h : HandsOut id token s.table st) :
    ∃ job ∈ (fleet.next s e).waiting, job.id = id ∧ job.claimToken = token := by
  have hfresh : e.freshToken = some token := freshToken_of_stmt hst ▸ (handsOut_iff.mp h).1
  cases e with
  | claim worker token' leaseSecs batch now locked =>
    cases hst
    obtain ⟨jobs, hans, job, hjob, hid, htoken⟩ := h
    refine ⟨job, ?_, hid, htoken⟩
    simp only [Machine.next, fleet, Fleet.step, Event.stmt]
    rw [hans]
    exact List.mem_append_right _ hjob
  | _ => cases hfresh

/-- The claim a row is running under still waits for its permit, or was handed out or lost. -/
theorem held_or_followed {es : List Event} {id token : Uuid}
    (h : Held id token (fleet.run es).table) :
    (∃ job ∈ (fleet.run es).waiting, job.id = id ∧ job.claimToken = token) ∨
      Followed es id token := by
  induction es using List.reverseRecOn with
  | nil =>
    obtain ⟨r, hr, _⟩ := h
    cases hr
  | append_singleton es e ih =>
    rw [Machine.run_concat] at h ⊢
    rw [next_table] at h
    -- a job that stops waiting without being started or lost takes its row with it
    have hkeep : Held id token (fleet.run es).table →
        (∀ st, e.stmt (fleet.run es) = some st → ¬ Disturbs id (fleet.run es).table st) →
        (∃ job ∈ (fleet.next (fleet.run es) e).waiting, job.id = id ∧ job.claimToken = token) ∨
          Followed (es ++ [e]) id token := by
      rintro hheld hcalm
      rcases ih hheld with ⟨job, hjob, rfl, rfl⟩ | hf
      · have htouch : ∀ st : Stmt, st.fencedOn = some (job.id, job.claimToken) →
            Touches job.id (fleet.run es).table st := by
          intro st hf
          obtain ⟨r, hr, hrun, htoken⟩ := hheld
          refine ⟨r, hr, ?_⟩
          rw [hits_of_fencedOn hf, fence_iff]
          exact ⟨Table.key_of_get? hr, hrun, htoken⟩
        rcases waiting_next hjob e with hw | rfl | rfl | ⟨_, _, rfl⟩ | ⟨_, rfl⟩
        · exact Or.inl ⟨job, hw, rfl, rfl⟩
        · exact Or.inr ⟨es.length, Or.inl (Machine.fires_last.mpr ⟨job, hjob, rfl, rfl, rfl⟩)⟩
        · exact Or.inr ⟨es.length, Or.inr (Machine.fires_last.mpr ⟨job, hjob, rfl, rfl, rfl⟩)⟩
        · exact absurd (Or.inr ⟨rfl, htouch _ rfl⟩) (hcalm _ (if_pos hjob))
        · exact absurd (Or.inr ⟨rfl, htouch _ rfl⟩) (hcalm _ (if_pos hjob))
      · exact Or.inr (hf.concat e)
    cases hst : e.stmt (fleet.run es) with
    | none =>
      rw [hst] at h
      exact hkeep h (fun st hc => by rw [hst] at hc; cases hc)
    | some st =>
      rw [hst] at h
      rcases (held_step id token _ st).mp h with hout | ⟨hheld, hcalm⟩
      · exact Or.inl (waiting_of_handsOut hst hout)
      · exact hkeep hheld (fun st' hc => by rw [hst] at hc; cases hc; exact hcalm)

/-! ### The account -/

theorem ClaimedAt.concat {es : List Event} {e : Event} {id token : Uuid} {i : ℕ}
    (h : ClaimedAt es id token i) (hr : ¬ Resets id (fleet.run es) e) :
    ClaimedAt (es ++ [e]) id token i := by
  refine ⟨Machine.fires_concat.mpr (Or.inl h.1), fun j hij hj => ?_⟩
  rcases Machine.fires_concat.mp hj with hj | ⟨_, hj⟩
  · exact h.2 j hij hj
  · exact hr hj

theorem Spent.concat {es : List Event} {e : Event} {id : Uuid} {i : ℕ} (h : Spent es id i)
    (hr : ¬ Resets id (fleet.run es) e) : Spent (es ++ [e]) id i := by
  obtain ⟨token, hc, hf⟩ := h
  exact ⟨token, hc.concat hr, Followed.concat hf e⟩

theorem Spent.lt {es : List Event} {id : Uuid} {i : ℕ} (h : Spent es id i) : i < es.length := by
  obtain ⟨_, hc, _⟩ := h
  exact hc.1.lt

/-- A row that no claim holds has as many attempts as spent claims. -/
def Settled (es : List Event) (id : Uuid) (r : Row) : Prop :=
  ∃ S : Finset ℕ, (∀ i ∈ S, Spent es id i) ∧ r.attempts = S.card

/-- A running row has one more: the claim it is running under. -/
def InFlight (es : List Event) (id : Uuid) (r : Row) : Prop :=
  ∃ S : Finset ℕ, (∀ i ∈ S, Spent es id i) ∧ r.attempts = S.card + 1 ∧
    ∃ i ∉ S, ∃ token, r.claimToken = some token ∧ ClaimedAt es id token i

/-- Dead with kind `exhausted`. -/
def Row.Exhausted (r : Row) : Prop := r.status = .dead ∧ r.lastErrorKind = some "exhausted"

/-- The account of a row: what its attempts stand for. -/
def Account (es : List Event) (id : Uuid) (r : Row) : Prop :=
  (r.status = .pending ∨ r.Exhausted → Settled es id r) ∧ (r.status = .running → InFlight es id r)

theorem Settled.concat {es : List Event} {e : Event} {id : Uuid} {r : Row} (h : Settled es id r)
    (hr : ¬ Resets id (fleet.run es) e) : Settled (es ++ [e]) id r := by
  obtain ⟨S, hS, hatt⟩ := h
  exact ⟨S, fun i hi => (hS i hi).concat hr, hatt⟩

theorem InFlight.concat {es : List Event} {e : Event} {id : Uuid} {r : Row} (h : InFlight es id r)
    (hr : ¬ Resets id (fleet.run es) e) : InFlight (es ++ [e]) id r := by
  obtain ⟨S, hS, hatt, i, hi, token, htoken, hc⟩ := h
  exact ⟨S, fun j hj => (hS j hj).concat hr, hatt, i, hi, token, htoken, hc.concat hr⟩

theorem settled_of_zero {es : List Event} {id : Uuid} {r : Row} (h : r.attempts = 0) :
    Settled es id r := ⟨∅, by simp, by simp [h]⟩

/-- A claim that was handed out or lost closes the account it opened. -/
theorem InFlight.settle {es : List Event} {id token : Uuid} {r r' : Row} (h : InFlight es id r)
    (htoken : r.claimToken = some token) (hf : Followed es id token)
    (hatt : r'.attempts = r.attempts) : Settled es id r' := by
  obtain ⟨S, hS, hcount, i, hi, token', htoken', hc⟩ := h
  rw [htoken] at htoken'
  cases htoken'
  refine ⟨Insert.insert i S, fun j hj => ?_, ?_⟩
  · rcases Finset.mem_insert.mp hj with rfl | hj
    · exact ⟨token, hc, hf⟩
    · exact hS j hj
  · rw [hatt, hcount, Finset.card_insert_of_notMem hi]
    push_cast
    rfl

/-- A row a sweep takes was held by nobody who still waits, unless it overtakes. -/
theorem followed_of_sweep {es : List Event} {e : Event} {st : Stmt} {id token : Uuid} {r : Row}
    (hr : (fleet.run es).table.get? id = some r) (hst : e.stmt (fleet.run es) = some st)
    (hh : st.hits (fleet.run es).table r = true) (hrun : r.status = .running)
    (htoken : r.claimToken = some token)
    (hsweep : st.isSweep = true)
    (hcalm : ¬ Overtakes id (fleet.run es) e) : Followed es id token := by
  rcases held_or_followed ⟨r, hr, hrun, htoken⟩ with ⟨job, hjob, hid, rfl⟩ | hf
  · exact absurd ⟨⟨r, hr, job, hjob, hid, htoken⟩, st, hst, ⟨r, hr, hh⟩, hsweep⟩ hcalm
  · exact hf

/-- The account after a statement hit the row, where the event neither resets nor wastes. -/
theorem account_set {es : List Event} {e : Event} {st : Stmt} {id : Uuid} {r : Row}
    (hr : (fleet.run es).table.get? id = some r) (hst : e.stmt (fleet.run es) = some st)
    (hh : st.hits (fleet.run es).table r = true) (hacc : Account es id r)
    (hreset : ¬ Resets id (fleet.run es) e) (hcalm : ¬ Wastes id (fleet.run es) e) :
    Account (es ++ [e]) id (st.set r) := by
  have hid : r.id = id := Table.key_of_get? hr
  -- what a completion, a sweep or a release finds: a running row with a token
  have hopen : r.status = .running → ∃ token, r.claimToken = some token := fun hrun => by
    obtain ⟨_, _, _, _, _, token, htoken, _⟩ := hacc.2 hrun
    exact ⟨token, htoken⟩
  have hsettle : ∀ {token}, r.status = .running → r.claimToken = some token →
      Followed es id token → (st.set r).attempts = r.attempts → Settled (es ++ [e]) id (st.set r) :=
    fun hrun htoken hf hatt => (hacc.2 hrun).settle htoken hf hatt |>.concat hreset
  cases st with
  | insert => cases hh
  | claim worker token leaseSecs batch now locked =>
    have hpend := pending_of_hits hr hh
    obtain ⟨S, hS, hatt⟩ := hacc.1 (Or.inl hpend)
    refine ⟨fun h => ?_, fun _ => ⟨S, fun i hi => (hS i hi).concat hreset, ?_, es.length, ?_, token,
      rfl, ?_⟩⟩
    · rcases h with h | h
      · cases h
      · cases h.1
    · simp [Stmt.set, claimSet, hatt]
    · exact fun hmem => absurd (hS _ hmem).lt (lt_irrefl _)
    · refine ⟨Machine.fires_last.mpr ⟨_, hst, handsOut_iff.mpr ⟨rfl, r, hr, hh⟩⟩, fun j hj hf => ?_⟩
      have := hf.lt
      simp only [List.length_append, List.length_singleton] at this
      omega
  | heartbeat id' token lease now =>
    rw [Stmt.hits, fence_iff] at hh
    refine ⟨fun h => ?_, fun _ => ?_⟩
    · have hrun : (Stmt.set (.heartbeat id' token lease now) r).status = .running := hh.2.1
      rcases h with h | h
      · rw [hrun] at h; cases h
      · rw [h.1] at hrun; cases hrun
    · obtain ⟨S, hS, hatt, hcur⟩ := (hacc.2 hh.2.1).concat hreset
      exact ⟨S, hS, hatt, hcur⟩
  | markRetry id' token availableAt message now =>
    rw [Stmt.hits, fence_iff] at hh
    obtain ⟨job, hjob, hid', rfl, _⟩ := running_of_retry hst
    have hf := started_of_running es job hjob
    rw [hid', ← hh.1, hid] at hf
    exact ⟨fun _ => hsettle hh.2.1 hh.2.2 hf rfl, fun h => by cases h⟩
  | markDead id' token errorKind message now =>
    rw [Stmt.hits, fence_iff] at hh
    refine ⟨fun h => ?_, fun h => by cases h⟩
    have hkind : errorKind = .exhausted := by
      rcases h with h | h
      · cases h
      · exact ErrorKind.eq_exhausted (Option.some.inj h.2)
    subst hkind
    obtain ⟨job, hjob, hid', rfl, _⟩ := running_of_exhausted hst
    have hf := started_of_running es job hjob
    rw [hid', ← hh.1, hid] at hf
    exact hsettle hh.2.1 hh.2.2 hf rfl
  | sweepDead batch now locked =>
    have hrun := (exhausted_of_hits hr hh).1
    obtain ⟨token, htoken⟩ := hopen hrun
    have hf := followed_of_sweep hr hst hh hrun htoken rfl (fun h => hcalm (Or.inr h))
    exact ⟨fun _ => hsettle hrun htoken hf rfl, fun h => by cases h⟩
  | sweepRequeue batch now locked =>
    have hrun := (requeueable_of_hits hr hh).1
    obtain ⟨token, htoken⟩ := hopen hrun
    have hf := followed_of_sweep hr hst hh hrun htoken rfl (fun h => hcalm (Or.inr h))
    exact ⟨fun _ => hsettle hrun htoken hf rfl, fun h => by cases h⟩
  | releaseClaim id' token now =>
    obtain ⟨job, hjob, rfl, rfl, rfl⟩ := release_of_stmt hst
    exact absurd (Or.inl ⟨job, now, rfl, hjob, r, hr, hh⟩) hcalm
  | markSucceeded | cancel =>
    refine ⟨fun h => ?_, fun h => by cases h⟩
    rcases h with h | h
    · cases h
    · cases h.1
  | requeueDead id' now =>
    have he := requeue_of_stmt hst
    have hid' : id' = id := by
      simp only [Stmt.hits, isDead, Bool.and_eq_true, decide_eq_true_eq] at hh
      rw [← hh.1, hid]
    subst hid'
    exact absurd ⟨now, he, r, hr, hh⟩ hreset

theorem account_run {id : Uuid} {es : List Event}
    (hcalm : ¬ fleet.Since (Wastes id) (Resets id) es) :
    ∀ r, (fleet.run es).table.get? id = some r → Account es id r := by
  induction es using List.reverseRecOn with
  | nil => exact fun _ h => by cases h
  | append_singleton es e ih =>
    rw [Machine.since_concat, not_or, not_and, not_not] at hcalm
    rw [Machine.run_concat]
    intro r hr
    rcases row_next hr with ⟨hsame, hmiss⟩ | ⟨r₀, st, hr₀, hst, hh, rfl⟩ | ⟨_, hp, hatt, _⟩
    · have hreset : ¬ Resets id (fleet.run es) e := by
        rintro ⟨now, rfl, r', hr', hh⟩
        rw [hsame] at hr'
        cases hr'
        rw [hmiss _ rfl] at hh
        cases hh
      obtain ⟨hidle, hbusy⟩ := ih (fun hs => hreset (hcalm.2 hs)) r hsame
      exact ⟨fun h => (hidle h).concat hreset, fun h => (hbusy h).concat hreset⟩
    · by_cases hreset : Resets id (fleet.run es) e
      · obtain ⟨now, rfl, _⟩ := hreset
        cases hst
        exact ⟨fun _ => settled_of_zero rfl, fun h => by cases h⟩
      · exact account_set hr₀ hst hh (ih (fun hs => hreset (hcalm.2 hs)) r₀ hr₀) hreset hcalm.1
    · refine ⟨fun _ => settled_of_zero hatt, fun h => ?_⟩
      rw [hp] at h
      cases h

/-- A row dies exhausted with its budget used up. -/
theorem exhausted_run {es : List Event} (htok : (es.filterMap Event.freshToken).Nodup) :
    ∀ id r, (fleet.run es).table.get? id = some r → r.Exhausted → r.maxAttempts ≤ r.attempts := by
  induction es using List.reverseRecOn with
  | nil => exact fun _ _ h => by cases h
  | append_singleton es e ih =>
    have hold := nodup_freshToken_of_concat htok
    rw [Machine.run_concat]
    intro id r hr hx
    rcases row_next hr with ⟨hr, _⟩ | ⟨r₀, st, hr₀, hst, hh, rfl⟩ | ⟨_, hp, _⟩
    · exact ih hold id r hr hx
    · cases st with
      | insert => cases hh
      | sweepDead => exact (exhausted_of_hits hr₀ hh).2
      | markDead id' token errorKind message now =>
        have hkind : errorKind = .exhausted := ErrorKind.eq_exhausted (Option.some.inj hx.2)
        subst hkind
        rw [Stmt.hits, fence_iff] at hh
        obtain ⟨job, hjob, rfl, rfl, hle⟩ := running_of_exhausted hst
        have hk : r₀.id = id := Table.key_of_get? hr₀
        obtain ⟨hatt, hmax⟩ :=
          agrees_run es hold job (Or.inr hjob) r₀ (by rw [← hh.1, hk]; exact hr₀) hh.2.2
        rw [hatt, hmax] at hle
        exact hle
      | heartbeat id' token lease now =>
        rw [Stmt.hits, fence_iff] at hh
        have hrun : r₀.status = .dead := hx.1
        rw [hh.2.1] at hrun
        cases hrun
      | claim | markSucceeded | markRetry | releaseClaim | sweepRequeue | cancel | requeueDead =>
        cases hx.1
    · rw [hx.1] at hp
      cases hp

/-! ### The attempt budget -/

/-- The attempt budget, over every schedule of the fleet whose claims draw distinct tokens. A job
    none of whose claims was released since its enqueue or last requeue has attempts within its
    budget. If no sweep overtook a waiting claim of it either, it is dead with kind `exhausted` only
    after as many claims as the budget allows, each handed to a handler or lost. -/
theorem attempts_budget (es : List Event) (htok : (es.filterMap Event.freshToken).Nodup) (id : Uuid) :
    (¬ fleet.Since (Releases id) (Resets id) es → ∀ r, (fleet.run es).table.get? id = some r →
      0 ≤ r.attempts ∧ r.attempts ≤ r.maxAttempts) ∧
    (¬ fleet.Since (Wastes id) (Resets id) es → ∀ r, (fleet.run es).table.get? id = some r →
      r.Exhausted → ∃ S : Finset ℕ, r.maxAttempts ≤ S.card ∧ ∀ i ∈ S, Spent es id i) := by
  refine ⟨fun hrel r hr => ⟨(bounds_of_get? hr).1, (budgeted_run htok hrel r hr).1⟩, ?_⟩
  intro hcalm r hr hx
  obtain ⟨S, hS, hatt⟩ := (account_run hcalm r hr).1 (Or.inr hx)
  exact ⟨S, hatt ▸ exhausted_run htok id r hr hx, hS⟩

/-- The one job of the runs below, as its first claim hands it out. -/
def mailJob : ClaimedJob := ⟨1, 10, "mail", 1, "\x7b\x7d", 1, 1, 60⟩

/-- A job with one attempt: its handler fails, and it is dead. -/
def failedRun : List Event :=
  [.enqueue 1 "mail" 1 "\x7b\x7d" 1 0 0, .claim "w" 10 60 5 0 [], .start mailJob,
    .complete mailJob (.handlerError (.retryable [])) 30 0 1 1]

theorem attempts_budget_failed : ∃ S : Finset ℕ, 1 ≤ S.card ∧ ∀ i ∈ S, Spent failedRun 1 i := by
  have hcalm : ¬ fleet.Since (Wastes 1) (Resets 1) failedRun := by
    rintro ⟨i, ⟨e, he, hw⟩, _⟩
    have hmem := List.mem_of_getElem? he
    simp only [failedRun, List.mem_cons, List.not_mem_nil, or_false] at hmem
    rcases hw with ⟨_, _, rfl, _⟩ | ⟨_, st, hst, _, hs⟩
    · simp at hmem
    · rcases hmem with rfl | rfl | rfl | rfl
      · cases hst; cases hs
      · cases hst; cases hs
      · cases hst
      · simp only [Event.stmt] at hst
        split at hst <;> cases hst
        cases hs
  have hrow : ((fleet.run failedRun).table.get? 1).map
      (fun r => (r.status, r.lastErrorKind, r.maxAttempts)) = some (.dead, some "exhausted", 1) := by
    decide +kernel
  obtain ⟨r, hr, heq⟩ := Option.map_eq_some_iff.mp hrow
  simp only [Prod.mk.injEq] at heq
  obtain ⟨S, hcard, hS⟩ := (attempts_budget failedRun (by decide) 1).2 hcalm r hr ⟨heq.1, heq.2.1⟩
  rw [heq.2.2] at hcard
  exact ⟨S, by exact_mod_cast hcard, hS⟩

/-- A worker shutting down gives a job with one attempt back unstarted; another claims it. -/
def releasedRun : List Event :=
  [.enqueue 1 "mail" 1 "\x7b\x7d" 1 0 0, .claim "w" 10 60 5 0 [], .release mailJob 1,
    .claim "v" 20 60 5 1 []]

/-- The second claim is the job's second attempt of one. -/
theorem attempts_over_budget : ¬ ∀ es : List Event, (es.filterMap Event.freshToken).Nodup →
    ∀ id r, (fleet.run es).table.get? id = some r → 0 ≤ r.attempts ∧ r.attempts ≤ r.maxAttempts := by
  intro h
  have hrow : ((fleet.run releasedRun).table.get? 1).map (fun r => (r.attempts, r.maxAttempts)) =
      some (2, 1) := by
    decide +kernel
  obtain ⟨r, hr, heq⟩ := Option.map_eq_some_iff.mp hrow
  obtain ⟨hatt, hmax⟩ := Prod.mk.inj heq
  have := (h releasedRun (by decide) 1 r hr).2
  rw [hatt, hmax] at this
  exact absurd this (by decide)

end Arcature.Jobs
