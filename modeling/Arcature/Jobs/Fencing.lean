import Arcature.Jobs.Queue

/-! Claim fencing over every schedule of statements.

    A statement is summed up by the rows its `WHERE` selects (`hits`) and what its `SET` list makes
    of one (`set`); `get?_exec` says that this is all it does, up to the row an `INSERT` adds. From
    there the fence is a state property, "this row is running under this token", which each
    statement turns on exactly when it is a claim that hands the row out and turns off exactly when
    it takes the row away: the past-time reading of the token column. -/

namespace Arcature.Jobs
open Arcature.Lib

/-! ### What a statement does to one row -/

/-- The rows a statement's `WHERE` selects. A claim that fails selects none. -/
def Stmt.hits (t : JobTable) : Stmt → Row → Bool
  | .insert .., _ => false
  | .claim worker token leaseSecs batch now locked, r =>
    (Jobs.claim t worker token leaseSecs batch now locked).isSome &&
      decide (r.id ∈ (claimPick t now locked batch.toNat).map Row.id)
  | .markSucceeded id token _, r => fence id token r
  | .markRetry id token _ _ _, r => fence id token r
  | .markDead id token _ _ _, r => fence id token r
  | .heartbeat id token _ _, r => fence id token r
  | .releaseClaim id token _, r => fence id token r
  | .sweepDead batch now locked, r =>
    0 ≤ batch && decide (r.id ∈ sweepPick t (exhausted now) locked batch.toNat)
  | .sweepRequeue batch now locked, r =>
    0 ≤ batch && decide (r.id ∈ sweepPick t (requeueable now) locked batch.toNat)
  | .cancel id _, r => cancellable id r
  | .requeueDead id _, r => isDead id r

/-- A statement's `SET` list. -/
def Stmt.set : Stmt → Row → Row
  | .insert .. => id
  | .claim worker token leaseSecs _ now _ =>
    (claimSet worker token (leaseSeconds leaseSecs) now).fn
  | .markSucceeded _ _ now => (succeededSet now).fn
  | .markRetry _ _ availableAt message now =>
    (retrySet availableAt (truncateForStorage message) now).fn
  | .markDead _ _ errorKind message now => (deadSet (truncateForStorage message) errorKind now).fn
  | .heartbeat _ _ lease now => (heartbeatSet lease now).fn
  | .releaseClaim _ _ now => (releaseSet now).fn
  | .sweepDead _ now _ => (sweepDeadSet now).fn
  | .sweepRequeue _ now _ => (releaseSet now).fn
  | .cancel _ now => (cancelSet now).fn
  | .requeueDead _ now => (requeueSet now).fn

theorem claim_eq_some {t t' : JobTable} {worker token leaseSecs batch now locked jobs}
    (h : claim t worker token leaseSecs batch now locked = some (t', jobs)) :
    jobs = (claimPick t now locked batch.toNat).map
        (fun r => returning token ((claimSet worker token (leaseSeconds leaseSecs) now).fn r)) ∧
      ∀ k, t'.get? k = (t.get? k).map fun r =>
        if r.id ∈ (claimPick t now locked batch.toNat).map Row.id then
          (claimSet worker token (leaseSeconds leaseSecs) now).fn r else r := by
  unfold claim at h
  split at h
  · cases h
  · obtain ⟨t₁, ht₁, heq⟩ := Option.map_eq_some_iff.mp h
    cases heq
    exact ⟨rfl, fun k => by simpa using Table.get?_update? ht₁ k⟩

/-- A statement rewrites the rows it hits, where they stand; an `INSERT` adds one pending row. -/
theorem get?_exec (t : JobTable) (st : Stmt) (k : Uuid) :
    (exec t st).1.get? k = (t.get? k).map (fun r => if st.hits t r then st.set r else r) ∨
      (t.get? k = none ∧ ∃ r, (exec t st).1.get? k = some r ∧ r.status = .pending ∧
        r.claimToken = none) := by
  cases st with
  | insert id kind version payload maxAttempts runAt now =>
    simp only [exec, Stmt.hits]
    cases hi : insert t id kind version payload maxAttempts runAt now with
    | none => left; simp
    | some t' =>
      have hget := Table.get?_insert? hi k
      by_cases hk : k = id
      · right
        have hfree : t.get? k = none := hk ▸ Table.free_of_insert? hi
        exact ⟨hfree, _, by rw [hget, if_pos hk], rfl, rfl⟩
      · left
        simp only [hget]
        rw [if_neg hk]
        simp
  | claim worker token leaseSecs batch now locked =>
    left
    cases hc : claim t worker token leaseSecs batch now locked with
    | none => simp [exec, Stmt.hits, hc]
    | some p => simpa [exec, Stmt.hits, Stmt.set, hc] using (claim_eq_some hc).2 k
  | sweepDead batch now locked =>
    left
    by_cases hb : batch < 0
    · simp [exec, sweepDead, Stmt.hits, hb, not_le.mpr hb]
    · simp only [exec, sweepDead, if_neg hb, Stmt.hits, Stmt.set]
      rw [Table.get?_modify]
      simp [not_lt.mp hb]
  | sweepRequeue batch now locked =>
    left
    by_cases hb : batch < 0
    · simp [exec, sweepRequeue, Stmt.hits, hb, not_le.mpr hb]
    · simp only [exec, sweepRequeue, if_neg hb, Stmt.hits, Stmt.set]
      rw [Table.get?_modify]
      simp [not_lt.mp hb]
  | markSucceeded => exact Or.inl (Table.get?_modify ..)
  | markRetry => exact Or.inl (Table.get?_modify ..)
  | markDead => exact Or.inl (Table.get?_modify ..)
  | heartbeat => exact Or.inl (Table.get?_modify ..)
  | releaseClaim => exact Or.inl (Table.get?_modify ..)
  | cancel => exact Or.inl (Table.get?_modify ..)
  | requeueDead => exact Or.inl (Table.get?_modify ..)

theorem get?_exec_some {t : JobTable} {k : Uuid} {r : Row} (h : t.get? k = some r) (st : Stmt) :
    (exec t st).1.get? k = some (if st.hits t r then st.set r else r) := by
  rcases get?_exec t st k with hx | ⟨hn, _⟩
  · rw [hx, h]; rfl
  · rw [h] at hn; cases hn

theorem claimPick_pending {t : JobTable} {now : Time} {locked : List Uuid} {limit : ℕ} {r : Row}
    (h : r ∈ claimPick t now locked limit) : r ∈ t.rows ∧ r.status = .pending := by
  have hm := List.mem_of_mem_take h
  rw [List.mem_insertionSort, List.mem_filter] at hm
  simp only [Bool.and_eq_true, decide_eq_true_eq] at hm
  exact ⟨hm.1, hm.2.1.1⟩

/-- A row whose id was picked is itself the picked row. -/
theorem status_of_picked {t : JobTable} {now : Time} {locked : List Uuid} {limit : ℕ} {k : Uuid}
    {r : Row} (h : t.get? k = some r) (hp : r.id ∈ (claimPick t now locked limit).map Row.id) :
    r.status = .pending := by
  obtain ⟨r', hr', hid⟩ := List.mem_map.mp hp
  obtain ⟨hmem, hst⟩ := claimPick_pending hr'
  have hr := List.inj_on_of_nodup_map t.nodup hmem (Table.mem_of_get? h) hid
  rw [← hr]
  exact hst

/-! ### The vocabulary of the property -/

/-- The statement is a claim that hands job `id` out under `token`. -/
def HandsOut (id token : Uuid) (t : JobTable) (st : Stmt) : Prop :=
  ∃ jobs, (exec t st).2 = .claimed jobs ∧ ∃ j ∈ jobs, j.id = id ∧ j.claimToken = token

/-- The statement's `WHERE` selects the row of `id`. -/
def Touches (id : Uuid) (t : JobTable) (st : Stmt) : Prop :=
  ∃ r, t.get? id = some r ∧ st.hits t r = true

/-- A completion: `mark_succeeded`, `mark_retry` or `mark_dead`. -/
def Stmt.isCompletion : Stmt → Bool
  | .markSucceeded .. | .markRetry .. | .markDead .. => true
  | _ => false

/-- The statements that take a running row away from its claim. -/
def Stmt.takesAway : Stmt → Bool
  | .sweepDead .. | .sweepRequeue .. | .releaseClaim .. | .cancel .. => true
  | st => st.isCompletion

/-- The job and token a completion, heartbeat or release carries. -/
def Stmt.fencedOn : Stmt → Option (Uuid × Uuid)
  | .markSucceeded id token _ | .markRetry id token _ _ _ | .markDead id token _ _ _
  | .heartbeat id token _ _ | .releaseClaim id token _ => some (id, token)
  | _ => none

/-- The token a claim generates. -/
def Stmt.freshToken : Stmt → Option Uuid
  | .claim _ token _ _ _ _ => some token
  | _ => none

/-- Another claim of the row, or a sweep, release, completion or cancel that touched it. -/
def Disturbs (id : Uuid) (t : JobTable) (st : Stmt) : Prop :=
  (∃ token, HandsOut id token t st) ∨ (st.takesAway = true ∧ Touches id t st)

/-- A completion of `id` under `token` that came back `Updated`. -/
def Completes (id token : Uuid) (t : JobTable) (st : Stmt) : Prop :=
  st.isCompletion = true ∧ st.fencedOn = some (id, token) ∧ (exec t st).2 = .transition .updated

/-- The row of `id` is running under `token`. -/
def Held (id token : Uuid) (t : JobTable) : Prop :=
  ∃ r, t.get? id = some r ∧ r.status = .running ∧ r.claimToken = some token

/-! ### Claims and disturbances, read off the row -/

theorem picked_iff {t : JobTable} {now : Time} {locked : List Uuid} {limit : ℕ} {id : Uuid} :
    id ∈ (claimPick t now locked limit).map Row.id ↔
      ∃ r, t.get? id = some r ∧ r.id ∈ (claimPick t now locked limit).map Row.id := by
  refine ⟨fun h => ?_, ?_⟩
  · obtain ⟨r, hr, rfl⟩ := List.mem_map.mp h
    exact ⟨r, Table.get?_of_mem (claimPick_pending hr).1, h⟩
  · rintro ⟨r, hr, hp⟩
    have hk : r.id = id := Table.key_of_get? hr
    rwa [hk] at hp

/-- A claim hands `id` out exactly when it generates the token and its `WHERE` selects the row. -/
theorem handsOut_iff {id token : Uuid} {t : JobTable} {st : Stmt} :
    HandsOut id token t st ↔ st.freshToken = some token ∧ Touches id t st := by
  cases st with
  | claim worker token' leaseSecs batch now locked =>
    cases hc : claim t worker token' leaseSecs batch now locked with
    | none => simp [HandsOut, Touches, exec, Stmt.hits, hc]
    | some p =>
      have hjobs := (claim_eq_some hc).1
      simp only [HandsOut, Touches, exec, Stmt.hits, Stmt.freshToken, hc, Answer.claimed.injEq,
        exists_eq_left', Option.some.injEq, Option.isSome_some, Bool.true_and, decide_eq_true_eq]
      rw [← picked_iff, hjobs]
      simp only [List.mem_map, exists_exists_and_eq_and, returning, claimSet]
      constructor
      · rintro ⟨r, hr, hid, htok⟩
        exact ⟨htok, r, hr, hid⟩
      · rintro ⟨htok, r, hr, hid⟩
        exact ⟨r, hr, hid, htok⟩
  | insert id' kind version payload maxAttempts runAt now =>
    simp only [HandsOut, exec, Stmt.freshToken]
    cases insert t id' kind version payload maxAttempts runAt now <;> simp
  | sweepDead batch now locked =>
    simp only [HandsOut, exec, Stmt.freshToken]
    cases sweepDead t batch now locked <;> simp
  | sweepRequeue batch now locked =>
    simp only [HandsOut, exec, Stmt.freshToken]
    cases sweepRequeue t batch now locked <;> simp
  | markSucceeded | markRetry | markDead | heartbeat | releaseClaim | cancel | requeueDead =>
    simp [HandsOut, exec, Stmt.freshToken]

theorem disturbs_iff {id : Uuid} {t : JobTable} {st : Stmt} :
    Disturbs id t st ↔ (st.freshToken.isSome ∨ st.takesAway = true) ∧ Touches id t st := by
  simp only [Disturbs, handsOut_iff, Option.isSome_iff_exists]
  constructor
  · rintro (⟨token, hf, ht⟩ | ⟨hs, ht⟩)
    · exact ⟨Or.inl ⟨token, hf⟩, ht⟩
    · exact ⟨Or.inr hs, ht⟩
  · rintro ⟨⟨token, hf⟩ | hs, ht⟩
    · exact Or.inl ⟨token, hf, ht⟩
    · exact Or.inr ⟨hs, ht⟩

/-- What a statement that hits a row makes of its fence. -/
theorem set_held {t : JobTable} {st : Stmt} {r : Row} (h : st.hits t r = true) (token : Uuid) :
    ((st.set r).status = .running ∧ (st.set r).claimToken = some token) ↔
      st.freshToken = some token ∨ ((r.status = .running ∧ r.claimToken = some token) ∧
        ¬ (st.freshToken.isSome ∨ st.takesAway = true)) := by
  cases st with
  | requeueDead id now =>
    have hd : r.status = .dead := by
      rw [Stmt.hits, isDead, Bool.and_eq_true, decide_eq_true_eq, decide_eq_true_eq] at h
      exact h.2
    simp [Stmt.set, requeueSet, Stmt.freshToken, hd]
  | insert => simp [Stmt.hits] at h
  | claim => simp [Stmt.set, claimSet, Stmt.freshToken]
  | markSucceeded => simp [Stmt.set, succeededSet, Stmt.freshToken, Stmt.takesAway, Stmt.isCompletion]
  | markRetry => simp [Stmt.set, retrySet, Stmt.freshToken, Stmt.takesAway, Stmt.isCompletion]
  | markDead => simp [Stmt.set, deadSet, Stmt.freshToken, Stmt.takesAway, Stmt.isCompletion]
  | heartbeat => simp [Stmt.set, heartbeatSet, Stmt.freshToken, Stmt.takesAway, Stmt.isCompletion]
  | releaseClaim => simp [Stmt.set, releaseSet, Stmt.freshToken, Stmt.takesAway]
  | sweepDead => simp [Stmt.set, sweepDeadSet, Stmt.freshToken, Stmt.takesAway]
  | sweepRequeue => simp [Stmt.set, releaseSet, Stmt.freshToken, Stmt.takesAway]
  | cancel => simp [Stmt.set, cancelSet, Stmt.freshToken, Stmt.takesAway]

/-- One statement: a row is held afterwards exactly when this was its claim, or it was held and
    nothing disturbed it. -/
theorem held_step (id token : Uuid) (t : JobTable) (st : Stmt) :
    Held id token (exec t st).1 ↔
      HandsOut id token t st ∨ (Held id token t ∧ ¬ Disturbs id t st) := by
  rw [handsOut_iff, disturbs_iff]
  cases hr : t.get? id with
  | none =>
    have hbefore : ¬ Held id token t := by
      rintro ⟨r, h, _⟩
      rw [hr] at h; cases h
    have htouch : ¬ Touches id t st := by
      rintro ⟨r, h, _⟩
      rw [hr] at h; cases h
    have hafter : ¬ Held id token (exec t st).1 := by
      rintro ⟨r, h, hrun, _⟩
      rcases get?_exec t st id with hx | ⟨_, r', hr', hp, _⟩
      · rw [hx, hr] at h; cases h
      · rw [hr'] at h; cases h
        rw [hp] at hrun; cases hrun
    simp [hbefore, htouch, hafter]
  | some r =>
    have hafter := get?_exec_some hr st
    have htouch : Touches id t st ↔ st.hits t r = true := by simp [Touches, hr]
    have hheld : Held id token t ↔ r.status = .running ∧ r.claimToken = some token := by
      simp [Held, hr]
    rw [htouch, hheld, Held, hafter]
    by_cases hh : st.hits t r = true
    · simpa [hh] using set_held hh token
    · simp [hh]

theorem hits_of_fencedOn {st : Stmt} {id token : Uuid} (h : st.fencedOn = some (id, token))
    (t : JobTable) : st.hits t = fence id token := by
  cases st <;> simp only [Stmt.fencedOn, Option.some.injEq, Prod.mk.injEq, reduceCtorEq] at h <;>
    obtain ⟨rfl, rfl⟩ := h <;> rfl

end Arcature.Jobs
