import Arcature.Auth.Plaintext
import Arcature.Lib.Machine
import Arcature.Lib.Table

/-! The password-reset store (`auth/flows/reset/store.rs`, `reset/token.rs` and the statements of
    `reset/dialect/postgres.rs`) with any number of calls in flight.

    A call is a sequence of atomic statements with local computation in between, so each event of
    the machine is one statement of one call, together with the local code up to the next one.
    Between two of its statements a call is known only by what it holds in memory.

        issue    DELETE_FOR subject ──▶ INSERT_NEW (again with a fresh id if the id is taken)
        consume  FIND_LIVE id, compare digests ──▶ DELETE_FOR subject, spent if a row went -/

namespace Arcature.Auth.Reset
open Arcature.Lib

/-- One row of `arcature_password_resets`. -/
structure ResetRow where
  id : PublicId
  secretDigest : Digest
  subject : String
  expiresAt : ℤ
  createdAt : ℤ
  deriving DecidableEq

/-- `id` is the primary key. -/
abbrev schema : Schema ResetRow PublicId := ⟨ResetRow.id, fun _ => true⟩

/-- The table of outstanding links. -/
abbrev ResetTable := Table schema

/-- The fixed opening of a reset link's plaintext. -/
def resetTokenPrefix : Str := "arcpwr_".toList

/-- `format_plaintext`. -/
def formatPlaintext (id : PublicId) (secret : Secret) : Str :=
  formatHalves resetTokenPrefix id secret

/-- `parse_plaintext`. -/
def parsePlaintext (presented : Str) : Option (PublicId × Secret) :=
  parseHalves resetTokenPrefix presented

/-! ### The statements -/

/-- `INSERT_NEW`: `none` when the id is taken, which `DO NOTHING` reports as no row affected. -/
def insertNew (t : ResetTable) (row : ResetRow) : Option ResetTable := t.insert? row

/-- `FIND_LIVE`, at server time `now`. -/
def findLive (t : ResetTable) (id : PublicId) (now : ℤ) : Option ResetRow :=
  (t.get? id).filter fun r => now < r.expiresAt

/-- `DELETE_FOR`, with the affected-row count. -/
def deleteFor (t : ResetTable) (subject : String) : ResetTable × ℕ :=
  (t.delete fun r => r.subject = subject, t.affected fun r => r.subject = subject)

/-- `DELETE_EXPIRED`, at server time `now`. -/
def deleteExpired (t : ResetTable) (now : ℤ) : ResetTable × ℕ :=
  (t.delete fun r => r.expiresAt ≤ now, t.affected fun r => r.expiresAt ≤ now)

/-! ### The calls -/

/-- How many fresh ids `issue` tries. -/
def issueAttempts : ℕ := 8

/-- Why an `issue` fails before or between its statements. -/
inductive Error where
  | entropy
  | expiry (ttl : Duration)
  | idCollision (attempts : ℕ)
  deriving DecidableEq

/-- What an `issue` holds once it has cleared: its arguments, its secret, the tries left. -/
structure Issuing where
  subject : String
  secret : Secret
  expiresAt : Instant
  createdAt : Instant
  left : ℕ
  deriving DecidableEq

/-- The local code of `issue` before its first statement; the two clock readings are its own. -/
def beginIssue (subject : String) (ttl : Duration) (nowDeadline nowCreated : Instant)
    (secret : Option Secret) : Except Error Issuing :=
  match deadline nowDeadline ttl with
  | none => .error (.expiry ttl)
  | some expiresAt =>
    match secret with
    | none => .error .entropy
    | some secret => .ok ⟨subject, secret, expiresAt, nowCreated, issueAttempts⟩

/-- The row an `issue` inserts under the id it drew. -/
def Issuing.row (B : Backend) (q : Issuing) (id : PublicId) : ResetRow :=
  ⟨id, B.digestOf q.secret, q.subject, B.storedTime q.expiresAt, B.storedTime q.createdAt⟩

/-- The first half of `consume`: parse, read, compare. -/
def matchLive (B : Backend) (t : ResetTable) (presented : Str) (now : ℤ) : Option ResetRow :=
  (parsePlaintext presented).bind fun (id, secret) =>
    (findLive t id now).filter fun row => B.digestOf secret = row.secretDigest

/-- A call between two of its statements. -/
inductive Call where
  | issuing (q : Issuing)
  /-- The presented string and the row it matched, of which `consume` keeps the subject. -/
  | consuming (presented : Str) (row : ResetRow)
  deriving DecidableEq

/-- The table and the calls in flight. -/
structure State where
  rows : ResetTable
  calls : ℕ → Option Call

/-- The call `c` is over. -/
def State.finish (s : State) (c : ℕ) (rows : ResetTable) : State :=
  ⟨rows, Function.update s.calls c none⟩

/-- The call `c` waits for its next statement. -/
def State.await (s : State) (c : ℕ) (call : Call) (rows : ResetTable) : State :=
  ⟨rows, Function.update s.calls c (some call)⟩

/-- One statement of one call; `c` names the call. -/
inductive Event where
  | issueClear (c : ℕ) (subject : String) (ttl : Duration) (nowDeadline nowCreated : Instant)
      (secret : Option Secret)
  | issueInsert (c : ℕ) (id : Option PublicId)
  | consumeFind (c : ℕ) (presented : Str) (now : ℤ)
  | consumeSpend (c : ℕ)
  | revokeAllFor (subject : String)
  | sweepExpired (now : ℤ)
  /-- The call's connection or its future is dropped. -/
  | fail (c : ℕ)

/-- What the call answers, if this statement was its last. -/
inductive Answer where
  | pending
  | issued (subject : String) (expiresAt : Instant) (plaintext : Str)
  | failed (e : Error)
  | consumed (subject : Option String)
  | deleted (rows : ℕ)
  deriving DecidableEq

/-- Run one statement. An event whose call is not at that statement does nothing. -/
def step (B : Backend) (s : State) : Event → State × Answer
  | .issueClear c subject ttl nowDeadline nowCreated secret =>
    match s.calls c with
    | some _ => (s, .pending)
    | none =>
      match beginIssue subject ttl nowDeadline nowCreated secret with
      | .error e => (s, .failed e)
      | .ok q => (s.await c (.issuing q) (deleteFor s.rows subject).1, .pending)
  | .issueInsert c id =>
    match s.calls c, id with
    | some (.issuing _), none => (s.finish c s.rows, .failed .entropy)
    | some (.issuing q), some id =>
      match insertNew s.rows (q.row B id) with
      | some t => (s.finish c t, .issued q.subject q.expiresAt (formatPlaintext id q.secret))
      | none =>
        if q.left ≤ 1 then (s.finish c s.rows, .failed (.idCollision issueAttempts))
        else (s.await c (.issuing { q with left := q.left - 1 }) s.rows, .pending)
    | _, _ => (s, .pending)
  | .consumeFind c presented now =>
    match s.calls c with
    | some _ => (s, .pending)
    | none =>
      match matchLive B s.rows presented now with
      | none => (s, .consumed none)
      | some row => (s.await c (.consuming presented row) s.rows, .pending)
  | .consumeSpend c =>
    match s.calls c with
    | some (.consuming _ row) =>
      let (t, spent) := deleteFor s.rows row.subject
      (s.finish c t, .consumed (if spent = 0 then none else some row.subject))
    | _ => (s, .pending)
  | .revokeAllFor subject =>
    let (t, n) := deleteFor s.rows subject
    (⟨t, s.calls⟩, .deleted n)
  | .sweepExpired now =>
    let (t, n) := deleteExpired s.rows now
    (⟨t, s.calls⟩, .deleted n)
  | .fail c => (s.finish c s.rows, .pending)

/-- The store, from an empty table and no calls. -/
def store (B : Backend) : Machine State Event Answer := ⟨⟨Table.empty, fun _ => none⟩, step B⟩

/-! ### What a statement does to the table -/

/-- The id a statement draws. -/
def Event.drawnId : Event → Option PublicId
  | .issueInsert _ id => id
  | _ => none

/-- The secret a statement draws. -/
def Event.drawnSecret : Event → Option Secret
  | .issueClear _ _ _ _ _ secret => secret
  | _ => none

/-- The call `c`, an issue, inserts `row`, which completes it. -/
def Inserts (B : Backend) (c : ℕ) (q : Issuing) (row : ResetRow) (s : State) (e : Event) : Prop :=
  e = .issueInsert c (some row.id) ∧ s.calls c = some (.issuing q) ∧ row = q.row B row.id ∧
    s.rows.get? row.id = none

/-- Whether the statement deletes a row. -/
def Event.deletes (s : State) : Event → ResetRow → Bool
  | .issueClear c subject ttl nowDeadline nowCreated secret, r =>
    (s.calls c).isNone && (beginIssue subject ttl nowDeadline nowCreated secret).toBool &&
      r.subject = subject
  | .consumeSpend c, r =>
    match s.calls c with
    | some (.consuming _ row) => r.subject = row.subject
    | _ => false
  | .revokeAllFor subject, r => r.subject = subject
  | .sweepExpired now, r => r.expiresAt ≤ now
  | _, _ => false

/-- No link of the subject is in the table. -/
def Cleared (subject : String) (t : ResetTable) : Prop :=
  ∀ k r, t.get? k = some r → r.subject ≠ subject

variable {B : Backend} {s : State} {e : Event} {c : ℕ}

@[simp] theorem rows_finish (s : State) (c : ℕ) (t : ResetTable) : (s.finish c t).rows = t := rfl

@[simp] theorem rows_await (s : State) (c : ℕ) (call : Call) (t : ResetTable) :
    (s.await c call t).rows = t := rfl

@[simp] theorem filter_keep (r : Option ResetRow) : r.filter (fun _ => true) = r := by
  cases r <;> rfl

/-- An `INSERT_NEW` that runs: the id was free and the row is added, or nothing changes. -/
theorem rows_insert {q : Issuing} (hc : s.calls c = some (.issuing q)) (id : PublicId) :
    (s.rows.get? id = none ∧ ∀ k, (step B s (.issueInsert c (some id))).1.rows.get? k =
      if k = id then some (q.row B id) else s.rows.get? k) ∨
    ((∃ r, s.rows.get? id = some r) ∧ (step B s (.issueInsert c (some id))).1.rows = s.rows) := by
  simp only [step, hc]
  cases hi : insertNew s.rows (q.row B id) with
  | some t =>
    left
    exact ⟨Table.free_of_insert? hi, fun k => Table.get?_insert? hi k⟩
  | none =>
    right
    rcases Table.insert?_eq_none.mp hi with hr | hcheck
    · refine ⟨hr, ?_⟩
      by_cases hl : q.left ≤ 1 <;> simp [hl]
    · cases hcheck

theorem get?_of_inserts {q : Issuing} {row : ResetRow} (h : Inserts B c q row s e) (k : PublicId) :
    (step B s e).1.rows.get? k = if k = row.id then some row else s.rows.get? k := by
  obtain ⟨rfl, hq, hr, hfree⟩ := h
  rcases rows_insert (B := B) hq row.id with ⟨_, hget⟩ | ⟨⟨r, hr'⟩, _⟩
  · rw [hget, ← hr]
  · rw [hfree] at hr'; cases hr'

theorem not_inserts {q : Issuing} {row : ResetRow} (h : e.drawnId = none) :
    ¬ Inserts B c q row s e := by
  rintro ⟨rfl, _⟩
  cases h

/-- A statement inserts one row, or deletes those its `WHERE` selects. -/
theorem rows_step (B : Backend) (s : State) (e : Event) :
    (∃ c q row, Inserts B c q row s e ∧
      ∀ k, (step B s e).1.rows.get? k = if k = row.id then some row else s.rows.get? k) ∨
    ((∀ c q row, ¬ Inserts B c q row s e) ∧
      ∀ k, (step B s e).1.rows.get? k = (s.rows.get? k).filter fun r => !e.deletes s r) := by
  cases e with
  | issueInsert c id =>
    have hkeep : (∀ c' q row, ¬ Inserts B c' q row s (.issueInsert c id)) →
        (step B s (.issueInsert c id)).1.rows = s.rows →
        (∀ c' q row, ¬ Inserts B c' q row s (.issueInsert c id)) ∧
          ∀ k, (step B s (.issueInsert c id)).1.rows.get? k =
            (s.rows.get? k).filter fun r => !(Event.issueInsert c id).deletes s r := by
      intro hno heq
      exact ⟨hno, fun k => by rw [heq]; exact (filter_keep _).symm⟩
    rcases hc : s.calls c with _ | ⟨q | ⟨p, row⟩⟩
    · refine Or.inr (hkeep ?_ (by simp [step, hc]))
      rintro c' q row ⟨he, hq, _⟩
      cases he
      rw [hc] at hq; cases hq
    · cases id with
      | none => exact Or.inr (hkeep (fun _ _ _ => not_inserts rfl) (by simp [step, hc]))
      | some id =>
        rcases rows_insert (B := B) hc id with ⟨hfree, hget⟩ | ⟨⟨r, hr⟩, heq⟩
        · exact Or.inl ⟨c, q, q.row B id, ⟨rfl, hc, rfl, hfree⟩, hget⟩
        · refine Or.inr (hkeep ?_ heq)
          rintro c' q' row ⟨he, _, _, hfree⟩
          cases he
          rw [hr] at hfree; cases hfree
    · refine Or.inr (hkeep ?_ (by simp [step, hc]))
      rintro c' q row ⟨he, hq, _⟩
      cases he
      rw [hc] at hq; cases hq
  | issueClear c subject ttl nowDeadline nowCreated secret =>
    refine Or.inr ⟨fun _ _ _ => not_inserts rfl, fun k => ?_⟩
    cases hc : s.calls c with
    | some call => simp [step, Event.deletes, hc]
    | none =>
      cases hb : beginIssue subject ttl nowDeadline nowCreated secret with
      | error e => simp [step, Event.deletes, hc, hb, Except.toBool]
      | ok q => simp [step, Event.deletes, hc, hb, Except.toBool, deleteFor]
  | consumeFind c presented now =>
    refine Or.inr ⟨fun _ _ _ => not_inserts rfl, fun k => ?_⟩
    cases hc : s.calls c with
    | some call => simp [step, Event.deletes, hc]
    | none => cases hm : matchLive B s.rows presented now <;> simp [step, Event.deletes, hc, hm]
  | consumeSpend c =>
    refine Or.inr ⟨fun _ _ _ => not_inserts rfl, fun k => ?_⟩
    rcases hc : s.calls c with _ | ⟨q | ⟨p, row⟩⟩ <;> simp [step, Event.deletes, hc, deleteFor]
  | revokeAllFor subject =>
    refine Or.inr ⟨fun _ _ _ => not_inserts rfl, fun k => ?_⟩
    simp [step, Event.deletes, deleteFor]
  | sweepExpired now =>
    refine Or.inr ⟨fun _ _ _ => not_inserts rfl, fun k => ?_⟩
    simp [step, Event.deletes, deleteExpired]
  | fail c =>
    refine Or.inr ⟨fun _ _ _ => not_inserts rfl, fun k => ?_⟩
    simp [step, Event.deletes]

/-! ### What a statement does to the calls -/

/-- The statement is the `DELETE_FOR` that starts the issue call `c`. -/
def Starts (c : ℕ) (q : Issuing) (s : State) (e : Event) : Prop :=
  ∃ subject ttl nowDeadline nowCreated secret,
    e = .issueClear c subject ttl nowDeadline nowCreated secret ∧ s.calls c = none ∧
      beginIssue subject ttl nowDeadline nowCreated secret = .ok q

/-- The statement is the `FIND_LIVE` of the consume call `c`, which matched `row`. -/
def Matches (B : Backend) (c : ℕ) (p : Str) (row : ResetRow) (s : State) (e : Event) : Prop :=
  ∃ now, e = .consumeFind c p now ∧ s.calls c = none ∧ matchLive B s.rows p now = some row

/-- The call a statement belongs to. -/
def Event.call : Event → Option ℕ
  | .issueClear c _ _ _ _ _ | .issueInsert c _ | .consumeFind c _ _ | .consumeSpend c | .fail c =>
    some c
  | .revokeAllFor _ | .sweepExpired _ => none

/-- A statement leaves the other calls as they were. -/
theorem calls_other (h : e.call ≠ some c) : (step B s e).1.calls c = s.calls c := by
  cases e with
  | issueClear c' subject ttl nowDeadline nowCreated secret =>
    have hcc : c ≠ c' := fun heq => h (heq ▸ rfl)
    simp only [step]
    split
    · rfl
    · split
      · rfl
      · exact Function.update_of_ne hcc _ _
  | issueInsert c' id =>
    have hcc : c ≠ c' := fun heq => h (heq ▸ rfl)
    simp only [step]
    split
    · exact Function.update_of_ne hcc _ _
    · split
      · exact Function.update_of_ne hcc _ _
      · split <;> exact Function.update_of_ne hcc _ _
    · rfl
  | consumeFind c' presented now =>
    have hcc : c ≠ c' := fun heq => h (heq ▸ rfl)
    simp only [step]
    split
    · rfl
    · split
      · rfl
      · exact Function.update_of_ne hcc _ _
  | consumeSpend c' =>
    have hcc : c ≠ c' := fun heq => h (heq ▸ rfl)
    simp only [step]
    split
    · exact Function.update_of_ne hcc _ _
    · rfl
  | revokeAllFor subject => rfl
  | sweepExpired now => rfl
  | fail c' =>
    have hcc : c ≠ c' := fun heq => h (heq ▸ rfl)
    exact Function.update_of_ne hcc _ _

/-- What a statement makes of the call `c`. -/
theorem calls_step (B : Backend) (s : State) (e : Event) (c : ℕ) :
    (step B s e).1.calls c = s.calls c ∨ (step B s e).1.calls c = none ∨
    (∃ q, (step B s e).1.calls c = some (.issuing q) ∧ Starts c q s e) ∨
    (∃ q, s.calls c = some (.issuing q) ∧
      (step B s e).1.calls c = some (.issuing { q with left := q.left - 1 })) ∨
    (∃ p row, (step B s e).1.calls c = some (.consuming p row) ∧ Matches B c p row s e) := by
  by_cases hown : e.call = some c
  swap
  · exact Or.inl (calls_other hown)
  cases e with
  | issueClear c' subject ttl nowDeadline nowCreated secret =>
    cases hown
    cases hc : s.calls c with
    | some call => exact Or.inl (by simp [step, hc])
    | none =>
      cases hb : beginIssue subject ttl nowDeadline nowCreated secret with
      | error e => exact Or.inl (by simp [step, hc, hb])
      | ok q =>
        refine Or.inr (Or.inr (Or.inl ⟨q, by simp [step, hc, hb, State.await], ?_⟩))
        exact ⟨_, _, _, _, _, rfl, hc, hb⟩
  | issueInsert c' id =>
    cases hown
    rcases hc : s.calls c with _ | ⟨q | ⟨p, row⟩⟩
    · exact Or.inl (by simp [step, hc])
    · cases id with
      | none => exact Or.inr (Or.inl (by simp [step, hc, State.finish]))
      | some id =>
        simp only [step, hc]
        cases hi : insertNew s.rows (q.row B id) with
        | some t => exact Or.inr (Or.inl (by simp [State.finish]))
        | none =>
          by_cases hl : q.left ≤ 1
          · exact Or.inr (Or.inl (by simp [State.finish, hl]))
          · exact Or.inr (Or.inr (Or.inr (Or.inl ⟨q, rfl, by simp [State.await, hl]⟩)))
    · exact Or.inl (by simp [step, hc])
  | consumeFind c' presented now =>
    cases hown
    cases hc : s.calls c with
    | some call => exact Or.inl (by simp [step, hc])
    | none =>
      cases hm : matchLive B s.rows presented now with
      | none => exact Or.inl (by simp [step, hc, hm])
      | some row =>
        refine Or.inr (Or.inr (Or.inr (Or.inr
          ⟨presented, row, by simp [step, hc, hm, State.await], ?_⟩)))
        exact ⟨now, rfl, hc, hm⟩
  | consumeSpend c' =>
    cases hown
    rcases hc : s.calls c with _ | ⟨q | ⟨p, row⟩⟩
    · exact Or.inl (by simp [step, hc])
    · exact Or.inl (by simp [step, hc])
    · exact Or.inr (Or.inl (by simp [step, hc, State.finish]))
  | fail c' =>
    cases hown
    exact Or.inr (Or.inl (by simp [step, State.finish]))
  | revokeAllFor subject => cases hown
  | sweepExpired now => cases hown

/-- A consume in flight was in flight already, or this statement is its `FIND_LIVE`. -/
theorem consuming_step {p : Str} {row : ResetRow}
    (h : (step B s e).1.calls c = some (.consuming p row)) :
    s.calls c = some (.consuming p row) ∨ Matches B c p row s e := by
  rcases calls_step B s e c with hs | hn | ⟨q, hq, _⟩ | ⟨q, _, hq⟩ | ⟨p', row', hm, hf⟩
  · exact Or.inl (hs ▸ h)
  · rw [hn] at h; cases h
  · rw [hq] at h; cases h
  · rw [hq] at h; cases h
  · rw [hm] at h; cases h
    exact Or.inr hf

/-- An issue in flight was in flight already, a retry aside, or this statement starts it. -/
theorem issuing_step {q : Issuing} (h : (step B s e).1.calls c = some (.issuing q)) :
    (∃ q₀, s.calls c = some (.issuing q₀) ∧ q₀.subject = q.subject ∧ q₀.secret = q.secret) ∨
      Starts c q s e := by
  rcases calls_step B s e c with hs | hn | ⟨q', hq, hst⟩ | ⟨q₀, hq₀, hq⟩ | ⟨p', row', hm, _⟩
  · exact Or.inl ⟨q, hs ▸ h, rfl, rfl⟩
  · rw [hn] at h; cases h
  · rw [hq] at h; cases h
    exact Or.inr hst
  · rw [hq] at h; cases h
    exact Or.inl ⟨q₀, hq₀, rfl, rfl⟩
  · rw [hm] at h; cases h

theorem matchLive_eq_some {t : ResetTable} {p : Str} {now : ℤ} {row : ResetRow}
    (h : matchLive B t p now = some row) :
    ∃ id secret, parsePlaintext p = some (id, secret) ∧ t.get? id = some row ∧ row.id = id ∧
      now < row.expiresAt ∧ B.digestOf secret = row.secretDigest := by
  obtain ⟨⟨id, secret⟩, hp, h⟩ := Option.bind_eq_some_iff.mp h
  obtain ⟨h, hd⟩ := Option.filter_eq_some_iff.mp h
  obtain ⟨hg, he⟩ := Option.filter_eq_some_iff.mp h
  exact ⟨id, secret, hp, hg, Table.key_of_get? hg, by simpa using he, by simpa using hd⟩

/-- The plaintext of a link is accepted exactly while its row is there and live. -/
theorem matchLive_format (t : ResetTable) (id : PublicId) (secret : Secret) (now : ℤ) :
    matchLive B t (formatPlaintext id secret) now =
      (t.get? id).filter fun r => now < r.expiresAt ∧ B.digestOf secret = r.secretDigest := by
  rw [matchLive, parsePlaintext, formatPlaintext, parseHalves_format]
  simp only [Option.bind_some, findLive]
  cases t.get? id with
  | none => rfl
  | some r => by_cases h : now < r.expiresAt <;> simp [Option.filter, h]

/-! ### Where rows come from -/

theorem drawnId_of_inserts {q : Issuing} {row : ResetRow} (h : Inserts B c q row s e) :
    e.drawnId = some row.id := by
  obtain ⟨rfl, _⟩ := h
  rfl

/-- A row that was not there before a statement is the one the statement inserted. -/
theorem row_step {k : PublicId} {r : ResetRow} (h : (step B s e).1.rows.get? k = some r) :
    s.rows.get? k = some r ∨ (k = r.id ∧ ∃ c q, Inserts B c q r s e) := by
  rcases rows_step B s e with ⟨c, q, row, hins, hget⟩ | ⟨_, hget⟩
  · rw [hget] at h
    split at h
    · rename_i hk
      cases h
      exact Or.inr ⟨hk, c, q, hins⟩
    · exact Or.inl h
  · rw [hget] at h
    exact Or.inl (Option.filter_eq_some_iff.mp h).1

/-- Every row of the table was inserted by a statement of the run. -/
theorem inserted_of_get? : ∀ (es : List Event) {k : PublicId} {r : ResetRow},
    ((store B).run es).rows.get? k = some r →
      ∃ n c q, (store B).Fires es n (Inserts B c q r) := by
  intro es
  induction es using List.reverseRecOn with
  | nil => intro k r h; cases h
  | append_singleton es e ih =>
    intro k r h
    rw [Machine.run_concat] at h
    rcases row_step h with h | ⟨_, c, q, hins⟩
    · obtain ⟨n, c, q, hn⟩ := ih h
      exact ⟨n, c, q, Machine.fires_concat.mpr (Or.inl hn)⟩
    · exact ⟨es.length, c, q, Machine.fires_last.mpr hins⟩

/-- A consume in flight matched a row that a statement of the run inserted. -/
theorem inserted_of_consuming : ∀ (es : List Event) {c : ℕ} {p : Str} {r : ResetRow},
    ((store B).run es).calls c = some (.consuming p r) →
      ∃ secret, parsePlaintext p = some (r.id, secret) ∧
        ∃ n c q, (store B).Fires es n (Inserts B c q r) := by
  intro es
  induction es using List.reverseRecOn with
  | nil => intro c p r h; cases h
  | append_singleton es e ih =>
    intro c p r h
    rw [Machine.run_concat] at h
    rcases consuming_step h with h | ⟨now, _, _, hm⟩
    · obtain ⟨secret, hp, n, c, q, hn⟩ := ih h
      exact ⟨secret, hp, n, c, q, Machine.fires_concat.mpr (Or.inl hn)⟩
    · obtain ⟨id, secret, hp, hr, rfl, _⟩ := matchLive_eq_some hm
      obtain ⟨n, c, q, hn⟩ := inserted_of_get? es hr
      exact ⟨secret, hp, n, c, q, Machine.fires_concat.mpr (Or.inl hn)⟩

/-- An id that is drawn once is inserted once: a row that left the table stays out. -/
theorem stays_out {es : List Event} (hid : (es.filterMap Event.drawnId).Nodup) {k : PublicId}
    {i j : ℕ} (hij : i ≤ j) (hj : j ≤ es.length)
    (hdrawn : ∃ n, n < i ∧ ∃ e, es[n]? = some e ∧ e.drawnId = some k)
    (hi : ((store B).run (es.take i)).rows.get? k = none) :
    ((store B).run (es.take j)).rows.get? k = none := by
  by_contra hne
  obtain ⟨m, him, _, e, he, hbefore, hafter⟩ := Machine.crossing (m := store B)
    (Q := fun s => s.rows.get? k ≠ none) hij hj (not_not.mpr hi) hne
  obtain ⟨n, hn, e', he', hk⟩ := hdrawn
  obtain ⟨r, hr⟩ := Option.ne_none_iff_exists'.mp hafter
  rcases row_step hr with h | ⟨rfl, c, q, hins⟩
  · rw [not_not.mp hbefore] at h; cases h
  · have := Machine.eq_of_drawn hid he' he hk (drawnId_of_inserts hins)
    omega

end Arcature.Auth.Reset
