import Arcature.Auth.Plaintext
import Arcature.Lib.Machine
import Arcature.Lib.Table

/-! The remember-me store (`auth/flows/remember/store.rs`, `remember/token.rs` and the statements of
    `remember/dialect/postgres.rs`) with any number of calls in flight.

    As in the reset store, an event is one statement of one call with the local code around it.
    `present` reads, judges what it read, and then runs at most one more statement:

        FIND_LIVE ──▶ no row                              Unrecognised
                 ──▶ current secret    ──▶ ROTATE (CAS)   Accepted, a replacement if a row changed
                 ──▶ retired, in grace                    Accepted, no replacement
                 ──▶ neither           ──▶ DELETE_FOR     Theft -/

namespace Arcature.Auth.Remember
open Arcature.Lib

/-- One row of `arcature_remember_tokens`. -/
structure RememberRow where
  series : PublicId
  secretDigest : Digest
  previousDigest : Option Digest
  rotatedAt : Option ℤ
  subject : String
  expiresAt : ℤ
  createdAt : ℤ
  deriving DecidableEq

/-- `series` is the primary key. -/
abbrev schema : Schema RememberRow PublicId := ⟨RememberRow.series, fun _ => true⟩

/-- The table of tokens. -/
abbrev RememberTable := Table schema

/-- The store: what it is built over, and the width of its grace window. -/
structure RememberTokens where
  backend : Backend
  grace : Duration

/-- The fixed opening of a remember-me plaintext. -/
def rememberTokenPrefix : Str := "arcrmb_".toList

/-- `format_plaintext`. -/
def formatPlaintext (series : PublicId) (secret : Secret) : Str :=
  formatHalves rememberTokenPrefix series secret

/-- `parse_plaintext`. -/
def parsePlaintext (presented : Str) : Option (PublicId × Secret) :=
  parseHalves rememberTokenPrefix presented

/-- A series and a secret have one spelling: what is minted from them parses, and nothing else does. -/
theorem plaintext_unique :
    (∀ series secret, parsePlaintext (formatPlaintext series secret) = some (series, secret)) ∧
      ∀ s series secret, parsePlaintext s = some (series, secret) → s = formatPlaintext series secret :=
  ⟨parseHalves_format rememberTokenPrefix, fun _ _ _ h => format_of_parseHalves h⟩

/-! ### The statements -/

/-- `INSERT_NEW`: `none` when the series is taken. -/
def insertNew (t : RememberTable) (row : RememberRow) : Option RememberTable := t.insert? row

/-- The row `FIND_LIVE` reads, at server time `now`. -/
def findLive (t : RememberTable) (series : PublicId) (now : ℤ) : Option RememberRow :=
  (t.get? series).filter fun r => now < r.expiresAt

/-- The third column of `FIND_LIVE`: the last rotation is later than the grace cutoff. -/
def rotationIsRecent (cutoff : ℤ) (r : RememberRow) : Bool :=
  match r.rotatedAt with
  | some at' => cutoff < at'
  | none => false

/-- The `WHERE` of `ROTATE`. -/
def rotatable (series : PublicId) (expected : Digest) (r : RememberRow) : Bool :=
  r.series = series && r.secretDigest = expected

/-- The `SET` list of `ROTATE`. -/
def rotateSet (next : Digest) (rotatedAt : ℤ) : SafeSetList schema where
  fn r := { r with previousDigest := some r.secretDigest, secretDigest := next, rotatedAt := some rotatedAt }
  key _ := rfl
  check _ h := h

/-- `ROTATE`, with the affected-row count. -/
def rotateRow (t : RememberTable) (next : Digest) (rotatedAt : ℤ) (series : PublicId)
    (expected : Digest) : RememberTable × ℕ :=
  (t.modify (rotatable series expected) (rotateSet next rotatedAt),
    t.affected (rotatable series expected))

/-- `DELETE_SERIES`, with the affected-row count. -/
def deleteSeries (t : RememberTable) (series : PublicId) : RememberTable × ℕ :=
  (t.delete fun r => r.series = series, t.affected fun r => r.series = series)

/-- `DELETE_FOR`, with the affected-row count. -/
def deleteFor (t : RememberTable) (subject : String) : RememberTable × ℕ :=
  (t.delete fun r => r.subject = subject, t.affected fun r => r.subject = subject)

/-- `DELETE_EXPIRED`, at server time `now`. -/
def deleteExpired (t : RememberTable) (now : ℤ) : RememberTable × ℕ :=
  (t.delete fun r => r.expiresAt ≤ now, t.affected fun r => r.expiresAt ≤ now)

/-! ### The calls -/

/-- How many fresh series `issue` tries. -/
def issueAttempts : ℕ := 8

/-- Why a call fails before or between its statements. -/
inductive Error where
  | entropy
  | expiry (ttl : Duration)
  | seriesCollision (attempts : ℕ)
  deriving DecidableEq

/-- What an `issue` holds while it tries series. -/
structure Issuing where
  subject : String
  secret : Secret
  expiresAt : Instant
  createdAt : Instant
  left : ℕ
  deriving DecidableEq

/-- The local code of `issue` before its first statement; the two clock readings are its own. -/
def beginIssue (subject : String) (ttl : Duration) (nowDeadline nowCreated : Instant)
    (secret : Option Secret) : Except Error Issuing :=
  match deadline nowDeadline ttl with
  | none => .error (.expiry ttl)
  | some expiresAt =>
    match secret with
    | none => .error .entropy
    | some secret => .ok ⟨subject, secret, expiresAt, nowCreated, issueAttempts⟩

/-- The row an `issue` inserts under the series it drew. -/
def Issuing.row (B : Backend) (q : Issuing) (series : PublicId) : RememberRow :=
  ⟨series, B.digestOf q.secret, none, none, q.subject, B.storedTime q.expiresAt,
    B.storedTime q.createdAt⟩

/-- The instant a rotation must be after to be inside the grace window; both fallbacks mean that
    everything is. -/
def RememberTokens.graceCutoff (R : RememberTokens) (now : Instant) : Instant :=
  (Clock.checkedSub now ((Clock.fromStd R.grace).getD Clock.deltaMax)).getD Clock.minUtc

/-- What `present` makes of the row it read. -/
inductive Verdict where
  | unrecognised
  | current (row : RememberRow)
  | graced (row : RememberRow)
  | neither (row : RememberRow)
  deriving DecidableEq

/-- The first half of `present`: parse, read, compare both digests. An absent previous digest is
    compared as thirty-two zero bytes. -/
def judge (R : RememberTokens) (t : RememberTable) (presented : Str) (nowServer : ℤ)
    (nowGrace : Instant) : Verdict :=
  match parsePlaintext presented with
  | none => .unrecognised
  | some (series, secret) =>
    match findLive t series nowServer with
    | none => .unrecognised
    | some row =>
      let presentedDigest := R.backend.digestOf secret
      let retired := row.previousDigest.getD (.fill 32 0)
      if presentedDigest = row.secretDigest then .current row
      else if presentedDigest = retired ∧
          rotationIsRecent (R.backend.storedTime (R.graceCutoff nowGrace)) row then .graced row
      else .neither row

/-- A call between two of its statements. -/
inductive Call where
  | issuing (q : Issuing)
  /-- About to `ROTATE` the series away from the digest that was read with `row`. -/
  | rotating (presented : Str) (row : RememberRow)
  /-- About to delete every token of the subject. -/
  | cascading (subject : String)
  deriving DecidableEq

/-- The table and the calls in flight. -/
structure State where
  rows : RememberTable
  calls : ℕ → Option Call

/-- The call `c` is over. -/
def State.finish (s : State) (c : ℕ) (rows : RememberTable) : State :=
  ⟨rows, Function.update s.calls c none⟩

/-- The call `c` waits for its next statement. -/
def State.await (s : State) (c : ℕ) (call : Call) (rows : RememberTable) : State :=
  ⟨rows, Function.update s.calls c (some call)⟩

/-- One statement of one call; `c` names the call. -/
inductive Event where
  /-- `issue` up to its first `INSERT_NEW`. -/
  | issue (c : ℕ) (subject : String) (ttl : Duration) (nowDeadline nowCreated : Instant)
      (secret : Option Secret) (series : Option PublicId)
  /-- A further `INSERT_NEW` of an `issue` whose series was taken. -/
  | issueAgain (c : ℕ) (series : Option PublicId)
  | presentFind (c : ℕ) (presented : Str) (nowServer : ℤ) (nowGrace : Instant)
  | presentRotate (c : ℕ) (next : Option Secret) (now : Instant)
  | presentCascade (c : ℕ)
  | revoke (presented : Str)
  | revokeAllFor (subject : String)
  | sweepExpired (now : ℤ)
  /-- The call's connection or its future is dropped. -/
  | fail (c : ℕ)

/-- What `present` returns. -/
inductive RememberOutcome where
  | unrecognised
  | accepted (subject : String) (replacement : Option Str)
  | theft (subject : String)
  deriving DecidableEq

/-- What the call answers, if this statement was its last. -/
inductive Answer where
  | pending
  | issued (subject : String) (expiresAt : Instant) (plaintext : Str)
  | failed (e : Error)
  | outcome (o : RememberOutcome)
  | revoked (b : Bool)
  | deleted (rows : ℕ)
  deriving DecidableEq

/-- One turn of the loop of `issue`. -/
def tryInsert (R : RememberTokens) (s : State) (c : ℕ) (q : Issuing) :
    Option PublicId → State × Answer
  | none => (s.finish c s.rows, .failed .entropy)
  | some series =>
    match insertNew s.rows (q.row R.backend series) with
    | some t => (s.finish c t, .issued q.subject q.expiresAt (formatPlaintext series q.secret))
    | none =>
      if q.left ≤ 1 then (s.finish c s.rows, .failed (.seriesCollision issueAttempts))
      else (s.await c (.issuing { q with left := q.left - 1 }) s.rows, .pending)

/-- Run one statement. An event whose call is not at that statement does nothing. -/
def step (R : RememberTokens) (s : State) : Event → State × Answer
  | .issue c subject ttl nowDeadline nowCreated secret series =>
    match s.calls c with
    | some _ => (s, .pending)
    | none =>
      match beginIssue subject ttl nowDeadline nowCreated secret with
      | .error e => (s, .failed e)
      | .ok q => tryInsert R s c q series
  | .issueAgain c series =>
    match s.calls c with
    | some (.issuing q) => tryInsert R s c q series
    | _ => (s, .pending)
  | .presentFind c presented nowServer nowGrace =>
    match s.calls c with
    | some _ => (s, .pending)
    | none =>
      match judge R s.rows presented nowServer nowGrace with
      | .unrecognised => (s, .outcome .unrecognised)
      | .current row => (s.await c (.rotating presented row) s.rows, .pending)
      | .graced row => (s, .outcome (.accepted row.subject none))
      | .neither row => (s.await c (.cascading row.subject) s.rows, .pending)
  | .presentRotate c next now =>
    match s.calls c, next with
    | some (.rotating _ _), none => (s.finish c s.rows, .failed .entropy)
    | some (.rotating _ row), some next =>
      let (t, rotated) := rotateRow s.rows (R.backend.digestOf next) (R.backend.storedTime now)
        row.series row.secretDigest
      (s.finish c t, .outcome (.accepted row.subject
        (if rotated = 0 then none else some (formatPlaintext row.series next))))
    | _, _ => (s, .pending)
  | .presentCascade c =>
    match s.calls c with
    | some (.cascading subject) =>
      (s.finish c (deleteFor s.rows subject).1, .outcome (.theft subject))
    | _ => (s, .pending)
  | .revoke presented =>
    match parsePlaintext presented with
    | none => (s, .revoked false)
    | some (series, _) =>
      let (t, n) := deleteSeries s.rows series
      (⟨t, s.calls⟩, .revoked (n > 0))
  | .revokeAllFor subject =>
    let (t, n) := deleteFor s.rows subject
    (⟨t, s.calls⟩, .deleted n)
  | .sweepExpired now =>
    let (t, n) := deleteExpired s.rows now
    (⟨t, s.calls⟩, .deleted n)
  | .fail c => (s.finish c s.rows, .pending)

/-- The store, from an empty table and no calls. -/
def store (R : RememberTokens) : Machine State Event Answer :=
  ⟨⟨Table.empty, fun _ => none⟩, step R⟩

/-! ### The vocabulary of a run -/

/-- The series a statement draws. -/
def Event.drawnSeries : Event → Option PublicId
  | .issue _ _ _ _ _ _ series | .issueAgain _ series => series
  | _ => none

/-- The secret a statement draws. -/
def Event.drawnSecret : Event → Option Secret
  | .issue _ _ _ _ _ secret _ => secret
  | .presentRotate _ next _ => next
  | _ => none

/-- The statement starts the issue `q` and inserts its row under `series`. -/
def Inserts (q : Issuing) (series : PublicId) (s : State) (e : Event) : Prop :=
  s.rows.get? series = none ∧
  ((∃ c subject ttl nowDeadline nowCreated secret,
      e = .issue c subject ttl nowDeadline nowCreated secret (some series) ∧ s.calls c = none ∧
        beginIssue subject ttl nowDeadline nowCreated secret = .ok q) ∨
    ∃ c, e = .issueAgain c (some series) ∧ s.calls c = some (.issuing q))

/-- The statement is the `ROTATE` of call `c`, which drew `next` at `now`. -/
def Swaps (c : ℕ) (presented : Str) (row : RememberRow) (next : Secret) (now : Instant) (s : State)
    (e : Event) : Prop :=
  e = .presentRotate c (some next) now ∧ s.calls c = some (.rotating presented row)

/-- Whether the statement deletes a row. -/
def Event.deletes (s : State) : Event → RememberRow → Bool
  | .presentCascade c, r =>
    match s.calls c with
    | some (.cascading subject) => r.subject = subject
    | _ => false
  | .revoke presented, r =>
    match parsePlaintext presented with
    | some (series, _) => r.series = series
    | none => false
  | .revokeAllFor subject, r => r.subject = subject
  | .sweepExpired now, r => r.expiresAt ≤ now
  | _, _ => false

/-! ### What a statement does to the table -/

variable {R : RememberTokens} {s : State} {e : Event} {c : ℕ}

@[simp] theorem rows_finish (s : State) (c : ℕ) (t : RememberTable) : (s.finish c t).rows = t := rfl

@[simp] theorem rows_await (s : State) (c : ℕ) (call : Call) (t : RememberTable) :
    (s.await c call t).rows = t := rfl

theorem filter_keep (r : Option RememberRow) : r.filter (fun _ => true) = r := by
  cases r <;> rfl

theorem not_inserts {q : Issuing} {series : PublicId} (h : e.drawnSeries = none) :
    ¬ Inserts q series s e := by
  rintro ⟨_, ⟨_, _, _, _, _, _, rfl, _⟩ | ⟨_, rfl, _⟩⟩ <;> cases h

theorem drawnSeries_of_inserts {q : Issuing} {series : PublicId} (h : Inserts q series s e) :
    e.drawnSeries = some series := by
  obtain ⟨_, ⟨_, _, _, _, _, _, rfl, _⟩ | ⟨_, rfl, _⟩⟩ := h <;> rfl

/-- One turn of `issue`: the series was free and the row is added, or nothing changes. -/
theorem rows_tryInsert (R : RememberTokens) (s : State) (c : ℕ) (q : Issuing) (series : PublicId) :
    (s.rows.get? series = none ∧ ∀ k, (tryInsert R s c q (some series)).1.rows.get? k =
      if k = series then some (q.row R.backend series) else s.rows.get? k) ∨
    ((∃ r, s.rows.get? series = some r) ∧
      (tryInsert R s c q (some series)).1.rows = s.rows) := by
  simp only [tryInsert]
  cases hi : insertNew s.rows (q.row R.backend series) with
  | some t =>
    left
    exact ⟨Table.free_of_insert? hi, fun k => Table.get?_insert? hi k⟩
  | none =>
    right
    rcases Table.insert?_eq_none.mp hi with hr | hcheck
    · refine ⟨hr, ?_⟩
      by_cases hl : q.left ≤ 1 <;> simp [hl]
    · cases hcheck

/-- A statement that inserts nothing and rotates nothing keeps the rows it does not delete. -/
def Keeps (R : RememberTokens) (s : State) (e : Event) : Prop :=
  (∀ q series, ¬ Inserts q series s e) ∧ (∀ c p row next now, ¬ Swaps c p row next now s e) ∧
    ∀ k, (step R s e).1.rows.get? k = (s.rows.get? k).filter fun r => !e.deletes s r

/-- The shape of `Inserts` for a turn of `issue` whose call and issue are known. -/
theorem rows_turn {q : Issuing} (series : Option PublicId)
    (hstep : step R s e = tryInsert R s c q series)
    (hins : ∀ k, series = some k → s.rows.get? k = none → Inserts q k s e)
    (hdraw : e.drawnSeries = series) (hswap : ∀ c p row next now, ¬ Swaps c p row next now s e)
    (hdel : ∀ r, e.deletes s r = false) :
    (∃ q series, Inserts q series s e ∧ ∀ k, (step R s e).1.rows.get? k =
      if k = series then some (q.row R.backend series) else s.rows.get? k) ∨ Keeps R s e := by
  have hkeep : (∀ q series, ¬ Inserts q series s e) → (step R s e).1.rows = s.rows → Keeps R s e := by
    intro hno heq
    refine ⟨hno, hswap, fun k => ?_⟩
    rw [heq]
    simp only [hdel, Bool.not_false, filter_keep]
  cases series with
  | none => exact Or.inr (hkeep (fun _ _ => not_inserts hdraw) (by rw [hstep]; rfl))
  | some series =>
    rcases rows_tryInsert R s c q series with ⟨hfree, hget⟩ | ⟨⟨r, hr⟩, heq⟩
    · exact Or.inl ⟨q, series, hins series rfl hfree, by rw [hstep]; exact hget⟩
    · refine Or.inr (hkeep (fun q' series' h => ?_) (by rw [hstep]; exact heq))
      have hs := drawnSeries_of_inserts h
      rw [hdraw] at hs
      cases hs
      rw [h.1] at hr; cases hr

/-- A statement inserts one row, or rotates one, or keeps those it does not delete. -/
theorem rows_step (R : RememberTokens) (s : State) (e : Event) :
    (∃ q series, Inserts q series s e ∧ ∀ k, (step R s e).1.rows.get? k =
      if k = series then some (q.row R.backend series) else s.rows.get? k) ∨
    (∃ c p row next now, Swaps c p row next now s e ∧ ∀ k, (step R s e).1.rows.get? k =
      (s.rows.get? k).map fun r => if rotatable row.series row.secretDigest r then
        (rotateSet (R.backend.digestOf next) (R.backend.storedTime now)).fn r else r) ∨
    Keeps R s e := by
  have hnoswap : ∀ {e : Event}, (∀ c next now, e ≠ .presentRotate c next now) →
      ∀ c p row next now, ¬ Swaps c p row next now s e := by
    rintro e he c p row next now ⟨rfl, _⟩
    exact he c (some next) now rfl
  cases e with
  | issue c subject ttl nowDeadline nowCreated secret series =>
    have hswap := hnoswap (e := .issue c subject ttl nowDeadline nowCreated secret series) (by simp)
    cases hc : s.calls c with
    | some call =>
      refine Or.inr (Or.inr ⟨?_, hswap, fun k => ?_⟩)
      · rintro q k ⟨_, ⟨_, _, _, _, _, _, he, hnone, _⟩ | ⟨_, he, _⟩⟩ <;> cases he
        rw [hc] at hnone; cases hnone
      · simp [step, hc, Event.deletes, filter_keep]
    | none =>
      cases hb : beginIssue subject ttl nowDeadline nowCreated secret with
      | error err =>
        refine Or.inr (Or.inr ⟨?_, hswap, fun k => ?_⟩)
        · rintro q k ⟨_, ⟨_, _, _, _, _, _, he, _, hok⟩ | ⟨_, he, _⟩⟩ <;> cases he
          rw [hb] at hok; cases hok
        · simp [step, hc, hb, Event.deletes, filter_keep]
      | ok q =>
        refine (rows_turn (c := c) (q := q) series (by simp [step, hc, hb]) ?_ rfl hswap
          (fun _ => rfl)).imp_right Or.inr
        rintro k rfl hfree
        exact ⟨hfree, Or.inl ⟨c, subject, ttl, nowDeadline, nowCreated, secret, rfl, hc, hb⟩⟩
  | issueAgain c series =>
    have hswap := hnoswap (e := .issueAgain c series) (by simp)
    have hidle : (∀ q, s.calls c ≠ some (.issuing q)) → Keeps R s (.issueAgain c series) := by
      intro hno
      refine ⟨?_, hswap, fun k => ?_⟩
      · rintro q k ⟨_, ⟨_, _, _, _, _, _, he, _⟩ | ⟨_, he, hq⟩⟩ <;> cases he
        exact hno q hq
      · rcases hc : s.calls c with _ | ⟨q | ⟨p, row⟩ | subject⟩ <;>
          simp_all [step, Event.deletes, filter_keep]
    rcases hc : s.calls c with _ | ⟨q | ⟨p, row⟩ | subject⟩
    · exact Or.inr (Or.inr (hidle (by simp [hc])))
    · refine (rows_turn (c := c) (q := q) series (by simp [step, hc]) ?_ rfl hswap
        (fun _ => rfl)).imp_right Or.inr
      rintro k rfl hfree
      exact ⟨hfree, Or.inr ⟨c, rfl, hc⟩⟩
    · exact Or.inr (Or.inr (hidle (by simp [hc])))
    · exact Or.inr (Or.inr (hidle (by simp [hc])))
  | presentFind c presented nowServer nowGrace =>
    refine Or.inr (Or.inr ⟨fun _ _ => not_inserts rfl, hnoswap (by simp), fun k => ?_⟩)
    cases hc : s.calls c with
    | some call => simp [step, hc, Event.deletes, filter_keep]
    | none =>
      cases hj : judge R s.rows presented nowServer nowGrace <;>
        simp [step, hc, hj, Event.deletes, filter_keep]
  | presentRotate c next now =>
    -- a call that awaits no rotation rotates nothing
    have hidle : (∀ p row, s.calls c ≠ some (.rotating p row)) → Keeps R s (.presentRotate c next now) := by
      refine fun hno => ⟨fun _ _ => not_inserts rfl, ?_, fun k => ?_⟩
      · rintro c' p row next now ⟨he, hrot⟩
        cases he
        exact hno p row hrot
      · rcases hc : s.calls c with _ | ⟨q | ⟨p, row⟩ | subject⟩ <;>
          simp_all [step, Event.deletes, filter_keep]
    right
    rcases hc : s.calls c with _ | ⟨q | ⟨p, row⟩ | subject⟩
    · exact Or.inr (hidle (by simp [hc]))
    · exact Or.inr (hidle (by simp [hc]))
    · cases next with
      | none =>
        refine Or.inr ⟨fun _ _ => not_inserts rfl, ?_,
          by simp [step, hc, Event.deletes, filter_keep]⟩
        rintro c' p row next now ⟨he, _⟩
        cases he
      | some next =>
        refine Or.inl ⟨c, p, row, next, now, ⟨rfl, hc⟩, fun k => ?_⟩
        simp [step, hc, rotateRow]
    · exact Or.inr (hidle (by simp [hc]))
  | presentCascade c =>
    refine Or.inr (Or.inr ⟨fun _ _ => not_inserts rfl, hnoswap (by simp), fun k => ?_⟩)
    rcases hc : s.calls c with _ | ⟨q | ⟨p, row⟩ | subject⟩ <;>
      simp [step, hc, Event.deletes, deleteFor, filter_keep]
  | revoke presented =>
    refine Or.inr (Or.inr ⟨fun _ _ => not_inserts rfl, hnoswap (by simp), fun k => ?_⟩)
    cases hp : parsePlaintext presented <;>
      simp [step, hp, Event.deletes, deleteSeries, filter_keep]
  | revokeAllFor subject =>
    refine Or.inr (Or.inr ⟨fun _ _ => not_inserts rfl, hnoswap (by simp), fun k => ?_⟩)
    simp [step, Event.deletes, deleteFor]
  | sweepExpired now =>
    refine Or.inr (Or.inr ⟨fun _ _ => not_inserts rfl, hnoswap (by simp), fun k => ?_⟩)
    simp [step, Event.deletes, deleteExpired]
  | fail c =>
    refine Or.inr (Or.inr ⟨fun _ _ => not_inserts rfl, hnoswap (by simp), fun k => ?_⟩)
    simp [step, Event.deletes, filter_keep]

/-! ### What a statement does to the calls -/

/-- The call a statement belongs to. -/
def Event.call : Event → Option ℕ
  | .issue c _ _ _ _ _ _ | .issueAgain c _ | .presentFind c _ _ _ | .presentRotate c _ _
  | .presentCascade c | .fail c => some c
  | .revoke _ | .revokeAllFor _ | .sweepExpired _ => none

theorem calls_tryInsert {c c' : ℕ} (hcc : c ≠ c') (q : Issuing) (series : Option PublicId) :
    (tryInsert R s c' q series).1.calls c = s.calls c := by
  cases series with
  | none => exact Function.update_of_ne hcc _ _
  | some series =>
    simp only [tryInsert]
    split
    · exact Function.update_of_ne hcc _ _
    · split <;> exact Function.update_of_ne hcc _ _

/-- A statement leaves the other calls as they were. -/
theorem calls_other (h : e.call ≠ some c) : (step R s e).1.calls c = s.calls c := by
  cases e with
  | issue c' subject ttl nowDeadline nowCreated secret series =>
    have hcc : c ≠ c' := fun heq => h (heq ▸ rfl)
    simp only [step]
    split
    · rfl
    · split
      · rfl
      · exact calls_tryInsert hcc _ _
  | issueAgain c' series =>
    have hcc : c ≠ c' := fun heq => h (heq ▸ rfl)
    simp only [step]
    split
    · exact calls_tryInsert hcc _ _
    · rfl
  | presentFind c' presented nowServer nowGrace =>
    have hcc : c ≠ c' := fun heq => h (heq ▸ rfl)
    simp only [step]
    split
    · rfl
    · split
      · rfl
      · exact Function.update_of_ne hcc _ _
      · rfl
      · exact Function.update_of_ne hcc _ _
  | presentRotate c' next now =>
    have hcc : c ≠ c' := fun heq => h (heq ▸ rfl)
    simp only [step]
    split
    · exact Function.update_of_ne hcc _ _
    · exact Function.update_of_ne hcc _ _
    · rfl
  | presentCascade c' =>
    have hcc : c ≠ c' := fun heq => h (heq ▸ rfl)
    simp only [step]
    split
    · exact Function.update_of_ne hcc _ _
    · rfl
  | revoke presented =>
    simp only [step]
    split <;> rfl
  | revokeAllFor subject => rfl
  | sweepExpired now => rfl
  | fail c' =>
    have hcc : c ≠ c' := fun heq => h (heq ▸ rfl)
    exact Function.update_of_ne hcc _ _

/-- A turn of `issue` leaves its call over, or waiting because the series was taken. -/
theorem own_tryInsert (R : RememberTokens) (s : State) (c : ℕ) (q : Issuing)
    (series : Option PublicId) :
    (tryInsert R s c q series).1.calls c = none ∨
      ∃ q' k r, (tryInsert R s c q series).1.calls c = some (.issuing q') ∧ series = some k ∧
        s.rows.get? k = some r := by
  cases series with
  | none => exact Or.inl (Function.update_self _ _ _)
  | some series =>
    simp only [tryInsert]
    cases hi : insertNew s.rows (q.row R.backend series) with
    | some t => exact Or.inl (Function.update_self _ _ _)
    | none =>
      by_cases hl : q.left ≤ 1
      · left
        simp [hl, State.finish]
      · right
        rcases Table.insert?_eq_none.mp hi with ⟨r, hr⟩ | hcheck
        · exact ⟨{ q with left := q.left - 1 }, series, r, by simp [hl, State.await], rfl, hr⟩
        · cases hcheck

/-- What a statement makes of the call `c`. -/
theorem calls_step (R : RememberTokens) (s : State) (e : Event) (c : ℕ) :
    (step R s e).1.calls c = s.calls c ∨ (step R s e).1.calls c = none ∨
    (∃ q k r, (step R s e).1.calls c = some (.issuing q) ∧ e.drawnSeries = some k ∧
      s.rows.get? k = some r) ∨
    (∃ p nowServer nowGrace row, e = .presentFind c p nowServer nowGrace ∧ s.calls c = none ∧
      ((judge R s.rows p nowServer nowGrace = .current row ∧
          (step R s e).1.calls c = some (.rotating p row)) ∨
        (judge R s.rows p nowServer nowGrace = .neither row ∧
          (step R s e).1.calls c = some (.cascading row.subject)))) := by
  by_cases hown : e.call = some c
  swap
  · exact Or.inl (calls_other hown)
  cases e with
  | issue c' subject ttl nowDeadline nowCreated secret series =>
    cases hown
    cases hc : s.calls c with
    | some call => exact Or.inl (by simp [step, hc])
    | none =>
      cases hb : beginIssue subject ttl nowDeadline nowCreated secret with
      | error err => exact Or.inl (by simp [step, hc, hb])
      | ok q =>
        have hstep : step R s (.issue c subject ttl nowDeadline nowCreated secret series) =
            tryInsert R s c q series := by simp [step, hc, hb]
        rw [hstep]
        rcases own_tryInsert R s c q series with h | ⟨q', k, r, h, hk, hr⟩
        · exact Or.inr (Or.inl h)
        · exact Or.inr (Or.inr (Or.inl ⟨q', k, r, h, hk, hr⟩))
  | issueAgain c' series =>
    cases hown
    rcases hc : s.calls c with _ | ⟨q | ⟨p, row⟩ | subject⟩
    · exact Or.inl (by simp [step, hc])
    · have hstep : step R s (.issueAgain c series) = tryInsert R s c q series := by simp [step, hc]
      rw [hstep]
      rcases own_tryInsert R s c q series with h | ⟨q', k, r, h, hk, hr⟩
      · exact Or.inr (Or.inl h)
      · exact Or.inr (Or.inr (Or.inl ⟨q', k, r, h, hk, hr⟩))
    · exact Or.inl (by simp [step, hc])
    · exact Or.inl (by simp [step, hc])
  | presentFind c' presented nowServer nowGrace =>
    cases hown
    cases hc : s.calls c with
    | some call => exact Or.inl (by simp [step, hc])
    | none =>
      cases hj : judge R s.rows presented nowServer nowGrace with
      | unrecognised => exact Or.inl (by simp [step, hc, hj])
      | graced row => exact Or.inl (by simp [step, hc, hj])
      | current row =>
        refine Or.inr (Or.inr (Or.inr ⟨presented, nowServer, nowGrace, row, rfl, rfl, Or.inl ⟨hj, ?_⟩⟩))
        simp [step, hc, hj, State.await]
      | neither row =>
        refine Or.inr (Or.inr (Or.inr ⟨presented, nowServer, nowGrace, row, rfl, rfl, Or.inr ⟨hj, ?_⟩⟩))
        simp [step, hc, hj, State.await]
  | presentRotate c' next now =>
    cases hown
    rcases hc : s.calls c with _ | ⟨q | ⟨p, row⟩ | subject⟩
    · exact Or.inl (by simp [step, hc])
    · exact Or.inl (by simp [step, hc])
    · cases next with
      | none => exact Or.inr (Or.inl (by simp [step, hc, State.finish]))
      | some next => exact Or.inr (Or.inl (by simp [step, hc, State.finish]))
    · exact Or.inl (by simp [step, hc])
  | presentCascade c' =>
    cases hown
    rcases hc : s.calls c with _ | ⟨q | ⟨p, row⟩ | subject⟩
    · exact Or.inl (by simp [step, hc])
    · exact Or.inl (by simp [step, hc])
    · exact Or.inl (by simp [step, hc])
    · exact Or.inr (Or.inl (by simp [step, hc, State.finish]))
  | fail c' =>
    cases hown
    exact Or.inr (Or.inl (by simp [step, State.finish]))
  | revoke presented => cases hown
  | revokeAllFor subject => cases hown
  | sweepExpired now => cases hown

/-- A rotation in flight was in flight already, or this statement read the row it expects. -/
theorem rotating_step {p : Str} {row : RememberRow}
    (h : (step R s e).1.calls c = some (.rotating p row)) :
    s.calls c = some (.rotating p row) ∨
      ∃ nowServer nowGrace, e = .presentFind c p nowServer nowGrace ∧ s.calls c = none ∧
        judge R s.rows p nowServer nowGrace = .current row := by
  rcases calls_step R s e c with hs | hn | ⟨q, _, _, hq, _⟩ |
    ⟨p', ns, ng, row', he, hc, ⟨hj, hr⟩ | ⟨_, hr⟩⟩
  · exact Or.inl (hs ▸ h)
  · rw [hn] at h; cases h
  · rw [hq] at h; cases h
  · rw [hr] at h; cases h
    exact Or.inr ⟨ns, ng, he, hc, hj⟩
  · rw [hr] at h; cases h

/-- An issue waits for another turn only if the series it drew was taken. -/
theorem issuing_step {q : Issuing} (h : (step R s e).1.calls c = some (.issuing q)) :
    (∃ q₀, s.calls c = some (.issuing q₀)) ∨
      ∃ k r, e.drawnSeries = some k ∧ s.rows.get? k = some r := by
  rcases calls_step R s e c with hs | hn | ⟨_, k, r, _, hk, hr⟩ |
    ⟨p', ns, ng, row', _, _, ⟨_, hr⟩ | ⟨_, hr⟩⟩
  · exact Or.inl ⟨q, hs ▸ h⟩
  · rw [hn] at h; cases h
  · exact Or.inr ⟨k, r, hk, hr⟩
  · rw [hr] at h; cases h
  · rw [hr] at h; cases h

/-! ### What `present` reads -/

/-- The verdict on a live row, by its two digests. -/
theorem judge_live {t : RememberTable} {p : Str} {series : PublicId} {secret : Secret}
    {row : RememberRow} {nowServer : ℤ} (nowGrace : Instant)
    (hp : parsePlaintext p = some (series, secret)) (hr : t.get? series = some row)
    (hlive : nowServer < row.expiresAt) :
    judge R t p nowServer nowGrace =
      if R.backend.digestOf secret = row.secretDigest then .current row
      else if R.backend.digestOf secret = row.previousDigest.getD (.fill 32 0) ∧
          rotationIsRecent (R.backend.storedTime (R.graceCutoff nowGrace)) row then .graced row
      else .neither row := by
  have hf : findLive t series nowServer = some row := by
    rw [findLive, hr]
    simp [hlive]
  simp only [judge, hp, hf]

/-- A verdict that names a row names the live one of the presented series. -/
theorem judge_row {t : RememberTable} {p : Str} {row : RememberRow} {nowServer : ℤ}
    {nowGrace : Instant} (h : judge R t p nowServer nowGrace = .current row ∨
      judge R t p nowServer nowGrace = .graced row ∨ judge R t p nowServer nowGrace = .neither row) :
    ∃ secret, parsePlaintext p = some (row.series, secret) ∧ t.get? row.series = some row ∧
      nowServer < row.expiresAt := by
  cases hp : parsePlaintext p with
  | none => simp [judge, hp] at h
  | some ss =>
    obtain ⟨series, secret⟩ := ss
    cases hf : findLive t series nowServer with
    | none => simp [judge, hp, hf] at h
    | some row' =>
      obtain ⟨hr, hlive⟩ := Option.filter_eq_some_iff.mp hf
      have hlive : nowServer < row'.expiresAt := by simpa using hlive
      have hseries : row'.series = series := Table.key_of_get? hr
      have hrow : row' = row := by
        rw [judge_live nowGrace hp hr hlive] at h
        split_ifs at h <;> simpa using h
      subst hrow
      exact ⟨secret, by rw [hseries], by rw [hseries]; exact hr, hlive⟩

theorem judge_current {t : RememberTable} {p : Str} {row : RememberRow} {nowServer : ℤ}
    {nowGrace : Instant} (h : judge R t p nowServer nowGrace = .current row) :
    ∃ secret, parsePlaintext p = some (row.series, secret) ∧ t.get? row.series = some row ∧
      R.backend.digestOf secret = row.secretDigest := by
  obtain ⟨secret, hp, hr, hlive⟩ := judge_row (Or.inl h)
  refine ⟨secret, hp, hr, ?_⟩
  rw [judge_live nowGrace hp hr hlive] at h
  split_ifs at h with hd
  exact hd

end Arcature.Auth.Remember
