import Arcature.Http.ClientIp
import Arcature.Lib.HeaderMap
import Arcature.Tokens.Plaintext

/-! The life of personal access tokens (`tokens/store.rs`, `tokens/extract.rs`).

    Calls of `issue` are under way, each between two turns of its loop, while tokens are revoked, swept and
    presented:

        issue     draw a secret ──▶ draw an id ──▶ INSERT_NEW ── one row ──▶ the token and its plaintext
                                        ▲              └── no row ──┘          (eight times: IdCollision)
        request   Authorization: Bearer plaintext ──▶ authenticate ──▶ the token, or 401

    Under every schedule a plaintext lets in exactly while a token is there that was inserted under its id with
    the digest of its secret, and neither revoked nor swept since, and before that token expires; the token is
    then the one its issuer asked for. An id is drawn again only after its token is gone, and a sweep takes
    nothing that a reader could still see (`accounted`). -/

namespace Arcature.Tokens
open Arcature.Lib

/-- A call of `issue`, between two turns of its loop. -/
structure IssueCall where
  request : NewApiToken
  secret : Secret
  createdAt : ℤ
  left : ℕ
  result : Option (Except ApiTokenError (ApiToken × Str))

/-- The table and the calls of `issue`. -/
structure Issuance where
  table : TokenTable
  calls : List IssueCall

/-- A step of some request. A call of `issue` that draws no secret has failed at once. -/
inductive TokenEvent where
  | issue (request : NewApiToken) (secret : Option Secret) (createdAt : ℤ)
  | attempt (i : ℕ) (draw : Option ApiTokenId)
  | revoke (id : ApiTokenId)
  | revokeAllFor (tokenableId : String)
  | sweepExpired (now : ℤ)

section Steps

variable (C : TextColumn) (digestOf : Secret → Digest)

/-- The statement of a turn. -/
def IssueCall.insert (call : IssueCall) (id : ApiTokenId) : records.Stmt :=
  sql C (.insertNew id (digestOf call.secret) call.request.tokenableId call.request.name call.request.abilities
    call.request.expiresAt call.createdAt)

/-- What a call returns when its insert has written a row. -/
def IssueCall.issued (call : IssueCall) (id : ApiTokenId) : ApiToken × Str :=
  (⟨id, call.request.tokenableId, call.request.name, call.request.abilities, call.request.expiresAt,
    call.createdAt⟩, formatPlaintext id call.secret)

/-- A turn of the loop of `issue`. -/
def IssueCall.attempt (t : TokenTable) (call : IssueCall) : Option ApiTokenId → TokenTable × IssueCall
  | none => (t, { call with result := some (.error .entropy) })
  | some id =>
    if t.get? id = none then
      (records.exec C t (call.insert C digestOf id), { call with result := some (.ok (call.issued id)) })
    else if call.left ≤ 1 then (t, { call with result := some (.error (.idCollision issueAttempts)) })
    else (t, { call with left := call.left - 1 })

/-- A deletion, and the number of rows it reports. -/
def Issuance.deleting (s : Issuance) (st : Statement) : Issuance × ℕ :=
  ({ s with table := records.exec C s.table (sql C st) }, (records.matched C s.table (sql C st)).length)

/-- One step. -/
def Issuance.step (s : Issuance) : TokenEvent → Issuance × ℕ
  | .issue _ none _ => (s, 0)
  | .issue request (some secret) createdAt =>
    ({ s with calls := s.calls ++ [⟨request, secret, createdAt, issueAttempts, none⟩] }, 0)
  | .attempt i draw =>
    match s.calls[i]? with
    | none => (s, 0)
    | some call =>
      if call.result.isSome then (s, 0)
      else (⟨(call.attempt C digestOf s.table draw).1, s.calls.set i (call.attempt C digestOf s.table draw).2⟩, 0)
  | .revoke id => s.deleting C (.delete id)
  | .revokeAllFor tokenableId => s.deleting C (.deleteFor tokenableId)
  | .sweepExpired now => s.deleting C (.deleteExpired now)

/-- The store, from an empty table. -/
def issuance : Machine Issuance TokenEvent ℕ := ⟨⟨Table.empty, []⟩, Issuance.step C digestOf⟩

/-! ### Requests -/

/-- `SCHEME`. -/
def bearerScheme : Str := "bearer".toList

/-- The header a token is presented in. -/
def authorization : Str := "authorization".toList

/-- What stands behind the scheme, if it is this one. -/
def credentialOf (scheme rest : Str) : Option Str :=
  if scheme.map Char.toLower ≠ bearerScheme then none
  else if rest.dropWhile Str.isWhiteSpace = [] then none
  else some (rest.dropWhile Str.isWhiteSpace)

/-- `bearer`. -/
def bearer (headers : HeaderMap Bytes) : Option Str := do
  let value ← (headers.getAll authorization).head?
  let text ← Http.toStr value
  let (scheme, rest) ← text.splitOnce ' '
  credentialOf scheme rest

/-- Why a request is turned away. -/
inductive AuthRejection where
  | misconfigured
  | unauthenticated
  | unavailable
  deriving DecidableEq

/-- The status of a rejection. -/
def AuthRejection.status : AuthRejection → ℕ
  | .misconfigured => 500
  | .unauthenticated => 401
  | .unavailable => 503

/-- `authenticate` on a database that may not answer. A text of another form is refused without it. -/
def tryAuthenticate (db : Option TokenTable) (presented : Str) (now : ℤ) : Except Unit (Option ApiToken) :=
  if parsePlaintext presented = none then .ok none
  else
    match db with
    | none => .error ()
    | some t => .ok (authenticate C digestOf t presented now)

/-- `ApiAuth::from_request_parts`, with the store if the application has one. -/
def ApiAuth.fromRequestParts (store : Option (Option TokenTable)) (headers : HeaderMap Bytes) (now : ℤ) :
    Except AuthRejection ApiToken :=
  match store with
  | none => .error .misconfigured
  | some db =>
    match bearer headers with
    | none => .error .unauthenticated
    | some presented =>
      match tryAuthenticate C digestOf db presented now with
      | .ok (some token) => .ok token
      | .ok none => .error .unauthenticated
      | .error _ => .error .unavailable

/-! ### The history of a row -/

/-- The row of a call under an id, as the columns keep it. -/
def IssueCall.row (call : IssueCall) (id : ApiTokenId) : TokenRow :=
  records.kept C ⟨id, digestOf call.secret, call.request.tokenableId, C.keep call.request.name,
    call.request.abilities, call.request.expiresAt, call.createdAt⟩

/-- A call inserts the row. -/
def Issues (row : TokenRow) (s : Issuance) (e : TokenEvent) : Prop :=
  ∃ i call, e = .attempt i (some row.id) ∧ s.calls[i]? = some call ∧ call.result = none ∧
    s.table.get? row.id = none ∧ row = call.row C digestOf row.id

/-- The row is revoked or swept, if it is there. -/
def Removes (row : TokenRow) : TokenEvent → Prop
  | .revoke id => row.id = id
  | .revokeAllFor tokenableId => C.same row.tokenableId tokenableId = true
  | .sweepExpired now => row.expiresAt ≤ now
  | _ => False

/-- The row was inserted and not removed since. -/
def Standing (es : List TokenEvent) (row : TokenRow) : Prop :=
  (issuance C digestOf).Since (Issues C digestOf row) (fun _ e => Removes C row e) es

/-- What is there to be read, who is let in, and what a call of `issue` hands out. -/
structure Accounted (es : List TokenEvent) : Prop where
  admits : ∀ headers now token,
    ApiAuth.fromRequestParts C digestOf (some (some ((issuance C digestOf).run es).table)) headers now = .ok token ↔
      ∃ value scheme spaces row secret spelling, (headers.getAll authorization).head? = some value ∧
        Http.toStr value = some (scheme ++ ' ' :: (spaces ++ spelling)) ∧
        scheme.map Char.toLower = bearerScheme ∧ (∀ c ∈ spaces, Str.isWhiteSpace c = true) ∧
        parsePlaintext spelling = some (row.id, secret) ∧ digestOf secret = row.secretDigest ∧
        Standing C digestOf es row ∧ now < row.expiresAt ∧ token = .fromRow row
  finds : ∀ id now token, find C ((issuance C digestOf).run es).table id now = some token ↔
    ∃ row, Standing C digestOf es row ∧ row.id = id ∧ now < row.expiresAt ∧ token = .fromRow row
  lists : ∀ tokenableId now token, token ∈ listFor C ((issuance C digestOf).run es).table tokenableId now ↔
    ∃ row, Standing C digestOf es row ∧ C.same row.tokenableId tokenableId = true ∧ now < row.expiresAt ∧
      token = .fromRow row
  handed : ∀ (i : ℕ) (call : IssueCall) (token : ApiToken) (plaintext : Str), ((issuance C digestOf).run es).calls[i]? = some call →
    call.result = some (.ok (token, plaintext)) →
      ∃ k, (issuance C digestOf).Fires es k (Issues C digestOf (call.row C digestOf token.id)) ∧
        (token, plaintext) = call.issued token.id ∧
        ∀ now, now < token.expiresAt → (∀ j, k < j → ∀ e, es[j]? = some e →
          ¬ Removes C (call.row C digestOf token.id) e) →
          authenticate C digestOf ((issuance C digestOf).run es).table plaintext now =
            some (.fromRow (call.row C digestOf token.id))
  reused : ∀ k k' row row', (issuance C digestOf).Fires es k (Issues C digestOf row) →
    (issuance C digestOf).Fires es k' (Issues C digestOf row') → row.id = row'.id → k < k' →
      ∃ j e, k < j ∧ j < k' ∧ es[j]? = some e ∧ Removes C row e
  swept : ∀ now now', now ≤ now' →
    (∀ presented, authenticate C digestOf ((issuance C digestOf).run (es ++ [.sweepExpired now])).table presented now' =
      authenticate C digestOf ((issuance C digestOf).run es).table presented now') ∧
    ∀ tokenableId, listFor C ((issuance C digestOf).run (es ++ [.sweepExpired now])).table tokenableId now' =
      listFor C ((issuance C digestOf).run es).table tokenableId now'
  revoked : ∀ id, 0 < (issuance C digestOf).out ((issuance C digestOf).run es) (.revoke id) ↔
    ∃ row, Standing C digestOf es row ∧ row.id = id

end Steps

section Proofs

variable {C : TextColumn} {digestOf : Secret → Digest}

/-! ### A step and a row -/

theorem get?_insert (t : TokenTable) (call : IssueCall) (id k : ApiTokenId) :
    (records.exec C t (call.insert C digestOf id)).get? k =
      if k = id ∧ t.get? id = none then some (call.row C digestOf id) else t.get? k :=
  Owned.get?_exec_insert t _ k

theorem get?_deleting {s : Issuance} {st : Statement} {scope : Option String} {p : TokenRow → Bool}
    (hst : sql C st = .delete scope p) (row : TokenRow) :
    (s.deleting C st).1.table.get? row.id = some row ↔
      s.table.get? row.id = some row ∧ records.meets C scope p row = false := by
  rw [Issuance.deleting, hst]
  change (s.table.delete (records.meets C scope p)).get? row.id = some row ↔ _
  rw [Table.get?_delete, Option.filter_eq_some_iff]
  simp

theorem issues_attempt_iff {s : Issuance} {i : ℕ} {draw : Option ApiTokenId} {row : TokenRow} :
    Issues C digestOf row s (.attempt i draw) ↔ ∃ call, draw = some row.id ∧ s.calls[i]? = some call ∧
      call.result = none ∧ s.table.get? row.id = none ∧ row = call.row C digestOf row.id := by
  constructor
  · rintro ⟨i, call, hevent, hcall⟩
    obtain ⟨rfl, rfl⟩ := TokenEvent.attempt.inj hevent
    exact ⟨call, rfl, hcall⟩
  · rintro ⟨call, rfl, hcall⟩
    exact ⟨i, call, rfl, hcall⟩

/-- A turn of a call that is under way. -/
theorem next_attempt {s : Issuance} {i : ℕ} {call : IssueCall} (draw : Option ApiTokenId)
    (hcall : s.calls[i]? = some call) (hnone : call.result = none) :
    (issuance C digestOf).next s (.attempt i draw) =
      ⟨(call.attempt C digestOf s.table draw).1, s.calls.set i (call.attempt C digestOf s.table draw).2⟩ := by
  simp [issuance, Machine.next, Issuance.step, hcall, hnone]

/-- A turn of a call that is over, or was never made. -/
theorem next_idle {s : Issuance} {i : ℕ} (draw : Option ApiTokenId)
    (hidle : ∀ call, s.calls[i]? = some call → call.result ≠ none) :
    (issuance C digestOf).next s (.attempt i draw) = s := by
  simp only [issuance, Machine.next, Issuance.step]
  cases hcall : s.calls[i]? with
  | none => rfl
  | some call =>
    simp only
    rw [if_pos (Option.isSome_iff_ne_none.mpr (hidle call hcall))]

/-- A row is there after a step if the step inserts it, or it was there and the step does not remove it. -/
theorem standing_next (s : Issuance) (e : TokenEvent) (row : TokenRow) :
    ((issuance C digestOf).next s e).table.get? row.id = some row ↔
      Issues C digestOf row s e ∨ (s.table.get? row.id = some row ∧ ¬ Removes C row e) := by
  cases e with
  | issue request secret createdAt =>
    cases secret <;> simp [issuance, Machine.next, Issuance.step, Issues, Removes]
  | attempt i draw =>
    rw [issues_attempt_iff]
    simp only [Removes, not_false_eq_true, and_true]
    by_cases hidle : ∀ call, s.calls[i]? = some call → call.result ≠ none
    · rw [next_idle draw hidle, or_iff_right]
      rintro ⟨call, -, hcall, hnone, -⟩
      exact hidle call hcall hnone
    · push Not at hidle
      obtain ⟨call, hcall, hnone⟩ := hidle
      rw [next_attempt draw hcall hnone, hcall]
      cases draw with
      | none => simp [IssueCall.attempt]
      | some id =>
        by_cases hfree : s.table.get? id = none
        · rw [IssueCall.attempt, if_pos hfree, get?_insert]
          by_cases hid : row.id = id
          · subst hid
            simp only [hfree, and_self, if_true, Option.some.injEq, true_and, reduceCtorEq, or_false]
            constructor
            · intro hrow
              exact ⟨call, rfl, hnone, hrow.symm⟩
            · rintro ⟨call', rfl, -, hrow⟩
              exact hrow.symm
          · rw [if_neg (fun h => hid h.1)]
            simp [Ne.symm hid]
        · -- the id is taken: nothing is inserted
          have hsame : (call.attempt C digestOf s.table (some id)).1 = s.table := by
            rw [IssueCall.attempt, if_neg hfree]
            split_ifs <;> rfl
          rw [hsame, or_iff_right]
          rintro ⟨call', hid, -, -, hnone', -⟩
          exact hfree (Option.some.inj hid ▸ hnone')
  | revoke id =>
    have hissues : ¬ Issues C digestOf row s (.revoke id) := by rintro ⟨_, _, hevent, -⟩; cases hevent
    refine (get?_deleting (rfl : sql C (.delete id) = .delete _ _) row).trans ?_
    simp [hissues, Removes, Owned.meets]
  | revokeAllFor tokenableId =>
    have hissues : ¬ Issues C digestOf row s (.revokeAllFor tokenableId) := by rintro ⟨_, _, hevent, -⟩; cases hevent
    refine (get?_deleting (rfl : sql C (.deleteFor tokenableId) = .delete _ _) row).trans ?_
    simp [hissues, Removes, Owned.meets]
  | sweepExpired now =>
    have hissues : ¬ Issues C digestOf row s (.sweepExpired now) := by rintro ⟨_, _, hevent, -⟩; cases hevent
    refine (get?_deleting (rfl : sql C (.deleteExpired now) = .delete _ _) row).trans ?_
    simp [hissues, Removes, Owned.meets]

/-- The rows that are there are those that stand. -/
theorem get?_iff_standing (es : List TokenEvent) (row : TokenRow) :
    ((issuance C digestOf).run es).table.get? row.id = some row ↔ Standing C digestOf es row :=
  Machine.iff_since (Q := fun s : Issuance => s.table.get? row.id = some row) (by simp [issuance])
    (fun es e => standing_next _ e row) es

/-! ### A step and a call -/

/-- A call has handed a token out before, or the step inserts the token's row. -/
theorem calls_next {s : Issuance} {e : TokenEvent} {i : ℕ} {call : IssueCall} {out : ApiToken × Str}
    (hcall : ((issuance C digestOf).next s e).calls[i]? = some call) (hout : call.result = some (.ok out)) :
    s.calls[i]? = some call ∨ ∃ id, Issues C digestOf (call.row C digestOf id) s e ∧ out = call.issued id := by
  cases e with
  | issue request secret createdAt =>
    cases secret with
    | none => exact .inl hcall
    | some secret =>
      simp only [issuance, Machine.next, Issuance.step] at hcall
      rcases lt_or_ge i s.calls.length with hi | hi
      · rw [List.getElem?_append_left hi] at hcall
        exact .inl hcall
      · rw [List.getElem?_append_right hi] at hcall
        obtain rfl := List.mem_singleton.mp (List.mem_of_getElem? hcall)
        cases hout
  | attempt j draw =>
    by_cases hidle : ∀ call, s.calls[j]? = some call → call.result ≠ none
    · rw [next_idle draw hidle] at hcall
      exact .inl hcall
    · push Not at hidle
      obtain ⟨old, hold, hnone⟩ := hidle
      rw [next_attempt draw hold hnone] at hcall
      change (s.calls.set j _)[i]? = some call at hcall
      rw [List.getElem?_set] at hcall
      by_cases hij : j = i
      · subst hij
        have hlt := (List.getElem?_eq_some_iff.mp hold).1
        rw [if_pos rfl, if_pos hlt] at hcall
        obtain rfl := Option.some.inj hcall
        -- only an insert that wrote its row gives a call such a result
        cases draw with
        | none => cases hout
        | some id =>
          simp only [IssueCall.attempt] at hout ⊢
          by_cases hfree : s.table.get? id = none
          · rw [if_pos hfree] at hout ⊢
            refine .inr ⟨id, issues_attempt_iff.mpr ⟨old, rfl, hold, hnone, hfree, rfl⟩, ?_⟩
            exact (Except.ok.inj (Option.some.inj hout)).symm
          · rw [if_neg hfree] at hout
            split_ifs at hout
            · cases hout
            · rw [hnone] at hout
              cases hout
      · rw [if_neg hij] at hcall
        exact .inl hcall
  | revoke id => exact .inl hcall
  | revokeAllFor tokenableId => exact .inl hcall
  | sweepExpired now => exact .inl hcall

/-- What a call hands out was inserted by it. -/
theorem calls_run (es : List TokenEvent) {i : ℕ} {call : IssueCall} {out : ApiToken × Str}
    (hcall : ((issuance C digestOf).run es).calls[i]? = some call) (hout : call.result = some (.ok out)) :
    ∃ k id, (issuance C digestOf).Fires es k (Issues C digestOf (call.row C digestOf id)) ∧ out = call.issued id := by
  induction es using List.reverseRecOn with
  | nil => cases hcall
  | append_singleton es e ih =>
    rw [Machine.run_concat] at hcall
    rcases calls_next hcall hout with hcall | ⟨id, hissues, rfl⟩
    · obtain ⟨k, id, hfires, rfl⟩ := ih hcall
      exact ⟨k, id, Machine.fires_concat.mpr (.inl hfires), rfl⟩
    · exact ⟨es.length, id, Machine.fires_last.mpr hissues, rfl⟩

/-! ### Reading -/

/-- A condition that pins the id reads the row under it. -/
theorem find?_eq_some_iff {t : TokenTable} {q : TokenRow → Bool} {id : ApiTokenId} {row : TokenRow}
    (hq : ∀ r, q r = true → r.id = id) :
    t.rows.find? q = some row ↔ t.get? id = some row ∧ q row = true := by
  constructor
  · intro h
    have hrow := List.find?_some h
    exact ⟨Table.get?_eq_some_iff.mpr ⟨List.mem_of_find?_eq_some h, hq row hrow⟩, hrow⟩
  · rintro ⟨hget, hrow⟩
    cases h : t.rows.find? q with
    | none => exact absurd hrow (List.find?_eq_none.mp h row (Table.mem_of_get? hget))
    | some r =>
      have hr : t.get? id = some r :=
        Table.get?_eq_some_iff.mpr ⟨List.mem_of_find?_eq_some h, hq r (List.find?_some h)⟩
      exact hr.symm.trans hget

/-- The row that `FIND` and `AUTHENTICATE` read. -/
theorem head?_matched {t : TokenTable} {id : ApiTokenId} {now : ℤ} {row : TokenRow} :
    (records.matched C t (sql C (.find id now))).head? = some row ↔
      t.get? id = some row ∧ now < row.expiresAt := by
  change (t.rows.filter (records.meets C none fun r => r.id = id && now < r.expiresAt)).head? = some row ↔ _
  rw [List.head?_filter, find?_eq_some_iff fun r hr => show r.id = id by simp [Owned.meets] at hr; exact hr.1]
  constructor
  · rintro ⟨hget, hrow⟩
    simp [Owned.meets] at hrow
    exact ⟨hget, hrow.2⟩
  · rintro ⟨hget, hlt⟩
    have hid : row.id = id := Table.key_of_get? hget
    exact ⟨hget, by simp [Owned.meets, hid, hlt]⟩

theorem find_eq_some_iff {t : TokenTable} {id : ApiTokenId} {now : ℤ} {token : ApiToken} :
    find C t id now = some token ↔ ∃ row, t.get? id = some row ∧ now < row.expiresAt ∧ token = .fromRow row := by
  rw [find, Option.map_eq_some_iff]
  constructor
  · rintro ⟨row, hrow, rfl⟩
    obtain ⟨hget, hlt⟩ := head?_matched.mp hrow
    exact ⟨row, hget, hlt, rfl⟩
  · rintro ⟨row, hget, hlt, rfl⟩
    exact ⟨row, head?_matched.mpr ⟨hget, hlt⟩, rfl⟩

theorem authenticate_eq_some_iff {t : TokenTable} {presented : Str} {now : ℤ} {token : ApiToken} :
    authenticate C digestOf t presented now = some token ↔ ∃ row secret,
      parsePlaintext presented = some (row.id, secret) ∧ digestOf secret = row.secretDigest ∧
        t.get? row.id = some row ∧ now < row.expiresAt ∧ token = .fromRow row := by
  constructor
  · intro h
    obtain ⟨⟨id, secret⟩, hparse, hrow⟩ := Option.bind_eq_some_iff.mp h
    obtain ⟨row, hhead, htoken⟩ := Option.bind_eq_some_iff.mp hrow
    split_ifs at htoken with hdigest
    obtain ⟨hget, hlt⟩ := head?_matched.mp hhead
    obtain rfl : row.id = id := Table.key_of_get? hget
    exact ⟨row, secret, hparse, hdigest, hget, hlt, (Option.some.inj htoken).symm⟩
  · rintro ⟨row, secret, hparse, hdigest, hget, hlt, rfl⟩
    refine Option.bind_eq_some_iff.mpr ⟨(row.id, secret), hparse, ?_⟩
    exact Option.bind_eq_some_iff.mpr ⟨row, head?_matched.mpr ⟨hget, hlt⟩, if_pos hdigest⟩

theorem mem_listFor {t : TokenTable} {tokenableId : String} {now : ℤ} {token : ApiToken} :
    token ∈ listFor C t tokenableId now ↔ ∃ row, t.get? row.id = some row ∧
      C.same row.tokenableId tokenableId = true ∧ now < row.expiresAt ∧ token = .fromRow row := by
  simp only [listFor, List.mem_map, (perm_sortByKey _ _).mem_iff]
  constructor
  · rintro ⟨row, hrow, rfl⟩
    obtain ⟨hmem, hmeets⟩ := List.mem_filter.mp hrow
    simp [Owned.meets] at hmeets
    exact ⟨row, Table.get?_of_mem hmem, hmeets.1, hmeets.2, rfl⟩
  · rintro ⟨row, hget, hsame, hlt, rfl⟩
    exact ⟨row, List.mem_filter.mpr ⟨Table.mem_of_get? hget, by simp [Owned.meets, hsame, hlt]⟩, rfl⟩

/-- A minted plaintext reads as the id and the secret it was made of. -/
theorem parse_format (id : ApiTokenId) (secret : Secret) :
    parsePlaintext (formatPlaintext id secret) = some (id, secret) := by
  have hhalf : ∀ {n : ℕ} (b : ByteArr n), hexDecode n (hexEncode b.val) = some b := by
    intro n b
    obtain ⟨hdigits, hlen, hpairs⟩ := hexEncode_facts b.val
    rw [b.property] at hlen
    rw [hexDecode, bytes_of_hexDigits hdigits, List.length_map, if_neg (not_not.mpr hlen), hpairs]
    simp [b.property]
  exact parsePlaintext_eq_some.mpr ⟨_, _, rfl, hhalf id, hhalf secret⟩

/-! ### The header -/

/-- What follows the scheme and the blanks behind it. -/
theorem bearer_eq_some_iff {headers : HeaderMap Bytes} {presented : Str} : bearer headers = some presented ↔
    ∃ value scheme spaces, (headers.getAll authorization).head? = some value ∧
      Http.toStr value = some (scheme ++ ' ' :: (spaces ++ presented)) ∧ scheme.map Char.toLower = bearerScheme ∧
      (∀ c ∈ spaces, Str.isWhiteSpace c = true) ∧
      ∃ c rest, presented = c :: rest ∧ Str.isWhiteSpace c = false := by
  constructor
  · intro h
    obtain ⟨value, hvalue, htext⟩ := Option.bind_eq_some_iff.mp h
    obtain ⟨text, htext, hrest⟩ := Option.bind_eq_some_iff.mp htext
    obtain ⟨⟨scheme, credential⟩, hsplit, hcredential⟩ := Option.bind_eq_some_iff.mp hrest
    obtain ⟨rfl, -⟩ := Str.splitOnce_eq_some.mp hsplit
    change credentialOf scheme credential = some presented at hcredential
    rw [credentialOf] at hcredential
    split_ifs at hcredential with hscheme hempty
    obtain rfl := Option.some.inj hcredential
    refine ⟨value, scheme, credential.takeWhile Str.isWhiteSpace, hvalue, ?_, not_not.mp hscheme, ?_, ?_⟩
    · rwa [List.takeWhile_append_dropWhile]
    · exact List.all_eq_true.mp List.all_takeWhile
    · obtain ⟨c, rest, hrest⟩ := List.exists_cons_of_ne_nil hempty
      refine ⟨c, rest, hrest, ?_⟩
      have hhead := List.head?_dropWhile_not Str.isWhiteSpace credential
      rw [hrest] at hhead
      simpa using hhead
  · rintro ⟨value, scheme, spaces, hvalue, htext, hscheme, hspaces, c, rest, rfl, hc⟩
    have hblank : ' ' ∉ scheme := by
      intro hmem
      have hlower := List.mem_map_of_mem (f := Char.toLower) hmem
      rw [hscheme] at hlower
      exact absurd hlower (by decide)
    have hdrop : (spaces ++ c :: rest).dropWhile Str.isWhiteSpace = c :: rest := by
      rw [List.dropWhile_append_of_pos hspaces, List.dropWhile_cons_of_neg (by simp [hc])]
    simp only [bearer, hvalue, htext, Option.bind_eq_bind, Option.bind_some, Str.splitOnce_append hblank]
    rw [credentialOf, if_neg (not_not.mpr hscheme), hdrop, if_neg (List.cons_ne_nil _ _)]

theorem fromRequestParts_eq_ok {t : TokenTable} {headers : HeaderMap Bytes} {now : ℤ} {token : ApiToken} :
    ApiAuth.fromRequestParts C digestOf (some (some t)) headers now = .ok token ↔
      ∃ presented, bearer headers = some presented ∧ authenticate C digestOf t presented now = some token := by
  have htry : ∀ presented, tryAuthenticate C digestOf (some t) presented now =
      .ok (authenticate C digestOf t presented now) := by
    intro presented
    rw [tryAuthenticate]
    split_ifs with hparse
    · simp [authenticate, hparse]
    · rfl
  simp only [ApiAuth.fromRequestParts]
  cases hbearer : bearer headers with
  | none => simp
  | some presented =>
    simp only [htry, Option.some.injEq, exists_eq_left']
    cases authenticate C digestOf t presented now <;> simp

/-! ### The property -/

/-- Under every schedule the store lets in, finds and lists the tokens that stand, as they were issued; each token
    that was handed out works until it is removed or expires; and an id is free again only when its token is gone. -/
theorem accounted (C : TextColumn) (digestOf : Secret → Digest) (es : List TokenEvent) :
    Accounted C digestOf es where
  admits headers now token := by
    rw [fromRequestParts_eq_ok]
    constructor
    · rintro ⟨presented, hbearer, htoken⟩
      obtain ⟨value, scheme, spaces, hvalue, htext, hscheme, hspaces, -⟩ := bearer_eq_some_iff.mp hbearer
      obtain ⟨row, secret, hparse, hdigest, hget, hlt, rfl⟩ := authenticate_eq_some_iff.mp htoken
      exact ⟨value, scheme, spaces, row, secret, presented, hvalue, htext, hscheme, hspaces, hparse, hdigest,
        (get?_iff_standing es row).mp hget, hlt, rfl⟩
    · rintro ⟨value, scheme, spaces, row, secret, presented, hvalue, htext, hscheme, hspaces, hparse, hdigest,
        hstanding, hlt, rfl⟩
      have hget := (get?_iff_standing es row).mpr hstanding
      refine ⟨presented, ?_, authenticate_eq_some_iff.mpr ⟨row, secret, hparse, hdigest, hget, hlt, rfl⟩⟩
      -- a plaintext begins with its prefix, which no blank does
      obtain ⟨idHex, secretHex, rfl, -⟩ := parsePlaintext_eq_some.mp hparse
      exact bearer_eq_some_iff.mpr ⟨value, scheme, spaces, hvalue, htext, hscheme, hspaces, _, _, rfl, by decide⟩
  finds id now token := by
    rw [find_eq_some_iff]
    constructor
    · rintro ⟨row, hget, hlt, rfl⟩
      obtain rfl : row.id = id := Table.key_of_get? hget
      exact ⟨row, (get?_iff_standing es row).mp hget, rfl, hlt, rfl⟩
    · rintro ⟨row, hstanding, rfl, hlt, rfl⟩
      exact ⟨row, (get?_iff_standing es row).mpr hstanding, hlt, rfl⟩
  lists tokenableId now token := by
    rw [mem_listFor]
    exact exists_congr fun row => and_congr_left' (get?_iff_standing es row)
  handed i call token plaintext hcall hresult := by
    obtain ⟨k, id, hfires, hissued⟩ := calls_run es hcall hresult
    obtain ⟨rfl, rfl⟩ := Prod.mk.inj hissued
    refine ⟨k, hfires, rfl, fun now hlt hkept => ?_⟩
    have hstanding : Standing C digestOf es (call.row C digestOf id) := by
      refine ⟨k, hfires, fun j hj hremoved => ?_⟩
      obtain ⟨e, he, hremoves⟩ := hremoved
      exact hkept j hj e he hremoves
    have hget := (get?_iff_standing es _).mpr hstanding
    exact authenticate_eq_some_iff.mpr ⟨_, call.secret, parse_format id call.secret, rfl, hget, hlt, rfl⟩
  reused k k' row row' hfires hfires' hid hlt := by
    by_contra hnone
    obtain ⟨e', he', i, call, rfl, -, -, hfree, -⟩ := hfires'
    have hstanding : Standing C digestOf (es.take k') row := by
      refine ⟨k, (Machine.fires_take hlt).mpr hfires, fun j hj hremoved => ?_⟩
      obtain ⟨hjk, e, he, hremoves⟩ := hremoved.of_take
      exact hnone ⟨j, e, hj, hjk, he, hremoves⟩
    rw [← get?_iff_standing, hid, hfree] at hstanding
    cases hstanding
  swept now now' hle := by
    have hrows : ((issuance C digestOf).run (es ++ [.sweepExpired now])).table =
        ((issuance C digestOf).run es).table.delete (records.meets C none fun r => r.expiresAt ≤ now) := by
      rw [Machine.run_concat]
      rfl
    rw [hrows]
    generalize ((issuance C digestOf).run es).table = t
    constructor
    · intro presented
      refine Option.ext fun token => ?_
      rw [authenticate_eq_some_iff, authenticate_eq_some_iff]
      refine exists_congr fun row => exists_congr fun secret => and_congr_right fun _ => and_congr_right fun _ => ?_
      rw [Table.get?_delete, Option.filter_eq_some_iff]
      constructor
      · rintro ⟨⟨hget, -⟩, hlt, rfl⟩
        exact ⟨hget, hlt, rfl⟩
      · rintro ⟨hget, hlt, rfl⟩
        refine ⟨⟨hget, ?_⟩, hlt, rfl⟩
        simp [Owned.meets, lt_of_le_of_lt hle hlt]
    · intro tokenableId
      simp only [listFor, Owned.matched, sql, Table.delete, List.filter_filter]
      congr 2
      refine List.filter_congr fun row _ => ?_
      by_cases hlt : now' < row.expiresAt
      · simp [Owned.meets, hlt, lt_of_le_of_lt hle hlt]
      · simp [Owned.meets, hlt]
  revoked id := by
    change 0 < (records.matched C _ (sql C (.delete id))).length ↔ _
    rw [List.length_pos_iff_exists_mem]
    refine exists_congr fun row => ?_
    rw [← get?_iff_standing]
    change row ∈ List.filter _ _ ↔ _
    rw [List.mem_filter]
    constructor
    · rintro ⟨hmem, hmeets⟩
      exact ⟨Table.get?_of_mem hmem, by simpa [Owned.meets] using hmeets⟩
    · rintro ⟨hget, rfl⟩
      exact ⟨Table.mem_of_get? hget, by simp [Owned.meets]⟩

end Proofs

end Arcature.Tokens
