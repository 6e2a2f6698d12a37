import Arcature.Lib.Json
import Arcature.Lib.Machine
import Arcature.Lib.Table

/-! Sessions in a table, with any number of requests in flight.

    `DbSessionStore` keeps a session's data under a digest of its id
    (`auth/session_store/store.rs` and the statements of `session_store/dialect/sqlite.rs`). A request
    loads the record of the id it presents when it starts, and saves it when it ends if it changed it;
    in between another request may have signed out:

        A    load ───────────────── change ───── save     the record is back
        B            load   logout

    `save` writes the row whether or not it is still there. So a session that was deleted stays deleted
    as long as no request saves its id after that (`deleted_stays`), and not in general
    (`saved_after_logout`). -/

namespace Arcature.Auth.SessionStore
open Arcature.Lib

/-- `Id`: 128 bits. -/
abbrev Id := BitVec 128

/-- The data of a record. -/
abbrev Data := Map Str Json

/-- One row of `arcature_sessions`. -/
structure SessionRow where
  id : Bytes
  data : Data
  expiresAt : ℤ

/-- The digest is the primary key. -/
abbrev schema : Schema SessionRow Bytes := ⟨SessionRow.id, fun _ => true⟩

/-- The table of sessions. -/
abbrev SessionTable := Table schema

/-- A record, with its expiry in nanoseconds since the epoch. -/
structure Record where
  id : Id
  data : Data
  expiryDate : ℤ

/-- The little-endian bytes of an id. -/
def Id.toLeBytes (id : Id) : Bytes := (List.range 16).map fun i => UInt8.ofNat (id.toNat / 256 ^ i)

section Store

variable (sha256 : Bytes → Bytes)

/-- `digest_of`. -/
def digestOf (id : Id) : Bytes := sha256 id.toLeBytes

/-- `stored_time`: whole milliseconds, if they fit. -/
def storedTime (expiry : ℤ) : Option ℤ :=
  let millis := expiry.tdiv 1000000
  if -2 ^ 63 ≤ millis ∧ millis < 2 ^ 63 then some millis else none

/-! ### The statements -/

/-- `INSERT_NEW`: `none` when the id is taken. -/
def insertNew (t : SessionTable) (row : SessionRow) : Option SessionTable := t.insert? row

/-- `UPSERT`. -/
def upsert (t : SessionTable) (row : SessionRow) : SessionTable := t.put row rfl

/-- `LOAD`, at the database's time. -/
def load (t : SessionTable) (key : Bytes) (now : ℤ) : Option SessionRow :=
  (t.get? key).filter fun row => now < row.expiresAt

/-- `DELETE`. -/
def delete (t : SessionTable) (key : Bytes) : SessionTable := t.delete fun row => row.id = key

/-- `DELETE_EXPIRED`, at the database's time. -/
def deleteExpired (t : SessionTable) (now : ℤ) : SessionTable := t.delete fun row => row.expiresAt ≤ now

/-! ### The store -/

/-- `CREATE_ATTEMPTS`. -/
def createAttempts : ℕ := 8

/-- The loop of `create`: a record is written under the first drawn id that is not taken. -/
def createLoop (t : SessionTable) (data : Data) (expiresAt : ℤ) : List Id → SessionTable × Option Id
  | [] => (t, none)
  | id :: drawn =>
    match insertNew t ⟨digestOf sha256 id, data, expiresAt⟩ with
    | some t => (t, some id)
    | none => createLoop t data expiresAt drawn

/-- `create`, with the ids that are drawn. -/
def create (t : SessionTable) (data : Data) (expiryDate : ℤ) (drawn : List Id) :
    SessionTable × Option Id :=
  match storedTime expiryDate with
  | some expiresAt => createLoop sha256 t data expiresAt (drawn.take createAttempts)
  | none => (t, none)

/-- `save`. -/
def save (t : SessionTable) (record : Record) : SessionTable :=
  match storedTime record.expiryDate with
  | some expiresAt => upsert t ⟨digestOf sha256 record.id, record.data, expiresAt⟩
  | none => t

/-! ### Requests -/

/-- A request's session: the id it saves under (none: it creates one), its data and whether they
    changed. -/
structure Session where
  id : Option Id
  data : Data
  modified : Bool

/-- A session without a record. -/
def Session.fresh : Session := ⟨none, .empty, false⟩

/-- The table and the sessions of the requests. -/
structure State where
  table : SessionTable
  sessions : ℕ → Session

/-- Steps of the request `r`, and the sweep. -/
inductive Event where
  /-- The request starts with the id of its cookie. -/
  | start (r : ℕ) (id : Id) (now : ℤ)
  /-- The request changes its data. -/
  | change (r : ℕ) (data : Data)
  /-- `flush`, of a logout or inside `load_user`. -/
  | flush (r : ℕ)
  /-- `cycle_id`. -/
  | cycleId (r : ℕ)
  /-- The request ends, and may have to draw ids. -/
  | finish (r : ℕ) (expiryDate : ℤ) (drawn : List Id)
  /-- `sweep_expired`. -/
  | sweep (now : ℤ)

/-- What a step answers: the data that a start has loaded. -/
abbrev Answer := Option Data

/-- Set the session of a request. -/
def State.withSession (s : State) (r : ℕ) (session : Session) : State :=
  { s with sessions := Function.update s.sessions r session }

/-- The table without the session's row. -/
def State.dropRow (s : State) (r : ℕ) : SessionTable :=
  match (s.sessions r).id with
  | some id => delete s.table (digestOf sha256 id)
  | none => s.table

/-- One step. -/
def step (s : State) : Event → State × Answer
  | .start r id now =>
    match load s.table (digestOf sha256 id) now with
    | some row => (s.withSession r ⟨some id, row.data, false⟩, some row.data)
    | none => (s.withSession r .fresh, none)
  | .change r data => (s.withSession r { s.sessions r with data, modified := true }, none)
  | .flush r => ({ s with table := s.dropRow sha256 r }.withSession r ⟨none, .empty, true⟩, none)
  | .cycleId r =>
    ({ s with table := s.dropRow sha256 r }.withSession r
      { s.sessions r with id := none, modified := true }, none)
  | .finish r expiryDate drawn =>
    let session := s.sessions r
    -- an empty session is not saved
    if session.modified ∧ session.data.keys ≠ ∅ then
      match session.id with
      | some id => ({ s with table := save sha256 s.table ⟨id, session.data, expiryDate⟩ }, none)
      | none => ({ s with table := (create sha256 s.table session.data expiryDate drawn).1 }, none)
    else (s, none)
  | .sweep now => ({ s with table := deleteExpired s.table now }, none)

/-- The store under all its requests. -/
def machine : Machine State Event Answer where
  init := ⟨.empty, fun _ => .fresh⟩
  step := step sha256

/-! ### Deleted ids -/

/-- A step deletes the row of an id. -/
def Deletes (id : Id) (s : State) (e : Event) : Prop :=
  ∃ r, (e = .flush r ∨ e = .cycleId r) ∧ (s.sessions r).id = some id

/-- A step writes under the digest of an id: the request saves it, or draws it for a new session. -/
def Writes (id : Id) (s : State) (e : Event) : Prop :=
  ∃ r expiryDate drawn, e = .finish r expiryDate drawn ∧
    (s.sessions r).modified = true ∧ (s.sessions r).data.keys ≠ ∅ ∧ (storedTime expiryDate).isSome ∧
    ∃ written, digestOf sha256 written = digestOf sha256 id ∧
      ((s.sessions r).id = some written ∨
        (s.sessions r).id = none ∧ written ∈ drawn.take createAttempts)

/-- In this run, once an id is deleted no load of it returns a record. -/
def StaysDeleted (es : List Event) : Prop :=
  ∀ i j id r now, i < j → (machine sha256).Fires es i (Deletes id) → es[j]? = some (.start r id now) →
    (machine sha256).out ((machine sha256).run (es.take j)) (.start r id now) = none

variable {sha256}

theorem get?_delete_self (t : SessionTable) (key : Bytes) : (delete t key).get? key = none := by
  rw [delete, Table.get?_delete]
  cases hrow : t.get? key with
  | none => rfl
  | some row =>
    have hkey : row.id = key := Table.key_of_get? hrow
    simp [hkey]

theorem get?_delete_of_none {t : SessionTable} {key : Bytes} (h : t.get? key = none)
    (p : SessionRow → Bool) : (Table.delete t p).get? key = none := by
  rw [Table.get?_delete, h]
  rfl

theorem get?_dropRow_of_none {s : State} {key : Bytes} (h : s.table.get? key = none) (r : ℕ) :
    (s.dropRow sha256 r).get? key = none := by
  rw [State.dropRow]
  cases (s.sessions r).id with
  | none => exact h
  | some id => exact get?_delete_of_none h _

/-- Creating a record leaves a key without a row, unless an id of that digest is drawn. -/
theorem get?_createLoop_of_none {t : SessionTable} {key : Bytes} (h : t.get? key = none) (data : Data)
    (expiresAt : ℤ) {drawn : List Id} (hdrawn : ∀ id ∈ drawn, digestOf sha256 id ≠ key) :
    (createLoop sha256 t data expiresAt drawn).1.get? key = none := by
  induction drawn with
  | nil => exact h
  | cons id drawn ih =>
    rw [List.forall_mem_cons] at hdrawn
    rw [createLoop]
    cases hinsert : insertNew t ⟨digestOf sha256 id, data, expiresAt⟩ with
    | none => exact ih hdrawn.2
    | some t' =>
      have hget := Table.get?_insert? hinsert key
      rw [if_neg (Ne.symm hdrawn.1)] at hget
      exact hget.trans h

/-- A delete leaves no row of the id. -/
theorem get?_of_deletes {id : Id} {s : State} {e : Event} (h : Deletes id s e) :
    ((machine sha256).next s e).table.get? (digestOf sha256 id) = none := by
  obtain ⟨r, rfl | rfl, hid⟩ := h
  · have hrow := get?_delete_self s.table (digestOf sha256 id)
    simpa only [Machine.next, machine, step, State.withSession, State.dropRow, hid] using hrow
  · have hrow := get?_delete_self s.table (digestOf sha256 id)
    simpa only [Machine.next, machine, step, State.withSession, State.dropRow, hid] using hrow

/-- Where an id has no row it gets one only from a step that writes it. -/
theorem get?_next_of_none {id : Id} {s : State} {e : Event}
    (h : s.table.get? (digestOf sha256 id) = none) (hwrites : ¬ Writes sha256 id s e) :
    ((machine sha256).next s e).table.get? (digestOf sha256 id) = none := by
  cases e with
  | start r id' now =>
    simp only [Machine.next, machine, step]
    cases load s.table (digestOf sha256 id') now <;> exact h
  | change r data => exact h
  | flush r => exact get?_dropRow_of_none h r
  | cycleId r => exact get?_dropRow_of_none h r
  | sweep now => exact get?_delete_of_none h _
  | finish r expiryDate drawn =>
    simp only [Machine.next, machine, step]
    by_cases hsaved : (s.sessions r).modified = true ∧ (s.sessions r).data.keys ≠ ∅
    · rw [if_pos hsaved]
      cases htime : storedTime expiryDate with
      | none => cases hid : (s.sessions r).id <;> simpa [save, create, htime] using h
      | some expiresAt =>
        have hother : ∀ written, ((s.sessions r).id = some written ∨
            (s.sessions r).id = none ∧ written ∈ drawn.take createAttempts) →
            digestOf sha256 written ≠ digestOf sha256 id := by
          intro written hwritten hdigest
          exact hwrites ⟨r, expiryDate, drawn, rfl, hsaved.1, hsaved.2, by rw [htime]; rfl,
            written, hdigest, hwritten⟩
        cases hid : (s.sessions r).id with
        | none =>
          simp only [create, htime]
          exact get?_createLoop_of_none h _ _ fun written hw => hother written (Or.inr ⟨hid, hw⟩)
        | some written =>
          simp only [save, htime, upsert, Table.get?_put]
          rw [if_neg (Ne.symm (hother written (Or.inl hid)))]
          exact h
    · rw [if_neg hsaved]
      exact h

/-- A run in which no id is written after it was deleted keeps every deleted id without a row. -/
theorem get?_of_deleted {es : List Event}
    (h : ∀ i j id, i < j → (machine sha256).Fires es i (Deletes id) →
      ¬ (machine sha256).Fires es j (Writes sha256 id))
    {i : ℕ} {id : Id} (hdeleted : (machine sha256).Fires es i (Deletes id)) :
    ((machine sha256).run es).table.get? (digestOf sha256 id) = none := by
  induction es using List.reverseRecOn generalizing i with
  | nil => exact absurd hdeleted Machine.not_fires_nil
  | append_singleton es e ih =>
    rw [Machine.run_concat]
    rcases Machine.fires_concat.mp hdeleted with hbefore | ⟨rfl, hnow⟩
    · have hrest : ∀ i j id, i < j → (machine sha256).Fires es i (Deletes id) →
          ¬ (machine sha256).Fires es j (Writes sha256 id) := by
        intro i j id hij hi hj
        exact h i j id hij (Machine.fires_concat.mpr (Or.inl hi)) (Machine.fires_concat.mpr (Or.inl hj))
      refine get?_next_of_none (ih hrest hbefore) fun hwrites => ?_
      exact h i es.length id hbefore.lt hdeleted (Machine.fires_last.mpr hwrites)
    · exact get?_of_deletes hnow

theorem out_start_of_none {s : State} {id : Id} (h : s.table.get? (digestOf sha256 id) = none) (r : ℕ)
    (now : ℤ) : (machine sha256).out s (.start r id now) = none := by
  have hload : load s.table (digestOf sha256 id) now = none := by rw [load, h, Option.filter_none]
  simp only [Machine.out, machine, step, hload]

/-- In every run in which no request saves an id after it was deleted, and none draws it again, a
    deleted id stays deleted. -/
theorem deleted_stays (sha256 : Bytes → Bytes) (es : List Event)
    (h : ∀ i j id, i < j → (machine sha256).Fires es i (Deletes id) →
      ¬ (machine sha256).Fires es j (Writes sha256 id)) :
    StaysDeleted sha256 es := by
  intro i j id r now hij hdeleted hstart
  have hbefore := (Machine.fires_take hij).mpr hdeleted
  have htake : ∀ a b id, a < b → (machine sha256).Fires (es.take j) a (Deletes id) →
      ¬ (machine sha256).Fires (es.take j) b (Writes sha256 id) := by
    intro a b id hab ha hb
    exact h a b id hab ha.of_take.2 hb.of_take.2
  exact out_start_of_none (get?_of_deleted htake hbefore) r now

end Store

/-! ### A request that outlives a logout -/

/-- The digest of the id `1`. -/
def digestOfOne : Bytes :=
  [0x4c, 0xbb, 0xd8, 0xca, 0x52, 0x15, 0xb8, 0xd1, 0x61, 0xae, 0xc1, 0x81, 0xa7, 0x4b,
    0x69, 0x4f, 0x4e, 0x24, 0xb0, 0x01, 0xd5, 0xb0, 0x81, 0xdc, 0x00, 0x30, 0xed, 0x79,
    0x7a, 0x89, 0x73, 0xe0]

/-- The data of a session with a user in it. -/
def signedIn : Data := Map.empty.insert "user_id".toList (.number (.posInt 7))

/-- A session is made and saved, two requests load it, one of them signs out, and then the other one
    changes it and ends. -/
def overtaken : List Event :=
  [.change 0 signedIn, .finish 0 3600000000000 [1], .start 1 1 1000, .start 2 1 1001, .flush 2,
    .change 1 (signedIn.insert "cart".toList (.number (.posInt 3))), .finish 1 3600000000000 [],
    .start 3 1 2000]

/-- The same, with the save before the logout. -/
def inTime : List Event :=
  [.change 0 signedIn, .finish 0 3600000000000 [1], .start 1 1 1000, .start 2 1 1001,
    .change 1 (signedIn.insert "cart".toList (.number (.posInt 3))), .finish 1 3600000000000 [],
    .flush 2, .start 3 1 2000]

/-- With the save before the logout, the id loads while it is there and stays deleted afterwards. -/
theorem deleted_stays_inTime :
    ((machine fun _ => digestOfOne).out ((machine fun _ => digestOfOne).run (inTime.take 2))
      (.start 1 1 1000)).isSome ∧
    StaysDeleted (fun _ => digestOfOne) inTime := by
  refine ⟨by decide +kernel, deleted_stays _ inTime ?_⟩
  rintro i j id hij ⟨e, he, r, hdelete, -⟩ ⟨e', he', r', expiryDate, drawn, rfl, -⟩
  -- the only delete is the sixth step, and what follows it is a start
  have hi : i = 6 := by
    have hlt : i < 8 := (List.getElem?_eq_some_iff.mp he).1
    interval_cases i <;> rcases hdelete with rfl | rfl <;> simp [inTime] at he ⊢
  subst hi
  have hj : j = 7 := by
    have hlt : j < 8 := (List.getElem?_eq_some_iff.mp he').1
    omega
  subst hj
  simp [inTime] at he'

/-- The save after the logout brings the record back. -/
theorem saved_after_logout :
    ((machine fun _ => digestOfOne).out ((machine fun _ => digestOfOne).run (overtaken.take 7))
      (.start 3 1 2000)).isSome ∧
    ¬ StaysDeleted (fun _ => digestOfOne) overtaken := by
  have hback : ((machine fun _ => digestOfOne).out ((machine fun _ => digestOfOne).run (overtaken.take 7))
      (.start 3 1 2000)).isSome = true := by decide +kernel
  refine ⟨hback, fun h => ?_⟩
  have hdeleted : (machine fun _ => digestOfOne).Fires overtaken 4 (Deletes 1) :=
    ⟨.flush 2, rfl, 2, Or.inl rfl, by decide +kernel⟩
  rw [h 4 7 1 3 2000 (by omega) hdeleted rfl] at hback
  cases hback

end Arcature.Auth.SessionStore
