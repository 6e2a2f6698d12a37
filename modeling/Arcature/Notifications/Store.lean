import Mathlib.Data.Prod.Lex
import Mathlib.Order.Lex
import Arcature.Lib.Clock
import Arcature.Lib.Json
import Arcature.Lib.Owned
import Arcature.Lib.Sort

/-! The in-app notification inbox: the `arcature_notifications` table, the statements of
    `notifications/dialect/*.rs` and the methods of `DatabaseNotifications` (`notifications/store.rs`).

    A statement binds its instants as the dialect stores them. What differs between the dialects is
    the text column a recipient's key goes into and the column an instant goes into; both are
    parameters. A method is one statement, except for `store`, whose tries that find their id taken
    change nothing and of which the last decides.

        store ──▶ unread ──mark_read, mark_all_read──▶ read ──prune_read_before──▶ gone
                    └──────────── delete, delete_all_for ────────────────────────▶ gone -/

namespace Arcature.Notifications
open Arcature.Lib

/-- An instant the calendar library can represent. -/
abbrev Utc := { t : Instant // Clock.minUtc ≤ t ∧ t ≤ Clock.maxUtc }

/-- A timestamp column: how an instant is stored in it and read back. -/
structure TimeColumn where
  stored : Utc → ℤ
  restored : ℤ → Option Utc
  mono : ∀ a b : Utc, a.val ≤ b.val → stored a ≤ stored b
  readable : ∀ t, (restored (stored t)).isSome

/-- The instant `n` grains after the epoch, if the calendar reaches it. -/
def ofGrains (grain n : ℤ) : Option Utc :=
  if h : Clock.minUtc ≤ n * grain ∧ n * grain ≤ Clock.maxUtc then some ⟨n * grain, h⟩ else none

/-- A column that counts whole grains since the epoch and drops the rest. -/
def TimeColumn.ofGrain (grain : ℤ) (hpos : 0 < grain) (hfirst : grain ∣ Clock.minUtc) : TimeColumn where
  stored t := t.val / grain
  restored := ofGrains grain
  mono _ _ h := Int.ediv_le_ediv hpos h
  readable t := by
    obtain ⟨first, hmin⟩ := hfirst
    have hlow : first ≤ t.val / grain :=
      (Int.le_ediv_iff_mul_le hpos).mpr (by rw [mul_comm, ← hmin]; exact t.2.1)
    have hge : Clock.minUtc ≤ t.val / grain * grain :=
      calc Clock.minUtc = first * grain := hmin.trans (mul_comm grain first)
        _ ≤ t.val / grain * grain := mul_le_mul_of_nonneg_right hlow hpos.le
    have hle : t.val / grain * grain ≤ Clock.maxUtc := (Int.ediv_mul_le _ hpos.ne').trans t.2.2
    simp only [ofGrains, dif_pos (And.intro hge hle), Option.isSome_some]

/-- SQLite's epoch milliseconds. -/
def TimeColumn.epochMillis : TimeColumn := .ofGrain (10 ^ 6) (by decide) (by decide)

/-- The microseconds of `TIMESTAMPTZ` and `DATETIME(6)`. -/
def TimeColumn.micros : TimeColumn := .ofGrain (10 ^ 3) (by decide) (by decide)

/-- 16 random bytes. -/
abbrev NotificationId := ByteArr 16

/-- What `to_database` renders. -/
structure DatabaseContent where
  kind : String
  data : Json

/-- One row of `arcature_notifications`. -/
structure NotificationRow where
  id : NotificationId
  notifiableKey : String
  kind : String
  data : Json
  readAt : Option ℤ
  createdAt : ℤ

/-- `id` is the primary key, `notifiable_key` says whose inbox the row is in. -/
def records : Owned NotificationRow NotificationId where
  key := NotificationRow.id
  subject := NotificationRow.notifiableKey
  withSubject key r := { r with notifiableKey := key }
  key_withSubject _ _ := rfl
  subject_withSubject _ _ := rfl

/-- The inbox table. -/
abbrev InboxTable := Table records.schema

/-! ### The statements -/

/-- `INSERT_NEW`. -/
def insertNew (C : TextColumn) (id : NotificationId) (notifiableKey : String)
    (content : DatabaseContent) (createdAt : ℤ) : records.Stmt :=
  .insert ⟨id, notifiableKey, C.keep content.kind, content.data, none, createdAt⟩

/-- The condition of `LIST`. -/
def list (notifiableKey : String) : records.Stmt :=
  .select (some notifiableKey) (fun _ => true) true

/-- The condition of `LIST_UNREAD` and of `COUNT_UNREAD`. -/
def listUnread (notifiableKey : String) : records.Stmt :=
  .select (some notifiableKey) (fun r => r.readAt.isNone) true

/-- `SET read_at = ?`. -/
def readSet (readAt : ℤ) : records.SetList where
  fn r := { r with readAt := some readAt }
  key _ := rfl
  subject _ := rfl

/-- `MARK_READ`. -/
def markReadStmt (readAt : ℤ) (notifiableKey : String) (id : NotificationId) : records.Stmt :=
  .update (some notifiableKey) (fun r => r.id = id && r.readAt.isNone) (readSet readAt)

/-- `MARK_ALL_READ`. -/
def markAllReadStmt (readAt : ℤ) (notifiableKey : String) : records.Stmt :=
  .update (some notifiableKey) (fun r => r.readAt.isNone) (readSet readAt)

/-- `DELETE`. -/
def deleteStmt (notifiableKey : String) (id : NotificationId) : records.Stmt :=
  .delete (some notifiableKey) fun r => r.id = id

/-- `DELETE_ALL`. -/
def deleteAll (notifiableKey : String) : records.Stmt := .delete (some notifiableKey) fun _ => true

/-- `DELETE_READ_BEFORE`. -/
def deleteReadBefore (cutoff : ℤ) : records.Stmt :=
  .delete none fun r => match r.readAt with
    | some readAt => readAt < cutoff
    | none => false

/-- `ORDER BY created_at DESC, id`. -/
def newestFirst (r : NotificationRow) : ℤᵒᵈ ×ₗ List ℕ :=
  toLex (OrderDual.toDual r.createdAt, r.id.val.map UInt8.toNat)

/-! ### The methods -/

/-- Everything a store is built over. -/
structure Inbox where
  keys : TextColumn
  times : TimeColumn

/-- One notification, as the store hands it out. -/
structure StoredNotification where
  id : NotificationId
  notifiableKey : String
  kind : String
  data : Json
  readAt : Option Utc
  createdAt : Utc

/-- Why a method fails, other than by its database. -/
inductive NotificationError where
  | entropy
  | idCollision (attempts : ℕ)
  | timestamp (stored : ℤ)

/-- How many fresh ids `store` tries. -/
def storeAttempts : ℕ := 8

namespace Inbox

variable (D : Inbox)

/-- `restored_time`. -/
def restoredTime (stored : ℤ) : Except NotificationError Utc :=
  match D.times.restored stored with
  | some t => .ok t
  | none => .error (.timestamp stored)

/-- `decode`: a row of a listing, under the key the listing was asked for. -/
def decode (notifiableKey : String) (r : NotificationRow) :
    Except NotificationError StoredNotification := do
  let readAt ← match r.readAt with
    | some stored => some <$> D.restoredTime stored
    | none => pure none
  let createdAt ← D.restoredTime r.createdAt
  pure ⟨r.id, notifiableKey, r.kind, r.data, readAt, createdAt⟩

/-- The rows of a listing, in its order and up to its limit. -/
def listed (t : InboxTable) (statement : records.Stmt) (limit : ℕ) : List NotificationRow :=
  (sortByKey newestFirst (records.matched D.keys t statement)).take limit

/-- `inbox`. -/
def inbox (t : InboxTable) (notifiableKey : String) (limit : ℕ) :
    Except NotificationError (List StoredNotification) :=
  (D.listed t (list notifiableKey) limit).mapM (D.decode notifiableKey)

/-- `unread`. -/
def unread (t : InboxTable) (notifiableKey : String) (limit : ℕ) :
    Except NotificationError (List StoredNotification) :=
  (D.listed t (listUnread notifiableKey) limit).mapM (D.decode notifiableKey)

/-- `unread_count`. -/
def unreadCount (t : InboxTable) (notifiableKey : String) : ℕ :=
  (records.matched D.keys t (listUnread notifiableKey)).length

/-- The loop of `store`, with the ids it draws; `none` is a failing source of randomness. -/
def storeLoop (t : InboxTable) (notifiableKey : String) (content : DatabaseContent) (createdAt : Utc) :
    ℕ → List (Option NotificationId) → InboxTable × Except NotificationError StoredNotification
  | 0, _ => (t, .error (.idCollision storeAttempts))
  | _ + 1, [] | _ + 1, none :: _ => (t, .error .entropy)
  | n + 1, some id :: draws =>
    match t.get? id with
    | some _ => storeLoop t notifiableKey content createdAt n draws
    | none =>
      (records.exec D.keys t (insertNew D.keys id notifiableKey content (D.times.stored createdAt)),
        .ok ⟨id, notifiableKey, content.kind, content.data, none, createdAt⟩)

/-- `store`. -/
def store (t : InboxTable) (notifiableKey : String) (content : DatabaseContent) (now : Utc)
    (draws : List (Option NotificationId)) :
    InboxTable × Except NotificationError StoredNotification :=
  D.storeLoop t notifiableKey content now storeAttempts draws

/-- The table and the affected-row count of a statement that changes rows. -/
def change (t : InboxTable) (statement : records.Stmt) : InboxTable × ℕ :=
  (records.exec D.keys t statement, (records.matched D.keys t statement).length)

/-- `mark_read`. -/
def markRead (t : InboxTable) (notifiableKey : String) (id : NotificationId) (now : Utc) :
    InboxTable × Bool :=
  let (t', affected) := D.change t (markReadStmt (D.times.stored now) notifiableKey id)
  (t', affected > 0)

/-- `mark_all_read`. -/
def markAllRead (t : InboxTable) (notifiableKey : String) (now : Utc) : InboxTable × ℕ :=
  D.change t (markAllReadStmt (D.times.stored now) notifiableKey)

/-- `delete`. -/
def delete (t : InboxTable) (notifiableKey : String) (id : NotificationId) : InboxTable × Bool :=
  let (t', affected) := D.change t (deleteStmt notifiableKey id)
  (t', affected > 0)

/-- `delete_all_for`. -/
def deleteAllFor (t : InboxTable) (notifiableKey : String) : InboxTable × ℕ :=
  D.change t (deleteAll notifiableKey)

/-- `prune_read_before`. -/
def pruneReadBefore (t : InboxTable) (cutoff : Utc) : InboxTable × ℕ :=
  D.change t (deleteReadBefore (D.times.stored cutoff))

end Inbox

/-! ### The inbox as a machine -/

/-- One call of a method that changes the table. -/
inductive Call where
  | store (notifiableKey : String) (content : DatabaseContent) (now : Utc)
      (draws : List (Option NotificationId))
  | markRead (notifiableKey : String) (id : NotificationId) (now : Utc)
  | markAllRead (notifiableKey : String) (now : Utc)
  | delete (notifiableKey : String) (id : NotificationId)
  | deleteAllFor (notifiableKey : String)
  | pruneReadBefore (cutoff : Utc)

/-- What a call returns. -/
inductive Answer where
  | stored (r : Except NotificationError StoredNotification)
  | changed (b : Bool)
  | affected (rows : ℕ)

/-- Run one call. -/
def Inbox.step (D : Inbox) (t : InboxTable) : Call → InboxTable × Answer
  | .store key content now draws =>
    let (t', r) := D.store t key content now draws
    (t', .stored r)
  | .markRead key id now =>
    let (t', b) := D.markRead t key id now
    (t', .changed b)
  | .markAllRead key now =>
    let (t', n) := D.markAllRead t key now
    (t', .affected n)
  | .delete key id =>
    let (t', b) := D.delete t key id
    (t', .changed b)
  | .deleteAllFor key =>
    let (t', n) := D.deleteAllFor t key
    (t', .affected n)
  | .pruneReadBefore cutoff =>
    let (t', n) := D.pruneReadBefore t cutoff
    (t', .affected n)

/-- The inbox, from an empty table. -/
def Inbox.machine (D : Inbox) : Machine InboxTable Call Answer := ⟨Table.empty, D.step⟩

end Arcature.Notifications
