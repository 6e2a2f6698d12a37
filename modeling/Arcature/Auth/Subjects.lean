import Arcature.Auth.Remember.Store
import Arcature.Auth.Reset.Store
import Arcature.Notifications.Receipts
import Arcature.Tokens.Store

/-! Whose record is whose: the four stores that keep records under a subject, in each dialect.

    The statements are the same in all three dialects but for the column the subject goes into
    (`*/migrations/*/0001_*.sql`) and the form of the insert (`*/dialect/*.rs`):

        PostgreSQL  TEXT          ON CONFLICT DO NOTHING   kept whole, compared exactly
        SQLite      TEXT          INSERT OR IGNORE         kept whole, compared exactly
        MySQL       VARCHAR(191)  INSERT IGNORE            cut to 191 characters, compared by collation -/

namespace Arcature.Auth
open Arcature.Lib

/-! ### The dialects -/

/-- A dialect; what MySQL takes for equal text is up to its collation. -/
inductive Dialect where
  | postgres
  | sqlite
  | mysql (collation : String → String → Bool)

/-- The width of MySQL's text columns, in characters. -/
def varcharWidth : ℕ := 191

/-- The column a subject is stored in. `INSERT IGNORE` cuts an over-long value with a warning. -/
def Dialect.subjectColumn : Dialect → TextColumn
  | .postgres | .sqlite => .exact
  | .mysql collation => ⟨fun s => String.ofList (s.toList.take varcharWidth), collation⟩

/-- The dialect tells these subjects apart: under MySQL all of them fit the column, and the collation
    takes no two of them for equal. -/
def Dialect.TellsApart (D : Dialect) (U : Set String) : Prop :=
  match D with
  | .postgres | .sqlite => True
  | .mysql collation =>
    (∀ s ∈ U, s.length ≤ varcharWidth) ∧ ∀ s ∈ U, ∀ s' ∈ U, collation s s' = true → s = s'

theorem cut_eq_iff (s : String) :
    String.ofList (s.toList.take varcharWidth) = s ↔ s.length ≤ varcharWidth := by
  constructor
  · intro h
    have hlength := congrArg String.length h
    rw [String.length_ofList, List.length_take, String.length_toList] at hlength
    omega
  · intro h
    rw [List.take_of_length_le (by rwa [String.length_toList]), String.ofList_toList]

theorem Dialect.distinguishes_iff (D : Dialect) (U : Set String) :
    D.subjectColumn.Distinguishes U ↔ D.TellsApart U := by
  cases D with
  | postgres | sqlite => exact iff_of_true (TextColumn.exact_distinguishes U) trivial
  | mysql collation =>
    simp only [TextColumn.Distinguishes, Dialect.subjectColumn, Dialect.TellsApart, cut_eq_iff]

/-! ### The password-reset store -/

namespace Reset

/-- `id` is the primary key, `subject` the account the link is for. -/
abbrev records : Owned ResetRow PublicId where
  key := ResetRow.id
  subject := ResetRow.subject
  withSubject subject r := { r with subject }
  key_withSubject _ _ := rfl
  subject_withSubject _ _ := rfl

/-- One statement with what it binds; `now` is the server's clock. -/
inductive Statement where
  | insertNew (row : ResetRow)
  | findLive (id : PublicId) (now : ℤ)
  | deleteFor (subject : String)
  | deleteExpired (now : ℤ)

/-- The statement's text. -/
def sql : Statement → records.Stmt
  | .insertNew row => .insert row
  | .findLive id now => .select none (fun r => r.id = id && now < r.expiresAt) false
  | .deleteFor subject => .delete (some subject) fun _ => true
  | .deleteExpired now => .delete none fun r => r.expiresAt ≤ now

/-- With an exact column, a step of the store is one of its statements. -/
theorem step_rows (B : Backend) (s : State) (e : Event) : (step B s e).1.rows = s.rows ∨
    ∃ st, (step B s e).1.rows = records.exec .exact s.rows (sql st) := by
  have hclear : ∀ subject, (deleteFor s.rows subject).1 =
      records.exec .exact s.rows (sql (.deleteFor subject)) :=
    fun subject => (Owned.exec_exact_delete (O := records) s.rows subject).symm
  cases e with
  | issueClear c subject ttl nowDeadline nowCreated secret =>
    rw [step]
    cases s.calls c with
    | some call => exact .inl rfl
    | none =>
      cases beginIssue subject ttl nowDeadline nowCreated secret with
      | error e => exact .inl rfl
      | ok q => exact .inr ⟨.deleteFor subject, hclear subject⟩
  | issueInsert c id =>
    simp only [step]
    split
    · exact .inl rfl
    · rename_i q id hcall
      cases hinsert : insertNew s.rows (q.row B id) with
      | some t =>
        refine .inr ⟨.insertNew (q.row B id), ?_⟩
        exact (congrArg (Option.getD · s.rows) hinsert).symm
      | none =>
        dsimp only
        split_ifs
        · exact .inl rfl
        · exact .inl rfl
    · exact .inl rfl
  | consumeFind c presented now =>
    rw [step]
    cases s.calls c with
    | some call => exact .inl rfl
    | none => cases matchLive B s.rows presented now <;> exact .inl rfl
  | consumeSpend c =>
    simp only [step]
    split
    · rename_i presented row hcall
      exact .inr ⟨.deleteFor row.subject, hclear row.subject⟩
    · exact .inl rfl
  | revokeAllFor subject => exact .inr ⟨.deleteFor subject, hclear subject⟩
  | sweepExpired now => exact .inr ⟨.deleteExpired now, rfl⟩
  | fail c => exact .inl rfl

/-- A link is only matched by a read of its row. -/
theorem matchLive_reported {B : Backend} {t : ResetTable} {presented : Str} {now : ℤ} {row : ResetRow}
    (h : matchLive B t presented now = some row) :
    (row.id, row.subject) ∈ records.reported .exact t (sql (.findLive row.id now)) := by
  obtain ⟨⟨id, secret⟩, -, hfind⟩ := Option.bind_eq_some_iff.mp h
  obtain ⟨hget, hlive⟩ := Option.filter_eq_some_iff.mp (Option.filter_eq_some_iff.mp hfind).1
  refine List.mem_map.mpr ⟨row, List.mem_filter.mpr ⟨Table.mem_of_get? hget, ?_⟩, rfl⟩
  simpa [Owned.meets] using hlive

end Reset

/-! ### The remember-me store -/

namespace Remember

/-- `series` is the primary key, `subject` the account that is remembered. -/
abbrev records : Owned RememberRow PublicId where
  key := RememberRow.series
  subject := RememberRow.subject
  withSubject subject r := { r with subject }
  key_withSubject _ _ := rfl
  subject_withSubject _ _ := rfl

/-- One statement with what it binds; `now` is the server's clock. -/
inductive Statement where
  | insertNew (row : RememberRow)
  | findLive (series : PublicId) (now : ℤ)
  | rotate (next : Digest) (rotatedAt : ℤ) (series : PublicId) (expected : Digest)
  | deleteSeries (series : PublicId)
  | deleteFor (subject : String)
  | deleteExpired (now : ℤ)

/-- The statement's text. -/
def sql : Statement → records.Stmt
  | .insertNew row => .insert row
  | .findLive series now => .select none (fun r => r.series = series && now < r.expiresAt) false
  | .rotate next rotatedAt series expected =>
    .update none (rotatable series expected)
      ⟨(rotateSet next rotatedAt).fn, (rotateSet next rotatedAt).key, fun _ => rfl⟩
  | .deleteSeries series => .delete none fun r => r.series = series
  | .deleteFor subject => .delete (some subject) fun _ => true
  | .deleteExpired now => .delete none fun r => r.expiresAt ≤ now

/-- With an exact column, a step of the store is one of its statements. -/
theorem step_rows (R : RememberTokens) (s : State) (e : Event) : (step R s e).1.rows = s.rows ∨
    ∃ st, (step R s e).1.rows = records.exec .exact s.rows (sql st) := by
  have hclear : ∀ subject, (deleteFor s.rows subject).1 =
      records.exec .exact s.rows (sql (.deleteFor subject)) :=
    fun subject => (Owned.exec_exact_delete (O := records) s.rows subject).symm
  have hinsert : ∀ c q series, (tryInsert R s c q series).1.rows = s.rows ∨
      ∃ st, (tryInsert R s c q series).1.rows = records.exec .exact s.rows (sql st) := by
    intro c q series
    cases series with
    | none => exact .inl rfl
    | some series =>
      rw [tryInsert]
      cases hrow : insertNew s.rows (q.row R.backend series) with
      | some t =>
        refine .inr ⟨.insertNew (q.row R.backend series), ?_⟩
        exact (congrArg (Option.getD · s.rows) hrow).symm
      | none =>
        dsimp only
        split_ifs
        · exact .inl rfl
        · exact .inl rfl
  cases e with
  | issue c subject ttl nowDeadline nowCreated secret series =>
    rw [step]
    cases s.calls c with
    | some call => exact .inl rfl
    | none =>
      cases beginIssue subject ttl nowDeadline nowCreated secret with
      | error e => exact .inl rfl
      | ok q => exact hinsert c q series
  | issueAgain c series =>
    simp only [step]
    split
    · exact hinsert c _ series
    · exact .inl rfl
  | presentFind c presented nowServer nowGrace =>
    rw [step]
    cases s.calls c with
    | some call => exact .inl rfl
    | none => cases judge R s.rows presented nowServer nowGrace <;> exact .inl rfl
  | presentRotate c next now =>
    simp only [step]
    split
    · exact .inl rfl
    · rename_i presented row next hcall
      exact .inr ⟨.rotate (R.backend.digestOf next) (R.backend.storedTime now) row.series
        row.secretDigest, rfl⟩
    · exact .inl rfl
  | presentCascade c =>
    simp only [step]
    split
    · rename_i subject hcall
      exact .inr ⟨.deleteFor subject, hclear subject⟩
    · exact .inl rfl
  | revoke presented =>
    rw [step]
    cases parsePlaintext presented with
    | none => exact .inl rfl
    | some halves => exact .inr ⟨.deleteSeries halves.1, rfl⟩
  | revokeAllFor subject => exact .inr ⟨.deleteFor subject, hclear subject⟩
  | sweepExpired now => exact .inr ⟨.deleteExpired now, rfl⟩
  | fail c => exact .inl rfl

/-- A token is only judged by a read of its row. -/
theorem findLive_reported {t : RememberTable} {series : PublicId} {now : ℤ} {row : RememberRow}
    (h : findLive t series now = some row) :
    (row.series, row.subject) ∈ records.reported .exact t (sql (.findLive series now)) := by
  obtain ⟨hget, hlive⟩ := Option.filter_eq_some_iff.mp h
  refine List.mem_map.mpr ⟨row, List.mem_filter.mpr ⟨Table.mem_of_get? hget, ?_⟩, rfl⟩
  have hseries : row.series = series := Table.key_of_get? hget
  simpa [Owned.meets, hseries] using hlive

end Remember

end Arcature.Auth

/-! ### The notification inbox -/

namespace Arcature.Notifications
open Arcature.Lib

/-- One statement with what it binds. -/
inductive Statement where
  | insertNew (id : NotificationId) (notifiableKey : String) (content : DatabaseContent) (createdAt : ℤ)
  | list (notifiableKey : String)
  | listUnread (notifiableKey : String)
  | markRead (readAt : ℤ) (notifiableKey : String) (id : NotificationId)
  | markAllRead (readAt : ℤ) (notifiableKey : String)
  | delete (notifiableKey : String) (id : NotificationId)
  | deleteAll (notifiableKey : String)
  | deleteReadBefore (cutoff : ℤ)

/-- The statement's text. -/
def sql (C : TextColumn) : Statement → records.Stmt
  | .insertNew id key content createdAt => Notifications.insertNew C id key content createdAt
  | .list key => Notifications.list key
  | .listUnread key => Notifications.listUnread key
  | .markRead readAt key id => markReadStmt readAt key id
  | .markAllRead readAt key => markAllReadStmt readAt key
  | .delete key id => deleteStmt key id
  | .deleteAll key => Notifications.deleteAll key
  | .deleteReadBefore cutoff => Notifications.deleteReadBefore cutoff

/-- A call changes the table by one of the statements. -/
theorem step_rows (D : Inbox) (t : InboxTable) (c : Call) : (D.step t c).1 = t ∨
    ∃ st, (D.step t c).1 = records.exec D.keys t (sql D.keys st) := by
  cases c with
  | store key content now draws =>
    rcases storeLoop_table (D := D) t key content now storeAttempts draws with h | ⟨id, -, h⟩
    · exact .inl h
    · exact .inr ⟨.insertNew id key content (D.times.stored now), h⟩
  | markRead key id now => exact .inr ⟨.markRead (D.times.stored now) key id, rfl⟩
  | markAllRead key now => exact .inr ⟨.markAllRead (D.times.stored now) key, rfl⟩
  | delete key id => exact .inr ⟨.delete key id, rfl⟩
  | deleteAllFor key => exact .inr ⟨.deleteAll key, rfl⟩
  | pruneReadBefore cutoff => exact .inr ⟨.deleteReadBefore (D.times.stored cutoff), rfl⟩

end Arcature.Notifications

namespace Arcature.Auth
open Arcature.Lib

/-! ### Four stores, one column -/

theorem serves_tokens (C : TextColumn) : Tokens.records.Serves (Tokens.sql C) where
  inserts s := ⟨.insertNew (.fill 16 0) (.fill 32 0) s "" [] 0 0, _, rfl, rfl⟩
  wipes s := ⟨.deleteFor s, rfl⟩

theorem serves_resets : Reset.records.Serves Reset.sql where
  inserts s := ⟨.insertNew ⟨.fill 16 0, .fill 32 0, s, 0, 0⟩, _, rfl, rfl⟩
  wipes s := ⟨.deleteFor s, rfl⟩

theorem serves_remembered : Remember.records.Serves Remember.sql where
  inserts s := ⟨.insertNew ⟨.fill 16 0, .fill 32 0, none, none, s, 0, 0⟩, _, rfl, rfl⟩
  wipes s := ⟨.deleteFor s, rfl⟩

theorem serves_notifications (C : TextColumn) : Notifications.records.Serves (Notifications.sql C) where
  inserts s := ⟨.insertNew (.fill 16 0) s ⟨"", .null⟩ 0, _, rfl, rfl⟩
  wipes s := ⟨.deleteAll s, rfl⟩

/-- In a dialect, all four stores serve the subjects of `U` apart, in every run over them. -/
def SubjectsApart (D : Dialect) (U : Set String) : Prop :=
  Tokens.records.KeepsApart D.subjectColumn (Tokens.sql D.subjectColumn) U ∧
    Reset.records.KeepsApart D.subjectColumn Reset.sql U ∧
    Remember.records.KeepsApart D.subjectColumn Remember.sql U ∧
    Notifications.records.KeepsApart D.subjectColumn (Notifications.sql D.subjectColumn) U

/-- Each store alone serves the subjects apart exactly if the dialect tells them apart. -/
theorem subjectsApart_iff (D : Dialect) (U : Set String) : (SubjectsApart D U ↔ D.TellsApart U) ∧
    (Tokens.records.KeepsApart D.subjectColumn (Tokens.sql D.subjectColumn) U ↔ D.TellsApart U) ∧
    (Reset.records.KeepsApart D.subjectColumn Reset.sql U ↔ D.TellsApart U) ∧
    (Remember.records.KeepsApart D.subjectColumn Remember.sql U ↔ D.TellsApart U) ∧
    (Notifications.records.KeepsApart D.subjectColumn (Notifications.sql D.subjectColumn) U ↔
      D.TellsApart U) := by
  have htokens := Owned.keepsApart_iff (C := D.subjectColumn) (U := U) (serves_tokens D.subjectColumn)
  have hresets := Owned.keepsApart_iff (C := D.subjectColumn) (U := U) serves_resets
  have hremembered := Owned.keepsApart_iff (C := D.subjectColumn) (U := U) serves_remembered
  have hinbox := Owned.keepsApart_iff (C := D.subjectColumn) (U := U)
    (serves_notifications D.subjectColumn)
  rw [D.distinguishes_iff] at htokens hresets hremembered hinbox
  refine ⟨?_, htokens, hresets, hremembered, hinbox⟩
  rw [SubjectsApart, htokens, hresets, hremembered, hinbox, and_self, and_self, and_self]

/-- A collation that does not look at the case of ASCII letters. -/
def caseInsensitive (a b : String) : Bool := a.toList.map Char.toLower = b.toList.map Char.toLower

/-- To MySQL "user:a" and "USER:A" are one subject, and 192 characters are 191 of them. -/
theorem mixed_under_mysql :
    ¬ SubjectsApart (.mysql caseInsensitive) {"user:a", "USER:A"} ∧
      ¬ SubjectsApart (.mysql caseInsensitive) {String.ofList (List.replicate 192 'a')} := by
  constructor
  · rintro ⟨-, -, -, hinbox⟩
    have happart := ((Owned.keepsApart_iff (serves_notifications _)).mp hinbox).2
    have heq := happart "user:a" (by simp) "USER:A" (by simp) (by decide)
    exact absurd heq (by decide)
  · rintro ⟨-, -, -, hinbox⟩
    have hkept := ((Owned.keepsApart_iff (serves_notifications _)).mp hinbox).1
    have hfits := (cut_eq_iff _).mp (hkept _ (Set.mem_singleton _))
    rw [String.length_ofList, List.length_replicate] at hfits
    exact absurd hfits (by decide)

end Arcature.Auth
