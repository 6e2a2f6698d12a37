import Arcature.Lib.Machine
import Arcature.Lib.Text

/-! Who is signed in, and what that proves.

    A login binds three things to the session: the user's id, the time, and a stamp of the credential
    the user signed in with (`auth/extract.rs`). Every request reads them again and compares the time
    with the clock and the stamp with the user's row as it stands now:

        login u    id u   at 09:00   stamp of u's hash
          request    over the cap              ──▶ flush
          request    stamp differs             ──▶ flush
          rebind u                stamp of the new hash
          request                              ──▶ u

    The session is one and the same throughout, whatever its id is. So an extraction proves that the
    latest login was of this user, that it is no older than the cap, and that the credential is the
    one of that login or of the latest rebind, as long as a session is only rebound to the user that
    is signed in (`loaded_proves`). `rebind_credential` does not look whose session it is
    (`rebound_to_another`). -/

namespace Arcature.Auth.Extract
open Arcature.Lib

/-- An `AuthUser`: its id and its stored credential. -/
structure User (ι : Type) where
  id : ι
  credential : Option Bytes
  deriving DecidableEq

/-- What a user type says: `SESSION_KEY`, and `absolute_max_age` in milliseconds. -/
structure Identity where
  sessionKey : Str
  absoluteMaxAge : ℕ

/-- The data of a session: the ids under the keys of the user types, `ABSOLUTE_AUTH_AT_KEY`,
    `CREDENTIAL_STAMP_KEY` and `remember_me`. -/
structure Session (ι : Type) where
  users : Str → Option ι
  authAt : Option ℕ
  stamp : Option Str
  rememberMe : Bool

/-- What an extraction comes to: the user, nobody, or a response of status 500. -/
inductive Loaded (ι : Type) where
  | user (u : User ι)
  | anonymous
  | failed
  deriving DecidableEq

section Session

variable {ι : Type}

/-- A session after `flush`. -/
def Session.flushed : Session ι := ⟨fun _ => none, none, none, false⟩

/-- A hexadecimal digit. -/
def hexDigit (n : ℕ) : Char := Nat.digitChar n

/-- A byte in hexadecimal. -/
def hexByte (b : UInt8) : Str := [hexDigit (b.toNat / 16), hexDigit (b.toNat % 16)]

variable (sha256 : Bytes → Bytes)

/-- `credential_stamp`. -/
def credentialStamp (credential : Bytes) : Str := (sha256 credential).flatMap hexByte

/-- `LoginBuilder::into_future`, with the time it reads. The id is rotated, and the data stay. -/
def login (U : Identity) (user : User ι) (remember : Bool) (now : ℕ) (session : Session ι) : Session ι :=
  let session := { session with users := Function.update session.users U.sessionKey (some user.id) }
  let session := { session with authAt := some now }
  let session := match user.credential.map (credentialStamp sha256) with
    | some stamp => { session with stamp := some stamp }
    | none => session
  if remember then { session with rememberMe := true } else session

/-- `rebind_credential`. -/
def rebindCredential (user : User ι) (session : Session ι) : Session ι :=
  match user.credential with
  | some credential => { session with stamp := some (credentialStamp sha256 credential) }
  | none => session

/-- The end of `load_user`: the stamp against the credential as it stands now. -/
def enforceCredential (user : User ι) (session : Session ι) : Session ι × Loaded ι :=
  match user.credential with
  | none => (session, .user user)
  | some credential =>
    let expected := credentialStamp sha256 credential
    match session.stamp with
    | some bound => if bound = expected then (session, .user user) else (.flushed, .anonymous)
    | none => ({ session with stamp := some expected }, .user user)

/-- The middle of `load_user`: the row of the user, if the database answers. -/
def loadRow (rows : ι → Option (Option Bytes)) (reachable : Bool) (id : ι) (session : Session ι) :
    Session ι × Loaded ι :=
  if reachable then
    match rows id with
    | some credential => enforceCredential sha256 ⟨id, credential⟩ session
    | none => (session, .anonymous)
  else (session, .failed)

/-- The cap in milliseconds, as an `i64`. -/
def Identity.absoluteMaxMillis (U : Identity) : ℕ := min U.absoluteMaxAge (2 ^ 63 - 1)

/-- `load_user`, with the time it reads. -/
def loadUser (U : Identity) (rows : ι → Option (Option Bytes)) (now : ℕ) (reachable : Bool)
    (session : Session ι) : Session ι × Loaded ι :=
  match session.users U.sessionKey with
  | none => (session, .anonymous)
  | some id =>
    match session.authAt with
    | some authAt =>
      -- neither time is negative, so that the difference does not saturate
      if (now : ℤ) - authAt > U.absoluteMaxMillis then (.flushed, .anonymous)
      else loadRow sha256 rows reachable id session
    | none => loadRow sha256 rows reachable id { session with authAt := some now }

/-! ### Runs -/

/-- The session, and the credentials in the rows of the user types. -/
structure State (ι : Type) where
  session : Session ι
  rows : Str → ι → Option (Option Bytes)

/-- An operation on a session, or a password that is changed. -/
inductive Op (ι : Type) where
  | login (user : User ι) (remember : Bool) (now : ℕ)
  | load (now : ℕ) (reachable : Bool)
  | rebind (user : User ι)
  | regenerate
  | logout
  | changePassword (id : ι) (credential : Bytes)

variable [DecidableEq ι]

/-- A row with another credential. -/
def changeRow (rows : ι → Option (Option Bytes)) (id : ι) (credential : Bytes) : ι → Option (Option Bytes) :=
  Function.update rows id ((rows id).map fun _ => some credential)

/-- One operation of a user type. -/
def step (U : Identity) (s : State ι) : Op ι → State ι × Option (Loaded ι)
  | .login user remember now => ({ s with session := login sha256 U user remember now s.session }, none)
  | .load now reachable =>
    let (session, loaded) := loadUser sha256 U (s.rows U.sessionKey) now reachable s.session
    ({ s with session }, some loaded)
  | .rebind user => ({ s with session := rebindCredential sha256 user s.session }, none)
  | .regenerate => (s, none)
  | .logout => ({ s with session := .flushed }, none)
  | .changePassword id credential =>
    ({ s with rows := Function.update s.rows U.sessionKey (changeRow (s.rows U.sessionKey) id credential) },
      none)

/-- A session under the operations of one user type. -/
def machine (U : Identity) (rows : Str → ι → Option (Option Bytes)) :
    Machine (State ι) (Op ι) (Option (Loaded ι)) where
  init := ⟨.flushed, rows⟩
  step := step sha256 U

/-! ### What an extraction proves -/

/-- An operation that signs a user in. -/
def Op.IsLogin : Op ι → Prop
  | .login _ _ _ => True
  | _ => False

/-- An operation that binds the session to a credential. -/
def Op.Binds : Op ι → Prop
  | .login _ _ _ => True
  | .rebind _ => True
  | _ => False

/-- An operation that ends the authentication: a logout, or a load that flushes. -/
def Ends (U : Identity) (s : State ι) (e : Op ι) : Prop :=
  e = .logout ∨
    (s.session.users U.sessionKey).isSome ∧ ((step sha256 U s e).1.session.users U.sessionKey) = none

/-- A login of this user, at a time that is not longer ago than the cap. -/
def RecentLogin (U : Identity) (now : ℕ) (u : User ι) (_ : State ι) (e : Op ι) : Prop :=
  ∃ user remember loginAt, e = .login user remember loginAt ∧ user.id = u.id ∧
    now ≤ loginAt + U.absoluteMaxAge

/-- A login of this user, or a rebind, at which the user had this credential. -/
def BindsCredential (U : Identity) (u : User ι) (s : State ι) (e : Op ι) : Prop :=
  (∃ user remember loginAt, e = .login user remember loginAt ∧ user.id = u.id ∧
    user.credential = u.credential) ∨
  ∃ user, e = .rebind user ∧ s.rows U.sessionKey u.id = some u.credential

section Runs

variable (U : Identity) (rows : Str → ι → Option (Option Bytes))

/-- What an extraction of `u` proves of the run before it: the latest login, with no logout and no
    flush since, was of `u` and no older than the cap; and the credential of `u` is the one of that
    login or of the latest rebind after it. -/
def Proven (es : List (Op ι)) (now : ℕ) (u : User ι) : Prop :=
  (machine sha256 U rows).Since (RecentLogin U now u) (fun s e => e.IsLogin ∨ Ends sha256 U s e) es ∧
  (machine sha256 U rows).Since (BindsCredential U u) (fun s e => e.Binds ∨ Ends sha256 U s e) es

/-- An operation that may be next: a login with a user that was read at some time and has a
    credential, and a rebind with a user that was just read. -/
def MayFollow (es : List (Op ι)) : Op ι → Prop
  | .login user _ _ => user.credential.isSome ∧
      ∃ k ≤ es.length, ((machine sha256 U rows).run (es.take k)).rows U.sessionKey user.id = some user.credential
  | .rebind user => ((machine sha256 U rows).run es).rows U.sessionKey user.id = some user.credential
  | _ => True

/-- A rebind is to the user that is signed in, if there is one. -/
def OwnRebind (es : List (Op ι)) (e : Op ι) : Prop :=
  ∀ user, e = .rebind user →
    ∀ id, ((machine sha256 U rows).run es).session.users U.sessionKey = some id → user.id = id

/-- A credential that a row holds at some time of the run. -/
def Held (es : List (Op ι)) (credential : Bytes) : Prop :=
  ∃ k id, ((machine sha256 U rows).run (es.take k)).rows U.sessionKey id = some (some credential)

variable {sha256 U rows}

theorem held_append {es fs : List (Op ι)} {credential : Bytes} (h : Held sha256 U rows es credential) :
    Held sha256 U rows (es ++ fs) credential := by
  obtain ⟨k, id, hk⟩ := h
  refine ⟨min k es.length, id, ?_⟩
  rw [List.take_append_of_le_length (min_le_right _ _)]
  rcases le_total k es.length with hle | hle
  · rwa [min_eq_left hle]
  · rw [min_eq_right hle, List.take_length]
    rwa [List.take_of_length_le hle] at hk

/-- A row that has a credential keeps one. -/
theorem rows_next {s : State ι} {id : ι} {credential : Bytes}
    (h : s.rows U.sessionKey id = some (some credential)) (e : Op ι) :
    ∃ credential', ((machine sha256 U rows).next s e).rows U.sessionKey id = some (some credential') := by
  cases e with
  | changePassword id' changed =>
    simp only [Machine.next, machine, step, Function.update_self, changeRow]
    by_cases hid : id = id'
    · subst hid
      exact ⟨changed, by rw [Function.update_self, h]; rfl⟩
    · exact ⟨credential, by rw [Function.update_of_ne hid, h]⟩
  | login user remember now => exact ⟨credential, h⟩
  | load now reachable => exact ⟨credential, h⟩
  | rebind user => exact ⟨credential, h⟩
  | regenerate => exact ⟨credential, h⟩
  | logout => exact ⟨credential, h⟩

theorem rows_run {es : List (Op ι)} {k : ℕ} {id : ι} {credential : Bytes}
    (h : ((machine sha256 U rows).run (es.take k)).rows U.sessionKey id = some (some credential)) :
    ∃ credential', ((machine sha256 U rows).run es).rows U.sessionKey id = some (some credential') := by
  have hfold : ∀ (fs : List (Op ι)) (s : State ι) (c : Bytes), s.rows U.sessionKey id = some (some c) →
      ∃ c', (fs.foldl (machine sha256 U rows).next s).rows U.sessionKey id = some (some c') := by
    intro fs
    induction fs with
    | nil => exact fun s c hs => ⟨c, hs⟩
    | cons e fs ih =>
      intro s c hs
      obtain ⟨c', hc'⟩ := @rows_next _ sha256 _ U rows s id c hs e
      exact ih _ c' hc'
  have hrun : (machine sha256 U rows).run es =
      (es.drop k).foldl (machine sha256 U rows).next ((machine sha256 U rows).run (es.take k)) := by
    rw [Machine.run, Machine.run, ← List.foldl_append, List.take_append_drop]
  rw [hrun]
  exact hfold _ _ _ h

omit [DecidableEq ι] in
/-- The cases of a load that leaves the user in the session: nothing else changes, if the session has
    a time and a stamp; and the user that is returned is the one in it, with the stamp and within the
    cap. -/
theorem loadUser_cases {s : Session ι} {id : ι} {authAt : ℕ} {stamp : Str} {table : ι → Option (Option Bytes)}
    (hid : s.users U.sessionKey = some id) (hat : s.authAt = some authAt) (hstamp : s.stamp = some stamp)
    (now : ℕ) (reachable : Bool) :
    loadUser sha256 U table now reachable s = (.flushed, .anonymous) ∨
    (loadUser sha256 U table now reachable s).1 = s ∧
      ∀ u, (loadUser sha256 U table now reachable s).2 = .user u →
        u.id = id ∧ table id = some u.credential ∧ now ≤ authAt + U.absoluteMaxAge ∧
          ∀ credential, u.credential = some credential → stamp = credentialStamp sha256 credential := by
  simp only [loadUser, hid, hat]
  by_cases hcap : (now : ℤ) - authAt > U.absoluteMaxMillis
  · exact Or.inl (if_pos hcap)
  · rw [if_neg hcap]
    have hage : now ≤ authAt + U.absoluteMaxAge := by
      have hmin : U.absoluteMaxMillis ≤ U.absoluteMaxAge := min_le_left _ _
      omega
    cases reachable with
    | false => exact Or.inr ⟨rfl, fun u h => by cases h⟩
    | true =>
      simp only [loadRow, if_true]
      cases hrow : table id with
      | none => exact Or.inr ⟨rfl, fun u h => by cases h⟩
      | some stored =>
        cases stored with
        | none =>
          refine Or.inr ⟨rfl, fun u h => ?_⟩
          cases h
          exact ⟨rfl, rfl, hage, fun credential h => by cases h⟩
        | some credential =>
          simp only [enforceCredential, hstamp]
          by_cases hbound : stamp = credentialStamp sha256 credential
          · rw [if_pos hbound]
            refine Or.inr ⟨rfl, fun u h => ?_⟩
            cases h
            refine ⟨rfl, rfl, hage, fun c hc => ?_⟩
            cases hc
            exact hbound
          · exact Or.inl (if_neg hbound)

/-- What holds of a session with a user in it: its time is that of the latest login, its stamp that of
    the credential it was bound to last, and the user's row has a credential. -/
def BoundTo (sha256 : Bytes → Bytes) (U : Identity) (rows : Str → ι → Option (Option Bytes))
    (es : List (Op ι)) (s : State ι) (id : ι) : Prop :=
  ∃ loginAt credential, s.session.authAt = some loginAt ∧
    s.session.stamp = some (credentialStamp sha256 credential) ∧ Held sha256 U rows es credential ∧
    (machine sha256 U rows).Since
      (fun _ e => ∃ user remember, e = .login user remember loginAt ∧ user.id = id)
      (fun s e => e.IsLogin ∨ Ends sha256 U s e) es ∧
    (machine sha256 U rows).Since (BindsCredential U ⟨id, some credential⟩)
      (fun s e => e.Binds ∨ Ends sha256 U s e) es ∧
    ∃ stored, s.rows U.sessionKey id = some (some stored)

/-- An operation that leaves the session and whose user as they are keeps what holds of it. -/
theorem BoundTo.next {es : List (Op ι)} {id : ι} {e : Op ι}
    (h : BoundTo sha256 U rows es ((machine sha256 U rows).run es) id) (hlogin : ¬ e.Binds)
    (hsession : ((machine sha256 U rows).next ((machine sha256 U rows).run es) e).session =
      ((machine sha256 U rows).run es).session)
    (hends : ¬ Ends sha256 U ((machine sha256 U rows).run es) e) :
    BoundTo sha256 U rows (es ++ [e]) ((machine sha256 U rows).next ((machine sha256 U rows).run es) e) id := by
  obtain ⟨loginAt, credential, hat, hstamp, hheld, hsince, hbinds, stored, hrow⟩ := h
  have hlogin' : ¬ e.IsLogin := by
    cases e <;> simp_all [Op.IsLogin, Op.Binds]
  refine ⟨loginAt, credential, by rw [hsession, hat], by rw [hsession, hstamp], held_append hheld, ?_, ?_,
    rows_next hrow e⟩
  · exact Machine.since_concat.mpr (Or.inr ⟨hsince, fun h => h.elim hlogin' hends⟩)
  · exact Machine.since_concat.mpr (Or.inr ⟨hbinds, fun h => h.elim hlogin hends⟩)

theorem not_ends {s : State ι} {e : Op ι} (he : e ≠ .logout)
    (h : (step sha256 U s e).1.session.users U.sessionKey ≠ none) : ¬ Ends sha256 U s e := by
  rintro (hlogout | ⟨-, hnone⟩)
  · exact he hlogout
  · exact h hnone

theorem boundTo_login {es : List (Op ι)} {user : User ι} {remember : Bool} {now : ℕ} {id : ι}
    (hmay : MayFollow sha256 U rows es (.login user remember now))
    (hid : ((machine sha256 U rows).next ((machine sha256 U rows).run es)
      (.login user remember now)).session.users U.sessionKey = some id) :
    BoundTo sha256 U rows (es ++ [.login user remember now])
      ((machine sha256 U rows).next ((machine sha256 U rows).run es) (.login user remember now)) id := by
  obtain ⟨hsome, k, hk, hread⟩ := hmay
  obtain ⟨credential, hcredential⟩ := Option.isSome_iff_exists.mp hsome
  rw [hcredential] at hread
  obtain ⟨stored, hstored⟩ := rows_run hread
  have huser : user.id = id := by
    cases remember <;>
      simpa [Machine.next, machine, step, login, hcredential, Function.update_self] using hid
  subst huser
  refine ⟨now, credential, ?_, ?_, held_append ⟨k, user.id, hread⟩, ?_, ?_, stored, hstored⟩
  · cases remember <;> simp [Machine.next, machine, step, login, hcredential]
  · cases remember <;> simp [Machine.next, machine, step, login, hcredential]
  · exact Machine.since_concat.mpr (Or.inl ⟨user, remember, rfl, rfl⟩)
  · exact Machine.since_concat.mpr (Or.inl (Or.inl ⟨user, remember, now, rfl, rfl, hcredential⟩))

theorem boundTo_rebind {es : List (Op ι)} {user : User ι} {id : ι}
    (hmay : MayFollow sha256 U rows es (.rebind user)) (hown : OwnRebind sha256 U rows es (.rebind user))
    (hid : ((machine sha256 U rows).run es).session.users U.sessionKey = some id)
    (h : BoundTo sha256 U rows es ((machine sha256 U rows).run es) id) :
    BoundTo sha256 U rows (es ++ [.rebind user])
      ((machine sha256 U rows).next ((machine sha256 U rows).run es) (.rebind user)) id := by
  obtain ⟨loginAt, _, hat, -, -, hsince, -, stored, hrow⟩ := h
  have huser : user.id = id := hown user rfl id hid
  have hfresh : ((machine sha256 U rows).run es).rows U.sessionKey user.id = some user.credential := hmay
  rw [huser, hrow, Option.some_inj] at hfresh
  have hsession : ((machine sha256 U rows).next ((machine sha256 U rows).run es) (.rebind user)).session =
      { ((machine sha256 U rows).run es).session with stamp := some (credentialStamp sha256 stored) } := by
    simp only [Machine.next, machine, step, rebindCredential, ← hfresh]
  have hends : ¬ Ends sha256 U ((machine sha256 U rows).run es) (.rebind user) := by
    refine not_ends (by simp) ?_
    show ((machine sha256 U rows).next _ _).session.users U.sessionKey ≠ none
    simp [hsession, hid]
  refine ⟨loginAt, stored, by rw [hsession]; exact hat, by rw [hsession], ?_, ?_, ?_, stored, hrow⟩
  · refine held_append ⟨es.length, id, ?_⟩
    rwa [List.take_length]
  · exact Machine.since_concat.mpr (Or.inr ⟨hsince, fun h => h.elim (fun h => h) hends⟩)
  · exact Machine.since_concat.mpr (Or.inl (Or.inr ⟨user, rfl, hrow⟩))

/-- One operation keeps what holds of a session with a user in it. -/
theorem boundTo_next {es : List (Op ι)} {e : Op ι} (hmay : MayFollow sha256 U rows es e)
    (hown : OwnRebind sha256 U rows es e)
    (ih : ∀ id, ((machine sha256 U rows).run es).session.users U.sessionKey = some id →
      BoundTo sha256 U rows es ((machine sha256 U rows).run es) id) (id : ι)
    (hid : ((machine sha256 U rows).next ((machine sha256 U rows).run es) e).session.users U.sessionKey =
      some id) :
    BoundTo sha256 U rows (es ++ [e]) ((machine sha256 U rows).next ((machine sha256 U rows).run es) e) id := by
  have hends : e ≠ .logout → ¬ Ends sha256 U ((machine sha256 U rows).run es) e := by
    intro he
    refine not_ends he ?_
    show ((machine sha256 U rows).next _ _).session.users U.sessionKey ≠ none
    simp [hid]
  cases e with
  | login user remember now => exact boundTo_login hmay hid
  | rebind user =>
    have hbefore : ((machine sha256 U rows).run es).session.users U.sessionKey = some id := by
      rw [← hid]
      simp only [Machine.next, machine, step, rebindCredential]
      cases user.credential <;> rfl
    exact boundTo_rebind hmay hown hbefore (ih id hbefore)
  | regenerate => exact (ih id hid).next (fun h => h) rfl (hends (by simp))
  | changePassword id' credential => exact (ih id hid).next (fun h => h) rfl (hends (by simp))
  | logout => cases hid
  | load now reachable =>
    cases hbefore : ((machine sha256 U rows).run es).session.users U.sessionKey with
    | none =>
      -- a load signs nobody in
      have hsame : ((machine sha256 U rows).next ((machine sha256 U rows).run es)
          (.load now reachable)).session = ((machine sha256 U rows).run es).session := by
        show (loadUser sha256 U _ now reachable _).1 = _
        simp only [loadUser, hbefore]
      rw [hsame, hbefore] at hid
      cases hid
    | some id' =>
      obtain ⟨loginAt, credential, hat, hstamp, -⟩ := ih id' hbefore
      rcases @loadUser_cases _ sha256 U _ id' loginAt _ (((machine sha256 U rows).run es).rows U.sessionKey)
        hbefore hat hstamp now reachable with hflush | ⟨hsame, -⟩
      · have hnext : ((machine sha256 U rows).next ((machine sha256 U rows).run es)
            (.load now reachable)).session = .flushed := congrArg Prod.fst hflush
        rw [hnext] at hid
        cases hid
      · have hnext : ((machine sha256 U rows).next ((machine sha256 U rows).run es)
            (.load now reachable)).session = ((machine sha256 U rows).run es).session := hsame
        rw [hnext, hbefore, Option.some_inj] at hid
        subst hid
        exact (ih id' hbefore).next (fun h => h) hnext (hends (by simp))

theorem hexDigit_injective : ∀ a b : Fin 16, hexDigit a = hexDigit b → a = b := by decide

theorem hexByte_injective : Function.Injective hexByte := by
  intro a b h
  rw [hexByte, hexByte, List.cons.injEq, List.cons.injEq] at h
  have ha := a.toNat_lt
  have hb := b.toNat_lt
  have hhigh := hexDigit_injective ⟨a.toNat / 16, by omega⟩ ⟨b.toNat / 16, by omega⟩ h.1
  have hlow := hexDigit_injective ⟨a.toNat % 16, by omega⟩ ⟨b.toNat % 16, by omega⟩ h.2.1
  rw [Fin.mk.injEq] at hhigh hlow
  exact UInt8.toNat_inj.mp (by omega)

theorem hex_injective : ∀ a b : Bytes, a.flatMap hexByte = b.flatMap hexByte → a = b
  | [], [], _ => rfl
  | [], _ :: _, h => by simp [hexByte] at h
  | _ :: _, [], h => by simp [hexByte] at h
  | x :: a, y :: b, h => by
    rw [List.flatMap_cons, List.flatMap_cons] at h
    obtain ⟨hbyte, hrest⟩ := List.append_inj h rfl
    rw [hexByte_injective hbyte, hex_injective a b hrest]

/-- What holds along a run that may be. -/
theorem boundTo_run {es : List (Op ι)} (hmay : ∀ i e, es[i]? = some e → MayFollow sha256 U rows (es.take i) e)
    (hown : ∀ i e, es[i]? = some e → OwnRebind sha256 U rows (es.take i) e) (id : ι)
    (hid : ((machine sha256 U rows).run es).session.users U.sessionKey = some id) :
    BoundTo sha256 U rows es ((machine sha256 U rows).run es) id := by
  revert id
  refine @Machine.inv_hist _ _ _ (machine sha256 U rows)
    (fun es s => ∀ id, s.session.users U.sessionKey = some id → BoundTo sha256 U rows es s id)
    (fun es e => MayFollow sha256 U rows es e ∧ OwnRebind sha256 U rows es e) ?_ ?_ es
    fun i e he => ⟨hmay i e he, hown i e he⟩
  · intro id hid
    cases hid
  · rintro es e ⟨hmay, hown⟩ ih
    exact boundTo_next hmay hown ih

/-- For every run over one session: if a load returns `u`, the latest login was of `u` with no logout
    or flush since, it is no older than the cap, and the credential of `u` is the one of that login or
    of the latest rebind after it. -/
theorem loaded_proves (sha256 : Bytes → Bytes) (U : Identity) (rows : Str → ι → Option (Option Bytes))
    (es : List (Op ι)) (hmay : ∀ i e, es[i]? = some e → MayFollow sha256 U rows (es.take i) e)
    (hown : ∀ i e, es[i]? = some e → OwnRebind sha256 U rows (es.take i) e)
    (hsha : ∀ c c', Held sha256 U rows es c → Held sha256 U rows es c' → sha256 c = sha256 c' → c = c')
    (now : ℕ) (reachable : Bool) (u : User ι)
    (hload : (machine sha256 U rows).out ((machine sha256 U rows).run es) (.load now reachable) =
      some (.user u)) :
    Proven sha256 U rows es now u := by
  have hloaded : (loadUser sha256 U (((machine sha256 U rows).run es).rows U.sessionKey) now reachable
      ((machine sha256 U rows).run es).session).2 = .user u := Option.some_inj.mp hload
  cases hid : ((machine sha256 U rows).run es).session.users U.sessionKey with
  | none =>
    simp only [loadUser, hid] at hloaded
    cases hloaded
  | some id =>
    obtain ⟨loginAt, credential, hat, hstamp, hheld, hsince, hbinds, stored, hrow⟩ :=
      boundTo_run hmay hown id hid
    rcases @loadUser_cases _ sha256 U _ id loginAt _ (((machine sha256 U rows).run es).rows U.sessionKey)
      hid hat hstamp now reachable with hflush | ⟨-, huser⟩
    · rw [hflush] at hloaded
      cases hloaded
    · obtain ⟨rfl, hstored, hage, hsame⟩ := huser u hloaded
      rw [hrow, Option.some_inj] at hstored
      -- the stamp is that of the row's credential, which is then the bound one
      have hdigest := hex_injective _ _ (hsame stored hstored.symm)
      have hheld' : Held sha256 U rows es stored := ⟨es.length, u.id, by rwa [List.take_length]⟩
      have hcredential : credential = stored := hsha _ _ hheld hheld' hdigest
      have hu : u = ⟨u.id, some credential⟩ := by rw [hcredential, hstored]
      refine ⟨?_, ?_⟩
      · obtain ⟨i, hfires, hno⟩ := hsince
        refine ⟨i, hfires.imp ?_, hno⟩
        rintro s e ⟨user, remember, rfl, huid⟩
        exact ⟨user, remember, loginAt, rfl, huid, hage⟩
      · rw [hu]
        exact hbinds

end Runs

end Session

/-! ### Two users and one session -/

/-- SHA-256, on the texts `a` and `b`. -/
def sha256OfLetter (credential : Bytes) : Bytes :=
  if credential = [0x61] then
    [0xca, 0x97, 0x81, 0x12, 0xca, 0x1b, 0xbd, 0xca, 0xfa, 0xc2, 0x31, 0xb3, 0x9a, 0x23,
      0xdc, 0x4d, 0xa7, 0x86, 0xef, 0xf8, 0x14, 0x7c, 0x4e, 0x72, 0xb9, 0x80, 0x77, 0x85,
      0xaf, 0xee, 0x48, 0xbb]
  else
    [0x3e, 0x23, 0xe8, 0x16, 0x00, 0x39, 0x59, 0x4a, 0x33, 0x89, 0x4f, 0x65, 0x64, 0xe1,
      0xb1, 0x34, 0x8b, 0xbd, 0x7a, 0x00, 0x88, 0xd4, 0x2c, 0x4a, 0xcb, 0x73, 0xee, 0xae,
      0xd5, 0x9c, 0x00, 0x9d]

/-- Users under `user_id`, with the cap of an hour. -/
def hourly : Identity := ⟨"user_id".toList, 3600000⟩

/-- The rows of the users `7` and `8`. -/
def twoUsers : Str → ℕ → Option (Option Bytes)
  | _, 7 => some (some [0x61])
  | _, 8 => some (some [0x62])
  | _, _ => none

/-- User `7` signs in, changes the password and rebinds the session. -/
def ownRebind : List (Op ℕ) :=
  [.login ⟨7, some [0x61]⟩ false 1000, .changePassword 7 [0x62], .rebind ⟨7, some [0x62]⟩]

/-- User `7` signs in, the session is rebound to user `8`, and then `7` gets the credential of `8`. -/
def foreignRebind : List (Op ℕ) :=
  [.login ⟨7, some [0x61]⟩ false 1000, .rebind ⟨8, some [0x62]⟩, .changePassword 7 [0x62]]

theorem sha256OfLetter_injOn {c c' : Bytes} (hc : c = [0x61] ∨ c = [0x62]) (hc' : c' = [0x61] ∨ c' = [0x62])
    (h : sha256OfLetter c = sha256OfLetter c') : c = c' := by
  rcases hc with rfl | rfl <;> rcases hc' with rfl | rfl
  · rfl
  · exact absurd h (by decide)
  · exact absurd h (by decide)
  · rfl

theorem letter_of_changeRow {rows : ℕ → Option (Option Bytes)} {c : Bytes} {id id' : ℕ}
    (hrows : rows id = some (some c) → c = [0x61] ∨ c = [0x62])
    (h : changeRow rows id' [0x62] id = some (some c)) : c = [0x61] ∨ c = [0x62] := by
  rw [changeRow] at h
  by_cases hid : id = id'
  · subst hid
    rw [Function.update_self] at h
    cases hrow : rows id with
    | none => simp [hrow] at h
    | some stored =>
      rw [hrow, Option.map_some, Option.some_inj, Option.some_inj] at h
      exact Or.inr h.symm
  · rw [Function.update_of_ne hid] at h
    exact hrows h

theorem letter_of_twoUsers {c : Bytes} {key : Str} {id : ℕ} (h : twoUsers key id = some (some c)) :
    c = [0x61] ∨ c = [0x62] := by
  unfold twoUsers at h
  split at h
  · simp_all
  · simp_all
  · cases h

/-- Only these two credentials come up where passwords are changed to `b`. -/
theorem letter_of_held {es : List (Op ℕ)} (hes : ∀ e ∈ es, ∀ id c, e = .changePassword id c → c = [0x62])
    {c : Bytes} (h : Held sha256OfLetter hourly twoUsers es c) : c = [0x61] ∨ c = [0x62] := by
  obtain ⟨k, id, hrow⟩ := h
  have hrun : ∀ fs : List (Op ℕ), (∀ e ∈ fs, ∀ id c, e = .changePassword id c → c = [0x62]) →
      ∀ id c, ((machine sha256OfLetter hourly twoUsers).run fs).rows hourly.sessionKey id = some (some c) →
        c = [0x61] ∨ c = [0x62] := by
    intro fs
    induction fs using List.reverseRecOn with
    | nil => exact fun _ id c h => letter_of_twoUsers h
    | append_singleton fs e ih =>
      intro hfs id c h
      have hrest := ih fun e he => hfs e (List.mem_append_left _ he)
      rw [Machine.run_concat] at h
      cases e with
      | changePassword id' changed =>
        obtain rfl := hfs _ (List.mem_append_right _ List.mem_cons_self) id' changed rfl
        simp only [Machine.next, machine, step, Function.update_self] at h
        exact letter_of_changeRow (hrest id c) h
      | login user remember now => exact hrest id c h
      | load now reachable => exact hrest id c h
      | rebind user => exact hrest id c h
      | regenerate => exact hrest id c h
      | logout => exact hrest id c h
  exact hrun (es.take k) (fun e he => hes e (List.mem_of_mem_take he)) id c hrow

/-- A password is changed, and the session survives by a rebind. -/
theorem loaded_proves_rebound :
    (machine sha256OfLetter hourly twoUsers).out ((machine sha256OfLetter hourly twoUsers).run ownRebind)
      (.load 2000 true) = some (.user ⟨7, some [0x62]⟩) ∧
    Proven sha256OfLetter hourly twoUsers ownRebind 2000 ⟨7, some [0x62]⟩ := by
  have hload : (machine sha256OfLetter hourly twoUsers).out
      ((machine sha256OfLetter hourly twoUsers).run ownRebind) (.load 2000 true) =
        some (.user ⟨7, some [0x62]⟩) := by decide +kernel
  refine ⟨hload, loaded_proves _ _ _ _ ?_ ?_ ?_ 2000 true _ hload⟩
  · rintro (_ | _ | _ | i) e he
    · cases he
      exact ⟨rfl, 0, le_rfl, rfl⟩
    · cases he
      trivial
    · cases he
      exact (by decide +kernel : ((machine sha256OfLetter hourly twoUsers).run (ownRebind.take 2)).rows
        hourly.sessionKey 7 = some (some [0x62]))
    · cases he
  · rintro (_ | _ | _ | i) e he user rfl id hid
    · cases he
    · cases he
    · cases he
      have hseven : ((machine sha256OfLetter hourly twoUsers).run (ownRebind.take 2)).session.users
        hourly.sessionKey = some 7 := by decide +kernel
      exact Option.some_inj.mp (hseven.symm.trans hid)
    · cases he
  · intro c c' hc hc'
    refine sha256OfLetter_injOn (letter_of_held ?_ hc) (letter_of_held ?_ hc') <;> simp [ownRebind]

/-- With a session that was rebound to another user, a load returns a user with a credential that the
    user had neither at the login nor at the rebind. -/
theorem rebound_to_another :
    (∀ i e, foreignRebind[i]? = some e →
      MayFollow sha256OfLetter hourly twoUsers (foreignRebind.take i) e) ∧
    (∀ c c', Held sha256OfLetter hourly twoUsers foreignRebind c →
      Held sha256OfLetter hourly twoUsers foreignRebind c' → sha256OfLetter c = sha256OfLetter c' → c = c') ∧
    (machine sha256OfLetter hourly twoUsers).out
      ((machine sha256OfLetter hourly twoUsers).run foreignRebind) (.load 2000 true) =
        some (.user ⟨7, some [0x62]⟩) ∧
    ¬ Proven sha256OfLetter hourly twoUsers foreignRebind 2000 ⟨7, some [0x62]⟩ := by
  refine ⟨?_, ?_, by decide +kernel, ?_⟩
  · rintro (_ | _ | _ | i) e he
    · cases he
      exact ⟨rfl, 0, le_rfl, rfl⟩
    · cases he
      exact (by decide +kernel : ((machine sha256OfLetter hourly twoUsers).run (foreignRebind.take 1)).rows
        hourly.sessionKey 8 = some (some [0x62]))
    · cases he
      trivial
    · cases he
  · intro c c' hc hc'
    refine sha256OfLetter_injOn (letter_of_held ?_ hc) (letter_of_held ?_ hc') <;> simp [foreignRebind]
  · rintro ⟨-, _ | _ | _ | i, ⟨e, he, hbinds⟩, -⟩
    · cases he
      rcases hbinds with ⟨user, remember, loginAt, heq, -, hcredential⟩ | ⟨user, heq, -⟩
      · cases heq
        exact absurd hcredential (by decide)
      · cases heq
    · cases he
      rcases hbinds with ⟨user, remember, loginAt, heq, -⟩ | ⟨user, -, hrow⟩
      · cases heq
      · have hseven : ((machine sha256OfLetter hourly twoUsers).run (foreignRebind.take 1)).rows
          hourly.sessionKey 7 = some (some [0x61]) := by decide +kernel
        exact absurd (hseven.symm.trans hrow) (by decide)
    · cases he
      rcases hbinds with ⟨user, remember, loginAt, heq, -⟩ | ⟨user, heq, -⟩
      · cases heq
      · cases heq
    · cases he

end Arcature.Auth.Extract
