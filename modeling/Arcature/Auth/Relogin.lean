import Arcature.Auth.TwoIdentities

/-! What is left of an earlier login.

    A login rotates the id of the session and keeps its data (`auth/extract.rs`). It writes the user and
    the time over whatever was there, and the stamp only if the user has a credential:

                              id     time     stamp
        login a               a      09:00    a's
        login b               b      09:30    a's       b has no credential
        b sets a password
        load                  flushed: the stamp is not b's

    On a session without a stamp the last load begins tracking instead, and b stays signed in. A login
    depends only on who logs in exactly where the user has a credential or there is no stamp to be left
    (`login_only_iff`). -/

namespace Arcature.Auth.Extract
open Arcature.Lib

section Relogin

variable {ι : Type} (sha256 : Bytes → Bytes) (U : Identity)

/-! ### Two sessions after a login -/

/-- A request: the rows it finds, the time, and whether the database answers. -/
structure Request (ι : Type) where
  rows : ι → Option (Option Bytes)
  now : ℕ
  reachable : Bool

/-- What a request loads. -/
def Request.load (r : Request ι) (session : Session ι) : Session ι × Loaded ι :=
  loadUser sha256 U r.rows r.now r.reachable session

/-- A session after some requests. -/
def afterRequests (requests : List (Request ι)) (session : Session ι) : Session ι :=
  requests.foldl (fun session r => (r.load sha256 U session).1) session

/-- A request flushes the session because its stamp is not that of the credential in the row. -/
def Mismatch (r : Request ι) (session : Session ι) : Prop :=
  r.load sha256 U session = (.flushed, .anonymous) ∧
    ∃ id credential bound, session.users U.sessionKey = some id ∧ r.rows id = some (some credential) ∧
      session.stamp = some bound ∧ bound ≠ credentialStamp sha256 credential

/-- The row of a user is gone or holds the credential of the login. -/
def Unchanged (user : User ι) (r : Request ι) : Prop :=
  ∀ credential, r.rows user.id = some credential → credential = user.credential

variable [DecidableEq ι]

/-- What the operations that follow on a login answer, whatever the rows are at each of them. -/
def answers : Session ι → List ((Str → ι → Option (Option Bytes)) × Op ι) → List (Option (Loaded ι))
  | _, [] => []
  | session, (rows, op) :: rest =>
    let (s, answer) := step sha256 U ⟨session, rows⟩ op
    answer :: answers s.session rest

/-- A login leaves the same in both sessions: the user, the time and the stamp of the credential. They
    answer the same from then on, and a request flushes neither for a mismatch, as long as the user's
    credential does not change. -/
structure LoginOnly (user : User ι) (remember : Bool) (now : ℕ) (s s' : Session ι) : Prop where
  user_eq : ∀ t ∈ [s, s'], (login sha256 U user remember now t).users U.sessionKey = some user.id
  time_eq : ∀ t ∈ [s, s'], (login sha256 U user remember now t).authAt = some now
  stamp_eq : ∀ t ∈ [s, s'],
    (login sha256 U user remember now t).stamp = user.credential.map (credentialStamp sha256)
  answers_eq : ∀ later, answers sha256 U (login sha256 U user remember now s) later =
    answers sha256 U (login sha256 U user remember now s') later
  flush_ok : ∀ t ∈ [s, s'], ∀ earlier r, (∀ r' ∈ earlier ++ [r], Unchanged user r') →
    ¬ Mismatch sha256 U r (afterRequests sha256 U earlier (login sha256 U user remember now t))

variable {sha256 U} {user : User ι} {remember : Bool} {now : ℕ} {s s' t : Session ι}

/-! ### What a login writes -/

omit [DecidableEq ι]

theorem users_login : (login sha256 U user remember now t).users U.sessionKey = some user.id := by
  cases hcredential : user.credential <;> cases remember <;> simp [login, hcredential]

theorem authAt_login : (login sha256 U user remember now t).authAt = some now := by
  cases hcredential : user.credential <;> cases remember <;> simp [login, hcredential]

/-- The stamp is that of the credential, or what was there. -/
theorem stamp_login : (login sha256 U user remember now t).stamp =
    (user.credential.map (credentialStamp sha256)).or t.stamp := by
  cases hcredential : user.credential <;> cases remember <;> simp [login, hcredential]

/-! ### Requests on an unchanged credential -/

/-- The user of a login is still there, with the stamp of its credential, or nobody is. -/
def StillBound (sha256 : Bytes → Bytes) (U : Identity) (user : User ι) (t : Session ι) : Prop :=
  t.users U.sessionKey = none ∨ (t.users U.sessionKey = some user.id ∧
    ∀ credential, user.credential = some credential → t.stamp = some (credentialStamp sha256 credential))

theorem stillBound_login : StillBound sha256 U user (login sha256 U user remember now t) := by
  refine Or.inr ⟨users_login, fun credential h => ?_⟩
  rw [stamp_login, h]
  rfl

/-- A session is flushed, or keeps its users and the stamp that it has. -/
def Keeps (t t' : Session ι) : Prop :=
  t' = .flushed ∨ (t'.users = t.users ∧ ∀ bound, t.stamp = some bound → t'.stamp = some bound)

theorem keeps_enforceCredential (user : User ι) (t : Session ι) :
    Keeps t (enforceCredential sha256 user t).1 := by
  unfold enforceCredential
  cases user.credential with
  | none => exact Or.inr ⟨rfl, fun _ h => h⟩
  | some credential =>
    cases hstamp : t.stamp with
    | none => exact Or.inr ⟨rfl, fun bound h => by rw [hstamp] at h; cases h⟩
    | some bound =>
      simp only
      split
      · exact Or.inr ⟨rfl, fun _ h => h⟩
      · exact Or.inl rfl

theorem keeps_loadRow (rows : ι → Option (Option Bytes)) (reachable : Bool) (id : ι) (t : Session ι) :
    Keeps t (loadRow sha256 rows reachable id t).1 := by
  unfold loadRow
  split
  · split
    · exact keeps_enforceCredential _ t
    · exact Or.inr ⟨rfl, fun _ h => h⟩
  · exact Or.inr ⟨rfl, fun _ h => h⟩

theorem keeps_load (r : Request ι) (t : Session ι) : Keeps t (r.load sha256 U t).1 := by
  unfold Request.load loadUser
  split
  · exact Or.inr ⟨rfl, fun _ h => h⟩
  · split
    · split
      · exact Or.inl rfl
      · exact keeps_loadRow ..
    · exact keeps_loadRow r.rows r.reachable _ { t with authAt := some r.now }

theorem StillBound.afterRequests (h : StillBound sha256 U user t) (requests : List (Request ι)) :
    StillBound sha256 U user (afterRequests sha256 U requests t) := by
  induction requests generalizing t with
  | nil => exact h
  | cons r requests ih =>
    refine ih (t := (r.load sha256 U t).1) ?_
    rcases @keeps_load _ sha256 U r t with hflushed | ⟨husers, hstamp⟩
    · rw [hflushed]
      exact Or.inl rfl
    · rcases h with hgone | ⟨huser, hbound⟩
      · exact Or.inl (by rw [husers, hgone])
      · exact Or.inr ⟨by rw [husers, huser], fun credential hc => hstamp _ (hbound credential hc)⟩

/-- The stamp of a credential that has not changed is not a mismatch. -/
theorem StillBound.not_mismatch (h : StillBound sha256 U user t) {r : Request ι} (hr : Unchanged user r) :
    ¬ Mismatch sha256 U r t := by
  rintro ⟨-, id, credential, bound, hid, hrow, hstamp, hne⟩
  rcases h with hgone | ⟨huser, hbound⟩
  · rw [hgone] at hid
    cases hid
  · rw [huser, Option.some_inj] at hid
    subst hid
    have hsame := hbound credential (hr _ hrow).symm
    rw [hstamp, Option.some_inj] at hsame
    exact hne hsame

/-! ### Two runs -/

variable [DecidableEq ι]

/-- Where nothing was changed from elsewhere, an operation of the type itself changes nothing of that. -/
theorem note_none (op : Op ι) : note U .none s s' (.a, op) = .none := by
  cases op with
  | load now reachable =>
    simp only [note]
    split <;> rfl
  | login user remember now => rfl
  | rebind user => rfl
  | regenerate => rfl
  | logout => rfl
  | changePassword id credential => rfl

/-- An operation answers the same in sessions that agree in all that it reads, and keeps it so. -/
theorem agree_step (h : Agree U .none s s') (rows : Str → ι → Option (Option Bytes)) (op : Op ι) :
    (step sha256 U ⟨s, rows⟩ op).2 = (step sha256 U ⟨s', rows⟩ op).2 ∧
      Agree U .none (step sha256 U ⟨s, rows⟩ op).1.session (step sha256 U ⟨s', rows⟩ op).1.session := by
  have hown : ∀ now reachable, op = .load now reachable →
      ReadsOwn U ⟨s, rows⟩ .none now reachable :=
    fun _ _ _ => ⟨rfl, fun _ _ => ⟨rfl, fun _ _ _ => rfl⟩⟩
  obtain ⟨hout, hagree⟩ := @agree_a _ _ sha256 U U rows .none ⟨s, rows⟩ ⟨s', rows⟩ rfl h op hown
  rw [note_none] at hagree
  exact ⟨hout, hagree⟩

theorem answers_of_agree (h : Agree U .none s s') (later : List ((Str → ι → Option (Option Bytes)) × Op ι)) :
    answers sha256 U s later = answers sha256 U s' later := by
  induction later generalizing s s' with
  | nil => rfl
  | cons e later ih =>
    obtain ⟨rows, op⟩ := e
    obtain ⟨hanswer, hagree⟩ := @agree_step _ sha256 U s s' _ h rows op
    simp only [answers]
    rw [hanswer, ih hagree]

/-- A login depends only on who logs in exactly where the user has a credential, or neither session has
    a stamp of somebody else's. -/
theorem login_only_iff : LoginOnly sha256 U user remember now s s' ↔
    user.credential.isSome ∨ (s.stamp = none ∧ s'.stamp = none) := by
  constructor
  · intro h
    cases hcredential : user.credential with
    | some credential => exact Or.inl rfl
    | none =>
      have hleft : ∀ t ∈ [s, s'], t.stamp = none := fun t ht => by
        have hstamp := h.stamp_eq t ht
        rw [stamp_login, hcredential] at hstamp
        exact hstamp
      exact Or.inr ⟨hleft s (by simp), hleft s' (by simp)⟩
  · intro h
    have hstamp : ∀ t ∈ [s, s'],
        (login sha256 U user remember now t).stamp = user.credential.map (credentialStamp sha256) := by
      intro t ht
      rw [stamp_login]
      rcases h with hsome | ⟨hs, hs'⟩
      · obtain ⟨credential, hcredential⟩ := Option.isSome_iff_exists.mp hsome
        rw [hcredential]
        rfl
      · have hnone : t.stamp = none := by
          rcases List.mem_pair.mp ht with rfl | rfl
          · exact hs
          · exact hs'
        rw [hnone, Option.or_none]
    refine ⟨fun t _ => users_login, fun t _ => authAt_login, hstamp, ?_, ?_⟩
    · refine answers_of_agree ⟨fun _ => ?_, fun _ => ?_, fun _ => ?_⟩
      · rw [users_login, users_login]
      · rw [authAt_login, authAt_login]
      · rw [hstamp s (by simp), hstamp s' (by simp)]
    · intro t _ earlier r hunchanged
      exact (stillBound_login.afterRequests earlier).not_mismatch (hunchanged r (by simp))

end Relogin

/-! ### A user without a credential -/

section Stale

/-- A user type, and a digest that is one of its bytes. -/
def member : Identity := ⟨"user".toList, 3600000⟩

/-- One account with a credential, and one without. -/
def withPassword : User ℕ := ⟨1, some [0x61]⟩

def withoutPassword : User ℕ := ⟨2, none⟩

/-- The session of the first account. -/
def earlierSession : Session ℕ := login id member withPassword false 0 .flushed

/-- The second account logs in where the first one was, and on a new session, and sets a password: it
    is signed out of the one and stays in the other. -/
theorem stale_stamp :
    (login id member withoutPassword false 10 earlierSession).stamp ≠ none ∧
    answers id member (login id member withoutPassword false 10 earlierSession)
      [(fun _ _ => some (some [0x62]), .load 20 true)] = [some .anonymous] ∧
    answers id member (login id member withoutPassword false 10 .flushed)
      [(fun _ _ => some (some [0x62]), .load 20 true)] = [some (.user ⟨2, some [0x62]⟩)] ∧
    ¬ LoginOnly id member withoutPassword false 10 earlierSession .flushed := by
  refine ⟨by decide, by decide, by decide, fun h => ?_⟩
  have hstamp := h.stamp_eq earlierSession (by simp)
  exact absurd hstamp (by decide)

end Stale

end Arcature.Auth.Extract
