import Arcature.Auth.Extract

/-! Two user types on one session.

    The id of a user is kept under the key of its type, but there is one time and one stamp for all of
    them (`ABSOLUTE_AUTH_AT_KEY` and `CREDENTIAL_STAMP_KEY` in `auth/extract.rs`), and a flush takes
    everything:

                     A's id    B's id    time     stamp
        login a      a                   09:00    a's
        login b      a         b         09:30    b's
        load A       flushed: the stamp is not a's

    What an operation of B changes, and A has not written again since, is noted along a run. As long
    as a load of A reads nothing of that, every operation of A answers what it would without B's
    (`apart_of_readsOwn`); and not in general (`signed_out_by_another`). -/

namespace Arcature.Auth.Extract
open Arcature.Lib

/-- The user types `A` and `B`. -/
inductive Side where
  | a
  | b
  deriving DecidableEq

/-- An operation of one of them. -/
abbrev SideOp (ι : Type) := Side × Op ι

section TwoIdentities

variable {ι : Type} [DecidableEq ι] (sha256 : Bytes → Bytes) (A B : Identity)

/-- One session under the operations of both types. -/
def shared (rows : Str → ι → Option (Option Bytes)) :
    Machine (State ι) (SideOp ι) (Option (Loaded ι)) where
  init := ⟨.flushed, rows⟩
  step s
    | (.a, op) => step sha256 A s op
    | (.b, op) => step sha256 B s op

/-- The operations of `A` answer in this run what they answer without those of `B`. -/
def Apart (rows : Str → ι → Option (Option Bytes)) (es : List (SideOp ι)) : Prop :=
  ((shared sha256 A B rows).trace es).filter (·.1.1 = .a) =
    (shared sha256 A B rows).trace (es.filter (·.1 = .a))

/-- What `B` was the last to change: the id of `A`'s user, the time, the stamp. -/
structure Changed where
  id : Bool
  authAt : Bool
  stamp : Bool

/-- Nothing. -/
def Changed.none : Changed := ⟨false, false, false⟩

/-- What `B` was the last to change, after an operation from `s` to `s'`. -/
def note (changed : Changed) (s s' : Session ι) : SideOp ι → Changed
  | (.b, _) =>
    ⟨changed.id || decide (s.users A.sessionKey ≠ s'.users A.sessionKey),
      changed.authAt || decide (s.authAt ≠ s'.authAt), changed.stamp || decide (s.stamp ≠ s'.stamp)⟩
  | (.a, .login user _ _) => ⟨false, false, changed.stamp && user.credential.isNone⟩
  | (.a, .rebind user) => { changed with stamp := changed.stamp && user.credential.isNone }
  | (.a, .logout) => .none
  -- a load that flushes takes everything
  | (.a, .load _ _) => if (s.users A.sessionKey).isSome ∧ s'.users A.sessionKey = none then .none else changed
  | (.a, _) => changed

/-- The session, with what `B` was the last to change. -/
def noted (rows : Str → ι → Option (Option Bytes)) :
    Machine (State ι × Changed) (SideOp ι) (Option (Loaded ι)) where
  init := (⟨.flushed, rows⟩, .none)
  step s e :=
    let (s', answer) := (shared sha256 A B rows).step s.1 e
    ((s', note A s.2 s.1.session s'.session e), answer)

/-- A load of `A` reads nothing that `B` was the last to change: the id; with a user there, the time;
    and within the cap, with a credential in the user's row, the stamp. -/
def ReadsOwn (s : State ι) (changed : Changed) (now : ℕ) (reachable : Bool) : Prop :=
  changed.id = false ∧ ∀ id, s.session.users A.sessionKey = some id →
    changed.authAt = false ∧
      ((∀ authAt, s.session.authAt = some authAt → (now : ℤ) - authAt ≤ A.absoluteMaxMillis) →
        reachable = true → (∃ credential, s.rows A.sessionKey id = some (some credential)) →
        changed.stamp = false)

/-- The session with the operations of both, and the one with those of `A` alone: they agree in what
    `B` was not the last to change. -/
structure Agree (changed : Changed) (s s' : Session ι) : Prop where
  users_eq : changed.id = false → s.users A.sessionKey = s'.users A.sessionKey
  authAt_eq : changed.authAt = false → s.authAt = s'.authAt
  stamp_eq : changed.stamp = false → s.stamp = s'.stamp

variable {sha256 A B}

section Step

variable {changed : Changed} {s s' : Session ι}

omit [DecidableEq ι]

/-- Where the stamp is read, it is the same, and so is what comes of it. -/
theorem enforceCredential_agree (h : Agree A changed s s') {user : User ι}
    (hstamp : (∃ credential, user.credential = some credential) → changed.stamp = false) :
    (enforceCredential sha256 user s = (.flushed, .anonymous) ∧
      enforceCredential sha256 user s' = (.flushed, .anonymous)) ∨
    ((enforceCredential sha256 user s).1.users = s.users ∧
      (enforceCredential sha256 user s).2 = (enforceCredential sha256 user s').2 ∧
      Agree A changed (enforceCredential sha256 user s).1 (enforceCredential sha256 user s').1) := by
  cases hcredential : user.credential with
  | none =>
    right
    simp only [enforceCredential, hcredential]
    exact ⟨trivial, trivial, h⟩
  | some credential =>
    have heq := h.stamp_eq (hstamp ⟨credential, hcredential⟩)
    simp only [enforceCredential, hcredential, ← heq]
    cases s.stamp with
    | none => exact Or.inr ⟨rfl, rfl, ⟨h.users_eq, h.authAt_eq, fun _ => rfl⟩⟩
    | some bound =>
      by_cases hbound : bound = credentialStamp sha256 credential
      · refine Or.inr ?_
        simp only [if_pos hbound]
        exact ⟨trivial, trivial, h⟩
      · refine Or.inl ?_
        simp only [if_neg hbound]
        exact ⟨trivial, trivial⟩

theorem loadRow_agree (h : Agree A changed s s') {rows : ι → Option (Option Bytes)} {reachable : Bool} {id : ι}
    (hstamp : reachable = true → (∃ credential, rows id = some (some credential)) → changed.stamp = false) :
    (loadRow sha256 rows reachable id s = (.flushed, .anonymous) ∧
      loadRow sha256 rows reachable id s' = (.flushed, .anonymous)) ∨
    ((loadRow sha256 rows reachable id s).1.users = s.users ∧
      (loadRow sha256 rows reachable id s).2 = (loadRow sha256 rows reachable id s').2 ∧
      Agree A changed (loadRow sha256 rows reachable id s).1 (loadRow sha256 rows reachable id s').1) := by
  cases reachable with
  | false => exact Or.inr ⟨rfl, rfl, h⟩
  | true =>
    simp only [loadRow, if_true]
    cases hrow : rows id with
    | none => exact Or.inr ⟨rfl, rfl, h⟩
    | some credential =>
      refine enforceCredential_agree h fun hsome => hstamp rfl ?_
      obtain ⟨c, hc⟩ := hsome
      exact ⟨c, by rw [hrow]; exact congrArg some hc⟩

/-- A load that reads its own finds the same in both sessions. -/
theorem loadUser_agree (h : Agree A changed s s') {rows : Str → ι → Option (Option Bytes)} {now : ℕ}
    {reachable : Bool} (hown : ReadsOwn A ⟨s, rows⟩ changed now reachable) :
    ((s.users A.sessionKey).isSome ∧
      loadUser sha256 A (rows A.sessionKey) now reachable s = (.flushed, .anonymous) ∧
      loadUser sha256 A (rows A.sessionKey) now reachable s' = (.flushed, .anonymous)) ∨
    ((loadUser sha256 A (rows A.sessionKey) now reachable s).1.users = s.users ∧
      (loadUser sha256 A (rows A.sessionKey) now reachable s).2 =
        (loadUser sha256 A (rows A.sessionKey) now reachable s').2 ∧
      Agree A changed (loadUser sha256 A (rows A.sessionKey) now reachable s).1
        (loadUser sha256 A (rows A.sessionKey) now reachable s').1) := by
  obtain ⟨hchanged, hreads⟩ := hown
  have husers := h.users_eq hchanged
  simp only [loadUser, ← husers]
  cases hid : s.users A.sessionKey with
  | none => exact Or.inr ⟨rfl, rfl, h⟩
  | some id =>
    obtain ⟨hat, hstamp⟩ := hreads id hid
    have hauthAt := h.authAt_eq hat
    simp only [← hauthAt]
    cases hbound : s.authAt with
    | none =>
      have hnow : Agree A changed { s with authAt := some now } { s' with authAt := some now } :=
        ⟨h.users_eq, fun _ => rfl, h.stamp_eq⟩
      have hread : reachable = true → (∃ credential, rows A.sessionKey id = some (some credential)) →
          changed.stamp = false := hstamp fun authAt hsome => by cases hbound.symm.trans hsome
      rcases @loadRow_agree _ sha256 A _ _ _ hnow (rows A.sessionKey) reachable id hread with hflush | hkept
      · exact Or.inl ⟨rfl, hflush⟩
      · exact Or.inr hkept
    | some authAt =>
      by_cases hcap : (now : ℤ) - authAt > A.absoluteMaxMillis
      · refine Or.inl ?_
        simp only [if_pos hcap]
        exact ⟨rfl, trivial, trivial⟩
      · simp only [if_neg hcap]
        have hread : reachable = true → (∃ credential, rows A.sessionKey id = some (some credential)) →
            changed.stamp = false := by
          refine hstamp fun authAt' hsome => ?_
          cases hbound.symm.trans hsome
          exact not_lt.mp hcap
        rcases @loadRow_agree _ sha256 A _ _ _ h (rows A.sessionKey) reachable id hread with hflush | hkept
        · exact Or.inl ⟨rfl, hflush⟩
        · exact Or.inr hkept

theorem agree_refl (changed : Changed) (s : Session ι) : Agree A changed s s :=
  ⟨fun _ => rfl, fun _ => rfl, fun _ => rfl⟩

theorem login_agree (h : Agree A changed s s') (user : User ι) (remember : Bool) (now : ℕ) :
    Agree A ⟨false, false, changed.stamp && user.credential.isNone⟩
      (login sha256 A user remember now s) (login sha256 A user remember now s') := by
  have hstamp : (changed.stamp && user.credential.isNone) = false →
      (login sha256 A user remember now s).stamp = (login sha256 A user remember now s').stamp := by
    intro hown
    cases hcredential : user.credential with
    | none =>
      rw [hcredential, Option.isNone_none, Bool.and_true] at hown
      cases remember <;> simpa [login, hcredential] using h.stamp_eq hown
    | some credential => cases remember <;> simp [login, hcredential]
  refine ⟨fun _ => ?_, fun _ => ?_, hstamp⟩
  · cases hcredential : user.credential <;> cases remember <;> simp [login, hcredential]
  · cases hcredential : user.credential <;> cases remember <;> simp [login, hcredential]

theorem rebind_agree (h : Agree A changed s s') (user : User ι) :
    Agree A { changed with stamp := changed.stamp && user.credential.isNone }
      (rebindCredential sha256 user s) (rebindCredential sha256 user s') := by
  cases hcredential : user.credential with
  | none => simpa [rebindCredential, hcredential] using h
  | some credential =>
    simp only [rebindCredential, hcredential]
    exact ⟨h.users_eq, h.authAt_eq, fun _ => rfl⟩

end Step

theorem rows_step (U : Identity) {key : Str} (hkey : key ≠ U.sessionKey) (s : State ι) (op : Op ι) :
    (step sha256 U s op).1.rows key = s.rows key := by
  cases op with
  | changePassword id credential => exact Function.update_of_ne hkey _ _
  | login user remember now => rfl
  | load now reachable => rfl
  | rebind user => rfl
  | regenerate => rfl
  | logout => rfl

theorem rows_step_self {U : Identity} {s s' : State ι} (h : s.rows U.sessionKey = s'.rows U.sessionKey)
    (op : Op ι) : (step sha256 U s op).1.rows U.sessionKey = (step sha256 U s' op).1.rows U.sessionKey := by
  cases op with
  | changePassword id credential => simp only [step, Function.update_self, h]
  | login user remember now => exact h
  | load now reachable => exact h
  | rebind user => exact h
  | regenerate => exact h
  | logout => exact h

section Run

variable {rows : Str → ι → Option (Option Bytes)} {changed : Changed} {s s' : State ι}

/-- After an operation of `B`, what it changed is noted. -/
theorem agree_b (h : Agree A changed s.session s'.session) (op : Op ι) :
    Agree A (note A changed s.session ((shared sha256 A B rows).next s (.b, op)).session (.b, op))
      ((shared sha256 A B rows).next s (.b, op)).session s'.session := by
  refine ⟨fun hid => ?_, fun hat => ?_, fun hstamp => ?_⟩
  · simp only [note, Bool.or_eq_false_iff, decide_eq_false_iff_not, not_not] at hid
    rw [← hid.2, h.users_eq hid.1]
  · simp only [note, Bool.or_eq_false_iff, decide_eq_false_iff_not, not_not] at hat
    rw [← hat.2, h.authAt_eq hat.1]
  · simp only [note, Bool.or_eq_false_iff, decide_eq_false_iff_not, not_not] at hstamp
    rw [← hstamp.2, h.stamp_eq hstamp.1]

/-- An operation of `A` answers the same and leaves the sessions in agreement. -/
theorem agree_a (hrows : s.rows A.sessionKey = s'.rows A.sessionKey) (h : Agree A changed s.session s'.session)
    {op : Op ι} (hown : ∀ now reachable, op = .load now reachable → ReadsOwn A s changed now reachable) :
    (shared sha256 A B rows).out s (.a, op) = (shared sha256 A B rows).out s' (.a, op) ∧
    Agree A (note A changed s.session ((shared sha256 A B rows).next s (.a, op)).session (.a, op))
      ((shared sha256 A B rows).next s (.a, op)).session ((shared sha256 A B rows).next s' (.a, op)).session := by
  cases op with
  | login user remember now => exact ⟨rfl, login_agree h user remember now⟩
  | rebind user => exact ⟨rfl, rebind_agree h user⟩
  | regenerate => exact ⟨rfl, h⟩
  | logout => exact ⟨rfl, agree_refl _ _⟩
  | changePassword id credential => exact ⟨rfl, h⟩
  | load now reachable =>
    have hnext : ∀ t : State ι, ((shared sha256 A B rows).next t (.a, .load now reachable)).session =
        (loadUser sha256 A (t.rows A.sessionKey) now reachable t.session).1 := fun _ => rfl
    have hout : ∀ t : State ι, (shared sha256 A B rows).out t (.a, .load now reachable) =
        some (loadUser sha256 A (t.rows A.sessionKey) now reachable t.session).2 := fun _ => rfl
    rw [hnext, hnext, hout, hout, ← hrows]
    rcases @loadUser_agree _ sha256 A _ _ _ h s.rows now reachable (hown now reachable rfl) with
      ⟨hsome, hflush, hflush'⟩ | ⟨husers, hanswer, hagree⟩
    · rw [hflush, hflush', note, if_pos ⟨hsome, rfl⟩]
      exact ⟨rfl, agree_refl _ _⟩
    · rw [hanswer, note, husers, if_neg fun hgone => by rw [hgone.2] at hgone; exact absurd hgone.1 (by simp)]
      exact ⟨rfl, hagree⟩

theorem noted_fst (es : List (SideOp ι)) :
    ((noted sha256 A B rows).run es).1 = (shared sha256 A B rows).run es := by
  induction es using List.reverseRecOn with
  | nil => rfl
  | append_singleton es e ih =>
    rw [Machine.run_concat, Machine.run_concat, ← ih]
    rfl

/-- Along a run whose loads of `A` read their own, the session agrees with that of `A` alone. -/
theorem agree_run (hkeys : A.sessionKey ≠ B.sessionKey) {es : List (SideOp ι)}
    (hown : ∀ i now reachable, es[i]? = some (.a, .load now reachable) →
      ReadsOwn A ((noted sha256 A B rows).run (es.take i)).1 ((noted sha256 A B rows).run (es.take i)).2
        now reachable) :
    ((shared sha256 A B rows).run es).rows A.sessionKey =
        ((shared sha256 A B rows).run (es.filter (·.1 = .a))).rows A.sessionKey ∧
      Agree A ((noted sha256 A B rows).run es).2 ((shared sha256 A B rows).run es).session
        ((shared sha256 A B rows).run (es.filter (·.1 = .a))).session ∧
      Apart sha256 A B rows es := by
  induction es using List.reverseRecOn with
  | nil => exact ⟨rfl, agree_refl _ _, rfl⟩
  | append_singleton es e ih =>
    have hrest : ∀ i now reachable, es[i]? = some (.a, .load now reachable) →
        ReadsOwn A ((noted sha256 A B rows).run (es.take i)).1
          ((noted sha256 A B rows).run (es.take i)).2 now reachable := by
      intro i now reachable hi
      have hlt : i < es.length := (List.getElem?_eq_some_iff.mp hi).1
      have := hown i now reachable (by rw [List.getElem?_append_left hlt]; exact hi)
      rwa [List.take_append_of_le_length hlt.le] at this
    obtain ⟨hrows, hagree, hapart⟩ := ih hrest
    have hnote : ((noted sha256 A B rows).run (es ++ [e])).2 =
        note A ((noted sha256 A B rows).run es).2 ((shared sha256 A B rows).run es).session
          ((shared sha256 A B rows).next ((shared sha256 A B rows).run es) e).session e := by
      rw [Machine.run_concat, ← noted_fst]
      rfl
    rw [hnote, Machine.run_concat, List.filter_append, Apart, Machine.trace_concat, List.filter_append, hapart]
    obtain ⟨side, op⟩ := e
    cases side with
    | a =>
      have hload : ∀ now reachable, op = .load now reachable →
          ReadsOwn A ((shared sha256 A B rows).run es) ((noted sha256 A B rows).run es).2 now reachable := by
        rintro now reachable rfl
        have := hown es.length now reachable (by simp)
        rwa [List.take_left, noted_fst] at this
      obtain ⟨hout, hnext⟩ := @agree_a _ _ sha256 A B rows _ _ _ hrows hagree op hload
      have hkept : [((Side.a, op) : SideOp ι)].filter (·.1 = .a) = [(.a, op)] := rfl
      rw [hkept, Machine.run_concat, List.filter_append, hkept, Machine.trace_concat]
      refine ⟨?_, hnext, ?_⟩
      · exact rows_step_self hrows op
      · rw [hout]
        rfl
    | b =>
      have hdropped : [((Side.b, op) : SideOp ι)].filter (·.1 = .a) = [] := rfl
      rw [hdropped, List.append_nil, List.filter_append, hdropped, List.append_nil]
      refine ⟨?_, agree_b hagree op, ?_⟩
      · rw [← hrows]
        exact rows_step B hkeys _ op
      · exact List.append_nil _

/-- In every run of both types in which no load of `A` reads what an operation of `B` was the last to
    change, the operations of `A` answer what they answer without those of `B`. -/
theorem apart_of_readsOwn (sha256 : Bytes → Bytes) (A B : Identity) (hkeys : A.sessionKey ≠ B.sessionKey)
    (rows : Str → ι → Option (Option Bytes)) (es : List (SideOp ι))
    (hown : ∀ i now reachable, es[i]? = some (.a, .load now reachable) →
      ReadsOwn A ((noted sha256 A B rows).run (es.take i)).1 ((noted sha256 A B rows).run (es.take i)).2
        now reachable) :
    Apart sha256 A B rows es :=
  (agree_run hkeys hown).2.2

end Run

end TwoIdentities

/-! ### A shop and its administrators -/

/-- Administrators, under a key of their own. -/
def admins : Identity := ⟨"admin_id".toList, 3600000⟩

/-- An administrator signs in, and then a user. -/
def userAfterAdmin : List (SideOp ℕ) :=
  [(.b, .login ⟨8, some [0x62]⟩ false 500), (.a, .login ⟨7, some [0x61]⟩ false 1000), (.a, .load 2000 true)]

/-- A user signs in, and then an administrator. -/
def adminAfterUser : List (SideOp ℕ) :=
  [(.a, .login ⟨7, some [0x61]⟩ false 1000), (.b, .login ⟨8, some [0x62]⟩ false 1500), (.a, .load 2000 true)]

/-- A user that signs in after the administrator writes all that is read later. -/
theorem apart_userAfterAdmin :
    (shared sha256OfLetter hourly admins twoUsers).out
      ((shared sha256OfLetter hourly admins twoUsers).run (userAfterAdmin.take 2)) (.a, .load 2000 true) =
        some (.user ⟨7, some [0x61]⟩) ∧
    Apart sha256OfLetter hourly admins twoUsers userAfterAdmin := by
  refine ⟨by decide +kernel, apart_of_readsOwn _ _ _ (by decide) _ _ ?_⟩
  rintro (_ | _ | _ | i) now reachable he
  · cases he
  · cases he
  · have hown : ((noted sha256OfLetter hourly admins twoUsers).run (userAfterAdmin.take 2)).2 = .none := rfl
    rw [hown]
    exact ⟨rfl, fun id _ => ⟨rfl, fun _ _ _ => rfl⟩⟩
  · cases he

/-- The login of an administrator signs the user out. -/
theorem signed_out_by_another :
    (shared sha256OfLetter hourly admins twoUsers).out
      ((shared sha256OfLetter hourly admins twoUsers).run (adminAfterUser.take 2)) (.a, .load 2000 true) =
        some .anonymous ∧
    ¬ Apart sha256OfLetter hourly admins twoUsers adminAfterUser := by
  refine ⟨by decide +kernel, fun h => ?_⟩
  have hanswers := congrArg (List.map Prod.snd) h
  exact absurd hanswers (by decide +kernel)

end Arcature.Auth.Extract
