import Arcature.Auth.Remember.Rotation

/-! Which retired secrets the grace window covers.

    The row remembers one retired digest and one rotation time, so the window covers the secret the
    last rotation retired, for as long as the stored rotation time is after the stored cutoff, and
    no other. A secret retired by an earlier rotation is accused however recent that rotation is.

        install x₀ ── rotate to x₁ ── rotate to x₂ ── present x₀ (Theft)   x₁ (graced)   x₂ (current) -/

namespace Arcature.Auth.Remember
open Arcature.Lib

variable {R : RememberTokens} {s : State} {e : Event} {c : ℕ}

/-- A rotation at the clock reading `at'` that makes `x` a retired secret of the series. -/
def Retires (R : RememberTokens) (series : PublicId) (x : Secret) (at' : Instant) (s : State)
    (e : Event) : Prop :=
  ∃ c p row next, Swaps c p row next at' s e ∧ row.series = series ∧
    row.secretDigest = R.backend.digestOf x ∧
    ∃ r, s.rows.get? series = some r ∧ r.secretDigest = row.secretDigest

/-- The statement at `i` is a `present` of the secret `x`, which the rotation at `k` retired less
    than the grace duration ago, on a live row. -/
structure RetiredPresent (R : RememberTokens) (es : List Event) (i c : ℕ) (nowGrace : Instant)
    (series : PublicId) (x : Secret) (r : RememberRow) (k : ℕ) (at' : Instant) : Prop where
  find : ∃ p nowServer, es[i]? = some (.presentFind c p nowServer nowGrace) ∧
    parsePlaintext p = some (series, x) ∧ nowServer < r.expiresAt
  idle : ((store R).run (es.take i)).calls c = none
  row : ((store R).run (es.take i)).rows.get? series = some r
  retired : (store R).Fires (es.take i) k (Retires R series x at')
  recent : nowGrace - at' < R.grace

/-- The rotation at `k` is the last one of the series. -/
def LastRotation (R : RememberTokens) (es : List Event) (series : PublicId) (k : ℕ) : Prop :=
  ∀ j, k < j → ∀ y, ¬ (store R).Fires es j (Installs series y)

/-- A rotation installs the secret it drew, and until then the retired one was the last installed. -/
theorem retires_installs {es : List Event} (hinj : Function.Injective R.backend.digestOf)
    (hser : (es.filterMap Event.drawnSeries).Nodup) {series : PublicId} {x : Secret} {at' : Instant}
    {k : ℕ} (h : (store R).Fires es k (Retires R series x at')) :
    ∃ next n c, (store R).Fires es k (Installs series next) ∧
      es[k]? = some (.presentRotate c (some next) at') ∧ LastInstall R (es.take k) series n x := by
  obtain ⟨e, he, c, p, row, next, hsw, rfl, hx, r, hr, hd⟩ := h
  obtain ⟨n, y, hlast, hcur, _⟩ :=
    chained_run (es.take k) (hser.sublist ((List.take_sublist k es).filterMap _)) hr
  have hyx : y = x := hinj (by rw [← hcur, hd, hx])
  subst hyx
  exact ⟨next, n, c, ⟨e, he, installs_of_swaps hsw hr hd⟩, by rw [he, hsw.1], hlast⟩

/-- The row after the rotation at `k`, as long as it is the last one. -/
theorem row_of_lastRotation {es : List Event} (hinj : Function.Injective R.backend.digestOf)
    (hser : (es.filterMap Event.drawnSeries).Nodup) {series : PublicId} {x : Secret} {at' : Instant}
    {k : ℕ} {r : RememberRow} (hr : ((store R).run es).rows.get? series = some r)
    (h : (store R).Fires es k (Retires R series x at')) (hlast : LastRotation R es series k) :
    r.previousDigest = some (R.backend.digestOf x) ∧
      r.rotatedAt = some (R.backend.storedTime at') := by
  obtain ⟨next, n, c, hinst, hev, hn⟩ := retires_installs hinj hser h
  obtain ⟨j, y, hj, _, hprev⟩ := chained_run es hser hr
  obtain ⟨rfl, _⟩ := lastInstall_unique hj ⟨hinst, hlast⟩
  rcases hprev with ⟨_, _, hfirst⟩ | ⟨i, z, c', now, hi, hpd, hev', hrot⟩
  · obtain ⟨hnk, hn⟩ := hn.1.of_take
    exact absurd hn (hfirst n hnk x)
  · obtain ⟨rfl, rfl⟩ := lastInstall_unique hi hn
    rw [hev] at hev'
    cases hev'
    exact ⟨hpd, hrot⟩

/-- A row whose previous digest is that of a secret retired at `k` was last rotated at `k`. -/
theorem lastRotation_of_row {es : List Event} (hinj : Function.Injective R.backend.digestOf)
    (hser : (es.filterMap Event.drawnSeries).Nodup)
    (hsec : (es.filterMap Event.drawnSecret).Nodup) {series : PublicId} {x : Secret} {at' : Instant}
    {k : ℕ} {r : RememberRow} {t : ℤ} (hr : ((store R).run es).rows.get? series = some r)
    (h : (store R).Fires es k (Retires R series x at'))
    (hprev : R.backend.digestOf x = r.previousDigest.getD (.fill 32 0))
    (hrot : r.rotatedAt = some t) :
    LastRotation R es series k ∧ t = R.backend.storedTime at' := by
  obtain ⟨next, n, c, hinst, hev, hn⟩ := retires_installs hinj hser h
  obtain ⟨hnk, hn'⟩ := hn.1.of_take
  obtain ⟨j, y, hj, _, ⟨_, hnone, _⟩ | ⟨i, z, c', now, hi, hpd, hev', hrot'⟩⟩ := chained_run es hser hr
  · rw [hrot] at hnone; cases hnone
  · have hzx : z = x := hinj (by rw [hprev, hpd]; rfl)
    subst hzx
    obtain ⟨hij, hi'⟩ := hi.1.of_take
    obtain ⟨rfl, _⟩ := installs_unique hser hsec hi' hn'
    -- both rotations are the first installation after that of the retired secret
    have hjk : j = k := by
      rcases lt_trichotomy j k with hlt | heq | hlt
      · exact absurd ((Machine.fires_take hlt).mpr hj.1) (hn.2 j hij y)
      · exact heq
      · exact absurd ((Machine.fires_take hlt).mpr hinst) (hi.2 k hnk next)
    subst hjk
    rw [hev] at hev'
    cases hev'
    rw [hrot] at hrot'
    exact ⟨hj.2, Option.some.inj hrot'⟩

/-- A retired secret is not the current one. -/
theorem retired_not_current {es : List Event} (hinj : Function.Injective R.backend.digestOf)
    (hser : (es.filterMap Event.drawnSeries).Nodup)
    (hsec : (es.filterMap Event.drawnSecret).Nodup) {series : PublicId} {x : Secret} {at' : Instant}
    {k : ℕ} {r : RememberRow} (hr : ((store R).run es).rows.get? series = some r)
    (h : (store R).Fires es k (Retires R series x at')) :
    R.backend.digestOf x ≠ r.secretDigest := by
  intro hcur
  obtain ⟨next, n, c, hinst, _, hn⟩ := retires_installs hinj hser h
  obtain ⟨hnk, hn⟩ := hn.1.of_take
  obtain ⟨j, y, hj, hd, _⟩ := chained_run es hser hr
  have hyx : y = x := hinj (by rw [← hd, hcur])
  subst hyx
  obtain ⟨rfl, _⟩ := installs_unique hser hsec hj.1 hn
  exact hj.2 k hnk next hinst

/-- The grace window. A `present` of a secret that was retired less than the grace duration ago, on
    a live row, is not accused exactly when the rotation that retired it is the last one of its
    series and the dialect stores its time after the grace cutoff. -/
theorem grace_covers_iff (R : RememberTokens) (es : List Event)
    (hinj : Function.Injective R.backend.digestOf)
    (hser : (es.filterMap Event.drawnSeries).Nodup)
    (hsec : (es.filterMap Event.drawnSecret).Nodup) {i c k : ℕ} {nowGrace at' : Instant}
    {series : PublicId} {x : Secret} {r : RememberRow}
    (h : RetiredPresent R es i c nowGrace series x r k at') :
    ((store R).run (es.take (i + 1))).calls c ≠ some (.cascading r.subject) ↔
      LastRotation R (es.take i) series k ∧
        R.backend.storedTime (R.graceCutoff nowGrace) < R.backend.storedTime at' := by
  obtain ⟨⟨p, nowServer, he, hp, hlive⟩, hidle, hr, hret, _⟩ := h
  have hser' := hser.sublist ((List.take_sublist i es).filterMap Event.drawnSeries)
  have hsec' := hsec.sublist ((List.take_sublist i es).filterMap Event.drawnSecret)
  have hjudge := judge_live (R := R) nowGrace hp hr hlive
  rw [if_neg (retired_not_current hinj hser' hsec' hr hret)] at hjudge
  rw [Machine.run_take_succ he]
  change (step R ((store R).run (es.take i)) _).1.calls c ≠ _ ↔ _
  constructor
  · intro hacc
    split_ifs at hjudge with hgrace
    · obtain ⟨hprev, hrec⟩ := hgrace
      cases hrot : r.rotatedAt with
      | none => rw [rotationIsRecent, hrot] at hrec; cases hrec
      | some t =>
        obtain ⟨hlast, rfl⟩ := lastRotation_of_row hinj hser' hsec' hr hret hprev hrot
        rw [rotationIsRecent, hrot] at hrec
        exact ⟨hlast, by simpa using hrec⟩
    · exact absurd (by simp [step, hidle, hjudge, State.await]) hacc
  · rintro ⟨hlast, hcut⟩
    obtain ⟨hprev, hrot⟩ := row_of_lastRotation hinj hser' hr hret hlast
    rw [if_pos] at hjudge
    · simp [step, hidle, hjudge]
    · rw [hprev, rotationIsRecent, hrot]
      exact ⟨rfl, by simpa using hcut⟩

/-- A cookie is rotated twice within two seconds, while a request that carries the first secret is
    on its way. -/
def doubleRotation : List Event :=
  let cookie := fun secret => formatPlaintext (.fill 16 1) (.fill 32 secret)
  [.issue 0 "u" 3600000000000 0 0 (some (.fill 32 2)) (some (.fill 16 1)),
    .presentFind 0 (cookie 2) 1000000000 1000000000, .presentRotate 0 (some (.fill 32 3)) 1000000000,
    .presentFind 0 (cookie 3) 2000000000 2000000000, .presentRotate 0 (some (.fill 32 4)) 2000000000,
    .presentFind 1 (cookie 2) 3000000000 3000000000, .presentFind 2 (cookie 3) 3000000000 3000000000]

/-- The row of the series after the two rotations. -/
def doubleRotated : RememberRow :=
  ⟨.fill 16 1, .fill 32 4, some (.fill 32 3), some 2000000000, "u", 3600000000000, 0⟩

/-- The secret the last rotation retired is covered. -/
theorem doubleRotation_second_covered :
    ((store RememberTokens.plain).run (doubleRotation.take 7)).calls 2 ≠ some (.cascading "u") := by
  have h : RetiredPresent RememberTokens.plain doubleRotation 6 2 3000000000 (.fill 16 1) (.fill 32 3)
      doubleRotated 4 2000000000 :=
    { find := ⟨_, _, rfl, by decide +kernel, by decide⟩
      idle := by rfl
      row := by decide +kernel
      retired := ⟨_, rfl, 0, _, _, _, ⟨rfl, by rfl⟩, rfl, rfl, _, by rfl, rfl⟩
      recent := by decide }
  refine (grace_covers_iff RememberTokens.plain doubleRotation (fun _ _ h => h) (by decide)
    (by decide) h).mpr ⟨?_, by decide +kernel⟩
  rintro j hj y ⟨e, he, hins⟩
  rcases j with _ | _ | _ | _ | _ | _ | j <;> try omega
  · cases he
    rcases hins with ⟨q, hins, _⟩ | ⟨_, _, _, _, ⟨he, _⟩, _⟩
    · exact not_inserts rfl hins
    · cases he
  · simp [doubleRotation] at he

/-- The secret the first rotation retired two seconds ago is accused. -/
theorem doubleRotation_first_accused :
    RetiredPresent RememberTokens.plain doubleRotation 5 1 3000000000 (.fill 16 1) (.fill 32 2)
        doubleRotated 2 1000000000 ∧
      ((store RememberTokens.plain).run (doubleRotation.take 6)).calls 1 = some (.cascading "u") ∧
      (store RememberTokens.plain).out ((store RememberTokens.plain).run (doubleRotation.take 6))
        (.presentCascade 1) = .outcome (.theft "u") := by
  refine ⟨?_, by rfl, by rfl⟩
  exact
    { find := ⟨_, _, rfl, by decide +kernel, by decide⟩
      idle := by rfl
      row := by decide +kernel
      retired := ⟨_, rfl, 0, _, _, _, ⟨rfl, by rfl⟩, rfl, rfl, _, by rfl, rfl⟩
      recent := by decide }

end Arcature.Auth.Remember
