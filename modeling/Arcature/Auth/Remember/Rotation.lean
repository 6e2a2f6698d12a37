import Arcature.Auth.Remember.Store

/-! Rotation as a compare-and-swap chain.

    A series has at each moment one current secret: the one its `issue` drew, then the one each
    successful `ROTATE` drew. `Chained` reads the row against that history: the current digest is
    the digest of the last secret installed, the previous one that of the secret installed right
    before it. Since no secret is drawn twice, a secret that was swapped out never comes back. -/

namespace Arcature.Auth.Remember
open Arcature.Lib

variable {R : RememberTokens} {s : State} {e : Event} {c : ℕ}

/-- The statement makes `x` the current secret of the series. -/
def Installs (series : PublicId) (x : Secret) (s : State) (e : Event) : Prop :=
  (∃ q, Inserts q series s e ∧ q.secret = x) ∨
  ∃ c p row now, Swaps c p row x now s e ∧ row.series = series ∧
    ∃ r, s.rows.get? series = some r ∧ r.secretDigest = row.secretDigest

/-- The last secret installed in the series was `x`, at `j`. -/
def LastInstall (R : RememberTokens) (es : List Event) (series : PublicId) (j : ℕ) (x : Secret) :
    Prop :=
  (store R).Fires es j (Installs series x) ∧
    ∀ k, j < k → ∀ y, ¬ (store R).Fires es k (Installs series y)

/-- The row agrees with the secrets installed so far: it was just issued, or its last rotation, at
    `j`, retired the secret that was current until then. -/
def Chained (R : RememberTokens) (es : List Event) (series : PublicId) (r : RememberRow) : Prop :=
  ∃ j x, LastInstall R es series j x ∧ r.secretDigest = R.backend.digestOf x ∧
    ((r.previousDigest = none ∧ r.rotatedAt = none ∧
        ∀ k, k < j → ∀ y, ¬ (store R).Fires es k (Installs series y)) ∨
      ∃ i y c now, LastInstall R (es.take j) series i y ∧
        r.previousDigest = some (R.backend.digestOf y) ∧
        es[j]? = some (.presentRotate c (some x) now) ∧
        r.rotatedAt = some (R.backend.storedTime now))

/-! ### The chain along a run -/

theorem lastInstall_concat {es : List Event} {series : PublicId} {j : ℕ} {x : Secret}
    (h : LastInstall R es series j x) (hquiet : ∀ y, ¬ Installs series y ((store R).run es) e) :
    LastInstall R (es ++ [e]) series j x := by
  obtain ⟨hj, hlast⟩ := h
  refine ⟨Machine.fires_concat.mpr (Or.inl hj), fun k hk y hf => ?_⟩
  rcases Machine.fires_concat.mp hf with hf | ⟨_, hins⟩
  · exact hlast k hk y hf
  · exact hquiet y hins

theorem lastInstall_last {es : List Event} {series : PublicId} {x : Secret}
    (h : Installs series x ((store R).run es) e) : LastInstall R (es ++ [e]) series es.length x := by
  refine ⟨Machine.fires_last.mpr h, fun k hk y hf => ?_⟩
  have := hf.lt
  rw [List.length_append, List.length_singleton] at this
  omega

theorem chained_concat {es : List Event} {series : PublicId} {r : RememberRow}
    (h : Chained R es series r) (hquiet : ∀ y, ¬ Installs series y ((store R).run es) e) :
    Chained R (es ++ [e]) series r := by
  obtain ⟨j, x, hlast, hcur, hprev⟩ := h
  have hj := hlast.1.lt
  refine ⟨j, x, lastInstall_concat hlast hquiet, hcur, ?_⟩
  rcases hprev with ⟨hnone, hrot, hfirst⟩ | ⟨i, y, c, now, hi, hprev, he, hrot⟩
  · refine Or.inl ⟨hnone, hrot, fun k hk z hf => ?_⟩
    exact hfirst k hk z ((Machine.fires_append (hk.trans hj)).mp hf)
  · refine Or.inr ⟨i, y, c, now, ?_, hprev, ?_, hrot⟩
    · rwa [List.take_append_of_le_length hj.le]
    · rwa [List.getElem?_append_left hj]

/-- A series in the table was drawn by a statement of the run. -/
theorem drawn_of_get? : ∀ (es : List Event) {k : PublicId} {r : RememberRow},
    ((store R).run es).rows.get? k = some r →
      ∃ (n : ℕ) (e : Event), es[n]? = some e ∧ e.drawnSeries = some k := by
  intro es
  induction es using List.reverseRecOn with
  | nil => intro k r h; cases h
  | append_singleton es e ih =>
    intro k r h
    rw [Machine.run_concat] at h
    change (step R ((store R).run es) e).1.rows.get? k = some r at h
    have hold : (∃ r₀, ((store R).run es).rows.get? k = some r₀) →
        ∃ (n : ℕ) (e' : Event), (es ++ [e])[n]? = some e' ∧ e'.drawnSeries = some k := by
      rintro ⟨r₀, hr₀⟩
      obtain ⟨n, e', he', hk⟩ := ih hr₀
      have hn := (List.getElem?_eq_some_iff.mp he').1
      exact ⟨n, e', by rwa [List.getElem?_append_left hn], hk⟩
    rcases rows_step R ((store R).run es) e with ⟨q, series, hins, hget⟩ | ⟨_, _, _, _, _, _, hget⟩ |
      ⟨_, _, hget⟩ <;> rw [hget] at h
    · split at h
      · rename_i hk
        exact ⟨es.length, e, by simp, hk ▸ drawnSeries_of_inserts hins⟩
      · exact hold ⟨r, h⟩
    · obtain ⟨r₀, hr₀, _⟩ := Option.map_eq_some_iff.mp h
      exact hold ⟨r₀, hr₀⟩
    · exact hold ⟨r, (Option.filter_eq_some_iff.mp h).1⟩

/-- Whatever installs a secret in a series finds the series drawn by then. -/
theorem drawn_of_installs {es : List Event} {series : PublicId} {x : Secret} {k : ℕ}
    (h : (store R).Fires es k (Installs series x)) :
    ∃ (n : ℕ) (e : Event), n ≤ k ∧ es[n]? = some e ∧ e.drawnSeries = some series := by
  obtain ⟨e, he, ⟨q, hins, _⟩ | ⟨_, _, _, _, _, _, r, hr, _⟩⟩ := h
  · exact ⟨k, e, le_rfl, he, drawnSeries_of_inserts hins⟩
  · obtain ⟨n, e', he', hk⟩ := drawn_of_get? _ hr
    have hn : n < k := by
      have := (List.getElem?_eq_some_iff.mp he').1
      rw [List.length_take] at this
      omega
    rw [List.getElem?_take_of_lt hn] at he'
    exact ⟨n, e', hn.le, he', hk⟩

theorem swaps_unique {c c' : ℕ} {p p' : Str} {row row' : RememberRow} {next next' : Secret}
    {now now' : Instant} (h : Swaps c p row next now s e) (h' : Swaps c' p' row' next' now' s e) :
    c = c' ∧ p = p' ∧ row = row' ∧ next = next' ∧ now = now' := by
  obtain ⟨rfl, hc⟩ := h
  obtain ⟨he, hc'⟩ := h'
  cases he
  rw [hc] at hc'
  cases hc'
  exact ⟨rfl, rfl, rfl, rfl, rfl⟩

theorem inserts_not_swaps {q : Issuing} {series : PublicId} {p : Str} {row : RememberRow}
    {next : Secret} {now : Instant} (h : Inserts q series s e) : ¬ Swaps c p row next now s e := by
  rintro ⟨rfl, _⟩
  exact not_inserts rfl h

/-- The rotation of a row that meets the compare-and-swap installs the secret it drew. -/
theorem installs_of_swaps {p : Str} {row r : RememberRow} {next : Secret} {now : Instant}
    (h : Swaps c p row next now s e) (hr : s.rows.get? row.series = some r)
    (hd : r.secretDigest = row.secretDigest) : Installs row.series next s e :=
  Or.inr ⟨c, p, row, now, h, rfl, r, hr, hd⟩

/-- Every row of a run agrees with the history of its series. -/
theorem chained_run : ∀ (es : List Event), (es.filterMap Event.drawnSeries).Nodup →
    ∀ {series : PublicId} {r : RememberRow}, ((store R).run es).rows.get? series = some r →
      Chained R es series r := by
  intro es
  induction es using List.reverseRecOn with
  | nil => intro _ series r h; cases h
  | append_singleton es e ih =>
    intro hser series r h
    rw [Machine.run_concat] at h
    change (step R ((store R).run es) e).1.rows.get? series = some r at h
    have hpre : (es.filterMap Event.drawnSeries).Nodup :=
      hser.sublist ((List.sublist_append_left es [e]).filterMap _)
    rcases rows_step R ((store R).run es) e with ⟨q, k, hins, hget⟩ |
      ⟨c, p, row, next, now, hsw, hget⟩ | ⟨hnoins, hnosw, hget⟩ <;> rw [hget] at h
    · split at h
      · -- the row was just issued, so nothing was installed in its series before
        rename_i hk
        subst hk
        cases h
        refine ⟨es.length, q.secret, lastInstall_last (Or.inl ⟨q, hins, rfl⟩), rfl,
          Or.inl ⟨rfl, rfl, fun k hk y hf => ?_⟩⟩
        obtain ⟨n, e', hnk, he', hs⟩ := drawn_of_installs hf
        have := Machine.eq_of_drawn hser he' (List.getElem?_concat_length ..) hs
          (drawnSeries_of_inserts hins)
        omega
      · rename_i hk
        refine chained_concat (ih hpre h) fun y hy => ?_
        rcases hy with ⟨q', hins', _⟩ | ⟨_, _, _, _, hsw, _⟩
        · have := (drawnSeries_of_inserts hins).symm.trans (drawnSeries_of_inserts hins')
          exact hk (Option.some.inj this).symm
        · exact inserts_not_swaps hins hsw
    · obtain ⟨r₀, hr₀, hr⟩ := Option.map_eq_some_iff.mp h
      have hs₀ : r₀.series = series := Table.key_of_get? hr₀
      split at hr
      · -- the row was just rotated, away from the secret that was current until then
        rename_i hrot
        rw [rotatable, Bool.and_eq_true, decide_eq_true_eq, decide_eq_true_eq, hs₀] at hrot
        obtain ⟨j, x, hlast, hcur, _⟩ := ih hpre hr₀
        subst hr
        have hinst : Installs series next ((store R).run es) e := by
          rw [hrot.1] at hr₀ ⊢
          exact installs_of_swaps hsw hr₀ hrot.2
        refine ⟨es.length, next, lastInstall_last hinst, rfl,
          Or.inr ⟨j, x, c, now, ?_, ?_, ?_, rfl⟩⟩
        · rwa [List.take_left]
        · exact congrArg some hcur
        · rw [List.getElem?_concat_length, hsw.1]
      · rename_i hrot
        subst hr
        refine chained_concat (ih hpre hr₀) fun y hy => ?_
        rcases hy with ⟨q, hins, _⟩ | ⟨_, _, row', _, hsw', hser', r', hr', hd⟩
        · exact inserts_not_swaps hins hsw
        · obtain ⟨_, _, rfl, _, _⟩ := swaps_unique hsw hsw'
          rw [hr₀] at hr'
          cases hr'
          refine hrot ?_
          rw [rotatable, hs₀, hser', hd]
          simp
    · refine chained_concat (ih hpre (Option.filter_eq_some_iff.mp h).1) fun y hy => ?_
      rcases hy with ⟨q, hins, _⟩ | ⟨c, p, row, now, hsw, _⟩
      · exact hnoins q series hins
      · exact hnosw c p row y now hsw

/-! ### A secret is installed once and exchanged once -/

/-- Where no series is drawn twice, no `issue` ever has to try again. -/
theorem not_issuing : ∀ (es : List Event), (es.filterMap Event.drawnSeries).Nodup → ∀ (c : ℕ)
    (q : Issuing), ((store R).run es).calls c ≠ some (.issuing q) := by
  intro es
  induction es using List.reverseRecOn with
  | nil => intro _ c q h; cases h
  | append_singleton es e ih =>
    intro hser c q h
    rw [Machine.run_concat] at h
    rcases issuing_step h with ⟨q₀, hq₀⟩ | ⟨k, r, hk, hr⟩
    · exact ih (hser.sublist ((List.sublist_append_left es [e]).filterMap _)) c q₀ hq₀
    · obtain ⟨n, e', he', hk'⟩ := drawn_of_get? es hr
      have hn := (List.getElem?_eq_some_iff.mp he').1
      have := Machine.eq_of_drawn hser (by rwa [List.getElem?_append_left hn])
        (List.getElem?_concat_length ..) hk' hk
      omega

theorem beginIssue_secret {subject : String} {ttl : Duration} {nowDeadline nowCreated : Instant}
    {secret : Option Secret} {q : Issuing}
    (h : beginIssue subject ttl nowDeadline nowCreated secret = .ok q) : secret = some q.secret := by
  unfold beginIssue at h
  split at h
  · cases h
  · split at h
    · cases h
    · cases h; rfl

/-- The statement that installs a secret is the one that drew it. -/
theorem drawnSecret_of_installs {es : List Event} (hser : (es.filterMap Event.drawnSeries).Nodup)
    {series : PublicId} {x : Secret} {i : ℕ} (h : (store R).Fires es i (Installs series x)) :
    ∃ e, es[i]? = some e ∧ e.drawnSecret = some x := by
  obtain ⟨e, he, ⟨q, ⟨_, ⟨_, _, _, _, _, secret, rfl, _, hb⟩ | ⟨c, rfl, hc⟩⟩, rfl⟩ |
    ⟨_, _, _, _, ⟨rfl, _⟩, _⟩⟩ := h
  · exact ⟨_, he, beginIssue_secret hb⟩
  · exact absurd hc (not_issuing _ (hser.sublist ((List.take_sublist i es).filterMap _)) c q)
  · exact ⟨_, he, rfl⟩

theorem inserts_unique {q q' : Issuing} {k k' : PublicId} (h : Inserts q k s e)
    (h' : Inserts q' k' s e) : k = k' ∧ q = q' := by
  refine ⟨Option.some.inj ((drawnSeries_of_inserts h).symm.trans (drawnSeries_of_inserts h')), ?_⟩
  obtain ⟨_, ⟨_, _, _, _, _, _, rfl, _, hb⟩ | ⟨_, rfl, hc⟩⟩ := h
  · obtain ⟨_, ⟨_, _, _, _, _, _, he, _, hb'⟩ | ⟨_, he, _⟩⟩ := h' <;> cases he
    rw [hb] at hb'
    exact Except.ok.inj hb'
  · obtain ⟨_, ⟨_, _, _, _, _, _, he, _⟩ | ⟨_, he, hc'⟩⟩ := h' <;> cases he
    rw [hc] at hc'
    cases hc'
    rfl

/-- A statement installs one secret in one series. -/
theorem installs_inj {k k' : PublicId} {x x' : Secret} (h : Installs k x s e)
    (h' : Installs k' x' s e) : k = k' ∧ x = x' := by
  rcases h with ⟨q, hins, rfl⟩ | ⟨c, p, row, now, hsw, rfl, _⟩
  · rcases h' with ⟨q', hins', rfl⟩ | ⟨_, _, _, _, hsw', _⟩
    · obtain ⟨rfl, rfl⟩ := inserts_unique hins hins'
      exact ⟨rfl, rfl⟩
    · exact absurd hsw' (inserts_not_swaps hins)
  · rcases h' with ⟨q', hins', _⟩ | ⟨_, _, row', _, hsw', rfl, _⟩
    · exact absurd hsw (inserts_not_swaps hins')
    · obtain ⟨_, _, rfl, rfl, _⟩ := swaps_unique hsw hsw'
      exact ⟨rfl, rfl⟩

theorem lastInstall_unique {es : List Event} {series : PublicId} {i j : ℕ} {x y : Secret}
    (h : LastInstall R es series i x) (h' : LastInstall R es series j y) : i = j ∧ x = y := by
  have hij : i = j := by
    rcases lt_trichotomy i j with hlt | heq | hlt
    · exact absurd h'.1 (h.2 j hlt y)
    · exact heq
    · exact absurd h.1 (h'.2 i hlt x)
  subst hij
  obtain ⟨⟨e, he, hins⟩, _⟩ := h
  obtain ⟨⟨e', he', hins'⟩, _⟩ := h'
  rw [he] at he'
  cases he'
  exact ⟨rfl, (installs_inj hins hins').2⟩

/-- A secret has one installation: one position, one series. -/
theorem installs_unique {es : List Event} (hser : (es.filterMap Event.drawnSeries).Nodup)
    (hsec : (es.filterMap Event.drawnSecret).Nodup) {k k' : PublicId} {x : Secret} {i j : ℕ}
    (h : (store R).Fires es i (Installs k x)) (h' : (store R).Fires es j (Installs k' x)) :
    i = j ∧ k = k' := by
  obtain ⟨e, he, hx⟩ := drawnSecret_of_installs hser h
  obtain ⟨e', he', hx'⟩ := drawnSecret_of_installs hser h'
  have hij := Machine.eq_of_drawn hsec he he' hx hx'
  subst hij
  obtain ⟨d, hd, hins⟩ := h
  obtain ⟨d', hd', hins'⟩ := h'
  rw [hd] at hd'
  cases hd'
  exact ⟨rfl, (installs_inj hins hins').1⟩

/-- A rotation in flight presented the secret whose digest it read. -/
theorem rotating_run : ∀ (es : List Event) {c : ℕ} {p : Str} {row : RememberRow},
    ((store R).run es).calls c = some (.rotating p row) →
      ∃ secret, parsePlaintext p = some (row.series, secret) ∧
        R.backend.digestOf secret = row.secretDigest := by
  intro es
  induction es using List.reverseRecOn with
  | nil => intro c p row h; cases h
  | append_singleton es e ih =>
    intro c p row h
    rw [Machine.run_concat] at h
    rcases rotating_step h with h | ⟨ns, ng, _, _, hj⟩
    · exact ih h
    · obtain ⟨secret, hp, _, hd⟩ := judge_current hj
      exact ⟨secret, hp, hd⟩

/-- A `present` of the secret `x` returns a replacement. -/
def Exchanges (R : RememberTokens) (x : Secret) (s : State) (e : Event) : Prop :=
  ∃ c p row next now series, Swaps c p row next now s e ∧ parsePlaintext p = some (series, x) ∧
    ∃ replacement, (step R s e).2 = .outcome (.accepted row.subject (some replacement))

/-- A rotation returns a replacement exactly when its compare-and-swap found the digest. -/
theorem swaps_answer {p : Str} {row : RememberRow} {next : Secret} {now : Instant}
    (h : Swaps c p row next now s e) :
    (step R s e).2 = .outcome (.accepted row.subject
      (if ∃ r, s.rows.get? row.series = some r ∧ r.secretDigest = row.secretDigest then
        some (formatPlaintext row.series next) else none)) := by
  obtain ⟨rfl, hc⟩ := h
  have hpos : (0 < s.rows.affected (rotatable row.series row.secretDigest)) ↔
      ∃ r, s.rows.get? row.series = some r ∧ r.secretDigest = row.secretDigest := by
    have hkey : rotatable row.series row.secretDigest = fun r : RememberRow =>
        decide (schema.key r = row.series) && decide (r.secretDigest = row.secretDigest) := rfl
    rw [hkey, Table.affected_key_pos]
    simp
  simp only [step, hc, rotateRow, ← hpos, Nat.pos_iff_ne_zero]
  by_cases h0 : s.rows.affected (rotatable row.series row.secretDigest) = 0 <;> simp [h0]

/-- An exchange of `x` replaces it, as the current secret of its series. -/
theorem exchanges_installs {es : List Event} {x : Secret} {i : ℕ}
    (h : (store R).Fires es i (Exchanges R x)) : ∃ series next r,
      (store R).Fires es i (Installs series next) ∧
      ((store R).run (es.take i)).rows.get? series = some r ∧
      r.secretDigest = R.backend.digestOf x := by
  obtain ⟨e, he, c, p, row, next, now, series, hsw, hp, replacement, hout⟩ := h
  obtain ⟨secret, hp', hd⟩ := rotating_run (R := R) _ hsw.2
  have hx : secret = x := by
    rw [hp] at hp'
    exact (Prod.mk.inj (Option.some.inj hp')).2.symm
  rw [swaps_answer hsw] at hout
  split at hout
  · rename_i hex
    obtain ⟨r, hr, hcur⟩ := hex
    exact ⟨row.series, next, r, ⟨e, he, installs_of_swaps hsw hr hcur⟩, hr,
      by rw [hcur, ← hd, hx]⟩
  · cases hout

theorem exchanged_once {es : List Event} (hinj : Function.Injective R.backend.digestOf)
    (hser : (es.filterMap Event.drawnSeries).Nodup)
    (hsec : (es.filterMap Event.drawnSecret).Nodup) {x : Secret} {i j : ℕ}
    (hi : (store R).Fires es i (Exchanges R x)) (hj : (store R).Fires es j (Exchanges R x)) :
    ¬ i < j := by
  intro hij
  have hpre : ∀ k, ((es.take k).filterMap Event.drawnSeries).Nodup := fun k =>
    hser.sublist ((List.take_sublist k es).filterMap _)
  -- at both exchanges the last secret installed in the series is `x`
  have hlast : ∀ k, (store R).Fires es k (Exchanges R x) → ∃ series next n,
      (store R).Fires es k (Installs series next) ∧ LastInstall R (es.take k) series n x := by
    intro k hk
    obtain ⟨series, next, r, hinst, hr, hd⟩ := exchanges_installs hk
    obtain ⟨n, y, hlast, hcur, _⟩ := chained_run (R := R) _ (hpre k) hr
    have hxy : y = x := hinj (hcur.symm.trans hd)
    exact ⟨series, next, n, hinst, hxy ▸ hlast⟩
  obtain ⟨k, next, n, hinst, hn⟩ := hlast i hi
  obtain ⟨k', _, n', _, hn'⟩ := hlast j hj
  obtain ⟨hni, hn⟩ := hn.1.of_take
  obtain ⟨rfl, rfl⟩ := installs_unique hser hsec hn hn'.1.of_take.2
  exact hn'.2 i hni next ((Machine.fires_take hij).mpr hinst)

/-! ### A secret that is neither current nor previous -/

/-- Such a secret changes no row and leaves the call about to cascade. -/
theorem find_neither {es : List Event} (hser : (es.filterMap Event.drawnSeries).Nodup) {p : Str}
    {nowServer : ℤ} {nowGrace : Instant} {series : PublicId} {x : Secret} {r : RememberRow}
    (hc : ((store R).run es).calls c = none) (hp : parsePlaintext p = some (series, x))
    (hr : ((store R).run es).rows.get? series = some r) (hlive : nowServer < r.expiresAt)
    (hcur : R.backend.digestOf x ≠ r.secretDigest)
    (hprev : r.previousDigest ≠ some (R.backend.digestOf x)) :
    ((store R).next ((store R).run es) (.presentFind c p nowServer nowGrace)).calls c =
        some (.cascading r.subject) ∧
      ((store R).next ((store R).run es) (.presentFind c p nowServer nowGrace)).rows =
        ((store R).run es).rows := by
  have hj : judge R ((store R).run es).rows p nowServer nowGrace = .neither r := by
    rw [judge_live nowGrace hp hr hlive, if_neg hcur, if_neg]
    rintro ⟨hret, hrec⟩
    obtain ⟨_, _, _, _, ⟨_, hrot, _⟩ | ⟨_, _, _, _, _, hsome, _⟩⟩ := chained_run es hser hr
    · -- never rotated: the stand-in digest is not recent
      rw [rotationIsRecent, hrot] at hrec
      cases hrec
    · rw [hsome, Option.getD_some] at hret
      exact hprev (by rw [hsome, hret])
  have hstep : (store R).next ((store R).run es) (.presentFind c p nowServer nowGrace) =
      ((store R).run es).await c (.cascading r.subject) ((store R).run es).rows := by
    change (step R ((store R).run es) _).1 = _
    simp [step, hc, hj]
  rw [hstep]
  exact ⟨Function.update_self _ _ _, rfl⟩

/-- A call about to cascade stays so until it is dropped or cascades: then it returns `Theft`, every
    row of the subject is gone and no other row has changed. -/
theorem cascade_step {u : String} (hc : s.calls c = some (.cascading u)) (e : Event) :
    (step R s e).1.calls c = some (.cascading u) ∨ e = .fail c ∨
      (e = .presentCascade c ∧ (step R s e).2 = .outcome (.theft u) ∧
        ∀ k r, (step R s e).1.rows.get? k = some r ↔ s.rows.get? k = some r ∧ r.subject ≠ u) := by
  by_cases hown : e.call = some c
  swap
  · exact Or.inl ((calls_other hown).trans hc)
  cases e with
  | issue | issueAgain | presentFind =>
    cases hown
    exact Or.inl (by simp [step, hc])
  | presentRotate c' next now =>
    cases hown
    exact Or.inl (by simp [step, hc])
  | presentCascade c' =>
    cases hown
    refine Or.inr (Or.inr ⟨rfl, by simp [step, hc], fun k r => ?_⟩)
    simp [step, hc, deleteFor, Option.filter_eq_some_iff]
  | fail c' =>
    cases hown
    exact Or.inr (Or.inl rfl)
  | revoke | revokeAllFor | sweepExpired => cases hown

/-- Rotation is a compare-and-swap chain. In every run with distinct series and secrets and an
    injective digest: a secret is exchanged for at most one replacement; a live row presented with a
    secret that is neither its current nor its previous one has its subject's rows deleted by that
    call, which returns `Theft`, and no row's digests changed; and every row's current and previous
    digests are those of the last two secrets installed in its series. -/
theorem rotation_chain (R : RememberTokens) (es : List Event)
    (hinj : Function.Injective R.backend.digestOf)
    (hser : (es.filterMap Event.drawnSeries).Nodup)
    (hsec : (es.filterMap Event.drawnSecret).Nodup) :
    (∀ x i j, (store R).Fires es i (Exchanges R x) → (store R).Fires es j (Exchanges R x) → i = j) ∧
    (∀ i c p nowServer nowGrace series x r, es[i]? = some (.presentFind c p nowServer nowGrace) →
      ((store R).run (es.take i)).calls c = none → parsePlaintext p = some (series, x) →
      ((store R).run (es.take i)).rows.get? series = some r → nowServer < r.expiresAt →
      R.backend.digestOf x ≠ r.secretDigest → r.previousDigest ≠ some (R.backend.digestOf x) →
      ((store R).run (es.take (i + 1))).calls c = some (.cascading r.subject) ∧
        ((store R).run (es.take (i + 1))).rows = ((store R).run (es.take i)).rows) ∧
    (∀ i e c u, es[i]? = some e → ((store R).run (es.take i)).calls c = some (.cascading u) →
      ((store R).run (es.take (i + 1))).calls c = some (.cascading u) ∨ e = .fail c ∨
        (e = .presentCascade c ∧
          (store R).out ((store R).run (es.take i)) e = .outcome (.theft u) ∧
          ∀ k r, ((store R).run (es.take (i + 1))).rows.get? k = some r ↔
            ((store R).run (es.take i)).rows.get? k = some r ∧ r.subject ≠ u)) ∧
    (∀ series r, ((store R).run es).rows.get? series = some r → Chained R es series r) := by
  refine ⟨?_, ?_, ?_, fun series r => chained_run es hser⟩
  · intro x i j hi hj
    have h₁ := exchanged_once hinj hser hsec hi hj
    have h₂ := exchanged_once hinj hser hsec hj hi
    omega
  · intro i c p nowServer nowGrace series x r he hc hp hr hlive hcur hprev
    rw [Machine.run_take_succ he]
    exact find_neither (hser.sublist ((List.take_sublist i es).filterMap _)) hc hp hr hlive hcur hprev
  · intro i e c u he hc
    rw [Machine.run_take_succ he]
    exact cascade_step hc e

/-- The default width of the grace window, over the plain backend. -/
def RememberTokens.plain : RememberTokens := ⟨Backend.plain, 60000000000⟩

/-- Two tabs present one cookie; the first rotation wins. -/
def twoTabs : List Event :=
  let cookie := formatPlaintext (.fill 16 1) (.fill 32 2)
  [.issue 0 "u" 3600000000000 0 0 (some (.fill 32 2)) (some (.fill 16 1)),
    .presentFind 1 cookie 1 1, .presentFind 2 cookie 1 1, .presentRotate 1 (some (.fill 32 3)) 2,
    .presentRotate 2 (some (.fill 32 4)) 3]

theorem twoTabs_chained : Chained RememberTokens.plain twoTabs (.fill 16 1)
    ⟨.fill 16 1, .fill 32 3, some (.fill 32 2), some 2, "u", 3600000000000, 0⟩ :=
  (rotation_chain RememberTokens.plain twoTabs (fun _ _ h => h) (by decide) (by decide)).2.2.2 _ _
    (by decide +kernel)

end Arcature.Auth.Remember
