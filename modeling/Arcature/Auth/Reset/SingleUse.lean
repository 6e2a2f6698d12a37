import Arcature.Auth.Reset.Store

/-! When a reset link is spent at most once.

    The spend deletes by subject, not by the id that matched, so `rows_affected > 0` says that some
    link of the subject went, not that this one did. A consume whose row another call has deleted
    still succeeds if a new link for the subject was inserted before its spend, or if a sweep took
    its row and left another one of the subject. `Guarded` rules out exactly these two statements:
    under it, at every point, each consume in flight finds its row or no row of its subject. -/

namespace Arcature.Auth.Reset
open Arcature.Lib

variable {B : Backend} {s : State} {e : Event} {c : ℕ}

/-- The statement is the spend of call `c`, and `consume` returns the subject. -/
def Redeems (B : Backend) (c : ℕ) (p : Str) (row : ResetRow) (s : State) (e : Event) : Prop :=
  e = .consumeSpend c ∧ s.calls c = some (.consuming p row) ∧
    (step B s e).2 = .consumed (some row.subject)

/-- The statement is the one on which an `issue` returns the plaintext. -/
def Mints (B : Backend) (p : Str) (s : State) (e : Event) : Prop :=
  ∃ subject expiresAt, (step B s e).2 = .issued subject expiresAt p

/-- Each minted plaintext is redeemed at most once, and whoever redeems removes the row it matched. -/
def SingleUse (B : Backend) (es : List Event) : Prop :=
  (∀ p k i j, (store B).Fires es k (Mints B p) →
    (store B).Fires es i (fun s e => ∃ c row, Redeems B c p row s e) →
    (store B).Fires es j (fun s e => ∃ c row, Redeems B c p row s e) → i = j) ∧
  ∀ i c p row, (store B).Fires es i (Redeems B c p row) →
    ((store B).run (es.take i)).rows.get? row.id = some row

/-- The statement inserts no link for a subject while a consume in flight has lost the row it
    matched for that subject, and sweeps no such row away from beside another one. -/
def Guarded (B : Backend) (s : State) (e : Event) : Prop :=
  (∀ c q row, Inserts B c q row s e → ∀ c' p r, s.calls c' = some (.consuming p r) →
    r.subject = row.subject → s.rows.get? r.id = some r) ∧
  ∀ now, e = .sweepExpired now → ∀ c' p r, s.calls c' = some (.consuming p r) →
    s.rows.get? r.id = some r → r.expiresAt ≤ now →
    ∀ k r', s.rows.get? k = some r' → r'.subject = r.subject → r'.expiresAt ≤ now

/-! ### Each consume in flight finds its row or no row of its subject -/

/-- Every consume in flight has its row in the table, or its subject has none. -/
def Settled (s : State) : Prop :=
  ∀ c p r, s.calls c = some (.consuming p r) → s.rows.get? r.id = some r ∨ Cleared r.subject s.rows

/-- A deletion that takes a row takes the subject's rows, a sweep aside. -/
theorem deletes_subject {r r' : ResetRow} (h : e.deletes s r = true) (hsub : r'.subject = r.subject)
    (hsweep : ∀ now, e ≠ .sweepExpired now) : e.deletes s r' = true := by
  cases e with
  | issueClear => simpa [Event.deletes, hsub] using h
  | consumeSpend c =>
    rcases hc : s.calls c with _ | ⟨q | ⟨p, row⟩⟩ <;> simp_all [Event.deletes]
  | revokeAllFor => simpa [Event.deletes, hsub] using h
  | sweepExpired now => exact absurd rfl (hsweep now)
  | issueInsert | consumeFind | fail => cases h

theorem cleared_delete {subject : String} {t t' : ResetTable} {d : ResetRow → Bool}
    (ht : ∀ k, t'.get? k = (t.get? k).filter fun r => !d r) (h : Cleared subject t) :
    Cleared subject t' := by
  intro k r hr
  rw [ht] at hr
  exact h k r (Option.filter_eq_some_iff.mp hr).1

theorem settled_step (hg : Guarded B s e) (h : Settled s) : Settled (step B s e).1 := by
  intro c p r hc
  -- the pair (call, row) is settled in the old table, be the call old or just matched
  have hold : s.rows.get? r.id = some r ∨ Cleared r.subject s.rows := by
    rcases consuming_step hc with hc | ⟨now, rfl, _, hm⟩
    · exact h c p r hc
    · obtain ⟨id, secret, _, hr, hid, _⟩ := matchLive_eq_some hm
      exact Or.inl (hid ▸ hr)
  rcases rows_step B s e with ⟨c', q, row, hins, hget⟩ | ⟨_, hget⟩
  · -- an insert
    have hc : s.calls c = some (.consuming p r) := by
      rcases consuming_step hc with hc | ⟨now, rfl, _⟩
      · exact hc
      · exact absurd hins (not_inserts rfl)
    have hpresent : s.rows.get? r.id = some r → (step B s e).1.rows.get? r.id = some r := by
      intro hr
      rw [hget, if_neg, hr]
      rintro hk
      have hfree := hins.2.2.2
      rw [← hk, hr] at hfree
      cases hfree
    by_cases hsub : r.subject = row.subject
    · exact Or.inl (hpresent (hg.1 c' q row hins c p r hc hsub))
    · rcases hold with hr | hclear
      · exact Or.inl (hpresent hr)
      · right
        intro k r' hr'
        rw [hget] at hr'
        split at hr'
        · cases hr'
          exact Ne.symm hsub
        · exact hclear k r' hr'
  · -- a deletion
    rcases hold with hr | hclear
    · by_cases hdel : e.deletes s r = true
      · right
        intro k r' hr' hsub
        rw [hget, Option.filter_eq_some_iff] at hr'
        obtain ⟨hr', hkeep⟩ := hr'
        by_cases hsweep : ∃ now, e = .sweepExpired now
        · obtain ⟨now, rfl⟩ := hsweep
          have hc : s.calls c = some (.consuming p r) := hc
          have := hg.2 now rfl c p r hc hr (by simpa [Event.deletes] using hdel) k r' hr' hsub
          simp only [Event.deletes, this, decide_true, Bool.not_true, Bool.false_eq_true] at hkeep
        · push Not at hsweep
          rw [deletes_subject hdel hsub hsweep] at hkeep
          cases hkeep
      · left
        rw [hget, hr]
        simp [hdel]
    · exact Or.inr (cleared_delete hget hclear)

/-- Under the guard, every consume in flight is settled at every point of the run. -/
theorem settled_run (es : List Event)
    (hg : ∀ i e, es[i]? = some e → Guarded B ((store B).run (es.take i)) e) :
    Settled ((store B).run es) := by
  refine Machine.inv_hist (m := store B) (I := fun _ s => Settled s)
    (A := fun es e => Guarded B ((store B).run es) e) ?_ ?_ es hg
  · intro c p r hc
    cases hc
  · intro es e hA h
    exact settled_step hA h

/-! ### What a redemption does -/

/-- A spend that returns the subject deleted a row of the subject. -/
theorem redeems_not_cleared {p : Str} {row : ResetRow} (h : Redeems B c p row s e) :
    ¬ Cleared row.subject s.rows := by
  obtain ⟨rfl, hc, hout⟩ := h
  intro hclear
  have h0 : s.rows.affected (fun r => r.subject = row.subject) = 0 := by
    rw [Table.affected_eq_zero]
    intro k r hr
    simpa using hclear k r hr
  simp [step, hc, deleteFor, h0] at hout

/-- A spend whose call has a row of its subject in the table returns the subject. -/
theorem redeems_of_row {p : Str} {row r : ResetRow} {k : PublicId}
    (hc : s.calls c = some (.consuming p row)) (hr : s.rows.get? k = some r)
    (hsub : r.subject = row.subject) : Redeems B c p row s (.consumeSpend c) := by
  have hpos : 0 < s.rows.affected (fun r => r.subject = row.subject) :=
    Table.affected_pos.mpr ⟨k, r, hr, by simpa using hsub⟩
  refine ⟨rfl, hc, ?_⟩
  simp [step, hc, deleteFor, hpos.ne']

theorem redeems_removes {p : Str} {row : ResetRow} (h : Redeems B c p row s e)
    (hrow : s.rows.get? row.id = some row) : (step B s e).1.rows.get? row.id = none := by
  obtain ⟨rfl, hc, _⟩ := h
  simp [step, hc, deleteFor, hrow]

/-- Where whoever redeems removes the row it matched, no plaintext is redeemed twice. -/
theorem redeemed_once {es : List Event} (hid : (es.filterMap Event.drawnId).Nodup)
    (hrow : ∀ i c p row, (store B).Fires es i (Redeems B c p row) →
      ((store B).run (es.take i)).rows.get? row.id = some row) {p : Str} {c c' : ℕ}
    {row row' : ResetRow} {i j : ℕ} (hi : (store B).Fires es i (Redeems B c p row))
    (hj : (store B).Fires es j (Redeems B c' p row')) : ¬ i < j := by
  intro hij
  have hhere := hrow i c p row hi
  have hthere := hrow j c' p row' hj
  obtain ⟨ei, hei, hredeem⟩ := hi
  have hjlt := hj.lt
  obtain ⟨ej, _, _, hcj, _⟩ := hj
  -- both calls were given the same string, so they matched rows of one id
  obtain ⟨secret, hp, n, d, q, hn⟩ := inserted_of_consuming (B := B) _ hredeem.2.1
  obtain ⟨secret', hp', _⟩ := inserted_of_consuming (B := B) _ hcj
  have hsame : row'.id = row.id := by
    rw [hp] at hp'
    exact (Prod.mk.inj (Option.some.inj hp')).1.symm
  have hgone : ((store B).run (es.take (i + 1))).rows.get? row.id = none := by
    rw [Machine.run_take_succ hei]
    exact redeems_removes hredeem hhere
  obtain ⟨hni, e, he, hins⟩ := hn.of_take
  have := stays_out (B := B) hid hij (by omega)
    ⟨n, by omega, e, he, drawnId_of_inserts hins⟩ hgone
  rw [← hsame, hthere] at this
  cases this

/-! ### The guard is what single use needs -/

/-- A statement that breaks the guard leaves a consume in flight that redeems without its row. -/
theorem unguarded_redeems {es : List Event} {e : Event}
    (hid : ((es ++ [e]).filterMap Event.drawnId).Nodup)
    (hg : ¬ Guarded B ((store B).run es) e) :
    ∃ c, ¬ SingleUse B (es ++ [e] ++ [.consumeSpend c]) := by
  have key : ∀ c p r k r', ((store B).run (es ++ [e])).calls c = some (.consuming p r) →
      ((store B).run (es ++ [e])).rows.get? k = some r' → r'.subject = r.subject →
      ((store B).run (es ++ [e])).rows.get? r.id ≠ some r →
      ¬ SingleUse B (es ++ [e] ++ [.consumeSpend c]) := by
    intro c p r k r' hc hr' hsub hlost hsingle
    have hred := redeems_of_row (B := B) hc hr' hsub
    have := hsingle.2 (es ++ [e]).length c p r (Machine.fires_last.mpr hred)
    rw [List.take_left] at this
    exact hlost this
  rw [Guarded, not_and_or] at hg
  rcases hg with hg | hg
  · -- an insert beside a consume that has lost its row
    push Not at hg
    obtain ⟨c, q, row, hins, c', p, r, hc', hsub, hlost⟩ := hg
    have hget : ∀ k, ((store B).run (es ++ [e])).rows.get? k =
        if k = row.id then some row else ((store B).run es).rows.get? k := by
      rw [Machine.run_concat]
      exact get?_of_inserts hins
    have hfresh : r.id ≠ row.id := by
      obtain ⟨_, _, n, d, q', e', he', hins'⟩ := inserted_of_consuming es hc'
      rw [List.filterMap_append, List.nodup_append] at hid
      refine hid.2.2 r.id (List.mem_filterMap.mpr ⟨e', List.mem_of_getElem? he', ?_⟩) row.id ?_
      · exact drawnId_of_inserts hins'
      · simp [drawnId_of_inserts hins]
    refine ⟨c', key c' p r row.id row ?_ ?_ hsub.symm ?_⟩
    · rw [Machine.run_concat, ← hc']
      refine calls_other ?_
      obtain ⟨rfl, hq, _⟩ := hins
      intro hcc
      cases hcc
      rw [hq] at hc'; cases hc'
    · rw [hget, if_pos rfl]
    · rw [hget, if_neg hfresh]
      exact hlost
  · -- a sweep of the row a consume matched, beside another one of the subject
    push Not at hg
    obtain ⟨now, rfl, c', p, r, hc', hr, hdead, k, r', hr', hsub, hlive⟩ := hg
    have hget : ∀ k, ((store B).run (es ++ [Event.sweepExpired now])).rows.get? k =
        (((store B).run es).rows.get? k).filter fun r => !decide (r.expiresAt ≤ now) := by
      intro k
      rw [Machine.run_concat]
      exact Table.get?_delete _ _ _
    refine ⟨c', key c' p r k r' ?_ ?_ hsub ?_⟩
    · rw [Machine.run_concat]
      exact hc'
    · rw [hget, hr']
      simpa using hlive
    · rw [hget, hr]
      simp [hdead]

/-- Single use. In every run whose statements all meet the guard, each minted link is redeemed at
    most once, by a consume that removes the very row it matched; and the guard asks for no more
    than that needs: after any run, a statement that breaks it leaves a consume in flight whose next
    statement breaks single use. -/
theorem singleUse_guarded (B : Backend) (es : List Event)
    (hid : (es.filterMap Event.drawnId).Nodup) :
    ((∀ i e, es[i]? = some e → Guarded B ((store B).run (es.take i)) e) → SingleUse B es) ∧
    ∀ e, ((es ++ [e]).filterMap Event.drawnId).Nodup → ¬ Guarded B ((store B).run es) e →
      ∃ c, ¬ SingleUse B (es ++ [e] ++ [.consumeSpend c]) := by
  refine ⟨fun hg => ?_, fun e he hg => unguarded_redeems he hg⟩
  have hrow : ∀ i c p row, (store B).Fires es i (Redeems B c p row) →
      ((store B).run (es.take i)).rows.get? row.id = some row := by
    rintro i c p row ⟨e, he, hred⟩
    have hset : Settled ((store B).run (es.take i)) :=
      settled_run (es.take i)
        (Machine.met_take (A := fun es e => Guarded B ((store B).run es) e) hg i)
    exact (hset c p row hred.2.1).resolve_right (redeems_not_cleared hred)
  refine ⟨?_, hrow⟩
  rintro p k i j _ ⟨e, he, c, row, hi⟩ ⟨e', he', c', row', hj⟩
  have h₁ := redeemed_once hid hrow ⟨e, he, hi⟩ ⟨e', he', hj⟩
  have h₂ := redeemed_once hid hrow ⟨e', he', hj⟩ ⟨e, he, hi⟩
  omega

theorem guarded_of_quiet (hdraw : e.drawnId = none) (hsweep : ∀ now, e ≠ .sweepExpired now) :
    Guarded B s e :=
  ⟨fun _ _ _ hins => absurd hins (not_inserts hdraw), fun now he => absurd he (hsweep now)⟩

/-- Two requests carry one link and race for it. -/
def race : List Event :=
  let link := formatPlaintext (.fill 16 1) (.fill 32 2)
  [.issueClear 0 "u" 3600000000000 0 0 (some (.fill 32 2)), .issueInsert 0 (some (.fill 16 1)),
    .consumeFind 1 link 1, .consumeFind 2 link 1, .consumeSpend 1, .consumeSpend 2]

theorem race_singleUse : SingleUse Backend.plain race := by
  refine (singleUse_guarded Backend.plain race (by decide)).1 fun i e he => ?_
  rcases i with _ | _ | _ | _ | _ | _ | i
  · cases he; exact guarded_of_quiet rfl (by simp)
  · cases he
    refine ⟨fun c q row _ c' p r hc' => ?_, by simp⟩
    have hcalls : ((store Backend.plain).run (race.take 1)).calls =
        Function.update (fun _ => none) 0
          (some (.issuing ⟨"u", .fill 32 2, 3600000000000, 0, 8⟩)) := by rfl
    rw [hcalls, Function.update_apply] at hc'
    split at hc' <;> cases hc'
  · cases he; exact guarded_of_quiet rfl (by simp)
  · cases he; exact guarded_of_quiet rfl (by simp)
  · cases he; exact guarded_of_quiet rfl (by simp)
  · cases he; exact guarded_of_quiet rfl (by simp)
  · cases he

/-- Two requests carry one link while the subject asks for a new one: both read the row, the first
    spends it, the new link is inserted, and the second spends that one. -/
def lateSpend : List Event :=
  let link := formatPlaintext (.fill 16 1) (.fill 32 2)
  [.issueClear 0 "u" 3600000000000 0 0 (some (.fill 32 2)), .issueInsert 0 (some (.fill 16 1)),
    .consumeFind 1 link 1, .consumeFind 2 link 1, .consumeSpend 1,
    .issueClear 0 "u" 3600000000000 2 2 (some (.fill 32 4)), .issueInsert 0 (some (.fill 16 3)),
    .consumeSpend 2]

/-- One link redeems two password resets. -/
theorem lateSpend_redeems_twice :
    (lateSpend.filterMap Event.drawnId).Nodup ∧ (lateSpend.filterMap Event.drawnSecret).Nodup ∧
      Function.Injective Backend.plain.digestOf ∧ ¬ SingleUse Backend.plain lateSpend := by
  refine ⟨by decide, by decide, fun _ _ h => h, fun h => ?_⟩
  have hmint : (store Backend.plain).Fires lateSpend 1
      (Mints Backend.plain (formatPlaintext (.fill 16 1) (.fill 32 2))) :=
    ⟨_, rfl, "u", 3600000000000, by decide +kernel⟩
  have := h.1 _ 1 4 7 hmint ⟨_, rfl, 1, _, rfl, by rfl, by decide +kernel⟩
    ⟨_, rfl, 2, _, rfl, by rfl, by decide +kernel⟩
  cases this

end Arcature.Auth.Reset
