import Arcature.Auth.Remember.Rotation

/-! What a lost rotation means.

    `rotate` reads "no row affected" as one event: another request of the same browser rotated the
    series first. Between `FIND_LIVE` and `ROTATE` the row can also be deleted, by a sign-out, a
    cascade or a sweep, or rotated twice, and each of these is answered `Accepted` too. `Steady`
    rules out exactly the statements that make the reading wrong. -/

namespace Arcature.Auth.Remember
open Arcature.Lib

variable {R : RememberTokens} {s : State} {e : Event} {c : ℕ}

/-- The rotation of call `c` affects no row, and `present` returns `Accepted` without a
    replacement. -/
def Loses (R : RememberTokens) (c : ℕ) (row : RememberRow) (s : State) (e : Event) : Prop :=
  ∃ p next now, Swaps c p row next now s e ∧
    (step R s e).2 = .outcome (.accepted row.subject none)

/-- A successful `ROTATE` of the series away from the digest `expected`, to that of `next`. -/
def Wins (series : PublicId) (expected : Digest) (next : Secret) (s : State) (e : Event) : Prop :=
  ∃ c p row now, Swaps c p row next now s e ∧ row.series = series ∧ row.secretDigest = expected ∧
    ∃ r, s.rows.get? series = some r ∧ r.secretDigest = expected

/-- A `present` of the series returns `Accepted`. -/
def Accepts (R : RememberTokens) (series : PublicId) (subject : String) (s : State) (e : Event) :
    Prop :=
  (∃ c p row next now, Swaps c p row next now s e ∧ row.series = series ∧ row.subject = subject) ∨
  ∃ c p nowServer nowGrace row, e = .presentFind c p nowServer nowGrace ∧ s.calls c = none ∧
    judge R s.rows p nowServer nowGrace = .graced row ∧ row.series = series ∧ row.subject = subject

/-- A `revoke_all_for` or a theft cascade deletes the subject's tokens. -/
def SignsOut (subject : String) (s : State) (e : Event) : Prop :=
  e = .revokeAllFor subject ∨ ∃ c, e = .presentCascade c ∧ s.calls c = some (.cascading subject)

/-- The documented reading: a lost rotation finds its row there, with a digest that another rotation
    from the same expected digest installed; and a token accepted after its subject was signed out
    was issued after that. -/
def SingleReading (R : RememberTokens) (es : List Event) : Prop :=
  (∀ i c row, (store R).Fires es i (Loses R c row) →
    ∃ r, ((store R).run (es.take i)).rows.get? row.series = some r ∧
      ∃ k next, (store R).Fires (es.take i) k (Wins row.series row.secretDigest next) ∧
        r.secretDigest = R.backend.digestOf next) ∧
  ∀ i series subject, (store R).Fires es i (Accepts R series subject) →
    ∀ k, k < i → (store R).Fires es k (SignsOut subject) →
      ∃ n q, k < n ∧ n < i ∧ (store R).Fires es n (Inserts q series)

/-- The statement deletes no row a rotation in flight expects, and rotates no series away from a
    digest other than the one the other rotations in flight on it expect. -/
def Steady (s : State) (e : Event) : Prop :=
  (∀ c p row r, s.calls c = some (.rotating p row) → s.rows.get? row.series = some r →
    e.deletes s r = false) ∧
  ∀ c' p' row' next now r, Swaps c' p' row' next now s e → s.rows.get? row'.series = some r →
    r.secretDigest = row'.secretDigest → ∀ c p row, c ≠ c' → s.calls c = some (.rotating p row) →
    row.series = row'.series → row.secretDigest = row'.secretDigest

/-! ### A steady run keeps the row under each rotation in flight -/

/-- Each rotation in flight still has its row, with the digest it expects or one that a rotation
    from that digest installed. -/
def Kept (R : RememberTokens) (es : List Event) (s : State) : Prop :=
  ∀ c p row, s.calls c = some (.rotating p row) →
    ∃ r, s.rows.get? row.series = some r ∧ r.subject = row.subject ∧
      (r.secretDigest = row.secretDigest ∨
        ∃ k next, (store R).Fires es k (Wins row.series row.secretDigest next) ∧
          r.secretDigest = R.backend.digestOf next)

/-- The call whose `ROTATE` ran is over. -/
theorem swaps_finishes {p : Str} {row : RememberRow} {next : Secret} {now : Instant}
    (h : Swaps c p row next now s e) : (step R s e).1.calls c = none := by
  obtain ⟨rfl, hc⟩ := h
  simp [step, hc, State.finish]

theorem kept_step {es : List Event} (hst : Steady ((store R).run es) e)
    (h : Kept R es ((store R).run es)) :
    Kept R (es ++ [e]) ((store R).next ((store R).run es) e) := by
  intro c p row hc
  change (step R ((store R).run es) e).1.calls c = _ at hc
  change ∃ r, (step R ((store R).run es) e).1.rows.get? row.series = some r ∧ _
  -- the row before the statement, and that the statement does not delete it
  have hold : ∃ r, ((store R).run es).rows.get? row.series = some r ∧ r.subject = row.subject ∧
      e.deletes ((store R).run es) r = false ∧ (r.secretDigest = row.secretDigest ∨
        ∃ k next, (store R).Fires es k (Wins row.series row.secretDigest next) ∧
          r.secretDigest = R.backend.digestOf next) := by
    rcases rotating_step hc with hc | ⟨ns, ng, rfl, _, hj⟩
    · obtain ⟨r, hr, hsub, hd⟩ := h c p row hc
      exact ⟨r, hr, hsub, hst.1 c p row r hc hr, hd⟩
    · obtain ⟨_, _, hr, _⟩ := judge_current hj
      exact ⟨row, hr, rfl, rfl, Or.inl rfl⟩
  obtain ⟨r, hr, hsub, hdel, hd⟩ := hold
  have hlift : (r.secretDigest = row.secretDigest ∨
      ∃ k next, (store R).Fires es k (Wins row.series row.secretDigest next) ∧
        r.secretDigest = R.backend.digestOf next) → (r.secretDigest = row.secretDigest ∨
      ∃ k next, (store R).Fires (es ++ [e]) k (Wins row.series row.secretDigest next) ∧
        r.secretDigest = R.backend.digestOf next) := by
    rintro (hd | ⟨k, next, hk, hd⟩)
    · exact Or.inl hd
    · exact Or.inr ⟨k, next, Machine.fires_concat.mpr (Or.inl hk), hd⟩
  rcases rows_step R ((store R).run es) e with ⟨q, series, hins, hget⟩ |
    ⟨c', p', row', next, now, hsw, hget⟩ | ⟨_, _, hget⟩
  · refine ⟨r, ?_, hsub, hlift hd⟩
    rw [hget, if_neg, hr]
    intro heq
    rw [heq, hins.1] at hr
    cases hr
  · have hser : r.series = row.series := Table.key_of_get? hr
    rw [hget, hr, Option.map_some]
    by_cases hrot : rotatable row'.series row'.secretDigest r = true
    · rw [if_pos hrot]
      rw [rotatable, Bool.and_eq_true, decide_eq_true_eq, decide_eq_true_eq, hser] at hrot
      have hcc : c ≠ c' := by
        rintro rfl
        rw [swaps_finishes hsw] at hc
        cases hc
      have hc₀ : ((store R).run es).calls c = some (.rotating p row) := by
        rcases rotating_step hc with hc₀ | ⟨_, _, he, _⟩
        · exact hc₀
        · rw [hsw.1] at he; cases he
      have hr' : ((store R).run es).rows.get? row'.series = some r := by rw [← hrot.1]; exact hr
      have hexp := hst.2 c' p' row' next now r hsw hr' hrot.2 c p row hcc hc₀ hrot.1
      refine ⟨_, rfl, hsub, Or.inr ⟨es.length, next, Machine.fires_last.mpr ?_, rfl⟩⟩
      exact ⟨c', p', row', now, hsw, hrot.1.symm, hexp.symm, r, hr, by rw [hrot.2, hexp]⟩
    · rw [if_neg hrot]
      exact ⟨r, rfl, hsub, hlift hd⟩
  · refine ⟨r, ?_, hsub, hlift hd⟩
    rw [hget, hr]
    simp [hdel]

theorem kept_run (es : List Event)
    (hst : ∀ i e, es[i]? = some e → Steady ((store R).run (es.take i)) e) :
    Kept R es ((store R).run es) := by
  refine Machine.inv_hist (m := store R) (I := Kept R)
    (A := fun es e => Steady ((store R).run es) e) ?_ ?_ es hst
  · intro c p row hc
    cases hc
  · intro es e hA h
    exact kept_step hA h

/-! ### Signing out -/

/-- The series has a row of the subject. -/
def Remembers (series : PublicId) (subject : String) (s : State) : Prop :=
  ∃ r, s.rows.get? series = some r ∧ r.subject = subject

/-- A series comes to have a row of a subject only by an insert. -/
theorem remembers_step {series : PublicId} {subject : String} (hno : ¬ Remembers series subject s)
    (h : Remembers series subject (step R s e).1) : ∃ q, Inserts q series s e := by
  obtain ⟨r, hr, hsub⟩ := h
  rcases rows_step R s e with ⟨q, k, hins, hget⟩ | ⟨c, p, row, next, now, _, hget⟩ | ⟨_, _, hget⟩ <;>
    rw [hget] at hr
  · split at hr
    · rename_i hk
      exact ⟨q, hk ▸ hins⟩
    · exact absurd ⟨r, hr, hsub⟩ hno
  · obtain ⟨r₀, hr₀, hrot⟩ := Option.map_eq_some_iff.mp hr
    refine absurd ⟨r₀, hr₀, ?_⟩ hno
    rw [← hsub, ← hrot]
    split <;> rfl
  · exact absurd ⟨r, (Option.filter_eq_some_iff.mp hr).1, hsub⟩ hno

theorem signsOut_forgets {subject : String} (h : SignsOut subject s e) (series : PublicId) :
    ¬ Remembers series subject (step R s e).1 := by
  rintro ⟨r, hr, hsub⟩
  rcases h with rfl | ⟨c, rfl, hc⟩
  · simp only [step, deleteFor, Table.get?_delete, Option.filter_eq_some_iff] at hr
    simp [hsub] at hr
  · simp only [step, hc, deleteFor, rows_finish, Table.get?_delete, Option.filter_eq_some_iff] at hr
    simp [hsub] at hr

/-- In a steady run a token is accepted only while its row is there. -/
theorem accepts_remembers {es : List Event} (hk : Kept R es s) {series : PublicId}
    {subject : String} (h : Accepts R series subject s e) : Remembers series subject s := by
  rcases h with ⟨c, p, row, next, now, ⟨_, hc⟩, rfl, rfl⟩ | ⟨c, p, ns, ng, row, _, _, hj, rfl, rfl⟩
  · obtain ⟨r, hr, hsub, _⟩ := hk c p row hc
    exact ⟨r, hr, hsub⟩
  · obtain ⟨_, _, hr, _⟩ := judge_row (Or.inr (Or.inl hj))
    exact ⟨row, hr, rfl⟩

theorem loses_iff {row : RememberRow} : Loses R c row s e ↔ ∃ p next now, Swaps c p row next now s e ∧
    ¬ ∃ r, s.rows.get? row.series = some r ∧ r.secretDigest = row.secretDigest := by
  constructor
  · rintro ⟨p, next, now, hsw, hout⟩
    refine ⟨p, next, now, hsw, fun hex => ?_⟩
    rw [swaps_answer hsw, if_pos hex] at hout
    simp at hout
  · rintro ⟨p, next, now, hsw, hno⟩
    exact ⟨p, next, now, hsw, by rw [swaps_answer hsw, if_neg hno]⟩

theorem singleReading_of_steady {es : List Event}
    (hst : ∀ i e, es[i]? = some e → Steady ((store R).run (es.take i)) e) : SingleReading R es := by
  have hkept : ∀ i, Kept R (es.take i) ((store R).run (es.take i)) := fun i =>
    kept_run (es.take i) (Machine.met_take (A := fun es e => Steady ((store R).run es) e) hst i)
  refine ⟨?_, ?_⟩
  · rintro i c row ⟨e, he, hl⟩
    obtain ⟨p, next, now, hsw, hno⟩ := loses_iff.mp hl
    obtain ⟨r, hr, _, hd | ⟨k, y, hk, hd⟩⟩ := hkept i c p row hsw.2
    · exact absurd ⟨r, hr, hd⟩ hno
    · exact ⟨r, hr, k, y, hk, hd⟩
  · rintro i series subject hacc k hki ⟨e', he', hout⟩
    have hi := hacc.lt
    have hgone : ¬ Remembers series subject ((store R).run (es.take (k + 1))) := by
      rw [Machine.run_take_succ he']
      exact signsOut_forgets hout series
    obtain ⟨e, he, hacc⟩ := hacc
    obtain ⟨n, hkn, hni, e'', he'', hno, hyes⟩ := Machine.crossing hki hi.le hgone
      (accepts_remembers (hkept i) hacc)
    obtain ⟨q, hins⟩ := remembers_step hno hyes
    exact ⟨n, q, hkn, hni, e'', he'', hins⟩

/-! ### Steadiness is what the reading needs -/

/-- The digest a rotation in flight expects is that of a secret drawn in the run. -/
theorem rotating_drawn : ∀ (es : List Event), (es.filterMap Event.drawnSeries).Nodup →
    ∀ {c : ℕ} {p : Str} {row : RememberRow}, ((store R).run es).calls c = some (.rotating p row) →
      ∃ x ∈ es.filterMap Event.drawnSecret, row.secretDigest = R.backend.digestOf x := by
  intro es
  induction es using List.reverseRecOn with
  | nil => intro _ c p row h; cases h
  | append_singleton es e ih =>
    intro hser c p row h
    rw [Machine.run_concat] at h
    have hpre : (es.filterMap Event.drawnSeries).Nodup :=
      hser.sublist ((List.sublist_append_left es [e]).filterMap _)
    have hmono : ∀ x ∈ es.filterMap Event.drawnSecret, x ∈ (es ++ [e]).filterMap Event.drawnSecret :=
      fun x hx => by rw [List.filterMap_append]; exact List.mem_append_left _ hx
    rcases rotating_step h with h | ⟨ns, ng, _, _, hj⟩
    · obtain ⟨x, hx, hd⟩ := ih hpre h
      exact ⟨x, hmono x hx, hd⟩
    · obtain ⟨_, _, hr, _⟩ := judge_current hj
      obtain ⟨j, x, hlast, hcur, _⟩ := chained_run es hpre hr
      obtain ⟨e', he', hx⟩ := drawnSecret_of_installs hpre hlast.1
      exact ⟨x, hmono x (List.mem_filterMap.mpr ⟨e', List.mem_of_getElem? he', hx⟩), hcur⟩

/-- A statement that deletes a row leaves the rotations in flight as they were. -/
theorem rotating_of_deletes {r : RememberRow} {p : Str} {row : RememberRow}
    (hdel : e.deletes s r = true) (hc : s.calls c = some (.rotating p row)) :
    (step R s e).1.calls c = some (.rotating p row) := by
  rw [← hc]
  refine calls_other ?_
  cases e with
  | presentCascade c' =>
    intro hcc
    cases hcc
    simp [Event.deletes, hc] at hdel
  | revoke | revokeAllFor | sweepExpired => simp [Event.call]
  | issue | issueAgain | presentFind | presentRotate | fail => cases hdel

/-- A row that a statement deletes is gone after it. -/
theorem rows_of_deletes {r : RememberRow} {series : PublicId} (hr : s.rows.get? series = some r)
    (hdel : e.deletes s r = true) : (step R s e).1.rows.get? series = none := by
  rcases rows_step R s e with ⟨q, k, hins, _⟩ | ⟨_, _, _, _, _, hsw, _⟩ | ⟨_, _, hget⟩
  · obtain ⟨_, ⟨_, _, _, _, _, _, rfl, _⟩ | ⟨_, rfl, _⟩⟩ := hins <;> cases hdel
  · rw [hsw.1] at hdel
    cases hdel
  · rw [hget, hr]
    simp [hdel]

/-- After a rotation that found the digest it expects, the row has the digest of what was drawn. -/
theorem digest_of_swaps {p : Str} {row r r' : RememberRow} {next : Secret} {now : Instant}
    (hsw : Swaps c p row next now s e) (hr : s.rows.get? row.series = some r)
    (hd : r.secretDigest = row.secretDigest) (hr' : (step R s e).1.rows.get? row.series = some r') :
    r'.secretDigest = R.backend.digestOf next := by
  rcases rows_step R s e with ⟨q, k, hins, _⟩ | ⟨_, _, row', next', now', hsw', hget⟩ | ⟨_, hnosw, _⟩
  · exact absurd hsw (inserts_not_swaps hins)
  · obtain ⟨_, _, rfl, rfl, rfl⟩ := swaps_unique hsw hsw'
    have hseries : r.series = row.series := Table.key_of_get? hr
    rw [hget, hr] at hr'
    simp [rotatable, hseries, hd, rotateSet] at hr'
    rw [← hr']
  · exact absurd hsw (hnosw _ _ _ _ _)

/-- A rotation in flight is misread if its row has neither the digest it expects nor one that a
    rotation from that digest installed. -/
theorem misread_of_lost {es : List Event} {p : Str} {row : RememberRow}
    (hc : ((store R).run es).calls c = some (.rotating p row))
    (hlost : ¬ ∃ r, ((store R).run es).rows.get? row.series = some r ∧
      r.secretDigest = row.secretDigest)
    (hwrong : ¬ ∃ r, ((store R).run es).rows.get? row.series = some r ∧
      ∃ k next, (store R).Fires es k (Wins row.series row.secretDigest next) ∧
        r.secretDigest = R.backend.digestOf next) (y : Secret) (now : Instant) :
    ¬ SingleReading R (es ++ [.presentRotate c (some y) now]) := by
  intro h
  have hloses : Loses R c row ((store R).run es) (.presentRotate c (some y) now) :=
    loses_iff.mpr ⟨p, y, now, ⟨rfl, hc⟩, hlost⟩
  have hread := h.1 es.length c row (Machine.fires_last.mpr hloses)
  rw [List.take_left] at hread
  exact hwrong hread

/-- A statement that breaks steadiness leaves a rotation in flight whose loss is misread, whatever
    it draws. -/
theorem unsteady_misreads {es : List Event} (hinj : Function.Injective R.backend.digestOf)
    (hser : ((es ++ [e]).filterMap Event.drawnSeries).Nodup)
    (hsec : ((es ++ [e]).filterMap Event.drawnSecret).Nodup)
    (hst : ¬ Steady ((store R).run es) e) :
    ∃ c, ∀ y now, ¬ SingleReading R (es ++ [e] ++ [.presentRotate c (some y) now]) := by
  have hpre : (es.filterMap Event.drawnSeries).Nodup :=
    hser.sublist ((List.sublist_append_left es [e]).filterMap _)
  have hrun : (store R).run (es ++ [e]) = (step R ((store R).run es) e).1 := Machine.run_concat ..
  rw [Steady, not_and_or] at hst
  rcases hst with hst | hst
  · -- the row is deleted
    push Not at hst
    obtain ⟨c, p, row, r, hc, hr, hdel⟩ := hst
    rw [ne_eq, Bool.not_eq_false] at hdel
    have hgone : ((store R).run (es ++ [e])).rows.get? row.series = none := by
      rw [hrun, rows_of_deletes hr hdel]
    refine ⟨c, @misread_of_lost R c _ p row ?_ ?_ ?_⟩
    · rw [hrun]
      exact rotating_of_deletes hdel hc
    · rintro ⟨r', hr', _⟩
      rw [hgone] at hr'; cases hr'
    · rintro ⟨r', hr', _⟩
      rw [hgone] at hr'; cases hr'
  · -- the series is rotated away from a digest the call does not expect
    push Not at hst
    obtain ⟨c', p', row', next, now', r, hsw, hr, hd, c, p, row, hcc, hc, hsame, hdiff⟩ := hst
    have hnow : ∀ r', ((store R).run (es ++ [e])).rows.get? row.series = some r' →
        r'.secretDigest = R.backend.digestOf next := by
      intro r' hr'
      rw [hrun, hsame] at hr'
      exact digest_of_swaps hsw hr hd hr'
    have hdrawn : (es ++ [e])[es.length]? = some e ∧ e.drawnSecret = some next := by
      rw [List.getElem?_concat_length, hsw.1]
      exact ⟨rfl, rfl⟩
    refine ⟨c, @misread_of_lost R c _ p row ?_ ?_ ?_⟩
    · rw [hrun, ← hc]
      refine calls_other ?_
      rw [hsw.1]
      intro h
      cases h
      exact hcc rfl
    · -- the digest just installed is fresh
      rintro ⟨r', hr', hd'⟩
      obtain ⟨x, hx, hexp⟩ := rotating_drawn (R := R) es hpre hc
      have hxn : x = next := hinj (by rw [← hexp, ← hd', hnow r' hr'])
      obtain ⟨e', he', hx'⟩ := List.mem_filterMap.mp hx
      obtain ⟨n, hn, rfl⟩ := List.getElem_of_mem he'
      have := Machine.eq_of_drawn hsec (i := n)
        (by rw [List.getElem?_append_left hn, List.getElem?_eq_getElem hn]) hdrawn.1
        (hxn ▸ hx') hdrawn.2
      omega
    · -- the only rotation that installed it started from another digest
      rintro ⟨r', hr', k, y, ⟨e', he', c'', p'', row'', now'', hsw'', _, hexp, _⟩, hd'⟩
      have hyn : y = next := hinj (by rw [← hd', hnow r' hr'])
      subst hyn
      have hk := Machine.eq_of_drawn hsec he' hdrawn.1 (by rw [hsw''.1]; rfl) hdrawn.2
      subst hk
      rw [hdrawn.1] at he'
      cases he'
      rw [List.take_left] at hsw''
      obtain ⟨_, _, rfl, _, _⟩ := swaps_unique hsw hsw''
      exact hdiff hexp.symm

/-- The reading of a lost rotation. In every steady run a rotation that affects no row finds its row
    rotated by another `present` from the same expected digest, and nothing is accepted after its
    subject was signed out; and steadiness asks for no more than that: after any run, a statement
    that breaks it leaves a rotation in flight whose loss is misread. -/
theorem lostRotation_reading (R : RememberTokens) (es : List Event) :
    ((∀ i e, es[i]? = some e → Steady ((store R).run (es.take i)) e) → SingleReading R es) ∧
    ∀ e, Function.Injective R.backend.digestOf →
      ((es ++ [e]).filterMap Event.drawnSeries).Nodup →
      ((es ++ [e]).filterMap Event.drawnSecret).Nodup → ¬ Steady ((store R).run es) e →
      ∃ c, ∀ y now, ¬ SingleReading R (es ++ [e] ++ [.presentRotate c (some y) now]) :=
  ⟨singleReading_of_steady, fun _ hinj hser hsec hst => unsteady_misreads hinj hser hsec hst⟩

theorem steady_of_quiet (hdel : ∀ r, e.deletes s r = false)
    (hrot : ∀ c next now, e ≠ .presentRotate c next now) : Steady s e := by
  refine ⟨fun _ _ _ r _ _ => hdel r, ?_⟩
  rintro c p row next now r ⟨rfl, _⟩
  exact absurd rfl (hrot c (some next) now)

theorem twoTabs_singleReading : SingleReading RememberTokens.plain twoTabs := by
  refine (lostRotation_reading RememberTokens.plain twoTabs).1 fun i e he => ?_
  rcases i with _ | _ | _ | _ | _ | i
  · cases he; exact steady_of_quiet (fun _ => rfl) (by simp)
  · cases he; exact steady_of_quiet (fun _ => rfl) (by simp)
  · cases he; exact steady_of_quiet (fun _ => rfl) (by simp)
  · -- both tabs expect the digest the first rotation swaps out
    cases he
    refine ⟨fun _ _ _ _ _ _ => rfl, ?_⟩
    have hcalls : ((store RememberTokens.plain).run (twoTabs.take 3)).calls =
        Function.update (Function.update (Function.update (fun _ => none) 0 none)
          1 (some (.rotating (formatPlaintext (.fill 16 1) (.fill 32 2))
            ⟨.fill 16 1, .fill 32 2, none, none, "u", 3600000000000, 0⟩)))
          2 (some (.rotating (formatPlaintext (.fill 16 1) (.fill 32 2))
            ⟨.fill 16 1, .fill 32 2, none, none, "u", 3600000000000, 0⟩)) := by rfl
    have hexp : ∀ c p row, ((store RememberTokens.plain).run (twoTabs.take 3)).calls c =
        some (.rotating p row) → row.secretDigest = .fill 32 2 := by
      intro c p row hc
      rw [hcalls] at hc
      simp only [Function.update_apply] at hc
      split_ifs at hc <;> cases hc <;> rfl
    rintro c' p' row' next now r ⟨_, hc'⟩ _ _ c p row _ hc _
    rw [hexp c p row hc, hexp c' p' row' hc']
  · -- the second rotation finds another digest
    cases he
    refine ⟨fun _ _ _ _ _ _ => rfl, ?_⟩
    rintro c' p' row' next now r ⟨he', hc'⟩ hr hd
    cases he'
    have hrow : ((store RememberTokens.plain).run (twoTabs.take 4)).calls 2 =
        some (.rotating (formatPlaintext (.fill 16 1) (.fill 32 2))
          ⟨.fill 16 1, .fill 32 2, none, none, "u", 3600000000000, 0⟩) := by rfl
    rw [hrow] at hc'
    cases hc'
    have hcur : ((store RememberTokens.plain).run (twoTabs.take 4)).rows.get? (.fill 16 1) =
        some ⟨.fill 16 1, .fill 32 3, some (.fill 32 2), some 2, "u", 3600000000000, 0⟩ := by
      decide +kernel
    rw [hcur] at hr
    cases hr
    exact absurd hd (by decide)
  · cases he

/-- A cookie is presented while the subject is signed out everywhere. -/
def signedOutMidway : List Event :=
  [.issue 0 "u" 3600000000000 0 0 (some (.fill 32 2)) (some (.fill 16 1)),
    .presentFind 1 (formatPlaintext (.fill 16 1) (.fill 32 2)) 1 1, .revokeAllFor "u",
    .presentRotate 1 (some (.fill 32 3)) 2]

/-- The rotation affects no row because the row is gone, and the cookie is accepted. -/
theorem signedOutMidway_accepted : ¬ SingleReading RememberTokens.plain signedOutMidway := by
  intro h
  have hrow : ((store RememberTokens.plain).run (signedOutMidway.take 3)).calls 1 =
      some (.rotating (formatPlaintext (.fill 16 1) (.fill 32 2))
        ⟨.fill 16 1, .fill 32 2, none, none, "u", 3600000000000, 0⟩) := by rfl
  obtain ⟨r, hr, _⟩ := h.1 3 1 _ ⟨_, rfl, _, _, _, ⟨rfl, hrow⟩, by decide +kernel⟩
  have hgone : ((store RememberTokens.plain).run (signedOutMidway.take 3)).rows.get? (.fill 16 1) =
      none := by decide +kernel
  rw [hgone] at hr
  cases hr

end Arcature.Auth.Remember
