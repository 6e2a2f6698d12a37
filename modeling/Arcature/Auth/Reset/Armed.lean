import Arcature.Auth.Reset.Store

/-! When a subject has at most one armed link.

    `issue` clears and inserts in two statements, with no transaction around them. Another issue of
    the same subject that inserts in between leaves two links armed, or lets a call that started
    first arm its link last. `Exclusive` asks of each insert that neither is under way, and this is
    exactly what the property needs, run by run. -/

namespace Arcature.Auth.Reset
open Arcature.Lib

variable {B : Backend} {s : State} {e : Event} {c : ℕ}

/-- The last `DELETE_FOR` with which the call `c` started an issue is at `a`. -/
def StartedAt (B : Backend) (es : List Event) (c a : ℕ) : Prop :=
  (∃ q, (store B).Fires es a (Starts c q)) ∧ ∀ k, a < k → ∀ q, ¬ (store B).Fires es k (Starts c q)

/-- The issue call `c` that started at `a` returned at `i`, having inserted `row`. -/
def Issued (B : Backend) (es : List Event) (c : ℕ) (q : Issuing) (row : ResetRow) (a i : ℕ) : Prop :=
  StartedAt B (es.take i) c a ∧ (store B).Fires es i (Inserts B c q row)

/-- At most one live row per subject while no issue of the subject is between its statements, and
    no link accepted that a returned issue of the subject came after. -/
def OneArmed (B : Backend) (es : List Event) : Prop :=
  (∀ subject, (∀ c q, ((store B).run es).calls c = some (.issuing q) → q.subject ≠ subject) →
    ∀ now k k' r r', ((store B).run es).rows.get? k = some r →
      ((store B).run es).rows.get? k' = some r' → r.subject = subject → r'.subject = subject →
      now < r.expiresAt → now < r'.expiresAt → r = r') ∧
  ∀ c q row a i c' q' row' a' i', Issued B es c q row a i → Issued B es c' q' row' a' i' →
    row.subject = row'.subject → (i < i' ∨ a < a') →
    ∀ now, matchLive B ((store B).run es).rows (formatPlaintext row.id q.secret) now = none

/-- If the statement inserts a link, the subject has none in the table and no issue of the subject
    that started later has returned already. -/
def Exclusive (B : Backend) (es : List Event) (e : Event) : Prop :=
  ∀ c q row, Inserts B c q row ((store B).run es) e →
    Cleared row.subject ((store B).run es).rows ∧
    ∀ a, StartedAt B es c a → ∀ c' q' row' a' i', Issued B es c' q' row' a' i' →
      row'.subject = row.subject → ¬ a < a'

/-! ### Issues and their starts -/

theorem startedAt_unique {es : List Event} {a a' : ℕ} (h : StartedAt B es c a)
    (h' : StartedAt B es c a') : a = a' := by
  obtain ⟨⟨q, hq⟩, hlast⟩ := h
  obtain ⟨⟨q', hq'⟩, hlast'⟩ := h'
  rcases lt_trichotomy a a' with hlt | heq | hlt
  · exact absurd hq' (hlast a' hlt q')
  · exact heq
  · exact absurd hq (hlast' a hlt q)

/-- An issue in flight has started. -/
theorem started_of_issuing : ∀ (es : List Event) {c : ℕ} {q : Issuing},
    ((store B).run es).calls c = some (.issuing q) → ∃ a, StartedAt B es c a := by
  intro es
  induction es using List.reverseRecOn with
  | nil => intro c q h; cases h
  | append_singleton es e ih =>
    intro c q h
    rw [Machine.run_concat] at h
    rcases issuing_step h with ⟨q₀, hq₀, _⟩ | hst
    · obtain ⟨a, ⟨q', hq'⟩, hlast⟩ := ih hq₀
      refine ⟨a, ⟨q', Machine.fires_concat.mpr (Or.inl hq')⟩, fun k hk q'' hf => ?_⟩
      rcases Machine.fires_concat.mp hf with hf | ⟨_, hst⟩
      · exact hlast k hk q'' hf
      · obtain ⟨_, _, _, _, _, _, hnone, _⟩ := hst
        rw [hq₀] at hnone; cases hnone
    · refine ⟨es.length, ⟨q, Machine.fires_last.mpr hst⟩, fun k hk q'' hf => ?_⟩
      have := hf.lt
      rw [List.length_append, List.length_singleton] at this
      omega

theorem issued_lt {es : List Event} {q : Issuing} {row : ResetRow} {a i : ℕ}
    (h : Issued B es c q row a i) : i < es.length := h.2.lt

theorem issued_take {es : List Event} {q : Issuing} {row : ResetRow} {a i k : ℕ} (hik : i < k) :
    Issued B (es.take k) c q row a i ↔ Issued B es c q row a i := by
  rw [Issued, Issued, List.take_take, min_eq_left hik.le, Machine.fires_take hik]

/-- Every insert of a run ends an issue call that started in it. -/
theorem issued_of_inserts {es : List Event} {q : Issuing} {row : ResetRow} {i : ℕ}
    (h : (store B).Fires es i (Inserts B c q row)) : ∃ a, Issued B es c q row a i := by
  obtain ⟨e, he, hins⟩ := h
  obtain ⟨a, ha⟩ := started_of_issuing (B := B) _ hins.2.1
  exact ⟨a, ha, e, he, hins⟩

theorem inserts_unique {es : List Event} (hid : (es.filterMap Event.drawnId).Nodup) {c c' : ℕ}
    {q q' : Issuing} {row row' : ResetRow} {i j : ℕ} (h : (store B).Fires es i (Inserts B c q row))
    (h' : (store B).Fires es j (Inserts B c' q' row')) (heq : row.id = row'.id) :
    i = j ∧ c = c' ∧ row = row' := by
  obtain ⟨e, he, hins⟩ := h
  obtain ⟨e', he', hins'⟩ := h'
  have hij : i = j :=
    Machine.eq_of_drawn hid he he' (drawnId_of_inserts hins) (heq ▸ drawnId_of_inserts hins')
  subst hij
  rw [he] at he'
  cases he'
  obtain ⟨rfl, hq, hr, _⟩ := hins
  obtain ⟨heq', hq', hr', _⟩ := hins'
  have hc : c = c' := by injection heq'
  subst hc
  rw [hq] at hq'
  cases hq'
  exact ⟨rfl, rfl, by rw [hr, hr', heq]⟩

/-! ### Exclusive inserts arm one link -/

/-- No two rows of one subject. -/
def OneRow (t : ResetTable) : Prop :=
  ∀ k k' r r', t.get? k = some r → t.get? k' = some r' → r.subject = r'.subject → r = r'

theorem oneRow_step (hclear : ∀ c q row, Inserts B c q row s e → Cleared row.subject s.rows)
    (h : OneRow s.rows) : OneRow (step B s e).1.rows := by
  intro k k' r r' hr hr' hsub
  rcases row_step hr with hr | ⟨_, c, q, hins⟩ <;> rcases row_step hr' with hr' | ⟨_, c', q', hins'⟩
  · exact h k k' r r' hr hr' hsub
  · exact absurd hsub (hclear c' q' r' hins' k r hr)
  · exact absurd hsub.symm (hclear c q r hins k' r' hr')
  · obtain ⟨rfl, hq, hrow, _⟩ := hins
    obtain ⟨he, hq', hrow', _⟩ := hins'
    injection he with hc hid
    subst hc
    rw [hq] at hq'
    cases hq'
    rw [hrow, hrow', Option.some.inj hid]

theorem oneRow_run (es : List Event)
    (hx : ∀ i e, es[i]? = some e → Exclusive B (es.take i) e) : OneRow ((store B).run es).rows := by
  refine Machine.inv_hist (m := store B) (I := fun _ s => OneRow s.rows) (A := Exclusive B) ?_ ?_ es hx
  · intro k k' r r' hr
    cases hr
  · intro es e hA h
    exact oneRow_step (fun c q row hins => (hA c q row hins).1) h

/-- A link whose issue returned before another one of the subject is out of the table. -/
theorem superseded {es : List Event} (hid : (es.filterMap Event.drawnId).Nodup)
    (hx : ∀ i e, es[i]? = some e → Exclusive B (es.take i) e) {c c' : ℕ} {q q' : Issuing}
    {row row' : ResetRow} {i i' : ℕ} (h : (store B).Fires es i (Inserts B c q row))
    (h' : (store B).Fires es i' (Inserts B c' q' row')) (hsub : row.subject = row'.subject)
    (hii : i < i') : ((store B).run es).rows.get? row.id = none := by
  have hclear : Cleared row'.subject ((store B).run (es.take i')).rows := by
    obtain ⟨e', he', hins'⟩ := h'
    exact (hx i' e' he' c' q' row' hins').1
  have hgone : ((store B).run (es.take i')).rows.get? row.id = none := by
    by_contra hne
    obtain ⟨r, hr⟩ := Option.ne_none_iff_exists'.mp hne
    obtain ⟨n, d, qr, hn⟩ := inserted_of_get? _ hr
    obtain ⟨_, _, hrow⟩ := inserts_unique hid hn.of_take.2 h (Table.key_of_get? hr)
    exact hclear row.id r hr (hrow ▸ hsub)
  obtain ⟨e, he, hins⟩ := h
  have := stays_out (B := B) hid h'.lt.le le_rfl ⟨i, hii, e, he, drawnId_of_inserts hins⟩ hgone
  rwa [List.take_length] at this

theorem oneArmed_of_exclusive {es : List Event} (hid : (es.filterMap Event.drawnId).Nodup)
    (hx : ∀ i e, es[i]? = some e → Exclusive B (es.take i) e) : OneArmed B es := by
  refine ⟨?_, ?_⟩
  · intro subject _ now k k' r r' hr hr' hsub hsub' _ _
    exact oneRow_run es hx k k' r r' hr hr' (hsub.trans hsub'.symm)
  · intro c q row a i c' q' row' a' i' h h' hsub hlater now
    have hii : i < i' := by
      rcases hlater with hii | haa
      · exact hii
      · rcases lt_trichotomy i i' with hlt | rfl | hgt
        · exact hlt
        · -- one statement ends one call, which has one start
          obtain ⟨e, he, hins⟩ := h.2
          obtain ⟨e', he', hins'⟩ := h'.2
          rw [he] at he'
          cases he'
          have hcc : c = c' := by
            obtain ⟨rfl, _⟩ := hins
            injection hins'.1
          subst hcc
          exact absurd (startedAt_unique h.1 h'.1) haa.ne
        · -- the call that started first would insert after the other one returned
          obtain ⟨e, he, hins⟩ := h.2
          exact absurd haa ((hx i e he c q row hins).2 a h.1 c' q' row' a' i'
            ((issued_take hgt).mpr h') hsub.symm)
    rw [matchLive_format, superseded hid hx h.2 h'.2 hsub hii]
    rfl

/-! ### One armed link makes inserts exclusive -/

/-- A row in the table, under the secret it was issued with, is accepted just before its deadline. -/
theorem accepted_of_row {t : ResetTable} {q : Issuing} {row : ResetRow}
    (hrow : row = q.row B row.id) (hr : t.get? row.id = some row) :
    matchLive B t (formatPlaintext row.id q.secret) (row.expiresAt - 1) = some row := by
  have hdigest : B.digestOf q.secret = row.secretDigest := by rw [hrow]; rfl
  rw [matchLive_format, hr]
  simp [hdigest]

theorem exclusive_of_oneArmed {es : List Event} {e : Event} (h : OneArmed B (es ++ [e])) :
    Exclusive B es e := by
  intro c q row hins
  obtain ⟨a, ha⟩ := started_of_issuing (B := B) es hins.2.1
  have hget : ∀ k, ((store B).run (es ++ [e])).rows.get? k =
      if k = row.id then some row else ((store B).run es).rows.get? k := by
    intro k
    rw [Machine.run_concat]
    exact get?_of_inserts hins k
  -- both this call and every earlier one are issued in the longer run
  have hthis : Issued B (es ++ [e]) c q row a es.length := by
    refine ⟨?_, Machine.fires_last.mpr hins⟩
    rwa [List.take_left]
  have hearlier : ∀ {c' q' row' a' i'}, Issued B es c' q' row' a' i' →
      Issued B (es ++ [e]) c' q' row' a' i' := by
    intro c' q' row' a' i' h'
    rw [← issued_take (issued_lt h'), List.take_left]
    exact h'
  refine ⟨?_, ?_⟩
  · intro k r hr hsub
    have hk : r.id = k := Table.key_of_get? hr
    subst hk
    obtain ⟨n, d, qr, hn⟩ := inserted_of_get? es hr
    obtain ⟨b, hb⟩ := issued_of_inserts hn
    have hrow : r = qr.row B r.id := by
      obtain ⟨_, _, hinsr⟩ := hn
      exact hinsr.2.2.1
    have hkept : ((store B).run (es ++ [e])).rows.get? r.id = some r := by
      rw [hget, if_neg, hr]
      intro heq
      have hfree := hins.2.2.2
      rw [← heq, hr] at hfree
      cases hfree
    have := h.2 d qr r b n c q row a es.length (hearlier hb) hthis hsub (Or.inl hn.lt)
      (r.expiresAt - 1)
    rw [accepted_of_row hrow hkept] at this
    cases this
  · intro a' ha' c' q' row' b i' h' hsub hab
    have haa : a' = a := startedAt_unique ha' ha
    subst haa
    have hkept : ((store B).run (es ++ [e])).rows.get? row.id = some row := by
      rw [hget, if_pos rfl]
    have := h.2 c q row a' es.length c' q' row' b i' hthis (hearlier h') hsub.symm (Or.inr hab)
      (row.expiresAt - 1)
    rw [accepted_of_row hins.2.2.1 hkept] at this
    cases this

/-- At most one armed link per subject: this holds in every state of a run exactly when every
    insert of the run finds no link of its subject in the table and no issue of its subject that
    started later and has returned already. -/
theorem oneArmed_iff_exclusive (B : Backend) (es : List Event)
    (hid : (es.filterMap Event.drawnId).Nodup) :
    (∀ k, OneArmed B (es.take k)) ↔ ∀ i e, es[i]? = some e → Exclusive B (es.take i) e := by
  refine ⟨?_, ?_⟩
  · intro h i e he
    obtain ⟨hi, rfl⟩ := List.getElem?_eq_some_iff.mp he
    refine exclusive_of_oneArmed ?_
    rw [← List.take_succ_eq_append_getElem hi]
    exact h (i + 1)
  · intro hx k
    exact oneArmed_of_exclusive (hid.sublist ((List.take_sublist k es).filterMap _))
      (Machine.met_take hx k)

/-- The subject asks twice, one call after the other. -/
def reissue : List Event :=
  [.issueClear 0 "u" 3600000000000 0 0 (some (.fill 32 2)), .issueInsert 0 (some (.fill 16 1)),
    .issueClear 1 "u" 3600000000000 1 1 (some (.fill 32 4)), .issueInsert 1 (some (.fill 16 3))]

theorem reissue_oneArmed : OneArmed Backend.plain reissue := by
  refine (oneArmed_iff_exclusive Backend.plain reissue (by decide)).mpr (fun i e he => ?_) 4
  -- in every prefix an issue has returned only at 1, having started before
  have hearly : ∀ {c q row a i'}, Issued Backend.plain (reissue.take i) c q row a i' → i < 4 →
      a = 0 := by
    intro c q row a i' h hi
    have hlt := h.1.1.choose_spec.of_take.1
    obtain ⟨hi', e', he', hins, _⟩ := h.2.of_take
    rcases i' with _ | _ | _ | i'
    · cases he'; cases hins
    · omega
    · cases he'; cases hins
    · omega
  have hempty : ∀ {k}, ((store Backend.plain).run (reissue.take k)).rows.rows = [] → ∀ subject,
      Cleared subject ((store Backend.plain).run (reissue.take k)).rows := by
    intro k hk subject k' r hr
    have := Table.mem_of_get? hr
    rw [hk] at this
    cases this
  rcases i with _ | _ | _ | _ | i
  · cases he; intro c q row hins; cases hins.1
  · cases he
    intro c q row _
    refine ⟨hempty (by decide +kernel) _, fun a _ c' q' row' a' i' h _ => ?_⟩
    rw [hearly h (by omega)]
    omega
  · cases he; intro c q row hins; cases hins.1
  · cases he
    intro c q row _
    refine ⟨hempty (by decide +kernel) _, fun a _ c' q' row' a' i' h _ => ?_⟩
    rw [hearly h (by omega)]
    omega
  · cases he

/-- The subject asks twice at once: both calls clear, then both insert. -/
def doubleIssue : List Event :=
  [.issueClear 0 "u" 3600000000000 0 0 (some (.fill 32 2)),
    .issueClear 1 "u" 3600000000000 0 0 (some (.fill 32 4)), .issueInsert 0 (some (.fill 16 1)),
    .issueInsert 1 (some (.fill 16 3))]

/-- Two links of one subject are armed with no issue in flight. -/
theorem doubleIssue_arms_two : (doubleIssue.filterMap Event.drawnId).Nodup ∧
    (doubleIssue.filterMap Event.drawnSecret).Nodup ∧ ¬ OneArmed Backend.plain doubleIssue := by
  refine ⟨by decide, by decide, fun h => ?_⟩
  have hidle : ∀ c q, ((store Backend.plain).run doubleIssue).calls c = some (.issuing q) →
      q.subject ≠ "u" := by
    intro c q hc
    have hcalls : ((store Backend.plain).run doubleIssue).calls =
        Function.update (Function.update (Function.update (Function.update (fun _ => none)
          0 (some (.issuing ⟨"u", .fill 32 2, 3600000000000, 0, 8⟩)))
          1 (some (.issuing ⟨"u", .fill 32 4, 3600000000000, 0, 8⟩))) 0 none) 1 none := by rfl
    rw [hcalls] at hc
    simp only [Function.update_apply] at hc
    split_ifs at hc
  have := h.1 "u" hidle 1 (.fill 16 1) (.fill 16 3) _ _ rfl rfl rfl rfl (by decide) (by decide)
  exact absurd (congrArg ResetRow.id this) (by decide)

end Arcature.Auth.Reset
