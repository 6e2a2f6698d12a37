import Arcature.Lib.Machine
import Arcature.Lib.Table

/-! Records that belong to a subject: a keyed table with a text column that names whose a row is, and
    the statements a store runs on it.

    A text column keeps what it is given or a part of it, and has its own notion of equal, so the
    subject a row was issued for may be neither the one it holds nor the only one that reaches it. The
    history variable `issued` remembers the subject each record was inserted with; no statement reads
    it.

        WHERE scope-column = ? AND p        scope: a bound subject, or none
        column.same row-subject bound ∧ p -/

namespace Arcature.Lib

/-- What a text column keeps of a bound value, and which stored values it takes for a bound one. -/
structure TextColumn where
  keep : String → String
  same : String → String → Bool

namespace TextColumn

/-- A column that keeps everything and compares character by character. -/
def exact : TextColumn := ⟨id, fun a b => a = b⟩

/-- The column keeps these values whole and apart. -/
def Distinguishes (C : TextColumn) (U : Set String) : Prop :=
  (∀ s ∈ U, C.keep s = s) ∧ ∀ s ∈ U, ∀ s' ∈ U, C.same s s' = true → s = s'

theorem exact_distinguishes (U : Set String) : exact.Distinguishes U :=
  ⟨fun _ _ => rfl, fun _ _ _ _ h => of_decide_eq_true h⟩

end TextColumn

/-- Rows with a key and a subject. -/
structure Owned (ρ κ : Type*) where
  key : ρ → κ
  subject : ρ → String
  withSubject : String → ρ → ρ
  key_withSubject : ∀ s r, key (withSubject s r) = key r
  subject_withSubject : ∀ s r, subject (withSubject s r) = s

namespace Owned

variable {ρ κ : Type*} (O : Owned ρ κ)

/-- The key is the primary key. -/
abbrev schema : Schema ρ κ := ⟨O.key, fun _ => true⟩

/-- A `SET` list that changes neither key nor subject. -/
structure SetList where
  fn : ρ → ρ
  key : ∀ r, O.key (fn r) = O.key r
  subject : ∀ r, O.subject (fn r) = O.subject r

variable {O} in
/-- As a `SET` list of the table. -/
def SetList.safe (f : O.SetList) : SafeSetList O.schema := ⟨⟨f.fn, f.key⟩, fun _ h => h⟩

/-- A statement: the subject its `WHERE` binds, if any, and the rest of the condition. -/
inductive Stmt where
  /-- An insert that leaves the table alone if the key is taken. -/
  | insert (row : ρ)
  /-- A read; `echo` reports the rows under the bound subject in place of their own. -/
  | select (scope : Option String) (p : ρ → Bool) (echo : Bool)
  | update (scope : Option String) (p : ρ → Bool) (set : O.SetList)
  | delete (scope : Option String) (p : ρ → Bool)

namespace Stmt

variable {O}

/-- The subject a statement is run for. -/
def scope : O.Stmt → Option String
  | .insert _ => none
  | .select s _ _ | .update s _ _ | .delete s _ => s

/-- Every subject a statement binds. -/
def subjects : O.Stmt → List String
  | .insert row => [O.subject row]
  | st => st.scope.toList

end Stmt

variable (C : TextColumn)

/-- The `WHERE` clause. -/
def meets (scope : Option String) (p : ρ → Bool) (r : ρ) : Bool :=
  scope.all (C.same (O.subject r)) && p r

/-- The row as the column keeps its subject. -/
def kept (row : ρ) : ρ := O.withSubject (C.keep (O.subject row)) row

variable [DecidableEq κ]

/-- The rows a statement reads or changes. -/
def matched (t : Table O.schema) : O.Stmt → List ρ
  | .insert _ => []
  | .select scope p _ | .update scope p _ | .delete scope p => t.rows.filter (O.meets C scope p)

/-- The records a statement hands back, each with the subject it is reported under. -/
def reported (t : Table O.schema) : O.Stmt → List (κ × String)
  | .select scope p echo =>
    (t.rows.filter (O.meets C scope p)).map fun r =>
      (O.key r, if echo then scope.getD (O.subject r) else O.subject r)
  | _ => []

/-- The table after a statement. -/
def exec (t : Table O.schema) : O.Stmt → Table O.schema
  | .insert row => (t.insert? (O.kept C row)).getD t
  | .select _ _ _ => t
  | .update scope p set => t.modify (O.meets C scope p) set.safe
  | .delete scope p => t.delete (O.meets C scope p)

/-- The table, and for whom each record was issued. -/
structure State where
  rows : Table O.schema
  issued : κ → Option String

/-- Run a statement and keep the history. -/
def step (s : O.State) (st : O.Stmt) : O.State where
  rows := O.exec C s.rows st
  issued :=
    match st with
    | .insert row =>
      if s.rows.get? (O.key row) = none then Function.update s.issued (O.key row) (some (O.subject row))
      else s.issued
    | _ => s.issued

/-- The store from an empty table. -/
def machine : Machine O.State O.Stmt (List (κ × String)) :=
  ⟨⟨Table.empty, fun _ => none⟩, fun s st => (O.step C s st, O.reported C s.rows st)⟩

/-! ### What a statement does to the table -/

variable {O C}

omit [DecidableEq κ] in
theorem key_kept (row : ρ) : O.key (O.kept C row) = O.key row := O.key_withSubject _ _

theorem get?_exec_insert (t : Table O.schema) (row : ρ) (k : κ) :
    (O.exec C t (.insert row)).get? k =
      if k = O.key row ∧ t.get? (O.key row) = none then some (O.kept C row) else t.get? k := by
  rw [exec]
  cases h : t.insert? (O.kept C row) with
  | none =>
    rcases Table.insert?_eq_none.mp h with ⟨r', hr'⟩ | hc
    · change t.get? (O.key (O.kept C row)) = some r' at hr'
      rw [key_kept] at hr'
      simp [hr']
    · cases hc
  | some t' =>
    have hfree : t.get? (O.key row) = none := (congrArg t.get? (key_kept row)).symm.trans (Table.free_of_insert? h)
    simp [Table.get?_insert? h, key_kept, hfree]

/-- Where a column keeps subjects apart, a deletion for a subject takes the rows of just that one. -/
theorem exec_exact_delete (t : Table O.schema) (subject : String) :
    O.exec .exact t (.delete (some subject) fun _ => true) = t.delete fun r => O.subject r = subject := by
  refine congrArg t.delete (funext fun r => ?_)
  simp [meets, TextColumn.exact]

/-- A row outside the condition stays. -/
theorem get?_exec_of_notMatched {t : Table O.schema} {st : O.Stmt} {k : κ} {r : ρ}
    (hr : t.get? k = some r) (h : r ∉ O.matched C t st) : (O.exec C t st).get? k = some r := by
  have hmem := Table.mem_of_get? hr
  cases st with
  | insert row =>
    rw [get?_exec_insert, if_neg, hr]
    rintro ⟨rfl, hnone⟩
    rw [hr] at hnone
    cases hnone
  | select scope p echo => exact hr
  | update scope p set =>
    have hp : O.meets C scope p r = false := by
      simpa [matched, hmem] using h
    rw [exec, Table.get?_modify, hr]
    simp [hp]
  | delete scope p =>
    have hp : O.meets C scope p r = false := by
      simpa [matched, hmem] using h
    rw [exec, Table.get?_delete, hr]
    simp [hp]

/-- What a row read after a statement was before it: the row inserted, or the row there, perhaps
    rewritten. -/
theorem get?_exec_cases {t : Table O.schema} {st : O.Stmt} {k : κ} {r : ρ}
    (h : (O.exec C t st).get? k = some r) :
    (∃ row, st = .insert row ∧ k = O.key row ∧ t.get? k = none ∧ r = O.kept C row) ∨
      ∃ r', t.get? k = some r' ∧ O.subject r = O.subject r' := by
  cases st with
  | insert row =>
    rw [get?_exec_insert] at h
    split_ifs at h with hfree
    · obtain ⟨rfl, hnone⟩ := hfree
      exact .inl ⟨row, rfl, rfl, hnone, (Option.some.inj h).symm⟩
    · exact .inr ⟨r, h, rfl⟩
  | select scope p echo => exact .inr ⟨r, h, rfl⟩
  | update scope p set =>
    rw [exec, Table.get?_modify] at h
    obtain ⟨r', hr', rfl⟩ := Option.map_eq_some_iff.mp h
    refine .inr ⟨r', hr', ?_⟩
    split_ifs
    · exact set.subject r'
    · rfl
  | delete scope p =>
    rw [exec, Table.get?_delete] at h
    exact .inr ⟨r, (Option.filter_eq_some_iff.mp h).1, rfl⟩

/-! ### Subjects kept apart -/

variable (O C)

/-- A statement met in a state serves the subjects apart: what is stored and what is reported carries
    the subject it was issued for, and a statement run for one subject reads and changes no record of
    another. -/
structure Apart (s : O.State) (st : O.Stmt) : Prop where
  stored : ∀ k r, s.rows.get? k = some r → s.issued k = some (O.subject r)
  reported : ∀ k x, (k, x) ∈ O.reported C s.rows st → s.issued k = some x
  separate : ∀ x, st.scope = some x → ∀ k r y, s.rows.get? k = some r → s.issued k = some y → y ≠ x →
    r ∉ O.matched C s.rows st ∧ (O.exec C s.rows st).get? k = some r

/-- A store, given by its statements, serves the subjects of `U` apart in every run. -/
def KeepsApart {ι : Type*} (sql : ι → O.Stmt) (U : Set String) : Prop :=
  ∀ (es : List ι) (i : ι), (∀ e ∈ es ++ [i], ∀ x ∈ (sql e).subjects, x ∈ U) →
    O.Apart C ((O.machine C).run (es.map sql)) (sql i)

/-- Every subject can be issued a record, and have all of its records deleted. -/
structure Serves {ι : Type*} (sql : ι → O.Stmt) : Prop where
  inserts : ∀ s, ∃ i row, sql i = .insert row ∧ O.subject row = s
  wipes : ∀ s, ∃ i, sql i = .delete (some s) fun _ => true

/-- The invariant of a run over `U`: each row holds the subject it was issued for, one of `U`. -/
def Sound (U : Set String) (s : O.State) : Prop :=
  ∀ k r, s.rows.get? k = some r → s.issued k = some (O.subject r) ∧ O.subject r ∈ U

variable {O C}

theorem sound_step {U : Set String} (hC : C.Distinguishes U) {s : O.State} (h : O.Sound U s)
    {st : O.Stmt} (hU : ∀ x ∈ st.subjects, x ∈ U) : O.Sound U (O.step C s st) := by
  intro k r hr
  rcases get?_exec_cases hr with ⟨row, rfl, rfl, hnone, rfl⟩ | ⟨r', hr', hsubject⟩
  · have hrow : O.subject row ∈ U := hU _ (by simp [Stmt.subjects])
    have hkept : O.subject (O.kept C row) = O.subject row := by
      rw [kept, O.subject_withSubject, hC.1 _ hrow]
    refine ⟨?_, hkept ▸ hrow⟩
    rw [hkept]
    simp [step, hnone]
  · obtain ⟨hissued, hmem⟩ := h k r' hr'
    rw [hsubject]
    refine ⟨?_, hmem⟩
    -- an insert under this key would have found it taken
    cases st with
    | insert row =>
      simp only [step]
      split_ifs with hfree
      · have hne : k ≠ O.key row := by
          rintro rfl
          rw [hr'] at hfree
          cases hfree
        rw [Function.update_of_ne hne, hissued]
      · exact hissued
    | select | update | delete => exact hissued

theorem sound_run {U : Set String} (hC : C.Distinguishes U) (sts : List O.Stmt)
    (hU : ∀ st ∈ sts, ∀ x ∈ st.subjects, x ∈ U) : O.Sound U ((O.machine C).run sts) := by
  induction sts using List.reverseRecOn with
  | nil => intro k r hr; cases hr
  | append_singleton sts st ih =>
    rw [Machine.run_concat]
    exact sound_step hC (ih fun st' hst' => hU st' (List.mem_append_left _ hst'))
      (hU st (List.mem_append_right _ List.mem_cons_self))

/-- In a sound state a statement over `U` serves the subjects apart. -/
theorem Sound.apart {U : Set String} (hC : C.Distinguishes U) {s : O.State} (h : O.Sound U s)
    {st : O.Stmt} (hU : ∀ x ∈ st.subjects, x ∈ U) : O.Apart C s st := by
  have hown : ∀ {r x p}, r ∈ s.rows.rows → x ∈ U → O.meets C (some x) p r = true →
      O.subject r = x := by
    intro r x p hr hx hmeets
    simp only [meets, Option.all_some, Bool.and_eq_true] at hmeets
    exact hC.2 _ (h _ r (Table.get?_of_mem hr)).2 x hx hmeets.1
  refine ⟨fun k r hr => (h k r hr).1, fun k x hx => ?_, fun x hx k r y hr hy hne => ?_⟩
  · cases st with
    | select scope p echo =>
      obtain ⟨r, hr, hpair⟩ := List.mem_map.mp hx
      obtain ⟨hmem, hmeets⟩ := List.mem_filter.mp hr
      have hissued := (h _ r (Table.get?_of_mem hmem)).1
      obtain ⟨rfl, rfl⟩ := Prod.mk.inj hpair
      rw [hissued]
      cases scope with
      | none => simp
      | some z =>
        have hz := hown hmem (hU z (by simp [Stmt.subjects, Stmt.scope])) hmeets
        simp [hz]
    | insert | update | delete => cases hx
  · have hmem := Table.mem_of_get? hr
    have hout : r ∉ O.matched C s.rows st := by
      intro hmatched
      have hyx : O.subject r ≠ x := by
        rw [(h k r hr).1] at hy
        rwa [Option.some.inj hy]
      cases st with
      | insert row => cases hmatched
      | select scope p _ | update scope p _ | delete scope p =>
        obtain rfl : scope = some x := hx
        exact hyx (hown hmem (hU x (by simp [Stmt.subjects, Stmt.scope]))
          (List.mem_filter.mp hmatched).2)
    exact ⟨hout, get?_exec_of_notMatched hr hout⟩

theorem keepsApart_of_distinguishes {ι : Type*} {sql : ι → O.Stmt} {U : Set String}
    (hC : C.Distinguishes U) : O.KeepsApart C sql U := by
  intro es i hU
  refine Sound.apart hC (sound_run hC _ ?_) (hU i (by simp))
  rintro st hst x hx
  obtain ⟨e, he, rfl⟩ := List.mem_map.mp hst
  exact hU e (List.mem_append_left _ he) x hx

/-- The first record of a store. -/
theorem run_insert (row : ρ) : ((O.machine C).run [.insert row]).rows.get? (O.key row) = some (O.kept C row) ∧
    ((O.machine C).run [.insert row]).issued (O.key row) = some (O.subject row) := by
  constructor
  · change (O.exec C Table.empty (.insert row)).get? (O.key row) = _
    rw [get?_exec_insert]
    simp
  · change (O.step C ⟨Table.empty, fun _ => none⟩ (.insert row)).issued (O.key row) = _
    simp [step]

/-- Over the column, the stores that serve the subjects of `U` apart are those whose column tells them
    apart. -/
theorem keepsApart_iff {ι : Type*} {sql : ι → O.Stmt} (hsql : O.Serves sql) {U : Set String} :
    O.KeepsApart C sql U ↔ C.Distinguishes U := by
  refine ⟨fun h => ?_, keepsApart_of_distinguishes⟩
  have hkeep : ∀ s ∈ U, C.keep s = s := by
    intro s hs
    obtain ⟨i, row, hi, rfl⟩ := hsql.inserts s
    obtain ⟨hrow, hissued⟩ := run_insert (O := O) (C := C) row
    have hover : ∀ e ∈ [i] ++ [i], ∀ x ∈ (sql e).subjects, x ∈ U := by
      simp [hi, Stmt.subjects, hs]
    have hstored := (h [i] i hover).stored
    rw [List.map_singleton, hi] at hstored
    have heq := Option.some.inj (hissued.symm.trans (hstored _ _ hrow))
    rw [kept, O.subject_withSubject] at heq
    exact heq.symm
  refine ⟨hkeep, fun s hs s' hs' hsame => ?_⟩
  -- a record of `s`, and every record of `s'` deleted
  obtain ⟨i, row, hi, rfl⟩ := hsql.inserts s
  obtain ⟨j, hj⟩ := hsql.wipes s'
  obtain ⟨hrow, hissued⟩ := run_insert (O := O) (C := C) row
  have hover : ∀ e ∈ [i] ++ [j], ∀ x ∈ (sql e).subjects, x ∈ U := by
    simp [hi, hj, Stmt.subjects, Stmt.scope, hs, hs']
  have hapart := (h [i] j hover).separate s' (by rw [hj]; rfl)
  rw [List.map_singleton, hi, hj] at hapart
  by_contra hne
  refine (hapart _ _ _ hrow hissued hne).1 (List.mem_filter.mpr ⟨Table.mem_of_get? hrow, ?_⟩)
  simp [meets, kept, O.subject_withSubject, hkeep _ hs, hsame]

end Owned

end Arcature.Lib
