import Mathlib.Data.List.Induction
import Mathlib.Tactic

/-! Runs of a deterministic machine under an arbitrary schedule.

    A machine has an initial state and a total `step`. A schedule is a list of events: the order in
    which any number of parties got their atomic steps in. An event that is not enabled leaves the
    state alone, so quantifying over all schedules quantifies over all interleavings. What happened
    at position `i` of a schedule is asked with `Fires`; `Since` is the past-time operator "A, and
    no B from then on", with the one-step unfolding that lets an invariant follow it. -/

namespace Arcature.Lib

/-- A deterministic machine with outputs. -/
structure Machine (σ ε ω : Type*) where
  init : σ
  step : σ → ε → σ × ω

namespace Machine

variable {σ ε ω : Type*} (m : Machine σ ε ω)

/-- The state after one event. -/
def next (s : σ) (e : ε) : σ := (m.step s e).1

/-- What one event answers. -/
def out (s : σ) (e : ε) : ω := (m.step s e).2

/-- The state after a schedule. -/
def run (es : List ε) : σ := es.foldl m.next m.init

@[simp] theorem run_nil : m.run [] = m.init := rfl

@[simp] theorem run_concat (es : List ε) (e : ε) : m.run (es ++ [e]) = m.next (m.run es) e := by
  simp [run]

/-- The events of a schedule paired with what each answered, from a given state. -/
def traceFrom (s : σ) : List ε → List (ε × ω)
  | [] => []
  | e :: es => (e, m.out s e) :: traceFrom (m.next s e) es

/-- The events of a schedule paired with what each answered. -/
def trace (es : List ε) : List (ε × ω) := m.traceFrom m.init es

theorem traceFrom_append (s : σ) (es fs : List ε) :
    m.traceFrom s (es ++ fs) = m.traceFrom s es ++ m.traceFrom (es.foldl m.next s) fs := by
  induction es generalizing s with
  | nil => rfl
  | cons e es ih => rw [List.cons_append, traceFrom, traceFrom, ih]; rfl

theorem trace_concat (es : List ε) (e : ε) :
    m.trace (es ++ [e]) = m.trace es ++ [(e, m.out (m.run es) e)] :=
  m.traceFrom_append m.init es [e]

/-- What the trace shows at a position: the event there and its answer from the run before it. -/
theorem getElem?_trace (es : List ε) (i : ℕ) :
    (m.trace es)[i]? = es[i]?.map fun e => (e, m.out (m.run (es.take i)) e) := by
  induction es using List.reverseRecOn with
  | nil => rfl
  | append_singleton es e ih =>
    have hlen : ∀ (s : σ) (fs : List ε), (m.traceFrom s fs).length = fs.length := by
      intro s fs
      induction fs generalizing s with
      | nil => rfl
      | cons f fs ih => simp [traceFrom, ih]
    rw [trace_concat]
    rcases lt_trichotomy i es.length with hi | rfl | hi
    · rw [List.getElem?_append_left (by rw [trace, hlen]; exact hi), ih,
        List.getElem?_append_left hi, List.take_append_of_le_length hi.le]
    · rw [List.getElem?_append_right (by rw [trace, hlen])]
      simp [trace, hlen]
    · rw [List.getElem?_eq_none (by simp [trace, hlen]; omega),
        List.getElem?_eq_none (by simp; omega), Option.map_none]

/-- The event at position `i`, met in the state the schedule had reached there, satisfies `P`. -/
def Fires (es : List ε) (i : ℕ) (P : σ → ε → Prop) : Prop :=
  ∃ e, es[i]? = some e ∧ P (m.run (es.take i)) e

variable {m}

theorem Fires.lt {es : List ε} {i : ℕ} {P : σ → ε → Prop} (h : m.Fires es i P) : i < es.length := by
  obtain ⟨e, he, _⟩ := h
  exact (List.getElem?_eq_some_iff.mp he).1

theorem Fires.imp {es : List ε} {i : ℕ} {P Q : σ → ε → Prop} (h : m.Fires es i P)
    (hPQ : ∀ s e, P s e → Q s e) : m.Fires es i Q := by
  obtain ⟨e, he, hP⟩ := h
  exact ⟨e, he, hPQ _ _ hP⟩

theorem fires_append {es fs : List ε} {i : ℕ} {P : σ → ε → Prop} (hi : i < es.length) :
    m.Fires (es ++ fs) i P ↔ m.Fires es i P := by
  unfold Fires
  rw [List.getElem?_append_left hi, List.take_append_of_le_length hi.le]

@[simp] theorem fires_last {es : List ε} {e : ε} {P : σ → ε → Prop} :
    m.Fires (es ++ [e]) es.length P ↔ P (m.run es) e := by
  simp [Fires]

theorem fires_concat {es : List ε} {e : ε} {i : ℕ} {P : σ → ε → Prop} :
    m.Fires (es ++ [e]) i P ↔ m.Fires es i P ∨ (i = es.length ∧ P (m.run es) e) := by
  rcases lt_trichotomy i es.length with hi | rfl | hi
  · rw [fires_append hi]
    exact ⟨Or.inl, fun h => h.resolve_right (fun hc => absurd hc.1 hi.ne)⟩
  · rw [fires_last]
    exact ⟨fun h => Or.inr ⟨rfl, h⟩,
      fun h => h.elim (fun hf => absurd hf.lt (lt_irrefl _)) And.right⟩
  · refine ⟨fun h => absurd h.lt (by simp; omega), ?_⟩
    rintro (h | ⟨rfl, _⟩)
    · exact absurd h.lt (by omega)
    · exact absurd hi (lt_irrefl _)

theorem not_fires_nil {i : ℕ} {P : σ → ε → Prop} : ¬ m.Fires [] i P := fun h => by
  simpa using h.lt

/-- A prefix of a schedule, taken up to a position, fires what the schedule fires there. -/
theorem fires_take {es : List ε} {i k : ℕ} {P : σ → ε → Prop} (hik : i < k) :
    m.Fires (es.take k) i P ↔ m.Fires es i P := by
  unfold Fires
  rw [List.getElem?_take_of_lt hik, List.take_take, min_eq_left hik.le]

theorem run_take_succ {es : List ε} {i : ℕ} {e : ε} (h : es[i]? = some e) :
    m.run (es.take (i + 1)) = m.next (m.run (es.take i)) e := by
  obtain ⟨hi, rfl⟩ := List.getElem?_eq_some_iff.mp h
  rw [List.take_succ_eq_append_getElem hi, run_concat]

/-- What fires in a prefix fires in the schedule, before the cut. -/
theorem Fires.of_take {es : List ε} {i k : ℕ} {P : σ → ε → Prop} (h : m.Fires (es.take k) i P) :
    i < k ∧ m.Fires es i P := by
  have hik : i < k := by
    have := h.lt
    rw [List.length_take] at this
    omega
  exact ⟨hik, (fires_take hik).mp h⟩

/-- Where the values drawn along a schedule are distinct, a value names the event that drew it. -/
theorem eq_of_drawn {τ : Type*} {f : ε → Option τ} {es : List ε} (hn : (es.filterMap f).Nodup)
    {i j : ℕ} {e e' : ε} {x : τ} (hi : es[i]? = some e) (hj : es[j]? = some e') (he : f e = some x)
    (he' : f e' = some x) : i = j := by
  rw [List.Nodup, List.pairwise_filterMap, List.pairwise_iff_getElem] at hn
  obtain ⟨hilt, rfl⟩ := List.getElem?_eq_some_iff.mp hi
  obtain ⟨hjlt, rfl⟩ := List.getElem?_eq_some_iff.mp hj
  rcases lt_trichotomy i j with h | h | h
  · exact absurd rfl (hn i j hilt hjlt h x he x he')
  · exact h
  · exact absurd rfl (hn j i hjlt hilt h x he' x he)

/-! ### Invariants -/

/-- Invariant rule: a property of states that holds at the start and survives every step. -/
theorem inv {I : σ → Prop} (h0 : I m.init) (hs : ∀ s e, I s → I (m.next s e)) (es : List ε) :
    I (m.run es) := by
  induction es using List.reverseRecOn with
  | nil => exact h0
  | append_singleton es e ih => rw [run_concat]; exact hs _ _ ih

/-- Invariant rule with the history: `I` may speak of the schedule so far, and the step may use an
    assumption `A` on each event that the schedule is known to meet. -/
theorem inv_hist {I : List ε → σ → Prop} {A : List ε → ε → Prop} (h0 : I [] m.init)
    (hs : ∀ es e, A es e → I es (m.run es) → I (es ++ [e]) (m.next (m.run es) e))
    (es : List ε) (hA : ∀ i e, es[i]? = some e → A (es.take i) e) : I es (m.run es) := by
  induction es using List.reverseRecOn with
  | nil => exact h0
  | append_singleton es e ih =>
    rw [run_concat]
    refine hs es e ?_ (ih ?_)
    · simpa using hA es.length e (by simp)
    · intro i e' he'
      have hi : i < es.length := (List.getElem?_eq_some_iff.mp he').1
      have := hA i e' (by rw [List.getElem?_append_left hi]; exact he')
      rwa [List.take_append_of_le_length hi.le] at this

/-- What relates each state to the next relates the states at any two positions of a schedule. -/
theorem rel_take {R : σ → σ → Prop} (hrefl : ∀ s, R s s) (htrans : ∀ {a b c}, R a b → R b c → R a c)
    (hs : ∀ s e, R s (m.next s e)) (es : List ε) {i j : ℕ} (hij : i ≤ j) :
    R (m.run (es.take i)) (m.run (es.take j)) := by
  induction j, hij using Nat.le_induction with
  | base => exact hrefl _
  | succ j _ ih =>
    rcases lt_or_ge j es.length with hj | hj
    · rw [List.take_succ_eq_append_getElem hj, run_concat]
      exact htrans ih (hs _ _)
    · have hend : es.take (j + 1) = es.take j := by
        rw [List.take_of_length_le hj, List.take_of_length_le (by omega)]
      rw [hend]
      exact ih

/-- A condition met by each event of a schedule, given the events before it, is met along each of
    its prefixes. -/
theorem met_take {ε : Type*} {A : List ε → ε → Prop} {es : List ε}
    (h : ∀ i e, es[i]? = some e → A (es.take i) e) (k i : ℕ) (e : ε)
    (he : (es.take k)[i]? = some e) : A ((es.take k).take i) e := by
  have hik : i < k := by
    have := (List.getElem?_eq_some_iff.mp he).1
    rw [List.length_take] at this
    omega
  rw [List.getElem?_take_of_lt hik] at he
  rw [List.take_take, min_eq_left hik.le]
  exact h i e he

/-- Simulation rule: where a relation between two machines holds at the start, survives every step
    and makes them answer alike, they leave the same trace. The relation may speak of the schedule
    so far, and step and answer may use an assumption `A` that the schedule is known to meet. -/
theorem trace_eq_of_sim {σ' : Type*} {m' : Machine σ' ε ω} {R : List ε → σ → σ' → Prop}
    {A : List ε → ε → Prop} (h0 : R [] m.init m'.init)
    (hs : ∀ es e, A es e → R es (m.run es) (m'.run es) →
      m.out (m.run es) e = m'.out (m'.run es) e ∧
        R (es ++ [e]) (m.next (m.run es) e) (m'.next (m'.run es) e))
    (es : List ε) (hA : ∀ i e, es[i]? = some e → A (es.take i) e) : m.trace es = m'.trace es := by
  have hboth : R es (m.run es) (m'.run es) ∧ m.trace es = m'.trace es := by
    induction es using List.reverseRecOn with
    | nil => exact ⟨h0, rfl⟩
    | append_singleton es e ih =>
      have hhead := met_take hA es.length
      rw [List.take_left] at hhead
      obtain ⟨hR, htrace⟩ := ih hhead
      have hlast : A es e := by simpa using hA es.length e (by simp)
      obtain ⟨hout, hnext⟩ := hs es e hlast hR
      rw [run_concat, run_concat, trace_concat, trace_concat, htrace, hout]
      exact ⟨hnext, rfl⟩
  exact hboth.2

/-- A property that does not hold at `i` and holds later became true at some step in between. -/
theorem crossing {Q : σ → Prop} {es : List ε} {i k : ℕ} (hik : i ≤ k) (hk : k ≤ es.length)
    (hi : ¬ Q (m.run (es.take i))) (hQ : Q (m.run (es.take k))) :
    ∃ j, i ≤ j ∧ j < k ∧ m.Fires es j fun s e => ¬ Q s ∧ Q (m.next s e) := by
  induction k, hik using Nat.le_induction with
  | base => exact absurd hQ hi
  | succ k hik ih =>
    by_cases hQk : Q (m.run (es.take k))
    · obtain ⟨j, hij, hjk, hf⟩ := ih (by omega) hQk
      exact ⟨j, hij, by omega, hf⟩
    · have hlt : k < es.length := by omega
      refine ⟨k, hik, by omega, es[k], List.getElem?_eq_getElem hlt, hQk, ?_⟩
      rwa [List.take_succ_eq_append_getElem hlt, run_concat] at hQ

/-! ### "A, and no B since" -/

variable (m) in
/-- Some event satisfied `A`, and no later one satisfied `B`. -/
def Since (A B : σ → ε → Prop) (es : List ε) : Prop :=
  ∃ i, m.Fires es i A ∧ ∀ j, i < j → ¬ m.Fires es j B

theorem not_since_nil {A B : σ → ε → Prop} : ¬ m.Since A B [] := fun ⟨_, h, _⟩ => not_fires_nil h

/-- One-step unfolding of `Since`. -/
theorem since_concat {A B : σ → ε → Prop} {es : List ε} {e : ε} :
    m.Since A B (es ++ [e]) ↔ A (m.run es) e ∨ (m.Since A B es ∧ ¬ B (m.run es) e) := by
  constructor
  · rintro ⟨i, hA, hB⟩
    rcases fires_concat.mp hA with h | ⟨rfl, h⟩
    · right
      refine ⟨⟨i, h, fun j hj hf => hB j hj (fires_concat.mpr (Or.inl hf))⟩, fun hb => ?_⟩
      exact hB es.length h.lt (fires_last.mpr hb)
    · exact Or.inl h
  · rintro (h | ⟨⟨i, hA, hB⟩, hb⟩)
    · refine ⟨es.length, fires_last.mpr h, fun j hj hf => ?_⟩
      have := hf.lt
      simp at this
      omega
    · refine ⟨i, fires_concat.mpr (Or.inl hA), fun j hj hf => ?_⟩
      rcases fires_concat.mp hf with h | ⟨rfl, h⟩
      · exact hB j hj h
      · exact hb h

/-- A state property that each step turns on exactly at an `A` and keeps exactly without a `B`
    holds, at every point of every run, precisely when there was an `A` with no `B` since. -/
theorem iff_since {Q : σ → Prop} {A B : σ → ε → Prop} (h0 : ¬ Q m.init)
    (hs : ∀ es e, Q (m.next (m.run es) e) ↔ A (m.run es) e ∨ (Q (m.run es) ∧ ¬ B (m.run es) e))
    (es : List ε) : Q (m.run es) ↔ m.Since A B es := by
  induction es using List.reverseRecOn with
  | nil => exact ⟨fun h => absurd h h0, fun h => absurd h not_since_nil⟩
  | append_singleton es e ih => rw [run_concat, hs, since_concat, ih]

end Machine

end Arcature.Lib
