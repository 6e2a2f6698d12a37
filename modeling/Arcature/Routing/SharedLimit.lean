import Arcature.Routing.RateLimit

/-! What clocks that disagree do to the shared limiter.

    Each execution of the script refills by the time since the stored reading, clamped at zero, and
    stores the caller's own reading whether or not it lies in the past. A reading that goes back
    therefore costs nothing by itself, but it moves the stored reading back, and the next reading
    forward refills a stretch of time that was already paid for.

        readings   0 ─▶ 100 ─▶ 0 ─▶ 100 ─▶ 0 ─▶ 100
        refill        100      0     100     0     100     three times the hundred that went by

    What the bucket gains is the total `rise` of the readings; what the clocks show to have gone by
    is their `spread`. The two are equal exactly when every rise starts from the largest reading so
    far, and where they are not, a quota of one request per `rise` is overrun. -/

namespace Arcature.Routing
open Arcature.Lib
open Arcature.Lib.TokenBucket (level allows spend answers allowed)

/-- How many executions of the script returned `allowed = 1`, over a sequence of clock readings. -/
def allowedExecutions (capacity refillPerMs : ℚ) (readings : List ℕ) : ℕ :=
  ((shared capacity refillPerMs).trace readings).countP fun a => a.2.1 = 1

/-- The largest reading less the first. -/
def spread : List ℕ → ℕ
  | [] => 0
  | n :: ns => ns.foldl max n - n

/-- A reading above the one before it follows the largest reading so far. -/
def RisesFromPeak (readings : List ℕ) : Prop :=
  ∀ pre a b post, readings = pre ++ a :: b :: post → a < b → ∀ x ∈ pre, x ≤ a

/-! ### The script as a bucket -/

section Script

variable (q : TokenBucket.Quota ℚ)

/-- A stored hash on the axis of milliseconds. -/
def Shared.view (s : Shared) : TokenBucket.Bucket ℚ := ⟨s.tokens, s.updated⟩

theorem elapsed_eq (now updated : ℕ) :
    (((if (now : ℤ) - updated < 0 then 0 else (now : ℤ) - updated : ℤ)) : ℚ) =
      max 0 ((now : ℚ) - updated) := by
  split_ifs with h
  · have : (now : ℚ) ≤ updated := by exact_mod_cast (by omega : now ≤ updated)
    rw [max_eq_left (by linarith), Int.cast_zero]
  · have : (updated : ℚ) ≤ now := by exact_mod_cast (by omega : updated ≤ now)
    rw [max_eq_right (by linarith)]
    push_cast
    ring

/-- The script reads the level at the caller's reading, spends from it and dates what is left by
    that reading. -/
theorem bucketScript_eq (state : Option Shared) (now : ℕ) :
    (bucketScript q.cap q.rate state now).1.view = spend q (state.map Shared.view) now ∧
    decide ((bucketScript q.cap q.rate state now).2.1 = 1) = allows q (state.map Shared.view) now := by
  have hlevel : ∀ s, s = state.getD ⟨q.cap, now⟩ → min q.cap (s.tokens +
      ((if (now : ℤ) - s.updated < 0 then 0 else (now : ℤ) - s.updated : ℤ) : ℚ) * q.rate) =
        level q (state.map Shared.view) now := by
    rintro s rfl
    rw [elapsed_eq]
    cases state with
    | none => simp [level]
    | some s => exact min_comm _ _
  unfold bucketScript spend allows
  simp only [hlevel _ rfl]
  by_cases h : 1 ≤ level q (state.map Shared.view) now
  · simp [h, Shared.view]
  · simp [h, Shared.view]

theorem shared_traceFrom (ns : List ℕ) : ∀ state : Option Shared,
    ((shared q.cap q.rate).traceFrom state ns).map (fun a => ((a.1 : ℚ), decide (a.2.1 = 1))) =
      answers q (state.map Shared.view) (ns.map (↑)) := by
  induction ns with
  | nil => intro state; rfl
  | cons n ns ih =>
    intro state
    obtain ⟨hview, hallow⟩ := bucketScript_eq q state n
    simp only [Machine.traceFrom, List.map_cons, answers, ← hview, ← hallow, ih]
    rfl

theorem allowedExecutions_eq (readings : List ℕ) :
    allowedExecutions q.cap q.rate readings = allowed q none (readings.map (↑)) := by
  rw [allowedExecutions, allowed, Machine.trace, ← Option.map_none (f := Shared.view),
    ← shared_traceFrom, List.countP_map]
  rfl

end Script

/-! ### What the readings rise in total -/

/-- The total of the steps forward, from a reading on. -/
def rise : ℕ → List ℕ → ℕ
  | _, [] => 0
  | p, n :: ns => n - p + rise n ns

/-- Every step forward starts from the peak, the largest reading so far being `m` and the last `p`. -/
def Climbs : ℕ → ℕ → List ℕ → Prop
  | _, _, [] => True
  | m, p, n :: ns => (p < n → p = m) ∧ Climbs (max m n) n ns

theorem le_foldl_max (m : ℕ) (ns : List ℕ) : m ≤ ns.foldl max m := by
  induction ns generalizing m with
  | nil => exact le_rfl
  | cons n ns ih => exact (le_max_left m n).trans (ih (max m n))

theorem foldl_max_le_rise {m p : ℕ} (hp : p ≤ m) (ns : List ℕ) :
    ns.foldl max m ≤ m + rise p ns := by
  induction ns generalizing m p with
  | nil => simp [rise]
  | cons n ns ih =>
    have := ih (le_max_right m n)
    simp only [List.foldl_cons, rise]
    omega

/-- The steps forward add up to the gain of the peak exactly when each starts from the peak. -/
theorem rise_eq_iff {m p : ℕ} (hp : p ≤ m) (ns : List ℕ) :
    m + rise p ns = ns.foldl max m ↔ Climbs m p ns := by
  induction ns generalizing m p with
  | nil => simp [rise, Climbs]
  | cons n ns ih =>
    have hle := foldl_max_le_rise (le_max_right m n) ns
    rw [List.foldl_cons, rise, Climbs, ← ih (le_max_right m n)]
    constructor
    · intro h
      exact ⟨fun hpn => by omega, by omega⟩
    · rintro ⟨hpeak, hrest⟩
      rw [← hrest]
      rcases lt_or_ge p n with hpn | hnp
      · have := hpeak hpn
        omega
      · omega

theorem climbs_iff {m p : ℕ} (hp : p ≤ m) (ns : List ℕ) :
    Climbs m p ns ↔ ∀ pre a b post, p :: ns = pre ++ a :: b :: post → a < b →
      m ≤ a ∧ ∀ x ∈ pre, x ≤ a := by
  induction ns generalizing m p with
  | nil =>
    refine ⟨fun _ pre a b post h => ?_, fun _ => trivial⟩
    have := congrArg List.length h
    simp at this
    omega
  | cons n ns ih =>
    rw [Climbs, ih (le_max_right m n)]
    constructor
    · rintro ⟨hpeak, hrest⟩ pre a b post h hab
      cases pre with
      | nil =>
        simp only [List.nil_append, List.cons.injEq] at h
        obtain ⟨rfl, rfl, -⟩ := h
        exact ⟨(hpeak hab).ge, by simp⟩
      | cons y pre =>
        simp only [List.cons_append, List.cons.injEq] at h
        obtain ⟨rfl, h⟩ := h
        obtain ⟨hm, hpre⟩ := hrest pre a b post h hab
        have hma : m ≤ a := (le_max_left m n).trans hm
        refine ⟨hma, fun x hx => ?_⟩
        rcases List.mem_cons.mp hx with rfl | hx
        · exact hp.trans hma
        · exact hpre x hx
    · intro h
      refine ⟨fun hpn => le_antisymm hp (h [] p n ns rfl hpn).1, ?_⟩
      intro pre a b post hsplit hab
      obtain ⟨hma, hpre⟩ := h (p :: pre) a b post (by rw [hsplit]; rfl) hab
      refine ⟨max_le hma ?_, fun x hx => hpre x (List.mem_cons_of_mem p hx)⟩
      -- the reading after `p` is either the one the rise starts from or lies before it
      cases pre with
      | nil =>
        simp only [List.nil_append, List.cons.injEq] at hsplit
        exact hsplit.1.le
      | cons y pre =>
        simp only [List.cons_append, List.cons.injEq] at hsplit
        exact hpre n (by simp [hsplit.1])

theorem risesFromPeak_iff (n : ℕ) (ns : List ℕ) :
    RisesFromPeak (n :: ns) ↔ rise n ns = spread (n :: ns) := by
  have hpeak := le_foldl_max n ns
  have heq : rise n ns = spread (n :: ns) ↔ n + rise n ns = ns.foldl max n := by
    rw [show spread (n :: ns) = ns.foldl max n - n from rfl]
    omega
  rw [heq, rise_eq_iff le_rfl, climbs_iff le_rfl]
  constructor
  · intro h pre a b post hsplit hab
    refine ⟨?_, h pre a b post hsplit hab⟩
    cases pre with
    | nil =>
      simp only [List.nil_append, List.cons.injEq] at hsplit
      exact hsplit.1.le
    | cons y pre =>
      simp only [List.cons_append, List.cons.injEq] at hsplit
      exact h (y :: pre) a b post (by rw [hsplit.1, hsplit.2]; rfl) hab n (by simp [hsplit.1])
  · intro h pre a b post hsplit hab
    exact (h pre a b post hsplit hab).2

/-! ### What the bucket grants -/

section Grants

variable {q : TokenBucket.Quota ℚ}

theorem level_some (x : ℚ) (p n : ℕ) :
    level q (some ⟨x, (p : ℚ)⟩) n = min (x + ((n - p : ℕ) : ℚ) * q.rate) q.cap := by
  have : ((n - p : ℕ) : ℚ) = max 0 ((n : ℚ) - p) := by
    rcases le_total p n with h | h
    · have hq : (p : ℚ) ≤ n := by exact_mod_cast h
      rw [Nat.cast_sub h, max_eq_right (by linarith)]
    · have hq : (n : ℚ) ≤ p := by exact_mod_cast h
      rw [Nat.sub_eq_zero_of_le h, max_eq_left (by linarith), Nat.cast_zero]
  rw [this]
  rfl

/-- No more is granted than was in the bucket and than the readings rose. -/
theorem allowed_le_rise {x : ℚ} (hx : 0 ≤ x) (p : ℕ) (ns : List ℕ) :
    (allowed q (some ⟨x, (p : ℚ)⟩) (ns.map (↑)) : ℚ) ≤ x + q.rate * rise p ns := by
  induction ns generalizing x p with
  | nil => simpa [allowed, answers, rise] using hx
  | cons n ns ih =>
    have hlevel : level q (some ⟨x, (p : ℚ)⟩) n ≤ x + ((n - p : ℕ) : ℚ) * q.rate := by
      rw [level_some]
      exact min_le_left _ _
    have hnonneg : 0 ≤ level q (some ⟨x, (p : ℚ)⟩) n := by
      rw [level_some]
      have : (0 : ℚ) ≤ ((n - p : ℕ) : ℚ) * q.rate := mul_nonneg (Nat.cast_nonneg _) q.rate_nonneg
      exact le_min (by linarith) q.cap_nonneg
    rw [List.map_cons, TokenBucket.allowed_cons, rise]
    push_cast
    unfold spend allows
    by_cases h : 1 ≤ level q (some ⟨x, (p : ℚ)⟩) n
    · have := ih (x := level q (some ⟨x, (p : ℚ)⟩) n - 1) (by linarith) n
      simp only [h, decide_true, if_true]
      linarith
    · have := ih hnonneg n
      simp only [h, decide_false, Bool.false_eq_true, if_false]
      linarith

/-- Once what was in the bucket and what the readings rise come to a token, one is granted. -/
theorem allowed_pos_of_rise (hcap : 1 ≤ q.cap) {x : ℚ} (hx : x < 1) (p : ℕ) (ns : List ℕ)
    (h : 1 ≤ x + q.rate * rise p ns) : 1 ≤ allowed q (some ⟨x, (p : ℚ)⟩) (ns.map (↑)) := by
  induction ns generalizing x p with
  | nil => exact absurd h (by simpa [rise] using hx)
  | cons n ns ih =>
    rw [List.map_cons, TokenBucket.allowed_cons]
    by_cases hn : 1 ≤ level q (some ⟨x, (p : ℚ)⟩) n
    · simp [allows, hn]
    · -- short of a token the capacity does not bind, so all of the rise so far is in the bucket
      have hlt := not_le.mp hn
      have hlevel : level q (some ⟨x, (p : ℚ)⟩) n = x + ((n - p : ℕ) : ℚ) * q.rate := by
        rw [level_some] at hlt ⊢
        have := (min_lt_iff.mp hlt).resolve_right (not_lt.mpr hcap)
        exact min_eq_left (this.le.trans hcap)
      have hrest : 1 ≤ level q (some ⟨x, (p : ℚ)⟩) n + q.rate * rise n ns := by
        rw [hlevel]
        rw [rise] at h
        push_cast at h
        linarith
      have := ih hlt n hrest
      simp only [spend, allows, hn, decide_false, Bool.false_eq_true, if_false]
      omega

end Grants

/-! ### The bound and when it holds -/

theorem allowed_le_of_rise (q : TokenBucket.Quota ℚ) (n : ℕ) (ns : List ℕ) :
    (allowed q none ((n :: ns).map (↑)) : ℚ) ≤ q.cap + q.rate * rise n ns := by
  have hlevel : level q none (n : ℚ) = level q (some ⟨q.cap, (n : ℚ)⟩) n :=
    (TokenBucket.level_counted le_rfl).symm
  have := allowed_le_rise (q := q) q.cap_nonneg n (n :: ns)
  rw [rise, Nat.sub_self, zero_add] at this
  rwa [List.map_cons, TokenBucket.allowed_cons, TokenBucket.spend_congr hlevel,
    TokenBucket.allows_congr hlevel, ← TokenBucket.allowed_cons, ← List.map_cons]

/-- One request per `rise`: the first reading is granted its one, and the rise grants another. -/
theorem two_allowed_per_rise (n : ℕ) (ns : List ℕ) (h : 0 < rise n ns) :
    2 ≤ allowedExecutions 1 (1 / rise n ns) (n :: ns) := by
  have hpos : (0 : ℚ) < rise n ns := by exact_mod_cast h
  let q : TokenBucket.Quota ℚ := ⟨1, 1 / rise n ns, zero_le_one, (one_div_pos.mpr hpos).le⟩
  have hfirst : allows q none (n : ℚ) = true := by simp [allows, level, q]
  have hspend : spend q none (n : ℚ) = ⟨0, n⟩ := by simp [spend, allows, level, q]
  have hrest : 1 ≤ allowed q (some ⟨0, (n : ℚ)⟩) (ns.map (↑)) := by
    refine allowed_pos_of_rise le_rfl zero_lt_one n ns ?_
    rw [zero_add, one_div_mul_cancel hpos.ne']
  have heq := allowedExecutions_eq q (n :: ns)
  rw [List.map_cons, TokenBucket.allowed_cons, hspend] at heq
  simp only [hfirst, if_true] at heq
  change allowedExecutions 1 (1 / rise n ns) (n :: ns) = _ at heq
  omega

/-- For every sequence of readings, the executions allowed stay within the capacity and the refill
    of the time the clocks show, whatever the capacity and the rate, exactly when no reading rises
    from behind the peak. -/
theorem skew_grants_nothing_iff (readings : List ℕ) :
    (∀ capacity refillPerMs : ℚ, 0 ≤ capacity → 0 ≤ refillPerMs →
      (allowedExecutions capacity refillPerMs readings : ℚ) ≤
        capacity + refillPerMs * spread readings) ↔ RisesFromPeak readings := by
  cases readings with
  | nil =>
    refine ⟨fun _ pre a b post h => ?_, fun _ c r hc _ => ?_⟩
    · simp at h
    · simpa [allowedExecutions, Machine.trace, Machine.traceFrom, spread] using hc
  | cons n ns =>
    rw [risesFromPeak_iff]
    constructor
    · intro h
      by_contra hne
      have hspread : spread (n :: ns) < rise n ns := by
        have := foldl_max_le_rise (le_refl n) ns
        have : spread (n :: ns) = ns.foldl max n - n := rfl
        omega
      have hpos : (0 : ℚ) < rise n ns := by exact_mod_cast (by omega : 0 < rise n ns)
      have htwo : (2 : ℚ) ≤ allowedExecutions 1 (1 / rise n ns) (n :: ns) := by
        exact_mod_cast two_allowed_per_rise n ns (by omega)
      have hbound := h 1 (1 / rise n ns) zero_le_one (one_div_pos.mpr hpos).le
      have hlt : 1 / (rise n ns : ℚ) * spread (n :: ns) < 1 := by
        rw [one_div_mul_eq_div, div_lt_one hpos]
        exact_mod_cast hspread
      linarith
    · intro heq c r hc hr
      rw [← heq, allowedExecutions_eq ⟨c, r, hc, hr⟩]
      exact allowed_le_of_rise ⟨c, r, hc, hr⟩ n ns

/-- One request per hundred milliseconds, and two instances a hundred milliseconds apart taking
    turns: four executions are allowed where the clocks show one capacity and one refill. -/
theorem turns_overgrant :
    ¬ ((allowedExecutions 1 (1 / 100) [0, 100, 0, 100, 0, 100] : ℚ) ≤
      1 + 1 / 100 * spread [0, 100, 0, 100, 0, 100]) := by
  have hcount : allowedExecutions 1 (1 / 100) [0, 100, 0, 100, 0, 100] = 4 := by decide +kernel
  have hspread : spread [0, 100, 0, 100, 0, 100] = 100 := by decide
  rw [hcount, hspread]
  norm_num

end Arcature.Routing
