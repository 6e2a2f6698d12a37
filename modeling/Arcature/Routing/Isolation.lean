import Arcature.Routing.RateLimit

/-! Each key of the in-memory backend has a bucket of its own, and the backend's laziness does not
    show.

    The backend creates a bucket at a key's first check, refills it only when it is read and drops
    it once it is full. The reference does none of that: one token bucket per key, full at the start
    and kept for ever. While the clock does not go back, what the two hold for a key cannot be told
    apart from now on (`run_sameFrom`), so the answers are equal one by one. The rate bound and the
    worth of `Retry-After` are then facts about a single bucket. -/

namespace Arcature.Routing
open Arcature.Lib
open Arcature.Lib.TokenBucket (level SameFrom Settled allows spend answers allowedIn)

/-- The quota as the capacity and the rate of a bucket. -/
def Quota.bucket (q : Quota) : TokenBucket.Quota ℚ :=
  ⟨q.capacity, q.refillPerSec, q.capacity_nonneg, q.refill_nonneg⟩

/-- A stored bucket on the axis of seconds. -/
def Bucket.view (b : Bucket) : TokenBucket.Bucket ℚ := ⟨b.tokens, b.updated.secs⟩

/-- What the table holds for a key. -/
def MemoryBuckets.held (t : MemoryBuckets) (key : String) : Option (TokenBucket.Bucket ℚ) :=
  (t.get? key).map fun e => e.2.view

/-- An isolated bucket that is never swept, answering the checks of one key. -/
def ideal (q : Quota) : Machine (Option (TokenBucket.Bucket ℚ)) Check Decision where
  init := none
  step b c :=
    let left := spend q.bucket b c.now.secs
    (some left, q.describe left.tokens (allows q.bucket b c.now.secs))

/-- The instants of the checks do not decrease. -/
def Ordered (es : List Check) : Prop := es.Pairwise fun c d => c.now.ns ≤ d.now.ns

instance (es : List Check) : Decidable (Ordered es) := inferInstanceAs (Decidable (List.Pairwise _ es))

/-! ### One check -/

theorem refilled_eq_level (q : Quota) (b : Bucket) (now : MonoInstant) :
    refilled b.tokens q (now.saturatingDurationSince b.updated) =
      level q.bucket (some b.view) now.secs := by
  rw [refilled, MonoInstant.asSecs_since]
  rfl

/-- Settling a level is what the reference does with it. -/
theorem settle_level (q : Quota) (b : Option (TokenBucket.Bucket ℚ)) (now : ℚ) :
    q.settle (level q.bucket b now) =
      ((spend q.bucket b now).tokens, q.describe (spend q.bucket b now).tokens
        (allows q.bucket b now)) := by
  unfold Quota.settle spend allows
  by_cases h : 1 ≤ level q.bucket b now
  · simp [h]
  · simp [h]

/-- The reference looks at nothing but the level. -/
theorem ideal_step_congr {q : Quota} {b b' : Option (TokenBucket.Bucket ℚ)} {c : Check}
    (h : level q.bucket b c.now.secs = level q.bucket b' c.now.secs) :
    (ideal q).step b c = (ideal q).step b' c := by
  simp only [ideal, TokenBucket.spend_congr h, TokenBucket.allows_congr h]

/-- A sweep drops full buckets only, and those cannot be told from missing ones. -/
theorem sweep_sameFrom (t : MemoryBuckets) (q : Quota) (now : MonoInstant) (key : String) :
    SameFrom q.bucket now.secs ((t.sweep q now).held key) (t.held key) := by
  unfold MemoryBuckets.sweep
  split_ifs with hsize
  · unfold MemoryBuckets.held
    rw [Table.get?_delete]
    refine TokenBucket.sameFrom_filter fun e _ hdropped => ?_
    have hfull : q.capacity ≤ level q.bucket (some e.2.view) now.secs := by
      simpa [refilled_eq_level] using hdropped
    exact hfull
  · exact SameFrom.refl _ _ _

/-- A check settles the level its key has once the table is swept. -/
theorem check_eq (t : MemoryBuckets) (key : String) (q : Quota) (now : MonoInstant) :
    t.check key q now =
      ((t.sweep q now).put (key, ⟨(q.settle (level q.bucket (t.held key) now.secs)).1, now⟩) rfl,
        (q.settle (level q.bucket (t.held key) now.secs)).2) := by
  have htokens : ∀ b : Bucket, b = (((t.sweep q now).get? key).map Prod.snd).getD ⟨q.capacity, now⟩ →
      refilled b.tokens q (now.saturatingDurationSince b.updated) =
        level q.bucket (t.held key) now.secs := by
    rintro b rfl
    rw [← sweep_sameFrom t q now key _ le_rfl, MemoryBuckets.held]
    cases (t.sweep q now).get? key with
    | none => simp [refilled, MonoInstant.asSecs_since, level, Quota.bucket]
    | some e => exact refilled_eq_level q e.2 now
  simp only [MemoryBuckets.check, htokens _ rfl]

/-- The answer to a check is the reference's answer on what the table held for the key. -/
theorem memory_out (q : Quota) (t : MemoryBuckets) (c : Check) :
    (memory q).out t c = (ideal q).out (t.held c.key) c := by
  change (t.check c.key q c.now).2 = _
  rw [check_eq, settle_level]
  rfl

/-- A check moves the bucket of its own key as the reference does and may sweep the others. -/
theorem memory_next_held (q : Quota) (t : MemoryBuckets) (c : Check) (key : String) :
    MemoryBuckets.held ((memory q).next t c) key =
      if key = c.key then (ideal q).next (t.held c.key) c else (t.sweep q c.now).held key := by
  change MemoryBuckets.held (t.check c.key q c.now).1 key = _
  rw [check_eq, settle_level]
  unfold MemoryBuckets.held
  rw [Table.get?_put]
  split_ifs
  · rfl
  · rfl

/-! ### Whole runs -/

theorem Ordered.concat {es : List Check} {c : Check} (h : Ordered (es ++ [c])) :
    Ordered es ∧ ∀ e ∈ es, e.now.secs ≤ c.now.secs := by
  obtain ⟨hes, -, hc⟩ := List.pairwise_append.mp h
  exact ⟨hes, fun e he => MonoInstant.secs_le.mpr (hc e he c (by simp))⟩

/-- After any run, what the table holds for a key and what the reference holds for it cannot be told
    apart by any check still to come. -/
theorem run_sameFrom (q : Quota) (key : String) (es : List Check) (h : Ordered es) :
    ∀ s, (∀ e ∈ es, e.now.secs ≤ s) →
      SameFrom q.bucket s (MemoryBuckets.held ((memory q).run es) key)
        ((ideal q).run (es.filter fun c => c.key = key)) := by
  induction es using List.reverseRecOn with
  | nil =>
    intro s _
    exact SameFrom.refl _ _ _
  | append_singleton es c ih =>
    obtain ⟨hes, hle⟩ := h.concat
    have hnow := ih hes c.now.secs hle
    intro s hs
    have hcs : c.now.secs ≤ s := hs c (by simp)
    rw [Machine.run_concat, memory_next_held, List.filter_append]
    by_cases hk : c.key = key
    · subst hk
      have hstep := ideal_step_congr (q := q) (hnow c.now.secs le_rfl)
      simp only [if_true, decide_true, List.filter_cons_of_pos, List.filter_nil,
        Machine.run_concat, Machine.next, hstep]
      exact SameFrom.refl _ _ _
    · simp only [Ne.symm hk, if_false, hk, decide_false, Bool.false_eq_true, not_false_eq_true,
        List.filter_cons_of_neg, List.filter_nil, List.append_nil]
      exact ((sweep_sameFrom _ q c.now key).trans hnow).later hcs

/-- A check is answered as the reference answers it after the checks of the same key. -/
theorem out_run (q : Quota) {es : List Check} {c : Check} (h : Ordered (es ++ [c])) :
    (memory q).out ((memory q).run es) c =
      (ideal q).out ((ideal q).run (es.filter fun d => d.key = c.key)) c := by
  obtain ⟨hes, hle⟩ := h.concat
  have hlevel := run_sameFrom q c.key es hes _ hle c.now.secs le_rfl
  rw [memory_out]
  exact congrArg Prod.snd (ideal_step_congr hlevel)

/-- Key by key, the backend answers as the reference does. -/
theorem filter_trace (q : Quota) (key : String) (es : List Check) (h : Ordered es) :
    ((memory q).trace es).filter (fun a => a.1.key = key) =
      (ideal q).trace (es.filter fun c => c.key = key) := by
  induction es using List.reverseRecOn with
  | nil => rfl
  | append_singleton es c ih =>
    rw [Machine.trace_concat, List.filter_append, ih h.concat.1, List.filter_append, out_run q h]
    by_cases hk : c.key = key
    · subst hk
      simp [Machine.trace_concat]
    · simp [hk]

/-! ### The rate bound -/

/-- The reference's answers are those of a bucket read at the instants of the checks. -/
theorem ideal_traceFrom (q : Quota) (es : List Check) : ∀ b : Option (TokenBucket.Bucket ℚ),
    ((ideal q).traceFrom b es).map (fun a => (a.1.now.secs, a.2.allowed)) =
      answers q.bucket b (es.map fun c => c.now.secs) := by
  induction es with
  | nil => intro b; rfl
  | cons c es ih =>
    intro b
    simp only [Machine.traceFrom, List.map_cons, ih]
    rfl

/-- How many checks of `key` between two instants were allowed. -/
def allowedChecks (key : String) (s t : MonoInstant) (answers : List (Check × Decision)) : ℕ :=
  answers.countP fun a =>
    (s.ns ≤ a.1.now.ns ∧ a.1.now.ns ≤ t.ns ∧ a.2.allowed = true) ∧ a.1.key = key

theorem allowedChecks_eq (q : Quota) (key : String) (s t : MonoInstant) (es : List Check)
    (h : Ordered es) :
    allowedChecks key s t ((memory q).trace es) =
      allowedIn q.bucket s.secs t.secs none ((es.filter fun c => c.key = key).map fun c => c.now.secs)
    := by
  have hkey := List.countP_filter (p := fun a : Check × Decision =>
    decide (s.ns ≤ a.1.now.ns ∧ a.1.now.ns ≤ t.ns ∧ a.2.allowed = true))
    (q := fun a => decide (a.1.key = key)) (l := (memory q).trace es)
  simp only [Bool.decide_and, Bool.decide_eq_true] at hkey
  rw [allowedIn, ← ideal_traceFrom, List.countP_map]
  simp only [allowedChecks, Bool.decide_and, Bool.decide_eq_true, Function.comp_def,
    MonoInstant.secs_le]
  rw [← hkey, filter_trace q key es h]
  rfl

theorem allowedChecks_le (q : Quota) (key : String) {s t : MonoInstant} (hst : s.ns ≤ t.ns)
    {es : List Check} (h : Ordered es) :
    (allowedChecks key s t ((memory q).trace es) : ℚ) ≤
      q.capacity + q.refillPerSec * (t.secs - s.secs) := by
  have hsorted : ((es.filter fun c => c.key = key).map fun c => c.now.secs).Pairwise (· ≤ ·) := by
    rw [List.pairwise_map]
    exact (h.sublist List.filter_sublist).imp fun hle => MonoInstant.secs_le.mpr hle
  rw [allowedChecks_eq q key s t es h]
  exact TokenBucket.allowedIn_le _ (TokenBucket.settled_none _) (MonoInstant.secs_le.mpr hst) hsorted

/-! ### The worth of `Retry-After` -/

/-- Short of saturation, in the seconds given the tokens do accrue. -/
theorem le_secondsToAccrue_mul {tokens rate : ℚ} (hrate : 0 < rate)
    (hsat : secondsToAccrue tokens rate < 2 ^ 64 - 1) : tokens ≤ secondsToAccrue tokens rate * rate := by
  unfold secondsToAccrue at hsat ⊢
  split_ifs at hsat ⊢ with hnone
  · have := hnone.resolve_right (not_le.mpr hrate)
    simpa using this
  · have htokens : 0 < tokens := not_le.mp fun h => hnone (Or.inl h)
    have hceil : (0 : ℤ) ≤ ⌈tokens / rate⌉ := Int.ceil_nonneg (div_pos htokens hrate).le
    obtain ⟨n, hn⟩ := Int.eq_ofNat_of_zero_le hceil
    have hle : tokens ≤ n * rate := by
      have := (div_le_iff₀ hrate).mp (Int.le_ceil (tokens / rate))
      rwa [hn, Int.cast_natCast] at this
    rw [hn, Int.cast_natCast, asU64, Nat.floor_natCast] at hsat ⊢
    rwa [min_eq_left (by omega)]

/-- One bucket: refused, and asked again once `Retry-After` has passed, it allows. -/
theorem allows_after_retry {q : Quota} (hcap : 1 ≤ q.capacity) (hrate : 0 < q.refillPerSec)
    {b : Option (TokenBucket.Bucket ℚ)} {c c' : Check}
    (hrefused : ((ideal q).out b c).allowed = false)
    (hlater : c.now.ns + ((ideal q).out b c).retryAfter * 10 ^ 9 ≤ c'.now.ns) :
    ((ideal q).out ((ideal q).next b c) c').allowed = true := by
  have hlt : ¬ 1 ≤ level q.bucket b c.now.secs := by
    simpa [ideal, Machine.out, Quota.describe, allows] using hrefused
  have hspend : spend q.bucket b c.now.secs = ⟨level q.bucket b c.now.secs, c.now.secs⟩ := by
    simp [spend, allows, hlt]
  set x := level q.bucket b c.now.secs with hx
  -- the wait is at least the seconds to the next token, and those cannot have saturated
  have hwait : ((ideal q).out b c).retryAfter = max (secondsToAccrue (1 - x) q.refillPerSec) 1 := by
    simp [ideal, Machine.out, Quota.describe, allows, hspend, ← hx, hlt]
  have hbound := c'.now.lt
  set n := secondsToAccrue (1 - x) q.refillPerSec with hn
  have hgap : c.now.ns + n * 10 ^ 9 ≤ c'.now.ns := by
    rw [hwait] at hlater
    refine le_trans ?_ hlater
    gcongr
    exact le_max_left _ _
  have haccrued : 1 - x ≤ n * q.refillPerSec := le_secondsToAccrue_mul hrate (by omega)
  have hsecs : (n : ℚ) ≤ c'.now.secs - c.now.secs := by
    have hq : (c.now.ns : ℚ) + n * 10 ^ 9 ≤ c'.now.ns := by exact_mod_cast hgap
    unfold MonoInstant.secs
    rw [← sub_div, le_div_iff₀ (by positivity)]
    linarith
  have hmul := mul_le_mul_of_nonneg_right (hsecs.trans (le_max_right 0 _)) hrate.le
  change decide (1 ≤ level q.bucket (some (spend q.bucket b c.now.secs)) c'.now.secs) = true
  rw [hspend, decide_eq_true_eq]
  refine le_min ?_ hcap
  simp only [Quota.bucket]
  linarith

/-- The checks of a key between two positions are none, so the reference stands still there. -/
theorem filter_take_gap {es : List Check} {i j : ℕ} {c : Check} (hi : es[i]? = some c) (hij : i < j)
    (hgap : ∀ k e, i < k → k < j → es[k]? = some e → e.key ≠ c.key) :
    (es.take j).filter (fun d => d.key = c.key) =
      (es.take i).filter (fun d => d.key = c.key) ++ [c] := by
  obtain ⟨hlt, rfl⟩ := List.getElem?_eq_some_iff.mp hi
  have hcut : es.take j = es.take (i + 1) ++ (es.take j).drop (i + 1) := by
    conv_lhs => rw [← List.take_append_drop (i + 1) (es.take j), List.take_take, min_eq_left hij]
  have hnone : ((es.take j).drop (i + 1)).filter (fun d => d.key = es[i].key) = [] := by
    rw [List.filter_eq_nil_iff]
    intro e he
    obtain ⟨k, hk⟩ := List.mem_iff_getElem?.mp he
    rw [List.getElem?_drop, List.getElem?_take] at hk
    split_ifs at hk with hkj
    simpa using hgap _ e (by omega) hkj hk
  rw [hcut, List.filter_append, hnone, List.append_nil, List.take_succ_eq_append_getElem hlt,
    List.filter_append]
  simp

/-- The answer at a position of the backend's trace, from the reference. -/
theorem trace_answer (q : Quota) {es : List Check} (h : Ordered es) {i : ℕ} {c : Check}
    {d : Decision} (hi : ((memory q).trace es)[i]? = some (c, d)) :
    es[i]? = some c ∧
      d = (ideal q).out ((ideal q).run ((es.take i).filter fun e => e.key = c.key)) c := by
  rw [Machine.getElem?_trace, Option.map_eq_some_iff] at hi
  obtain ⟨e, he, heq⟩ := hi
  obtain ⟨rfl, rfl⟩ := Prod.mk.inj heq
  obtain ⟨hlt, rfl⟩ := List.getElem?_eq_some_iff.mp he
  refine ⟨he, out_run q ?_⟩
  rw [← List.take_succ_eq_append_getElem hlt]
  exact h.sublist (List.take_sublist _ _)

/-- In every run, a check that comes `Retry-After` seconds after a refusal, with no check of its key
    in between, is allowed. -/
theorem retry_suffices (q : Quota) (hcap : 1 ≤ q.capacity) (hrate : 0 < q.refillPerSec)
    {es : List Check} (h : Ordered es) {i j : ℕ} {c c' : Check} {d d' : Decision}
    (hi : ((memory q).trace es)[i]? = some (c, d)) (hj : ((memory q).trace es)[j]? = some (c', d'))
    (hij : i < j) (hkey : c'.key = c.key) (hrefused : d.allowed = false)
    (hgap : ∀ k e, i < k → k < j → es[k]? = some e → e.key ≠ c.key)
    (hlater : c.now.ns + d.retryAfter * 10 ^ 9 ≤ c'.now.ns) : d'.allowed = true := by
  obtain ⟨hci, rfl⟩ := trace_answer q h hi
  obtain ⟨-, rfl⟩ := trace_answer q h hj
  rw [hkey, filter_take_gap hci hij hgap, Machine.run_concat]
  exact allows_after_retry hcap hrate hrefused hlater

/-! ### The backend's contract -/

/-- For every order of checks over any keys, however often the table is swept: each key's answers
    are those of its own bucket, no window allows more than the capacity and its refill, and
    `Retry-After` is long enough. -/
theorem memory_isolated (q : Quota) (es : List Check) (h : Ordered es) :
    (∀ key, ((memory q).trace es).filter (fun a => a.1.key = key) =
      (ideal q).trace (es.filter fun c => c.key = key)) ∧
    (∀ key (s t : MonoInstant), s.ns ≤ t.ns →
      (allowedChecks key s t ((memory q).trace es) : ℚ) ≤
        q.capacity + q.refillPerSec * (t.secs - s.secs)) ∧
    (1 ≤ q.capacity → 0 < q.refillPerSec → ∀ i j c c' d d',
      ((memory q).trace es)[i]? = some (c, d) → ((memory q).trace es)[j]? = some (c', d') →
      i < j → c'.key = c.key → d.allowed = false →
      (∀ (k : ℕ) (e : Check), i < k → k < j → es[k]? = some e → e.key ≠ c.key) →
      c.now.ns + d.retryAfter * 10 ^ 9 ≤ c'.now.ns → d'.allowed = true) := by
  refine ⟨fun key => filter_trace q key es h, fun key s t hst => allowedChecks_le q key hst h, ?_⟩
  intro hcap hrate i j c c' d d' hi hj hij hkey hrefused hgap hlater
  exact retry_suffices q hcap hrate h hi hj hij hkey hrefused hgap hlater

/-- One request a second: `a` is refused at once, `b` passes, `a` comes back a second later. -/
def refusedThenBack : List Check :=
  [⟨"a", ⟨0, by decide⟩⟩, ⟨"a", ⟨0, by decide⟩⟩, ⟨"b", ⟨5 * 10 ^ 8, by decide⟩⟩,
    ⟨"a", ⟨10 ^ 9, by decide⟩⟩]

theorem refusedThenBack_allowed :
    Ordered refusedThenBack ∧
    ((memory (Quota.perSecond 1)).trace refusedThenBack)[1]?.map (fun a => a.2) =
      some ⟨false, 0, 1, 1⟩ ∧
    ((memory (Quota.perSecond 1)).trace refusedThenBack)[3]?.map (fun a => a.2.allowed) =
      some true := by
  have hordered : Ordered refusedThenBack := by decide +kernel
  have hrefused : ((memory (Quota.perSecond 1)).trace refusedThenBack)[1]? =
      some (⟨"a", ⟨0, by decide⟩⟩, ⟨false, 0, 1, 1⟩) := by decide +kernel
  refine ⟨hordered, by rw [hrefused]; rfl, ?_⟩
  rw [Machine.getElem?_trace]
  refine congrArg some ((memory_isolated (Quota.perSecond 1) refusedThenBack hordered).2.2
    (by decide +kernel) (by decide +kernel) 1 3 _ _ _ _ hrefused (Machine.getElem?_trace _ _ 3)
    (by decide) rfl rfl ?_ (by decide))
  intro k e hik hkj he
  obtain rfl : k = 2 := by omega
  obtain rfl : (⟨"b", ⟨5 * 10 ^ 8, by decide⟩⟩ : Check) = e := Option.some.inj he
  decide

end Arcature.Routing
