import Mathlib.Algebra.Order.Field.Basic
import Mathlib.Data.List.TakeWhile
import Mathlib.Tactic

/-! Token buckets in exact arithmetic.

    A bucket is kept lazily: what was in it when it was last written, and when that was. Its `level`
    at a later time is what it would hold had it been refilled all along, and a bucket that is not
    kept at all stands for a full one. Two buckets are interchangeable from some time on when their
    levels agree from then on; a full bucket is interchangeable with none, which is why dropping it
    cannot be observed. Over any stretch of time no more is spent than the capacity plus the refill. -/

namespace Arcature.Lib.TokenBucket

/-- How much a bucket holds, and how fast it refills. -/
structure Quota (K : Type*) [Field K] [LinearOrder K] where
  cap : K
  rate : K
  cap_nonneg : 0 ≤ cap
  rate_nonneg : 0 ≤ rate

/-- The tokens of a bucket and when they were counted. -/
structure Bucket (K : Type*) where
  tokens : K
  updated : K

variable {K : Type*} [Field K] [LinearOrder K]

/-- What a bucket holds at `t`: nothing accrues where the clock would have gone back. -/
def refill (q : Quota K) (b : Bucket K) (t : K) : K :=
  min (b.tokens + max 0 (t - b.updated) * q.rate) q.cap

/-- What a bucket holds at `t`, a missing one being full. -/
def level (q : Quota K) : Option (Bucket K) → K → K
  | none, _ => q.cap
  | some b, t => refill q b t

/-- The two buckets cannot be told apart from `s` on. -/
def SameFrom (q : Quota K) (s : K) (b b' : Option (Bucket K)) : Prop :=
  ∀ t, s ≤ t → level q b t = level q b' t

/-- The bucket was counted by `t` and does not owe. -/
def Settled (b : Option (Bucket K)) (t : K) : Prop :=
  ∀ x, b = some x → x.updated ≤ t ∧ 0 ≤ x.tokens

/-- Whether a request at `t` finds a token. -/
def allows (q : Quota K) (b : Option (Bucket K)) (t : K) : Bool := 1 ≤ level q b t

/-- The bucket after a request at `t`, which takes a token if there is one. -/
def spend (q : Quota K) (b : Option (Bucket K)) (t : K) : Bucket K :=
  ⟨if allows q b t then level q b t - 1 else level q b t, t⟩

/-- The requests at `ts` in turn, each with whether it found a token. -/
def answers (q : Quota K) : Option (Bucket K) → List K → List (K × Bool)
  | _, [] => []
  | b, t :: ts => (t, allows q b t) :: answers q (some (spend q b t)) ts

/-- How many of the requests at `ts` find a token. -/
def allowed (q : Quota K) (b : Option (Bucket K)) (ts : List K) : ℕ :=
  (answers q b ts).countP Prod.snd

/-- How many of the requests at `ts` that fall between `s` and `t` find a token. -/
def allowedIn (q : Quota K) (s t : K) (b : Option (Bucket K)) (ts : List K) : ℕ :=
  (answers q b ts).countP fun a => s ≤ a.1 ∧ a.1 ≤ t ∧ a.2

variable {q : Quota K} {b b' b'' : Option (Bucket K)} {s t : K}

theorem level_le_cap (q : Quota K) (b : Option (Bucket K)) (t : K) : level q b t ≤ q.cap := by
  cases b with
  | none => exact le_rfl
  | some b => exact min_le_right _ _

/-- A bucket counted at `t` and read at `t`. -/
theorem level_counted {x : K} (h : x ≤ q.cap) : level q (some ⟨x, t⟩) t = x := by
  simp [level, refill, h]

/-- A request looks at nothing but the level. -/
theorem spend_congr (h : level q b t = level q b' t) : spend q b t = spend q b' t := by
  unfold spend allows
  rw [h]

theorem allows_congr (h : level q b t = level q b' t) : allows q b t = allows q b' t := by
  unfold allows
  rw [h]

theorem allowed_cons (q : Quota K) (b : Option (Bucket K)) (t : K) (ts : List K) :
    allowed q b (t :: ts) = allowed q (some (spend q b t)) ts + if allows q b t then 1 else 0 := by
  rw [allowed, answers, List.countP_cons, allowed]

theorem allowedIn_cons (q : Quota K) (s t : K) (b : Option (Bucket K)) (u : K) (ts : List K) :
    allowedIn q s t b (u :: ts) = allowedIn q s t (some (spend q b u)) ts +
      if s ≤ u ∧ u ≤ t ∧ allows q b u = true then 1 else 0 := by
  rw [allowedIn, answers, List.countP_cons, allowedIn]
  simp only [decide_eq_true_eq]

theorem settled_none (t : K) : Settled (none : Option (Bucket K)) t := by
  intro x hx
  cases hx

theorem Settled.later (h : Settled b s) (hst : s ≤ t) : Settled b t := by
  intro x hx
  exact ⟨(h x hx).1.trans hst, (h x hx).2⟩

theorem SameFrom.refl (q : Quota K) (s : K) (b : Option (Bucket K)) : SameFrom q s b b :=
  fun _ _ => rfl

theorem SameFrom.symm (h : SameFrom q s b b') : SameFrom q s b' b :=
  fun t ht => (h t ht).symm

theorem SameFrom.trans (h : SameFrom q s b b') (h' : SameFrom q s b' b'') : SameFrom q s b b'' :=
  fun t ht => (h t ht).trans (h' t ht)

theorem SameFrom.later (h : SameFrom q s b b') (hst : s ≤ t) : SameFrom q t b b' :=
  fun u hu => h u (hst.trans hu)

section Ordered

variable [IsStrictOrderedRing K]

theorem level_mono (q : Quota K) (b : Option (Bucket K)) (h : s ≤ t) :
    level q b s ≤ level q b t := by
  cases b with
  | none => exact le_rfl
  | some b =>
    have hgap : max 0 (s - b.updated) ≤ max 0 (t - b.updated) := max_le_max le_rfl (by linarith)
    have := mul_le_mul_of_nonneg_right hgap q.rate_nonneg
    exact min_le_min (by linarith) le_rfl

/-- A full bucket cannot be told from a missing one. -/
theorem sameFrom_none_of_full (h : q.cap ≤ level q b s) : SameFrom q s none b := by
  intro t ht
  exact le_antisymm (h.trans (level_mono q b ht)) (level_le_cap q b t)

/-- Keeping of stored buckets only some, and dropping none that is not full, cannot be told. -/
theorem sameFrom_filter {α : Type*} {view : α → Bucket K} {keep : α → Bool} {stored : Option α}
    (h : ∀ a, stored = some a → keep a = false → q.cap ≤ level q (some (view a)) s) :
    SameFrom q s ((stored.filter keep).map view) (stored.map view) := by
  cases stored with
  | none => exact SameFrom.refl _ _ _
  | some a =>
    cases hkeep : keep a with
    | true =>
      rw [Option.filter_some_pos hkeep]
      exact SameFrom.refl _ _ _
    | false =>
      rw [Option.filter_some_neg (by simp [hkeep])]
      exact sameFrom_none_of_full (h a rfl hkeep)

theorem level_nonneg (h : Settled b s) (t : K) : 0 ≤ level q b t := by
  cases b with
  | none => exact q.cap_nonneg
  | some x =>
    have hx := (h x rfl).2
    have := mul_nonneg (le_max_left 0 (t - x.updated)) q.rate_nonneg
    exact le_min (by linarith) q.cap_nonneg

/-- No more accrues than the rate allows. -/
theorem level_le_add (h : Settled b s) (hst : s ≤ t) :
    level q b t ≤ level q b s + (t - s) * q.rate := by
  have hgain : 0 ≤ (t - s) * q.rate := mul_nonneg (by linarith) q.rate_nonneg
  cases b with
  | none => simp only [level]; linarith
  | some x =>
    have hx := (h x rfl).1
    simp only [level, refill, max_eq_right (sub_nonneg.mpr hx),
      max_eq_right (sub_nonneg.mpr (hx.trans hst))]
    rw [← min_add_add_right]
    exact min_le_min (by linarith) (by linarith)

theorem settled_spend (h : Settled b s) (t : K) : Settled (some (spend q b t)) t := by
  rintro x ⟨⟩
  refine ⟨le_rfl, ?_⟩
  have := level_nonneg (q := q) h t
  unfold spend allows
  by_cases ha : 1 ≤ level q b t
  · simp only [ha, decide_true, if_true]
    linarith
  · simpa [ha] using this

/-- What a request leaves and what it takes add up to what was there. -/
theorem level_spend (q : Quota K) (b : Option (Bucket K)) (t : K) :
    level q (some (spend q b t)) t + (if allows q b t then 1 else 0) = level q b t := by
  have hle := level_le_cap q b t
  unfold spend
  by_cases ha : allows q b t = true
  · simp only [ha, if_true]
    rw [level_counted (by linarith)]
    ring
  · simp only [ha, Bool.false_eq_true, if_false]
    rw [level_counted hle, add_zero]

/-- Between `s` and `t` no more requests find a token than the level at `s` and the refill since. -/
theorem allowed_le_level : ∀ (ts : List K) {b : Option (Bucket K)} {s t : K}, Settled b s → s ≤ t →
    (s :: ts).Pairwise (· ≤ ·) → (∀ u ∈ ts, u ≤ t) →
    (allowed q b ts : K) ≤ level q b s + (t - s) * q.rate := by
  intro ts
  induction ts with
  | nil =>
    intro b s t hb hst _ _
    have := level_nonneg (q := q) hb s
    have := mul_nonneg (sub_nonneg.mpr hst) q.rate_nonneg
    simp only [allowed, answers, List.countP_nil, Nat.cast_zero]
    linarith
  | cons u ts ih =>
    intro b s t hb hst hsorted hle
    have hsu : s ≤ u := List.rel_of_pairwise_cons hsorted (by simp)
    have hut : u ≤ t := hle u (by simp)
    have hrest := ih (settled_spend (q := q) hb u) hut (List.pairwise_cons.mp hsorted).2
      (fun v hv => hle v (List.mem_cons_of_mem u hv))
    have hspend := level_spend q b u
    have hadd := level_le_add (q := q) hb hsu
    rw [allowed_cons, Nat.cast_add, Nat.cast_ite, Nat.cast_one, Nat.cast_zero]
    calc (allowed q (some (spend q b u)) ts : K) + (if allows q b u = true then 1 else 0)
        ≤ (level q (some (spend q b u)) u + (t - u) * q.rate) +
            (if allows q b u = true then 1 else 0) := by linarith
      _ = level q b u + (t - u) * q.rate := by linarith
      _ ≤ level q b s + (u - s) * q.rate + (t - u) * q.rate := by linarith
      _ = level q b s + (t - s) * q.rate := by ring

omit [IsStrictOrderedRing K] in
/-- Of requests in order from `s` on, those within the window come first. -/
theorem allowedIn_eq_allowed : ∀ (ts : List K) {b : Option (Bucket K)} {s t : K},
    (s :: ts).Pairwise (· ≤ ·) →
    allowedIn q s t b ts = allowed q b (ts.takeWhile fun u => u ≤ t) := by
  intro ts
  induction ts with
  | nil => intros; rfl
  | cons u ts ih =>
    intro b s t hsorted
    obtain ⟨hs, hu⟩ := List.pairwise_cons.mp hsorted
    have hsu : s ≤ u := hs u (by simp)
    have htail : (s :: ts).Pairwise (· ≤ ·) :=
      hsorted.sublist ((List.sublist_cons_self u ts).cons_cons s)
    rw [allowedIn_cons, ih htail]
    by_cases hut : u ≤ t
    · rw [List.takeWhile_cons_of_pos (by simpa using hut), allowed_cons]
      simp [hsu, hut]
    · -- past the window's end, and so is everything after it
      have hnil : ts.takeWhile (fun v => decide (v ≤ t)) = [] := by
        cases ts with
        | nil => rfl
        | cons v ts =>
          have huv : u ≤ v := List.rel_of_pairwise_cons hu (by simp)
          rw [List.takeWhile_cons_of_neg]
          simp only [decide_eq_true_eq, not_le]
          exact (not_le.mp hut).trans_le huv
      rw [List.takeWhile_cons_of_neg (by simpa using hut), hnil]
      simp [hut, allowed, answers]

/-- The rate bound: in no window do more requests find a token than the capacity and the refill. -/
theorem allowedIn_le : ∀ (ts : List K) {b : Option (Bucket K)} {s t : K}, Settled b s → s ≤ t →
    ts.Pairwise (· ≤ ·) → (allowedIn q s t b ts : K) ≤ q.cap + q.rate * (t - s) := by
  intro ts
  induction ts with
  | nil =>
    intro b s t _ hst _
    have := mul_nonneg q.rate_nonneg (sub_nonneg.mpr hst)
    have := q.cap_nonneg
    simp only [allowedIn, answers, List.countP_nil, Nat.cast_zero]
    linarith
  | cons u ts ih =>
    intro b s t hb hst hsorted
    rcases lt_or_ge u s with hus | hsu
    · -- before the window: only the bucket moves on
      have hrest := ih ((settled_spend (q := q) hb u).later hus.le) hst
        (List.pairwise_cons.mp hsorted).2
      rw [allowedIn_cons]
      simpa [not_le.mpr hus] using hrest
    · have hfrom : (s :: u :: ts).Pairwise (· ≤ ·) := by
        refine List.pairwise_cons.mpr ⟨fun v hv => ?_, hsorted⟩
        rcases List.mem_cons.mp hv with rfl | hv
        · exact hsu
        · exact hsu.trans ((List.pairwise_cons.mp hsorted).1 v hv)
      rw [allowedIn_eq_allowed _ hfrom]
      have hbound := allowed_le_level (q := q) ((u :: ts).takeWhile fun v => decide (v ≤ t)) hb hst
        (hfrom.sublist ((List.takeWhile_sublist _).cons_cons s))
        (fun v hv => by simpa using List.mem_takeWhile_imp hv)
      have hcap := level_le_cap q b s
      linarith

end Ordered

end Arcature.Lib.TokenBucket
