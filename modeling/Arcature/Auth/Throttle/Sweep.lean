import Arcature.Auth.Throttle.Reference

/-! When the sweep shows.

    The sweep measures every bucket by the identity quota, a client's bucket too. Where the limit
    per client is no larger than the limit per identity, a bucket that is full by the identity quota
    is full by its own, and nothing shows in any run. Where it is larger, a client that failed once
    is full by the identity quota already, and the next sweep forgets its failure:

        client 0 fails         its bucket: one short
        4095 others fail       the table is as long as it may get
        client 0 fails         sweep: its bucket is gone; a fresh one, one short
        .. up to its limit     by the reference spent, by the table one left
        client 0 succeeds      its identity bucket is gone, which both forget
        client 0 checks        the reference refuses, the table allows -/

namespace Arcature.Auth.Throttle
open Arcature.Lib
open Arcature.Lib.TokenBucket (level)

/-! ### Limits under which no sweep does harm -/

/-- What refills a larger capacity over a share `f` of the window refills a smaller one. -/
theorem refills_smaller {x f c d : ℚ} (hx : 0 ≤ x) (hd : 0 ≤ d) (hdc : d ≤ c) (h : c ≤ x + f * c) :
    d ≤ x + f * d := by
  rcases le_total 1 f with hf | hf
  · have := mul_le_mul_of_nonneg_right hf hd
    linarith
  · have := mul_le_mul_of_nonneg_right hdc (sub_nonneg.mpr hf)
    linarith

/-- A bucket that is full by a quota is full by every quota of a smaller limit over the window. -/
theorem full_of_full {identityLimit addressLimit : ℕ} {window : Duration} {b : Bucket}
    {now : MonoInstant} (hle : clampLimit addressLimit ≤ clampLimit identityLimit)
    (h : (Quota.new identityLimit window).capacity ≤ b.tokensAt (Quota.new identityLimit window) now) :
    (Quota.new addressLimit window).capacity ≤ b.tokensAt (Quota.new addressLimit window) now := by
  have hshare : ∀ y W c : ℚ, y * (c / W) = y / W * c := fun y W c => by ring
  have hq : (clampLimit addressLimit : ℚ) ≤ clampLimit identityLimit := by exact_mod_cast hle
  have hfull := h.trans (min_le_left _ _)
  refine le_min ?_ le_rfl
  simp only [Quota.new, hshare] at hfull ⊢
  exact refills_smaller b.nonneg (by linarith [one_le_clampLimit addressLimit]) hq hfull

theorem harmless_of_limits {L : LoginThrottle}
    (hle : clampLimit L.addressLimit ≤ clampLimit L.identityLimit) (P : Platform) (t : Buckets)
    (e : Event) : Harmless L P t e := by
  cases e with
  | failure a now =>
    intro _ client row _ hfull
    rw [L.identity_eq] at hfull
    rw [L.address_eq]
    exact full_of_full hle hfull
  | check a now => trivial
  | success a => trivial

/-! ### A run that shows the sweep -/

/-- Every call of the run is made at one instant. -/
def start : MonoInstant := ⟨0, MonoInstant.zero_lt⟩

/-- One email, tried from the `i`-th client. -/
def client (i : ℕ) : Attempt := ⟨[], some (.v4 (BitVec.ofNat 32 i))⟩

/-- Clients `0` to `n - 1` fail once each. -/
def crowd : ℕ → List Event
  | 0 => []
  | n + 1 => crowd n ++ [.failure (client n) start]

/-- A crowd that fills the table, then client `0` to its limit, a success and a check. -/
def stuffing (limit : ℕ) : List Event :=
  crowd 4096 ++ List.replicate (limit - 1) (.failure (client 0) start) ++
    [.success (client 0), .check (client 0) start]

/-- A digest to evaluate the run on: the input itself, filled up with zeros. -/
def padded : Platform where
  sha256 b := ⟨(b ++ List.replicate 32 0).take 32, by simp⟩
  toLowercase := id

theorem secs_start : start.secs = 0 := by simp [start, MonoInstant.secs]

theorem attempts_crowd (n : ℕ) : ∀ e ∈ crowd n, ∃ i, e = .failure (client i) start := by
  induction n with
  | zero => simp [crowd]
  | succ n ih =>
    intro e he
    rcases List.mem_append.mp he with he | he
    · exact ih e he
    · exact ⟨n, List.mem_singleton.mp he⟩

theorem mem_stuffing {limit : ℕ} {e : Event} (he : e ∈ stuffing limit) :
    (∃ i, e.attempt = client i) ∧ ∀ now, e.now? = some now → now = start := by
  simp only [stuffing, List.mem_append, List.mem_cons, List.not_mem_nil, or_false] at he
  rcases he with (he | he) | rfl | rfl
  · obtain ⟨i, rfl⟩ := attempts_crowd _ e he
    exact ⟨⟨i, rfl⟩, fun now h => (Option.some.inj h).symm⟩
  · obtain rfl := List.eq_of_mem_replicate he
    exact ⟨⟨0, rfl⟩, fun now h => (Option.some.inj h).symm⟩
  · exact ⟨⟨0, rfl⟩, fun now h => by cases h⟩
  · exact ⟨⟨0, rfl⟩, fun now h => (Option.some.inj h).symm⟩

theorem ordered_stuffing (limit : ℕ) : Ordered (stuffing limit) := by
  refine List.pairwise_of_forall_mem_list fun s hs t ht => ?_
  obtain ⟨e, he, hes⟩ := List.mem_filterMap.mp hs
  obtain ⟨f, hf, hft⟩ := List.mem_filterMap.mp ht
  rw [(mem_stuffing he).2 s hes, (mem_stuffing hf).2 t hft]

/-! ### No collisions in it -/

theorem padded_inj {x y : Bytes} (hlen : x.length = y.length) (hx : x.length ≤ 32)
    (h : padded.sha256 x = padded.sha256 y) : x = y := by
  have hval : (x ++ List.replicate 32 0).take 32 = (y ++ List.replicate 32 0).take 32 :=
    congrArg Subtype.val h
  have := congrArg (List.take x.length) hval
  rwa [List.take_take, List.take_take, min_eq_left hx, List.take_left, hlen, List.take_left] at this

theorem padded_head {x y : UInt8} {xs ys : Bytes}
    (h : padded.sha256 (x :: xs) = padded.sha256 (y :: ys)) : x = y := by
  have hval : ((x :: xs) ++ List.replicate 32 0).take 32 = ((y :: ys) ++ List.replicate 32 0).take 32 :=
    congrArg Subtype.val h
  exact (List.cons.inj hval).1

theorem noCollision_clients : NoCollision padded { a | ∃ i, a = client i } := by
  have hid : ∀ i, (identityInput padded (client i)).length = 14 := by
    intro i
    simp [identityInput, client, normalise, padded, Str.trim, writeClient, IpAddr.octets]
  have haddr : ∀ i, (addressInput (client i).client).length = 6 := by
    intro i
    simp [addressInput, client, writeClient, IpAddr.octets]
  rintro x ⟨a, ⟨i, rfl⟩, rfl | rfl⟩ y ⟨b, ⟨j, rfl⟩, rfl | rfl⟩ h
  · exact padded_inj (by rw [hid, hid]) (by rw [hid]; decide) h
  · exact absurd (padded_head h) (by decide)
  · exact absurd (padded_head h) (by decide)
  · exact padded_inj (by rw [haddr, haddr]) (by rw [haddr]; decide) h

theorem noCollision_stuffing (limit : ℕ) : NoCollision padded (attempts (stuffing limit)) := by
  refine noCollision_clients.mono ?_
  rintro x ⟨a, ⟨e, he, rfl⟩, hx⟩
  exact ⟨e.attempt, (mem_stuffing he).1, hx⟩

/-! ### What the table does in it -/

section Table

variable (L : LoginThrottle)

theorem held_eq_none {t : Buckets} {key : Digest} : t.held key = none ↔ t.get? key = none :=
  Option.map_eq_none_iff

theorem size_spend {t : Buckets} {key : Digest} (h : t.held key = none) (q : Quota)
    (now : MonoInstant) : (t.spend key q now).size = t.size + 1 :=
  Table.size_put_of_get?_eq_none rfl (held_eq_none.mp h)

theorem client_ne {i j : ℕ} (hi : i < 2 ^ 32) (hj : j < 2 ^ 32) (h : i ≠ j) :
    (client i).address ≠ (client j).address := by
  intro hc
  have hbits : BitVec.ofNat 32 i = BitVec.ofNat 32 j := by simpa [client, Attempt.address] using hc
  have := congrArg BitVec.toNat hbits
  simp only [BitVec.toNat_ofNat] at this
  omega

/-- The keys of two clients of the crowd differ, and from each other. -/
theorem client_keys {i j : ℕ} (hi : i < 2 ^ 32) (hj : j < 2 ^ 32) (h : i ≠ j) :
    identityKey padded (client i) ≠ identityKey padded (client j) ∧
    addressKey padded (client i).client ≠ addressKey padded (client j).client := by
  have hne := client_ne hi hj h
  refine ⟨fun hk => hne ?_, fun hk => hne ?_⟩
  · exact congrArg Prod.snd ((identityKey_eq_iff noCollision_clients ⟨i, rfl⟩ ⟨j, rfl⟩).mp hk)
  · exact (addressKey_eq_iff noCollision_clients ⟨i, rfl⟩ ⟨j, rfl⟩).mp hk

theorem client_ne_key (i j : ℕ) :
    identityKey padded (client i) ≠ addressKey padded (client j).client :=
  identityKey_ne_addressKey noCollision_clients ⟨i, rfl⟩ ⟨j, rfl⟩

/-- While the table is short of the sweep, each new client adds its two buckets. -/
theorem crowd_run (n : ℕ) (hn : n ≤ 4096) :
    let t : Buckets := (throttle L padded).run (crowd n)
    t.size = 2 * n ∧
    (∀ i, n ≤ i → i < 2 ^ 32 → t.held (identityKey padded (client i)) = none ∧
      t.held (addressKey padded (client i).client) = none) ∧
    (0 < n → t.held (addressKey padded (client 0).client) = some (charge L.address none 0)) := by
  induction n with
  | zero => exact ⟨rfl, fun _ _ _ => ⟨rfl, rfl⟩, fun h => absurd h (lt_irrefl 0)⟩
  | succ n ih =>
    obtain ⟨hsize, hfresh, hfirst⟩ := ih (by omega)
    intro t
    set t₀ : Buckets := (throttle L padded).run (crowd n) with ht₀
    have ht : t = recordFailureAt L padded t₀ (client n) start := by
      rw [show t = (throttle L padded).run (crowd n ++ [.failure (client n) start]) from rfl,
        Machine.run_concat]
      rfl
    have hsweep : t₀.sweep L start = t₀ := by
      unfold Buckets.sweep
      rw [if_neg (by rw [hsize, sweepAt]; omega)]
    have hheld := held_recordFailureAt L padded t₀ (client n) start (client_ne_key n n)
    rw [← ht, hsweep] at hheld
    obtain ⟨hnid, hnaddr⟩ := hfresh n le_rfl (by omega)
    refine ⟨?_, fun i hi hi' => ?_, fun _ => ?_⟩
    · have hstep : t = (t₀.spend (identityKey padded (client n)) L.identity start).spend
          (addressKey padded (client n).client) L.address start := by
        rw [ht, recordFailureAt, hsweep]
        rfl
      rw [hstep, size_spend, size_spend hnid, hsize]
      · ring
      · rw [held_spend, if_neg (client_ne_key n n).symm, hnaddr]
    · have hkeys := client_keys hi' (by omega : n < 2 ^ 32) (by omega : i ≠ n)
      rw [hheld, hheld, if_neg (client_ne_key i n), if_neg hkeys.1, if_neg hkeys.2,
        if_neg (client_ne_key n i).symm]
      exact hfresh i (by omega) hi'
    · rcases Nat.eq_zero_or_pos n with rfl | hpos
      · rw [hheld, if_pos rfl, hnaddr, secs_start]
      · have hkeys := client_keys (by omega : 0 < 2 ^ 32) (by omega : n < 2 ^ 32) hpos.ne
        rw [hheld, if_neg hkeys.2, if_neg (client_ne_key n 0).symm]
        exact hfirst hpos

/-- What the table grants client `0`. -/
def granted (t : Buckets) : ℚ :=
  level L.address.bucket (t.held (addressKey padded (client 0).client)) 0

theorem level_charge (q : Quota) (b : Option (TokenBucket.Bucket ℚ)) (now : ℚ) :
    level q.bucket (some (charge q b now)) now = max (level q.bucket b now - 1) 0 := by
  have hcap : 0 ≤ q.bucket.cap := q.bucket.cap_nonneg
  exact TokenBucket.level_counted (max_le (by linarith [TokenBucket.level_le_cap q.bucket b now]) hcap)

theorem granted_failure (t : Buckets) :
    granted L (recordFailureAt L padded t (client 0) start) = max (granted L (t.sweep L start) - 1) 0 := by
  rw [granted, held_recordFailureAt L padded t (client 0) start (client_ne_key 0 0), if_pos rfl,
    secs_start, level_charge, granted]

/-- A sweep takes nothing away: a bucket it drops is replaced by a full one. -/
theorem granted_le_sweep (t : Buckets) : granted L t ≤ granted L (t.sweep L start) := by
  unfold granted Buckets.sweep
  split_ifs
  · unfold Buckets.held
    rw [Table.get?_delete]
    cases t.get? (addressKey padded (client 0).client) with
    | none => exact le_rfl
    | some e =>
      simp only [Option.filter_some]
      split_ifs
      · exact le_rfl
      · exact TokenBucket.level_le_cap _ _ _
  · exact le_rfl

theorem granted_failures (t : Buckets) (k : ℕ) :
    granted L t - k ≤ granted L
      ((List.replicate k (Event.failure (client 0) start)).foldl (throttle L padded).next t) := by
  induction k generalizing t with
  | zero => simp
  | succ k ih =>
    have hrest := ih (recordFailureAt L padded t (client 0) start)
    have hstep : granted L t - 1 ≤ granted L (recordFailureAt L padded t (client 0) start) := by
      rw [granted_failure]
      exact le_trans (by linarith [granted_le_sweep L t]) (le_max_left _ _)
    rw [List.replicate_succ, List.foldl_cons]
    push_cast
    exact le_trans (by linarith) hrest

variable (hlimits : clampLimit L.identityLimit < clampLimit L.addressLimit)

include hlimits

theorem capacity_lt : L.identity.capacity + 1 ≤ L.address.capacity := by
  rw [L.identity_eq, L.address_eq]
  simp only [Quota.new]
  exact_mod_cast hlimits

/-- The full table is swept at client `0`'s next failure, and its bucket of one failure goes. -/
theorem sweep_forgets :
    granted L (Buckets.sweep ((throttle L padded).run (crowd 4096)) L start) = L.address.capacity := by
  obtain ⟨hsize, -, hfirst⟩ := crowd_run L 4096 le_rfl
  have hcap := capacity_lt L hlimits
  obtain ⟨e, he, hview⟩ := Option.map_eq_some_iff.mp (hfirst (by norm_num))
  have hfull : L.identity.capacity ≤ e.2.tokensAt L.identity start := by
    rw [tokensAt_eq_level, hview, secs_start]
    refine le_min ?_ le_rfl
    simp only [charge, level, Quota.bucket, sub_self, max_self, zero_mul, add_zero]
    exact le_trans (by linarith) (le_max_left _ _)
  have hgone : Buckets.held (Buckets.sweep ((throttle L padded).run (crowd 4096)) L start)
      (addressKey padded (client 0).client) = none := by
    unfold Buckets.sweep
    rw [if_pos (by rw [hsize, sweepAt]), Buckets.held, Table.get?_delete, he]
    simpa using hfull
  rw [granted, hgone]
  rfl

/-- Client `0` has failed as often as its limit allows, and the table still grants one more. -/
theorem table_grants : 1 ≤ granted L ((throttle L padded).run
    (crowd 4096 ++ List.replicate (clampLimit L.addressLimit - 1) (.failure (client 0) start))) := by
  have hcap : L.address.capacity = clampLimit L.addressLimit := by rw [L.address_eq]; rfl
  obtain ⟨k, hk⟩ : ∃ k, clampLimit L.addressLimit = k + 2 := by
    have : 1 ≤ clampLimit L.identityLimit := le_max_right _ _
    exact ⟨clampLimit L.addressLimit - 2, by omega⟩
  rw [hk, Nat.add_sub_assoc (by norm_num), Machine.run, List.foldl_append, ← Machine.run,
    List.replicate_succ, List.foldl_cons]
  refine le_trans ?_ (granted_failures L _ k)
  change _ ≤ granted L (recordFailureAt L padded _ (client 0) start) - _
  rw [granted_failure, sweep_forgets L hlimits, hcap, hk]
  push_cast
  have := le_max_left ((k : ℚ) + 2 - 1) 0
  linarith

end Table

/-! ### What the reference does in it -/

section Reference

variable (L : LoginThrottle)

/-- What the reference grants client `0`. -/
def owed (l : Ledger) : ℚ := level L.address.bucket (l.address (client 0).address) 0

theorem owed_failure (l : Ledger) :
    owed L ((reference L padded).next l (.failure (client 0) start)) = max (owed L l - 1) 0 := by
  simp only [owed, Machine.next, reference, Function.update_self, secs_start]
  exact level_charge L.address _ 0

theorem owed_failure_other (l : Ledger) {n : ℕ} (hn : n < 2 ^ 32) (hpos : 0 < n) :
    owed L ((reference L padded).next l (.failure (client n) start)) = owed L l := by
  have hne := client_ne (by omega : 0 < 2 ^ 32) hn hpos.ne
  simp only [owed, Machine.next, reference, Function.update_of_ne hne]

theorem owed_crowd (n : ℕ) (hn : n < 2 ^ 32) :
    owed L ((reference L padded).run (crowd (n + 1))) = max (L.address.capacity - 1) 0 := by
  induction n with
  | zero => exact owed_failure L _
  | succ n ih =>
    rw [crowd, Machine.run_concat, owed_failure_other L _ hn (by omega), ih (by omega)]

theorem owed_failures (l : Ledger) (k : ℕ) (hle : owed L l ≤ k) :
    owed L ((List.replicate k (Event.failure (client 0) start)).foldl (reference L padded).next l) ≤ 0
    := by
  induction k generalizing l with
  | zero => simpa using hle
  | succ k ih =>
    rw [List.replicate_succ, List.foldl_cons]
    refine ih _ ?_
    rw [owed_failure]
    push_cast at hle
    exact max_le (by linarith) (Nat.cast_nonneg k)

theorem reference_refuses : owed L ((reference L padded).run
    (crowd 4096 ++ List.replicate (clampLimit L.addressLimit - 1) (.failure (client 0) start))) ≤ 0 := by
  have hone : 1 ≤ clampLimit L.addressLimit := le_max_right _ _
  rw [Machine.run, List.foldl_append, ← Machine.run]
  refine owed_failures L _ _ ?_
  rw [owed_crowd L 4095 (by norm_num), L.address_eq]
  simp only [Quota.new]
  rw [Nat.cast_sub hone, Nat.cast_one]
  exact max_le le_rfl (by linarith [one_le_clampLimit L.addressLimit])

end Reference

/-! ### The two answers -/

theorem decision_allowed {x y : ℚ} {q q' : Quota} (hx : 1 ≤ x) :
    decision [(x, q), (y, q')] = .allowed ↔ 1 ≤ y := by
  by_cases hy : 1 ≤ y
  · simp [decision, wait, not_lt.mpr hx, not_lt.mpr hy, hy]
  · simp [decision, wait, not_lt.mpr hx, not_le.mp hy, hy]

variable {L : LoginThrottle}

/-- Where the table still grants client `0` a token and the reference does not, a success and a
    check show it: the success leaves both without an identity bucket to refuse by. -/
theorem trace_ne_of_granted {es : List Event} (hgrants : 1 ≤ granted L ((throttle L padded).run es))
    (hrefuses : owed L ((reference L padded).run es) ≤ 0) :
    (throttle L padded).trace (es ++ [.success (client 0)] ++ [.check (client 0) start]) ≠
      (reference L padded).trace (es ++ [.success (client 0)] ++ [.check (client 0) start]) := by
  have htable : (throttle L padded).out ((throttle L padded).next ((throttle L padded).run es)
      (.success (client 0))) (.check (client 0) start) = some .allowed := by
    change some (checkAt L padded (recordSuccess padded _ (client 0)) (client 0) start) = _
    rw [checkAt, tokens_eq_level, tokens_eq_level, held_recordSuccess, held_recordSuccess, if_pos rfl,
      if_neg (client_ne_key 0 0).symm, secs_start]
    exact congrArg some ((decision_allowed L.identity.one_le_capacity).mpr hgrants)
  have href : (reference L padded).out ((reference L padded).next ((reference L padded).run es)
      (.success (client 0))) (.check (client 0) start) ≠ some .allowed := by
    simp only [Machine.out, Machine.next, reference, Function.update_self, secs_start, ne_eq,
      Option.some.injEq]
    rw [decision_allowed (by exact L.identity.one_le_capacity)]
    exact fun hone => absurd (hone.trans hrefuses) (by norm_num)
  intro h
  simp only [Machine.trace_concat, Machine.run_concat, htable] at h
  have hlast := List.singleton_inj.mp (List.append_inj_right' h rfl)
  exact href (Prod.mk.inj hlast).2.symm

/-- Where the limit per client is the larger, the last check of the run is allowed by the table and
    refused by the reference. -/
theorem stuffing_differs (hlimits : clampLimit L.identityLimit < clampLimit L.addressLimit) :
    (throttle L padded).trace (stuffing (clampLimit L.addressLimit)) ≠
      (reference L padded).trace (stuffing (clampLimit L.addressLimit)) := by
  have h := trace_ne_of_granted (table_grants L hlimits) (reference_refuses L)
  rwa [List.append_assoc _ [Event.success (client 0)]] at h

/-- The throttle answers as two families of buckets that nobody sweeps: in every run whose sweeps
    drop a client's bucket only when it is full, whatever the limits; and in every run at all
    exactly when the limit per client is at most the limit per identity. -/
theorem throttle_refines_iff (L : LoginThrottle) :
    (∀ P es, Ordered es → NoCollision P (attempts es) →
      (∀ i e, es[i]? = some e → Harmless L P ((throttle L P).run (es.take i)) e) →
      (throttle L P).trace es = (reference L P).trace es) ∧
    ((∀ P es, Ordered es → NoCollision P (attempts es) →
      (throttle L P).trace es = (reference L P).trace es) ↔
        clampLimit L.addressLimit ≤ clampLimit L.identityLimit) := by
  refine ⟨fun P es h hA hsweep => trace_eq_reference L P es h hA hsweep, fun h => ?_, ?_⟩
  · by_contra hlimits
    exact stuffing_differs (not_le.mp hlimits)
      (h padded _ (ordered_stuffing _) (noCollision_stuffing _))
  · intro hle P es h hA
    exact trace_eq_reference L P es h hA fun i e _ => harmless_of_limits hle P _ e

/-- At the default limits: after fifty failures of one client the reference refuses it, the throttle
    lets it try once more. -/
theorem stuffing_forgiven : Ordered (stuffing 50) ∧ NoCollision padded (attempts (stuffing 50)) ∧
    (throttle LoginThrottle.new padded).trace (stuffing 50) ≠
      (reference LoginThrottle.new padded).trace (stuffing 50) := by
  have hlimit : clampLimit LoginThrottle.new.addressLimit = 50 := by decide
  have hdiffers := stuffing_differs (L := LoginThrottle.new) (by decide)
  rw [hlimit] at hdiffers
  exact ⟨ordered_stuffing 50, noCollision_stuffing 50, hdiffers⟩

end Arcature.Auth.Throttle
