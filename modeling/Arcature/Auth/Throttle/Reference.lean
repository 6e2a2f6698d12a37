import Arcature.Auth.Throttle.Buckets

/-! The throttle against two families of buckets that nobody sweeps.

    The reference keeps a bucket for each normalised email and canonical client under the identity
    quota, and one for each canonical client under the address quota, for ever. The throttle keeps
    the same under digests, in one map. As long as no digests collide, what the two hold for an
    attempt cannot be told apart from now on (`Agrees`), and every call keeps that, except a failure
    whose sweep drops a client's bucket that is not full: the sweep measures every bucket by the
    identity quota. -/

namespace Arcature.Auth.Throttle
open Arcature.Lib
open Arcature.Lib.TokenBucket (level SameFrom)

/-- The quota as the capacity and the rate of a bucket. -/
def Quota.bucket (q : Quota) : TokenBucket.Quota ℚ :=
  ⟨q.capacity, q.refillPerSec, by linarith [q.one_le_capacity], q.refill_pos.le⟩

/-- A stored bucket on the axis of seconds. -/
def Bucket.view (b : Bucket) : TokenBucket.Bucket ℚ := ⟨b.tokens, b.updated.secs⟩

/-- What the table holds under a key. -/
def Buckets.held (t : Buckets) (key : Digest) : Option (TokenBucket.Bucket ℚ) :=
  (t.get? key).map fun e => e.2.view

/-- A bucket after a failure: one token less, never below none. -/
def charge (q : Quota) (b : Option (TokenBucket.Bucket ℚ)) (now : ℚ) : TokenBucket.Bucket ℚ :=
  ⟨max (level q.bucket b now - 1) 0, now⟩

/-- The canonical form of the client. -/
def Attempt.address (a : Attempt) : Option IpAddr := a.client.map IpAddr.toCanonical

/-- The normalised email and the canonical client. -/
def Attempt.identity (P : Platform) (a : Attempt) : Str × Option IpAddr :=
  (normalise P a.email, a.address)

/-- The buckets of the reference. -/
structure Ledger where
  identity : Str × Option IpAddr → Option (TokenBucket.Bucket ℚ)
  address : Option IpAddr → Option (TokenBucket.Bucket ℚ)

/-- Two families of buckets, kept for ever; a success resets only the first. -/
def reference (L : LoginThrottle) (P : Platform) : Machine Ledger Event (Option ThrottleDecision) where
  init := ⟨fun _ => none, fun _ => none⟩
  step l
    | .check a now =>
      (l, some (decision
        [(level L.identity.bucket (l.identity (a.identity P)) now.secs, L.identity),
          (level L.address.bucket (l.address a.address) now.secs, L.address)]))
    | .failure a now =>
      (⟨Function.update l.identity (a.identity P)
          (some (charge L.identity (l.identity (a.identity P)) now.secs)),
        Function.update l.address a.address
          (some (charge L.address (l.address a.address) now.secs))⟩, none)
    | .success a => (⟨Function.update l.identity (a.identity P) none, l.address⟩, none)

/-! ### What a run has to meet -/

/-- The instants of the calls do not decrease. -/
def Ordered (es : List Event) : Prop := (es.filterMap Event.now?).Pairwise fun s t => s.ns ≤ t.ns

/-- The attempts of a run. -/
def attempts (es : List Event) : Set Attempt := { a | ∃ e ∈ es, e.attempt = a }

/-- No two inputs hashed for these attempts have the same digest. -/
def NoCollision (P : Platform) (A : Set Attempt) : Prop :=
  Set.InjOn P.sha256 { x | ∃ a ∈ A, x = identityInput P a ∨ x = addressInput a.client }

/-- The call does not sweep a client's bucket that is not full under its own quota. -/
def Harmless (L : LoginThrottle) (P : Platform) (t : Buckets) : Event → Prop
  | .failure _ now => sweepAt ≤ t.size → ∀ client e, t.get? (addressKey P client) = some e →
      L.identity.capacity ≤ e.2.tokensAt L.identity now →
      L.address.capacity ≤ e.2.tokensAt L.address now
  | _ => True

/-! ### Keys name what they are made of -/

theorem length_unattributed : unattributed.length = 36 := by
  rw [unattributed, Str.length_bytes]
  decide

theorem length_writeClient (client : Option IpAddr) :
    (writeClient client).length = 5 ∨ (writeClient client).length = 17 ∨
      (writeClient client).length = 37 := by
  unfold writeClient
  rcases client with - | address
  · simp [length_unattributed]
  · cases h : address.toCanonical with
    | v4 bits => simp [h, IpAddr.octets]
    | v6 bits => simp [h, IpAddr.octets]

theorem writeClient_inj {c d : Option IpAddr} :
    writeClient c = writeClient d ↔ c.map IpAddr.toCanonical = d.map IpAddr.toCanonical := by
  constructor
  · intro h
    rcases c with - | c <;> rcases d with - | d
    · rfl
    · unfold writeClient at h
      cases hd : d.toCanonical <;> simp [hd] at h
    · unfold writeClient at h
      cases hc : c.toCanonical <;> simp [hc] at h
    · unfold writeClient at h
      simp only [Option.map_some, Option.some.injEq]
      cases hc : c.toCanonical <;> cases hd : d.toCanonical <;> simp only [hc, hd] at h
      · rw [IpAddr.v4_octets_inj (List.cons.inj h).2]
      · simp at h
      · simp at h
      · rw [IpAddr.v6_octets_inj (List.cons.inj h).2]
  · intro h
    rcases c with - | c <;> rcases d with - | d
    · rfl
    · simp at h
    · simp at h
    · simp only [Option.map_some, Option.some.injEq] at h
      simp only [writeClient, h]

theorem addressInput_inj {a b : Attempt} :
    addressInput a.client = addressInput b.client ↔ a.address = b.address := by
  rw [addressInput, addressInput, List.cons.injEq, writeClient_inj]
  simp [Attempt.address]

/-- The length prefix keeps the email and the client apart, whatever either holds. -/
theorem identityInput_inj {P : Platform} {a b : Attempt} :
    identityInput P a = identityInput P b ↔ a.identity P = b.identity P := by
  constructor
  · intro h
    have htail := (List.cons.inj h).2
    rw [List.append_assoc, List.append_assoc] at htail
    obtain ⟨hhead, hrest⟩ := List.append_inj htail (by simp)
    have hmod := mod_eq_of_beBytes hhead
    have hlen := congrArg List.length hrest
    rw [List.length_append, List.length_append, Str.length_bytes, Str.length_bytes] at hlen
    have hc := length_writeClient a.client
    have hd := length_writeClient b.client
    obtain ⟨hemail, hclient⟩ := List.append_inj hrest (by
      rw [Str.length_bytes, Str.length_bytes]
      omega)
    exact Prod.ext (Str.bytes_injective hemail) (writeClient_inj.mp hclient)
  · intro h
    have hemail : normalise P a.email = normalise P b.email := congrArg Prod.fst h
    have hclient : writeClient a.client = writeClient b.client :=
      writeClient_inj.mpr (congrArg Prod.snd h)
    rw [identityInput, identityInput, hemail, hclient]

theorem identityInput_ne_addressInput (P : Platform) (a : Attempt) (c : Option IpAddr) :
    identityInput P a ≠ addressInput c := by
  intro h
  exact absurd (List.cons.inj h).1 (by decide)

section Keys

variable {P : Platform} {A : Set Attempt} (hA : NoCollision P A) {a b : Attempt} (ha : a ∈ A)
  (hb : b ∈ A)

include hA ha hb

theorem identityKey_eq_iff : identityKey P a = identityKey P b ↔ a.identity P = b.identity P := by
  rw [← identityInput_inj]
  exact ⟨fun h => hA ⟨a, ha, Or.inl rfl⟩ ⟨b, hb, Or.inl rfl⟩ h, fun h => congrArg P.sha256 h⟩

theorem addressKey_eq_iff : addressKey P a.client = addressKey P b.client ↔ a.address = b.address := by
  rw [← addressInput_inj]
  exact ⟨fun h => hA ⟨a, ha, Or.inr rfl⟩ ⟨b, hb, Or.inr rfl⟩ h, fun h => congrArg P.sha256 h⟩

theorem identityKey_ne_addressKey : identityKey P a ≠ addressKey P b.client := fun h =>
  identityInput_ne_addressInput P a b.client (hA ⟨a, ha, Or.inl rfl⟩ ⟨b, hb, Or.inr rfl⟩ h)

end Keys

/-! ### One call on the table -/

theorem tokensAt_eq_level (b : Bucket) (q : Quota) (now : MonoInstant) :
    b.tokensAt q now = level q.bucket (some b.view) now.secs := by
  rw [Bucket.tokensAt, MonoInstant.asSecs_since]
  rfl

theorem tokens_eq_level (t : Buckets) (key : Digest) (q : Quota) (now : MonoInstant) :
    t.tokens key q now = level q.bucket (t.held key) now.secs := by
  unfold Buckets.tokens Buckets.held
  cases t.get? key with
  | none => rfl
  | some e => exact tokensAt_eq_level e.2 q now

theorem held_spend (t : Buckets) (key k : Digest) (q : Quota) (now : MonoInstant) :
    (t.spend key q now).held k =
      if k = key then some (charge q (t.held key) now.secs) else t.held k := by
  have htokens : ∀ b : Bucket, b = ((t.get? key).map Prod.snd).getD
      ⟨q.capacity, now, by linarith [q.one_le_capacity]⟩ →
      b.tokensAt q now = level q.bucket (t.held key) now.secs := by
    rintro b rfl
    unfold Buckets.held
    cases t.get? key with
    | none => simp [Bucket.tokensAt, MonoInstant.asSecs_since, level, Quota.bucket]
    | some e => exact tokensAt_eq_level e.2 q now
  unfold Buckets.spend
  rw [Buckets.held, Table.get?_put]
  split_ifs
  · simp only [Option.map_some, Bucket.view, htokens _ rfl, charge]
  · rfl

theorem held_recordFailureAt (L : LoginThrottle) (P : Platform) (t : Buckets) (a : Attempt)
    (now : MonoInstant) (hne : identityKey P a ≠ addressKey P a.client) (k : Digest) :
    (recordFailureAt L P t a now).held k =
      if k = addressKey P a.client then
        some (charge L.address ((t.sweep L now).held (addressKey P a.client)) now.secs)
      else if k = identityKey P a then
        some (charge L.identity ((t.sweep L now).held (identityKey P a)) now.secs)
      else (t.sweep L now).held k := by
  simp only [recordFailureAt, List.foldl_cons, List.foldl_nil, held_spend, hne.symm, if_false]

theorem held_recordSuccess (P : Platform) (t : Buckets) (a : Attempt) (k : Digest) :
    (recordSuccess P t a).held k = if k = identityKey P a then none else t.held k := by
  unfold recordSuccess Buckets.held
  rw [Table.get?_delete]
  cases hrow : t.get? k with
  | none => simp
  | some e =>
    obtain ⟨key, b⟩ := e
    obtain rfl : key = k := Table.key_of_get? hrow
    by_cases hk : key = identityKey P a
    · simp [hk]
    · simp [hk]

/-- Dropping a bucket that is full under its quota cannot be told. -/
theorem sweep_sameFrom (L : LoginThrottle) (t : Buckets) (q : Quota) (now : MonoInstant) (k : Digest)
    (h : sweepAt ≤ t.size → ∀ e, t.get? k = some e →
      L.identity.capacity ≤ e.2.tokensAt L.identity now → q.capacity ≤ e.2.tokensAt q now) :
    SameFrom q.bucket now.secs ((t.sweep L now).held k) (t.held k) := by
  unfold Buckets.sweep
  split_ifs with hsize
  · unfold Buckets.held
    rw [Table.get?_delete]
    refine TokenBucket.sameFrom_filter fun e hrow hdropped => ?_
    have hfull := h hsize e hrow (by simpa using hdropped)
    rwa [tokensAt_eq_level] at hfull
  · exact SameFrom.refl _ _ _

theorem charge_congr {q : Quota} {b b' : Option (TokenBucket.Bucket ℚ)} {now : ℚ}
    (h : SameFrom q.bucket now b b') : charge q b now = charge q b' now := by
  unfold charge
  rw [h now le_rfl]

/-! ### Agreement -/

/-- What table and ledger hold for the attempts of `A` cannot be told apart from `s` on. -/
structure Agrees (L : LoginThrottle) (P : Platform) (A : Set Attempt) (s : ℚ) (t : Buckets)
    (l : Ledger) : Prop where
  identity : ∀ a ∈ A, SameFrom L.identity.bucket s (t.held (identityKey P a))
    (l.identity (a.identity P))
  address : ∀ a ∈ A, SameFrom L.address.bucket s (t.held (addressKey P a.client))
    (l.address a.address)

section Steps

variable {L : LoginThrottle} {P : Platform} {A : Set Attempt} {t : Buckets} {l : Ledger} {a : Attempt}
  {now : MonoInstant}

theorem Agrees.later {s s' : ℚ} (h : Agrees L P A s t l) (hs : s ≤ s') : Agrees L P A s' t l :=
  ⟨fun a ha => (h.identity a ha).later hs, fun a ha => (h.address a ha).later hs⟩

theorem Agrees.check (h : Agrees L P A now.secs t l) (ha : a ∈ A) :
    (throttle L P).out t (.check a now) = (reference L P).out l (.check a now) := by
  have hid := h.identity a ha now.secs le_rfl
  have haddr := h.address a ha now.secs le_rfl
  simp only [Machine.out, throttle, reference, checkAt, tokens_eq_level, hid, haddr]

theorem Agrees.failure (hA : NoCollision P A) (h : Agrees L P A now.secs t l) (ha : a ∈ A)
    (hsweep : Harmless L P t (.failure a now)) :
    Agrees L P A now.secs ((throttle L P).next t (.failure a now))
      ((reference L P).next l (.failure a now)) := by
  have hne := identityKey_ne_addressKey hA ha ha
  -- what the sweep leaves still agrees: identity buckets are measured by their own quota,
  -- address buckets are harmless by assumption
  have hid : ∀ b ∈ A, SameFrom L.identity.bucket now.secs ((t.sweep L now).held (identityKey P b))
      (l.identity (b.identity P)) := fun b hb =>
    (sweep_sameFrom L t L.identity now _ fun _ _ _ hfull => hfull).trans (h.identity b hb)
  have haddr : ∀ b ∈ A, SameFrom L.address.bucket now.secs
      ((t.sweep L now).held (addressKey P b.client)) (l.address b.address) := fun b hb =>
    (sweep_sameFrom L t L.address now _ fun hsize => hsweep hsize b.client).trans (h.address b hb)
  refine ⟨fun b hb => ?_, fun b hb => ?_⟩
  · have hother := identityKey_ne_addressKey hA hb ha
    change SameFrom _ _ (Buckets.held (recordFailureAt L P t a now) _) _
    rw [held_recordFailureAt L P t a now hne, if_neg hother]
    simp only [Machine.next, reference, Function.update_apply, identityKey_eq_iff hA hb ha]
    split_ifs
    · rw [charge_congr (hid a ha)]
      exact SameFrom.refl _ _ _
    · exact hid b hb
  · have hother := (identityKey_ne_addressKey hA ha hb).symm
    change SameFrom _ _ (Buckets.held (recordFailureAt L P t a now) _) _
    rw [held_recordFailureAt L P t a now hne, if_neg hother]
    simp only [Machine.next, reference, Function.update_apply, addressKey_eq_iff hA hb ha]
    split_ifs
    · rw [charge_congr (haddr a ha)]
      exact SameFrom.refl _ _ _
    · exact haddr b hb

theorem Agrees.success (hA : NoCollision P A) {s : ℚ} (h : Agrees L P A s t l) (ha : a ∈ A) :
    Agrees L P A s ((throttle L P).next t (.success a)) ((reference L P).next l (.success a)) := by
  refine ⟨fun b hb => ?_, fun b hb => ?_⟩
  · change SameFrom _ _ (Buckets.held (recordSuccess P t a) _) _
    rw [held_recordSuccess]
    simp only [Machine.next, reference, Function.update_apply, identityKey_eq_iff hA hb ha]
    split_ifs
    · exact SameFrom.refl _ _ _
    · exact h.identity b hb
  · change SameFrom _ _ (Buckets.held (recordSuccess P t a) _) _
    rw [held_recordSuccess, if_neg (identityKey_ne_addressKey hA ha hb).symm]
    exact h.address b hb

end Steps

/-! ### Whole runs -/

theorem Ordered.before {es : List Event} (h : Ordered es) {i : ℕ} {e e' : Event} {s now : MonoInstant}
    (he : es[i]? = some e) (he' : e' ∈ es.take i) (hs : e'.now? = some s)
    (hnow : e.now? = some now) : s.ns ≤ now.ns := by
  rw [Ordered, List.pairwise_filterMap] at h
  obtain ⟨hi, rfl⟩ := List.getElem?_eq_some_iff.mp he
  have hcut := h.sublist (List.take_sublist (i + 1) es)
  rw [List.take_succ_eq_append_getElem hi] at hcut
  exact (List.pairwise_append.mp hcut).2.2 e' he' es[i] (by simp) s hs now hnow

/-- In every run without collisions whose instants do not decrease and whose sweeps drop only full
    buckets, the throttle answers as the reference does. -/
theorem trace_eq_reference (L : LoginThrottle) (P : Platform) (es : List Event) (h : Ordered es)
    (hA : NoCollision P (attempts es))
    (hsweep : ∀ i e, es[i]? = some e → Harmless L P ((throttle L P).run (es.take i)) e) :
    (throttle L P).trace es = (reference L P).trace es := by
  refine Machine.trace_eq_of_sim
    (R := fun fs t l => ∀ s, (∀ e ∈ fs, ∀ now, e.now? = some now → now.secs ≤ s) →
      Agrees L P (attempts es) s t l)
    (A := fun fs e => e.attempt ∈ attempts es ∧ Harmless L P ((throttle L P).run fs) e ∧
      ∀ now, e.now? = some now → ∀ e' ∈ fs, ∀ s, e'.now? = some s → s.secs ≤ now.secs) ?_ ?_ es ?_
  · intro s _
    exact ⟨fun _ _ => SameFrom.refl _ _ _, fun _ _ => SameFrom.refl _ _ _⟩
  · rintro fs e ⟨ha, hharm, hbefore⟩ hagree
    have hfs : ∀ {s}, (∀ e' ∈ fs ++ [e], ∀ now, e'.now? = some now → now.secs ≤ s) →
        ∀ e' ∈ fs, ∀ now, e'.now? = some now → now.secs ≤ s :=
      fun hs e' he' => hs e' (List.mem_append_left _ he')
    cases e with
    | check a now =>
      have hnow := hagree now.secs (hbefore now rfl)
      exact ⟨hnow.check ha, fun s hs => hagree s (hfs hs)⟩
    | failure a now =>
      have hnow := hagree now.secs (hbefore now rfl)
      refine ⟨rfl, fun s hs => (hnow.failure hA ha hharm).later ?_⟩
      exact hs (.failure a now) (by simp) now rfl
    | success a => exact ⟨rfl, fun s hs => (hagree s (hfs hs)).success hA ha⟩
  · intro i e he
    refine ⟨⟨e, List.mem_of_getElem? he, rfl⟩, hsweep i e he, fun now hnow e' he' s hs => ?_⟩
    exact MonoInstant.secs_le.mpr (h.before he he' hs hnow)

end Arcature.Auth.Throttle
