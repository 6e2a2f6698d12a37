import Arcature.Auth.Plaintext
import Arcature.Lib.Machine
import Arcature.Lib.Net
import Arcature.Lib.Table
import Arcature.Lib.TokenBucket

/-! The login throttle (`auth/flows/throttle.rs`), with the floating-point arithmetic read exactly.

    One map holds two families of buckets under digests: one per address tried and client trying it,
    one per client alone. A check reads both and writes nothing, a failure takes a token from both,
    a success forgets the first. The map is swept when a failure finds it too long.

        identityKey  SHA-256 of  1 | len | normalised email | client
        addressKey   SHA-256 of  2 | client -/

namespace Arcature.Auth.Throttle
open Arcature.Lib

/-- What the throttle takes from outside: the digest, and the lower-casing of text. -/
structure Platform where
  sha256 : Bytes → Digest
  toLowercase : Str → Str

/-- How large the bucket table may grow before idle entries are dropped. -/
def sweepAt : ℕ := 8192

/-- The floor on a reported wait. -/
def minimumRetryAfter : Duration := 10 ^ 9

/-- Whether another sign-in attempt may be made. -/
inductive ThrottleDecision where
  | allowed
  | tooManyAttempts (retryAfter : Duration)
  deriving DecidableEq

/-! ### Quotas -/

/-- One bucket's worth of allowance. -/
structure Quota where
  capacity : ℚ
  refillPerSec : ℚ
  one_le_capacity : 1 ≤ capacity
  refill_pos : 0 < refillPerSec

/-- The window a quota is spread over, never under a millisecond. -/
def clampWindow (window : Duration) : Duration := max window (10 ^ 6)

/-- The limit a quota is built on, never under one. -/
def clampLimit (limit : ℕ) : ℕ := max limit 1

theorem asSecs_clampWindow_pos (window : Duration) : 0 < (clampWindow window).asSecs := by
  have : 0 < clampWindow window := lt_of_lt_of_le (by norm_num) (le_max_right _ _)
  exact div_pos (Nat.cast_pos.mpr this) (by norm_num)

theorem one_le_clampLimit (limit : ℕ) : (1 : ℚ) ≤ clampLimit limit := by
  exact_mod_cast le_max_right limit 1

/-- `limit` failures per `window`. -/
def Quota.new (limit : ℕ) (window : Duration) : Quota where
  capacity := clampLimit limit
  refillPerSec := clampLimit limit / (clampWindow window).asSecs
  one_le_capacity := one_le_clampLimit limit
  refill_pos := div_pos (by linarith [one_le_clampLimit limit]) (asSecs_clampWindow_pos window)

/-- The limits of a throttle, with the quotas computed from them. -/
structure LoginThrottle where
  window : Duration
  identityLimit : ℕ
  addressLimit : ℕ
  identity : Quota
  address : Quota
  identity_eq : identity = Quota.new identityLimit window
  address_eq : address = Quota.new addressLimit window

namespace LoginThrottle

/-- A throttle at given limits. -/
def ofLimits (identityLimit addressLimit : ℕ) (window : Duration) : LoginThrottle :=
  ⟨window, identityLimit, addressLimit, _, _, rfl, rfl⟩

/-- Five failures per address per client and fifty per client, both forgiven over a quarter hour. -/
def new : LoginThrottle := ofLimits 5 50 (15 * 60 * 10 ^ 9)

/-- `per_identity`. -/
def perIdentity (L : LoginThrottle) (limit : ℕ) : LoginThrottle :=
  { L with identityLimit := limit, identity := Quota.new limit L.window, identity_eq := rfl }

/-- `per_address`. -/
def perAddress (L : LoginThrottle) (limit : ℕ) : LoginThrottle :=
  { L with addressLimit := limit, address := Quota.new limit L.window, address_eq := rfl }

/-- `window`, which recomputes both quotas. -/
def withWindow (L : LoginThrottle) (window : Duration) : LoginThrottle :=
  ofLimits L.identityLimit L.addressLimit window

end LoginThrottle

/-! ### Keys -/

/-- Who tries what: the email field of the form and the client, if its address is known. -/
structure Attempt where
  email : Str
  client : Option IpAddr
  deriving DecidableEq

def identityDomain : UInt8 := 1

def addressDomain : UInt8 := 2

/-- Stand-in for a client whose address is not known. -/
def unattributed : Bytes := Str.bytes "arcature/login-throttle/unattributed".toList

/-- Fold an address into the form the counters are kept under. -/
def normalise (P : Platform) (email : Str) : Str := P.toLowercase email.trim

/-- What is fed to the hasher for a client. -/
def writeClient : Option IpAddr → Bytes
  | some address =>
    match address.toCanonical with
    | .v4 bits => 4 :: (IpAddr.v4 bits).octets
    | .v6 bits => 6 :: (IpAddr.v6 bits).octets
  | none => 0 :: unattributed

/-- What is hashed for one address tried from one client. -/
def identityInput (P : Platform) (a : Attempt) : Bytes :=
  identityDomain :: (be64 (normalise P a.email).len ++ (normalise P a.email).bytes ++
    writeClient a.client)

/-- What is hashed for one client, whatever it is trying. -/
def addressInput (client : Option IpAddr) : Bytes := addressDomain :: writeClient client

/-- `identity_key`. -/
def identityKey (P : Platform) (a : Attempt) : Digest := P.sha256 (identityInput P a)

/-- `address_key`. -/
def addressKey (P : Platform) (client : Option IpAddr) : Digest := P.sha256 (addressInput client)

/-! ### Buckets -/

/-- What is known about one key: failures still tolerated, as of `updated`. -/
structure Bucket where
  tokens : ℚ
  updated : MonoInstant
  nonneg : 0 ≤ tokens

/-- Tokens available now, without writing anything back. -/
def Bucket.tokensAt (b : Bucket) (q : Quota) (now : MonoInstant) : ℚ :=
  min (b.tokens + (now.saturatingDurationSince b.updated).asSecs * q.refillPerSec) q.capacity

/-- A map entry is named by its digest. -/
abbrev schema : Schema (Digest × Bucket) Digest := ⟨Prod.fst, fun _ => true⟩

/-- The counters. -/
abbrev Buckets := Table schema

namespace Buckets

/-- The tokens under a key, a missing bucket being full. -/
def tokens (t : Buckets) (key : Digest) (q : Quota) (now : MonoInstant) : ℚ :=
  ((t.get? key).map fun e => e.2.tokensAt q now).getD q.capacity

/-- One turn of the loop of `record_failure_at`: settle what is owed to one bucket, then spend. -/
def spend (t : Buckets) (key : Digest) (q : Quota) (now : MonoInstant) : Buckets :=
  let bucket := ((t.get? key).map Prod.snd).getD ⟨q.capacity, now, by linarith [q.one_le_capacity]⟩
  t.put (key, ⟨max (bucket.tokensAt q now - 1) 0, now, le_max_right _ _⟩) rfl

/-- Past `sweepAt` rows, drop every bucket that is full under the identity quota. -/
def sweep (t : Buckets) (L : LoginThrottle) (now : MonoInstant) : Buckets :=
  if sweepAt ≤ t.size then
    t.delete fun (_, b) => !decide (b.tokensAt L.identity now < L.identity.capacity)
  else t

end Buckets

/-! ### Calls -/

/-- To the nearest whole number, a tie to the even one. -/
def roundHalfEven (x : ℚ) : ℕ :=
  if x - ⌊x⌋₊ < 1 / 2 ∨ (x - ⌊x⌋₊ = 1 / 2 ∧ ⌊x⌋₊ % 2 = 0) then ⌊x⌋₊ else ⌊x⌋₊ + 1

/-- `Duration::from_secs_f64`, to the nearest nanosecond. It panics past the widest duration, where
    no wait lies (`wait_le_window`). -/
def fromSecs (seconds : ℚ) : Duration := roundHalfEven (seconds * 10 ^ 9)

/-- The wait a bucket that holds `tokens` asks for, if it refuses. -/
def wait (q : Quota) (tokens : ℚ) : Option Duration :=
  if tokens < 1 then some (max (fromSecs ((1 - tokens) / q.refillPerSec)) minimumRetryAfter)
  else none

theorem roundHalfEven_le {x : ℚ} {n : ℕ} (hx : 0 ≤ x) (h : x ≤ n) : roundHalfEven x ≤ n := by
  have hfloor : (⌊x⌋₊ : ℚ) ≤ x := Nat.floor_le hx
  have hle : ⌊x⌋₊ ≤ n := by exact_mod_cast hfloor.trans h
  unfold roundHalfEven
  split_ifs with hdown
  · exact hle
  · -- rounding up needs a fraction, so the whole part is short of `n`
    rcases hle.lt_or_eq with hlt | heq
    · exact hlt
    · rw [heq] at hdown
      exact absurd (Or.inl (by linarith)) hdown

/-- No wait is longer than the window it is refilled over, or than the floor under it. -/
theorem wait_le_window {limit : ℕ} {window : Duration} {tokens : ℚ} {d : Duration} (ht : 0 ≤ tokens)
    (h : wait (Quota.new limit window) tokens = some d) :
    d ≤ max (clampWindow window) minimumRetryAfter := by
  unfold wait at h
  split_ifs at h with hlt
  cases h
  refine max_le_max ?_ le_rfl
  have hW := asSecs_clampWindow_pos window
  have hlim := one_le_clampLimit limit
  set W := (clampWindow window).asSecs with hWdef
  have hwait : (1 - tokens) / (clampLimit limit / W) ≤ W := by
    rw [div_div_eq_mul_div, div_le_iff₀ (by linarith)]
    nlinarith
  refine roundHalfEven_le (by
    have : 0 ≤ (1 - tokens) / (clampLimit limit / W) :=
      div_nonneg (by linarith) (div_nonneg (by linarith) hW.le)
    exact mul_nonneg this (by norm_num)) ?_
  calc (1 - tokens) / (clampLimit limit / W) * 10 ^ 9 ≤ W * 10 ^ 9 := by gcongr
    _ = ((clampWindow window : ℕ) : ℚ) := by rw [hWdef, Duration.asSecs]; field_simp

/-- The loop of `check_at` over what its two buckets hold: the longer of the waits. -/
def decision (pairs : List (ℚ × Quota)) : ThrottleDecision :=
  let longest := pairs.foldl (fun longest (tokens, q) =>
    match wait q tokens, longest with
    | none, longest => longest
    | some this, none => some this
    | some this, some longest => some (max longest this)) none
  match longest with
  | some retryAfter => .tooManyAttempts retryAfter
  | none => .allowed

/-- `check_at`. -/
def checkAt (L : LoginThrottle) (P : Platform) (t : Buckets) (a : Attempt) (now : MonoInstant) :
    ThrottleDecision :=
  decision [(t.tokens (identityKey P a) L.identity now, L.identity),
    (t.tokens (addressKey P a.client) L.address now, L.address)]

/-- `record_failure_at`. -/
def recordFailureAt (L : LoginThrottle) (P : Platform) (t : Buckets) (a : Attempt)
    (now : MonoInstant) : Buckets :=
  [(identityKey P a, L.identity), (addressKey P a.client, L.address)].foldl
    (fun t (key, q) => t.spend key q now) (t.sweep L now)

/-- `record_success`. -/
def recordSuccess (P : Platform) (t : Buckets) (a : Attempt) : Buckets :=
  t.delete fun (key, _) => key = identityKey P a

/-- One call on the throttle. -/
inductive Event where
  | check (a : Attempt) (now : MonoInstant)
  | failure (a : Attempt) (now : MonoInstant)
  | success (a : Attempt)
  deriving DecidableEq

/-- Whom a call is about. -/
def Event.attempt : Event → Attempt
  | check a _ => a
  | failure a _ => a
  | success a => a

/-- The instant a call is made at, if it takes one. -/
def Event.now? : Event → Option MonoInstant
  | check _ now => some now
  | failure _ now => some now
  | success _ => none

/-- The throttle: checks answer, the rest does not. -/
def throttle (L : LoginThrottle) (P : Platform) : Machine Buckets Event (Option ThrottleDecision) where
  init := Table.empty
  step t
    | .check a now => (t, some (checkAt L P t a now))
    | .failure a now => (recordFailureAt L P t a now, none)
    | .success a => (recordSuccess P t a, none)

end Arcature.Auth.Throttle
