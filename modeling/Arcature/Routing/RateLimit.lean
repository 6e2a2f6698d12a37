import Arcature.Lib.Clock
import Arcature.Lib.Machine
import Arcature.Lib.Table
import Arcature.Lib.TokenBucket

/-! The rate limiter's quota and its two backends (`routing/rate_limit.rs`), with the floating-point
    arithmetic read exactly.

    Both backends answer a check of one key: refill by the time gone by, spend a token if there is
    one, and describe what is left. They differ in where a bucket lives and in which clock dates it.

        MemoryBuckets  one map of every key's bucket, swept of full ones past `sweepAt` rows,
                       dated by the process's monotonic clock
        BUCKET_SCRIPT  one hash per key on the shared server, dated by whichever instance calls -/

namespace Arcature.Routing
open Arcature.Lib

/-- How many keys the in-memory backend tolerates before it sweeps. -/
def sweepAt : ℕ := 8192

/-- The outcome of one bucket check. -/
structure Decision where
  allowed : Bool
  remaining : ℕ
  resetAfter : ℕ
  retryAfter : ℕ
  deriving DecidableEq

/-- The refill parameters, shared by both backends. -/
structure Quota where
  limit : ℕ
  capacity : ℚ
  refillPerSec : ℚ
  capacity_nonneg : 0 ≤ capacity
  refill_nonneg : 0 ≤ refillPerSec

/-- `as u32`: truncation, saturating at both ends. -/
def asU32 (x : ℚ) : ℕ := min ⌊x⌋₊ (2 ^ 32 - 1)

/-- `as u64`: truncation, saturating at both ends. -/
def asU64 (x : ℚ) : ℕ := min ⌊x⌋₊ (2 ^ 64 - 1)

/-- Seconds, rounded up, for `tokens` to accrue at `rate` per second. -/
def secondsToAccrue (tokens rate : ℚ) : ℕ :=
  if tokens ≤ 0 ∨ rate ≤ 0 then 0 else asU64 ⌈tokens / rate⌉

namespace Quota

/-- The quota of `RateLimit::new`, whose window is at least a millisecond. -/
def new (limit : ℕ) (window : Duration) : Quota where
  limit := limit
  capacity := limit
  refillPerSec := limit / Duration.asSecs (max window (10 ^ 6))
  capacity_nonneg := Nat.cast_nonneg limit
  refill_nonneg := div_nonneg (Nat.cast_nonneg limit) (div_nonneg (Nat.cast_nonneg _) (by norm_num))

/-- `RateLimit::per_second`. -/
def perSecond (limit : ℕ) : Quota := new limit (10 ^ 9)

/-- `RateLimit::per_minute`. -/
def perMinute (limit : ℕ) : Quota := new limit (60 * 10 ^ 9)

/-- `RateLimit::per_hour`. -/
def perHour (limit : ℕ) : Quota := new limit (3600 * 10 ^ 9)

/-- `RateLimit::burst`. -/
def burst (q : Quota) (burst : ℕ) : Quota :=
  { q with capacity := burst, capacity_nonneg := Nat.cast_nonneg burst }

/-- Turn a post-spend token count into the headers a client sees. -/
def describe (q : Quota) (tokensLeft : ℚ) (allowed : Bool) : Decision where
  allowed := allowed
  remaining := asU32 (max tokensLeft 0)
  resetAfter := secondsToAccrue (max (q.capacity - tokensLeft) 0) q.refillPerSec
  retryAfter := if allowed then 0 else max (secondsToAccrue (1 - tokensLeft) q.refillPerSec) 1

/-- Spend a token if there is one, and describe the result. -/
def settle (q : Quota) (tokens : ℚ) : ℚ × Decision :=
  if 1 ≤ tokens then (tokens - 1, q.describe (tokens - 1) true) else (tokens, q.describe tokens false)

end Quota

/-! ### The in-memory backend -/

/-- One key's bucket. -/
structure Bucket where
  tokens : ℚ
  updated : MonoInstant
  deriving DecidableEq

/-- `tokens` after `elapsed` of refill, capped at capacity. -/
def refilled (tokens : ℚ) (q : Quota) (elapsed : Duration) : ℚ :=
  min (tokens + elapsed.asSecs * q.refillPerSec) q.capacity

/-- A map entry is named by its key. -/
abbrev schema : Schema (String × Bucket) String := ⟨Prod.fst, fun _ => true⟩

/-- The in-memory bucket table. -/
abbrev MemoryBuckets := Table schema

namespace MemoryBuckets

/-- Past `sweepAt` rows, drop the buckets that have refilled to capacity. -/
def sweep (t : MemoryBuckets) (q : Quota) (now : MonoInstant) : MemoryBuckets :=
  if sweepAt ≤ t.size then
    t.delete fun (_, b) =>
      !decide (refilled b.tokens q (now.saturatingDurationSince b.updated) < q.capacity)
  else t

/-- `MemoryBuckets::check`, the whole of it under the table's lock. -/
def check (t : MemoryBuckets) (key : String) (q : Quota) (now : MonoInstant) :
    MemoryBuckets × Decision :=
  let swept := sweep t q now
  -- `entry(key).or_insert(..)`: a key without a bucket starts on a full one
  let bucket := ((swept.get? key).map Prod.snd).getD ⟨q.capacity, now⟩
  let tokens := refilled bucket.tokens q (now.saturatingDurationSince bucket.updated)
  let (left, decision) := q.settle tokens
  (swept.put (key, ⟨left, now⟩) rfl, decision)

end MemoryBuckets

/-- One call of `check`. -/
structure Check where
  key : String
  now : MonoInstant
  deriving DecidableEq

/-- The in-memory backend under one quota. -/
def memory (q : Quota) : Machine MemoryBuckets Check Decision where
  init := Table.empty
  step t c := t.check c.key q c.now

/-! ### The shared backend -/

/-- What the hash under one key holds: fields `t` and `u`. -/
structure Shared where
  tokens : ℚ
  updated : ℕ
  deriving DecidableEq

/-- `BUCKET_SCRIPT` on one key that does not expire: the hash it leaves, then what it returns,
    `allowed` and the thousandths of tokens left. -/
def bucketScript (capacity refillPerMs : ℚ) (state : Option Shared) (nowMs : ℕ) :
    Shared × (ℤ × ℤ) :=
  let ⟨tokens, updated⟩ := state.getD ⟨capacity, nowMs⟩
  let elapsed : ℤ := if (nowMs : ℤ) - updated < 0 then 0 else (nowMs : ℤ) - updated
  let tokens := min capacity (tokens + elapsed * refillPerMs)
  if 1 ≤ tokens then
    (⟨tokens - 1, nowMs⟩, 1, ⌊(tokens - 1) * 1000⌋)
  else
    (⟨tokens, nowMs⟩, 0, ⌊tokens * 1000⌋)

/-- The shared backend on one key: an event is one execution, with the caller's clock reading. -/
def shared (capacity refillPerMs : ℚ) : Machine (Option Shared) ℕ (ℤ × ℤ) where
  init := none
  step state nowMs := (bucketScript capacity refillPerMs state nowMs).map some id

/-- What `RedisBuckets::check` makes of the script's reply. -/
def ofReply (q : Quota) (reply : ℤ × ℤ) : Decision :=
  q.describe (reply.2 / 1000) (reply.1 = 1)

end Arcature.Routing
