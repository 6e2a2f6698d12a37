import Arcature.Lib.Json

/-! The lifetimes of the cache.

    Four operations give a key a time to live. Each refuses a duration of zero, cuts what is left to whole
    seconds and hands it to the store, which knows nothing below a second and nothing above the signed
    range:

        put                      SET key value EX n        n = 0 is an error
        set_bytes_with_ttl       SET key value EX n
        set_if_absent_with_ttl   SET key value NX EX n
        expire                   EXPIRE key n              n ≤ 0 deletes the key

    A duration below a second is not zero and is cut to zero, and one of 2 ^ 63 seconds or more is beyond
    the range, where `expire` makes it negative. From one second on and below 2 ^ 63 a key that is set lives
    for the duration, to the second (`keeps_iff`). -/

namespace Arcature.CacheStore
open Arcature.Lib

/-! ### The store -/

/-- What a key holds, and the seconds it has left if it expires. -/
structure Entry where
  value : Bytes
  ttl : Option ℤ
  deriving DecidableEq

/-- The keys of the store. -/
abbrev Backend := Map Str Entry

/-- An expiry that a `SET` takes. -/
def isExpiry (seconds : UInt64) : Bool := 1 ≤ seconds.toNat && seconds.toNat < 2 ^ 63

/-- `SET key value EX seconds`; `none` is an error. -/
def Backend.setEx (store : Backend) (key : Str) (value : Bytes) (seconds : UInt64) : Option Backend :=
  if isExpiry seconds then some (store.insert key ⟨value, some seconds.toNat⟩) else none

/-- `SET key value NX EX seconds`: nothing is set where the key is there; whether it was set. -/
def Backend.setNxEx (store : Backend) (key : Str) (value : Bytes) (seconds : UInt64) : Option (Bool × Backend) :=
  if isExpiry seconds then
    match store.get? key with
    | some _ => some (false, store)
    | none => some (true, store.insert key ⟨value, some seconds.toNat⟩)
  else none

/-- `EXPIRE key seconds`: whether the key is there. -/
def Backend.expire (store : Backend) (key : Str) (seconds : Int64) : Bool × Backend :=
  match store.get? key with
  | none => (false, store)
  | some entry =>
    if seconds.toInt ≤ 0 then (true, store.remove key)
    else (true, store.insert key { entry with ttl := some seconds.toInt })

/-! ### The operations -/

/-- `std::time::Duration` in nanoseconds; its seconds have 64 bits. -/
abbrev StdDuration := {ns : ℕ // ns < 2 ^ 64 * 10 ^ 9}

/-- `as_secs`: the whole seconds. -/
def asSecs (ttl : StdDuration) : UInt64 := UInt64.ofNat (ttl.1 / 10 ^ 9)

/-- `CacheError`. -/
inductive CacheError where
  | backend
  | decode
  | payloadTooLarge (size limit : ℕ)
  | zeroTtl
  deriving DecidableEq

/-- `Cache`: its limit on a value, and the prefix of its keys. -/
structure Cache where
  maxPayloadSize : Option ℕ
  keyspace : Str

/-- `resolve_key`. -/
def Cache.resolveKey (cache : Cache) (key : Str) : Str :=
  if cache.keyspace = [] then key else cache.keyspace ++ ':' :: key

/-- `check_payload_size`. -/
def checkPayloadSize (size : ℕ) (limit : Option ℕ) : Except CacheError Unit :=
  match limit with
  | some limit => if size > limit then .error (.payloadTooLarge size limit) else .ok ()
  | none => .ok ()

section operations

variable {τ : Type} (toVec : τ → Option Bytes) (cache : Cache)

/-- `set_bytes_with_ttl`. -/
def Cache.setBytesWithTtl (store : Backend) (key : Str) (value : Bytes) (ttl : StdDuration) :
    Except CacheError Unit × Backend :=
  if ttl.1 = 0 then (.error .zeroTtl, store)
  else
    match checkPayloadSize value.length cache.maxPayloadSize with
    | .error e => (.error e, store)
    | .ok () =>
      match store.setEx (cache.resolveKey key) value (asSecs ttl) with
      | none => (.error .backend, store)
      | some store => (.ok (), store)

/-- `put`: the value is serialized first. -/
def Cache.put (store : Backend) (key : Str) (value : τ) (ttl : StdDuration) : Except CacheError Unit × Backend :=
  if ttl.1 = 0 then (.error .zeroTtl, store)
  else
    match toVec value with
    | none => (.error .decode, store)
    | some bytes =>
      match checkPayloadSize bytes.length cache.maxPayloadSize with
      | .error e => (.error e, store)
      | .ok () =>
        match store.setEx (cache.resolveKey key) bytes (asSecs ttl) with
        | none => (.error .backend, store)
        | some store => (.ok (), store)

/-- `expire`: the seconds are cast to signed ones. -/
def Cache.expire (store : Backend) (key : Str) (ttl : StdDuration) : Except CacheError Bool × Backend :=
  if ttl.1 = 0 then (.error .zeroTtl, store)
  else
    let (set, store) := store.expire (cache.resolveKey key) (asSecs ttl).toInt64
    (.ok set, store)

/-- `set_if_absent_with_ttl`. -/
def Cache.setIfAbsentWithTtl (store : Backend) (key : Str) (value : Bytes) (ttl : StdDuration) :
    Except CacheError Bool × Backend :=
  if ttl.1 = 0 then (.error .zeroTtl, store)
  else
    match checkPayloadSize value.length cache.maxPayloadSize with
    | .error e => (.error e, store)
    | .ok () =>
      match store.setNxEx (cache.resolveKey key) value (asSecs ttl) with
      | none => (.error .backend, store)
      | some (set, store) => (.ok set, store)

/-- An operation that gives a key a time to live. -/
inductive Operation (τ : Type) where
  | put (value : τ)
  | setBytesWithTtl (value : Bytes)
  | expire
  | setIfAbsentWithTtl (value : Bytes)

/-- The call of an operation; whether it set something is not asked here. -/
def Operation.call (op : Operation τ) (store : Backend) (key : Str) (ttl : StdDuration) :
    Except CacheError Unit × Backend :=
  match op with
  | .put value => cache.put toVec store key value ttl
  | .setBytesWithTtl value => cache.setBytesWithTtl store key value ttl
  | .expire => (cache.expire store key ttl).map (·.map fun _ => ()) id
  | .setIfAbsentWithTtl value => (cache.setIfAbsentWithTtl store key value ttl).map (·.map fun _ => ()) id

end operations

/-! ### What is claimed of a lifetime -/

/-- Seconds that are left after a duration was given: some, and the duration but for a part of a second. -/
def Lifetime (ttl : StdDuration) (seconds : ℤ) : Prop := 0 < seconds ∧ |seconds * 10 ^ 9 - (ttl.1 : ℤ)| < 10 ^ 9

/-- The key is there, with such seconds left. -/
def Lives (store : Backend) (key : Str) (ttl : StdDuration) : Prop :=
  ∃ entry seconds, store.get? key = some entry ∧ entry.ttl = some seconds ∧ Lifetime ttl seconds

section claim

variable {τ : Type} (toVec : τ → Option Bytes) (cache : Cache)

/-- The number that the store is handed. -/
def Operation.seconds (op : Operation τ) (ttl : StdDuration) : ℤ :=
  match op with
  | .expire => (asSecs ttl).toInt64.toInt
  | _ => (asSecs ttl).toNat

/-- A call with a duration: zero is refused and changes nothing, and any other lets the key live. -/
structure Keeps (op : Operation τ) (store : Backend) (key : Str) (ttl : StdDuration) : Prop where
  zero : (op.call toVec cache store key ttl).1 = .error .zeroTtl ↔ ttl.1 = 0
  lives : op.call toVec cache store key ttl = (.error .zeroTtl, store) ∨
    ((op.call toVec cache store key ttl).1 = .ok () ∧
      Lives (op.call toVec cache store key ttl).2 (cache.resolveKey key) ttl)
  kept : ∀ k, store.get? k ≠ none → (op.call toVec cache store key ttl).2.get? k ≠ none
  signed : 0 ≤ op.seconds ttl

/-- The call has something to set: a value within the limit, a key that is there for `expire`, and for
    `set_if_absent_with_ttl` one that is not, or that lives as long as it would. -/
def Operation.Applies (op : Operation τ) (store : Backend) (key : Str) (ttl : StdDuration) : Prop :=
  match op with
  | .put value => ∃ bytes, toVec value = some bytes ∧ checkPayloadSize bytes.length cache.maxPayloadSize = .ok ()
  | .setBytesWithTtl value => checkPayloadSize value.length cache.maxPayloadSize = .ok ()
  | .expire => store.get? (cache.resolveKey key) ≠ none
  | .setIfAbsentWithTtl value => checkPayloadSize value.length cache.maxPayloadSize = .ok () ∧
      (store.get? (cache.resolveKey key) ≠ none → Lives store (cache.resolveKey key) ttl)

end claim

/-! ### Seconds -/

section seconds

variable {ttl : StdDuration}

theorem toNat_asSecs (ttl : StdDuration) : (asSecs ttl).toNat = ttl.1 / 10 ^ 9 := by
  have hlt : ttl.1 / 10 ^ 9 < 2 ^ 64 := (Nat.div_lt_iff_lt_mul (by decide)).mpr ttl.2
  rw [asSecs, UInt64.toNat_ofNat_of_lt' hlt]

/-- The store takes the seconds of a duration that has some, within the signed range. -/
theorem isExpiry_asSecs : isExpiry (asSecs ttl) = true ↔ 10 ^ 9 ≤ ttl.1 ∧ ttl.1 < 2 ^ 63 * 10 ^ 9 := by
  rw [isExpiry, toNat_asSecs, Bool.and_eq_true, decide_eq_true_eq, decide_eq_true_eq]
  omega

theorem lifetime_asSecs (h : isExpiry (asSecs ttl) = true) : Lifetime ttl (asSecs ttl).toNat := by
  rw [isExpiry_asSecs] at h
  rw [Lifetime, toNat_asSecs, abs_lt]
  omega

/-- The cast keeps the seconds in the signed range, and makes them negative beyond it. -/
theorem toInt_asSecs (ttl : StdDuration) : (asSecs ttl).toInt64.toInt =
    if ttl.1 < 2 ^ 63 * 10 ^ 9 then ((asSecs ttl).toNat : ℤ) else (asSecs ttl).toNat - 2 ^ 64 := by
  have hlt := ttl.2
  rw [toNat_asSecs, asSecs, UInt64.toInt64_ofNat', Int64.toInt_ofNat', Int64.size, Int.bmod_def]
  split_ifs <;> omega

theorem toInt_asSecs_pos : 0 < (asSecs ttl).toInt64.toInt ↔ isExpiry (asSecs ttl) = true := by
  have hlt := ttl.2
  rw [toInt_asSecs, isExpiry_asSecs, toNat_asSecs]
  split_ifs <;> omega

end seconds

/-! ### Zero, a part of a second, and the rest -/

section main

variable {τ : Type} {toVec : τ → Option Bytes} {cache : Cache} {op : Operation τ} {store : Backend} {key : Str}
  {ttl : StdDuration}

/-- Zero is refused by each operation. -/
theorem call_zero (h : ttl.1 = 0) : op.call toVec cache store key ttl = (.error .zeroTtl, store) := by
  cases op <;> simp [Operation.call, Cache.put, Cache.setBytesWithTtl, Cache.expire, Cache.setIfAbsentWithTtl, h,
    Except.map]

theorem checkPayloadSize_ne_zeroTtl {size : ℕ} {limit : Option ℕ} {e : CacheError}
    (h : checkPayloadSize size limit = .error e) : e ≠ .zeroTtl := by
  rintro rfl
  rw [checkPayloadSize.eq_def] at h
  split at h
  · split_ifs at h
    cases h
  · cases h

theorem lives_insert {backend : Backend} {k : Str} {entry : Entry} {seconds : ℤ} (hentry : entry.ttl = some seconds)
    (h : Lifetime ttl seconds) : Lives (backend.insert k entry) k ttl :=
  ⟨entry, seconds, by rw [Map.get?_insert, if_pos rfl], hentry, h⟩

theorem kept_insert {backend : Backend} {k : Str} {entry : Entry} (k' : Str) (h : backend.get? k' ≠ none) :
    (backend.insert k entry).get? k' ≠ none := by
  rw [Map.get?_insert]
  split_ifs
  · exact Option.some_ne_none _
  · exact h

/-- What a call with some duration comes to: the store takes the seconds and the key lives, or it does not. -/
inductive Comes (toVec : τ → Option Bytes) (cache : Cache) (op : Operation τ) (store : Backend) (key : Str)
    (ttl : StdDuration) : Except CacheError Unit × Backend → Prop where
  | lives (after : Backend) (hlives : Lives after (cache.resolveKey key) ttl)
      (hkept : ∀ k, store.get? k ≠ none → after.get? k ≠ none) (hexpiry : isExpiry (asSecs ttl) = true)
      (happlies : op.Applies toVec cache store key ttl) : Comes toVec cache op store key ttl (.ok (), after)
  | fails (e : CacheError) (he : e ≠ .zeroTtl)
      (hnot : ¬ (isExpiry (asSecs ttl) = true ∧ op.Applies toVec cache store key ttl)) :
      Comes toVec cache op store key ttl (.error e, store)
  | gone (after : Backend) (hgone : ¬ Lives after (cache.resolveKey key) ttl)
      (hnot : ¬ (isExpiry (asSecs ttl) = true ∧ op.Applies toVec cache store key ttl)) :
      Comes toVec cache op store key ttl (.ok (), after)

theorem setEx_lives {backend after : Backend} {k : Str} {value : Bytes}
    (h : backend.setEx k value (asSecs ttl) = some after) :
    isExpiry (asSecs ttl) = true ∧ Lives after k ttl ∧ ∀ k', backend.get? k' ≠ none → after.get? k' ≠ none := by
  rw [Backend.setEx] at h
  split_ifs at h with hexpiry
  obtain rfl := Option.some.inj h
  exact ⟨hexpiry, lives_insert rfl (lifetime_asSecs hexpiry), kept_insert⟩

theorem not_expiry_of_setEx {backend : Backend} {k : Str} {value : Bytes}
    (h : backend.setEx k value (asSecs ttl) = none) : ¬ isExpiry (asSecs ttl) = true := by
  rw [Backend.setEx] at h
  split_ifs at h with hexpiry
  exact hexpiry

theorem comes_setBytesWithTtl (value : Bytes) (h : ttl.1 ≠ 0) :
    Comes toVec cache (.setBytesWithTtl value) store key ttl (cache.setBytesWithTtl store key value ttl) := by
  rw [Cache.setBytesWithTtl, if_neg h]
  cases hcheck : checkPayloadSize value.length cache.maxPayloadSize with
  | error e =>
    refine .fails e (checkPayloadSize_ne_zeroTtl hcheck) fun ⟨_, hok⟩ => ?_
    rw [Operation.Applies, hcheck] at hok
    cases hok
  | ok =>
    dsimp only
    cases hset : store.setEx (cache.resolveKey key) value (asSecs ttl) with
    | none => exact .fails .backend nofun fun ⟨hexpiry, _⟩ => not_expiry_of_setEx hset hexpiry
    | some after =>
      obtain ⟨hexpiry, hlives, hkept⟩ := setEx_lives hset
      exact .lives after hlives hkept hexpiry hcheck

/-- A call that comes to the same as that of another operation, which applies just when it does. -/
theorem Comes.of_applies {other : Operation τ} {outcome : Except CacheError Unit × Backend}
    (h : Comes toVec cache other store key ttl outcome)
    (happlies : other.Applies toVec cache store key ttl ↔ op.Applies toVec cache store key ttl) :
    Comes toVec cache op store key ttl outcome := by
  cases h with
  | lives after hlives hkept hexpiry hother => exact .lives after hlives hkept hexpiry (happlies.mp hother)
  | fails e he hnot => exact .fails e he fun h => hnot ⟨h.1, happlies.mpr h.2⟩
  | gone after hgone hnot => exact .gone after hgone fun h => hnot ⟨h.1, happlies.mpr h.2⟩

/-- What is serialized is set as bytes are. -/
theorem put_eq {value : τ} {bytes : Bytes} (hvec : toVec value = some bytes) :
    cache.put toVec store key value ttl = cache.setBytesWithTtl store key bytes ttl := by
  rw [Cache.put, hvec, Cache.setBytesWithTtl]

theorem comes_put (value : τ) (h : ttl.1 ≠ 0) :
    Comes toVec cache (.put value) store key ttl (cache.put toVec store key value ttl) := by
  cases hvec : toVec value with
  | none =>
    rw [Cache.put, if_neg h, hvec]
    refine .fails .decode nofun fun ⟨_, bytes, hbytes, _⟩ => ?_
    rw [hvec] at hbytes
    cases hbytes
  | some bytes =>
    rw [put_eq hvec]
    refine (comes_setBytesWithTtl bytes h).of_applies ⟨fun hok => ⟨bytes, hvec, hok⟩, ?_⟩
    rintro ⟨bytes', hbytes, hok⟩
    obtain rfl := Option.some.inj (hvec.symm.trans hbytes)
    exact hok

/-- A key that is deleted or not there does not live, and one that stays lives for the seconds of the cast. -/
theorem comes_expire (h : ttl.1 ≠ 0) : Comes toVec cache .expire store key ttl
    ((cache.expire store key ttl).map (·.map fun _ => ()) id) := by
  rw [Cache.expire, if_neg h, Backend.expire]
  cases hget : store.get? (cache.resolveKey key) with
  | none =>
    refine .gone store (fun ⟨entry, _, hentry, _⟩ => ?_) fun ⟨_, happlies⟩ => happlies hget
    rw [hget] at hentry
    cases hentry
  | some entry =>
    dsimp only
    split_ifs with hseconds
    · refine .gone _ (fun ⟨entry', _, hentry, _⟩ => ?_) fun ⟨hexpiry, _⟩ => ?_
      · have hgone : (Map.remove store (cache.resolveKey key)).get? (cache.resolveKey key) = none := by
          rw [Map.get?_remove, if_pos rfl]
        exact absurd (hgone.symm.trans hentry) nofun
      · have := toInt_asSecs_pos.mpr hexpiry
        omega
    · have hexpiry : isExpiry (asSecs ttl) = true := toInt_asSecs_pos.mp (by omega)
      have hcast : (asSecs ttl).toInt64.toInt = (asSecs ttl).toNat := by
        rw [toInt_asSecs, if_pos (isExpiry_asSecs.mp hexpiry).2]
      refine .lives _ (lives_insert rfl ?_) kept_insert hexpiry (by rw [Operation.Applies, hget]; exact nofun)
      rw [hcast]
      exact lifetime_asSecs hexpiry

theorem comes_setIfAbsentWithTtl (value : Bytes) (h : ttl.1 ≠ 0) :
    Comes toVec cache (.setIfAbsentWithTtl value) store key ttl
      ((cache.setIfAbsentWithTtl store key value ttl).map (·.map fun _ => ()) id) := by
  rw [Cache.setIfAbsentWithTtl, if_neg h]
  cases hcheck : checkPayloadSize value.length cache.maxPayloadSize with
  | error e =>
    refine .fails e (checkPayloadSize_ne_zeroTtl hcheck) ?_
    rintro ⟨-, hok, -⟩
    rw [hcheck] at hok
    cases hok
  | ok =>
    rw [Backend.setNxEx]
    dsimp only
    split_ifs with hexpiry
    · cases hget : store.get? (cache.resolveKey key) with
      | none =>
        exact .lives _ (lives_insert rfl (lifetime_asSecs hexpiry)) kept_insert hexpiry
          ⟨hcheck, fun hthere => absurd hget hthere⟩
      | some entry =>
        -- the key is left as it is, with whatever it has left
        have hthere : store.get? (cache.resolveKey key) ≠ none := by rw [hget]; exact Option.some_ne_none _
        by_cases hlives : Lives store (cache.resolveKey key) ttl
        · exact .lives store hlives (fun _ hk => hk) hexpiry ⟨hcheck, fun _ => hlives⟩
        · exact .gone store hlives fun h => hlives (h.2.2 hthere)
    · exact .fails .backend (by simp) fun h => hexpiry h.1

theorem comes_call (op : Operation τ) (h : ttl.1 ≠ 0) :
    Comes toVec cache op store key ttl (op.call toVec cache store key ttl) := by
  cases op with
  | put value => exact comes_put value h
  | setBytesWithTtl value => exact comes_setBytesWithTtl value h
  | expire => exact comes_expire h
  | setIfAbsentWithTtl value => exact comes_setIfAbsentWithTtl value h

/-- The claim needs a duration that the store takes, and a call that applies. -/
theorem applies_of_keeps (h : Keeps toVec cache op store key ttl) (hne : ttl.1 ≠ 0) :
    isExpiry (asSecs ttl) = true ∧ op.Applies toVec cache store key ttl := by
  have hcomes : Comes toVec cache op store key ttl (op.call toVec cache store key ttl) := comes_call op hne
  have hlives := h.lives
  generalize op.call toVec cache store key ttl = outcome at hcomes hlives
  cases hcomes with
  | lives after _ _ hexpiry happlies => exact ⟨hexpiry, happlies⟩
  | fails e he _ =>
    rcases hlives with heq | ⟨hok, -⟩
    · exact absurd (Except.error.inj (congrArg Prod.fst heq)) he
    · cases hok
  | gone after hgone _ =>
    rcases hlives with heq | ⟨-, hlives⟩
    · cases congrArg Prod.fst heq
    · exact absurd hlives hgone

theorem keeps_of_zero (h : ttl.1 = 0) : Keeps toVec cache op store key ttl := by
  have hcall : op.call toVec cache store key ttl = (.error .zeroTtl, store) := call_zero h
  refine ⟨by rw [hcall]; exact ⟨fun _ => h, fun _ => rfl⟩, .inl hcall, by rw [hcall]; exact fun _ hk => hk, ?_⟩
  have hzero : (asSecs ttl).toNat = 0 := by rw [toNat_asSecs, h, Nat.zero_div]
  cases op with
  | expire => rw [Operation.seconds, toInt_asSecs, if_pos (by omega), hzero]; exact le_rfl
  | put value | setBytesWithTtl value | setIfAbsentWithTtl value => exact Int.natCast_nonneg _

theorem keeps_of_applies (hexpiry : isExpiry (asSecs ttl) = true) (happlies : op.Applies toVec cache store key ttl) :
    Keeps toVec cache op store key ttl := by
  have hne : ttl.1 ≠ 0 := by
    have := (isExpiry_asSecs.mp hexpiry).1
    omega
  have hsigned : 0 ≤ op.seconds ttl := by
    cases op with
    | expire => exact (toInt_asSecs_pos.mpr hexpiry).le
    | put value | setBytesWithTtl value | setIfAbsentWithTtl value => exact Int.natCast_nonneg _
  have hcomes : Comes toVec cache op store key ttl (op.call toVec cache store key ttl) := comes_call op hne
  cases hcall : op.call toVec cache store key ttl with
  | mk answer after =>
    rw [hcall] at hcomes
    cases hcomes with
    | lives _ hlives hkept _ _ =>
      refine ⟨by rw [hcall]; exact ⟨nofun, fun h => absurd h hne⟩, .inr ?_, by rw [hcall]; exact hkept, hsigned⟩
      rw [hcall]
      exact ⟨rfl, hlives⟩
    | fails e _ hnot => exact absurd ⟨hexpiry, happlies⟩ hnot
    | gone _ _ hnot => exact absurd ⟨hexpiry, happlies⟩ hnot

/-- Whatever the operation, the store, the key and the duration: the claim on lifetimes holds of a call exactly if
    the duration is zero, or the call has something to set and the duration is one second at least and below
    2 ^ 63 seconds. -/
theorem keeps_iff (toVec : τ → Option Bytes) (cache : Cache) (op : Operation τ) (store : Backend) (key : Str)
    (ttl : StdDuration) : Keeps toVec cache op store key ttl ↔
      ttl.1 = 0 ∨ (10 ^ 9 ≤ ttl.1 ∧ ttl.1 < 2 ^ 63 * 10 ^ 9 ∧ op.Applies toVec cache store key ttl) := by
  rw [← and_assoc, ← isExpiry_asSecs]
  constructor
  · intro h
    by_cases hzero : ttl.1 = 0
    · exact .inl hzero
    · exact .inr (applies_of_keeps h hzero)
  · rintro (hzero | ⟨hexpiry, happlies⟩)
    · exact keeps_of_zero hzero
    · exact keeps_of_applies hexpiry happlies

end main

/-- Half a second. -/
def halfSecond : StdDuration := ⟨5 * 10 ^ 8, by decide⟩

/-- A session that is given half a second more is deleted. -/
theorem session_deleted : ¬ Keeps (fun _ : Unit => none) ⟨none, []⟩ .expire
    (Map.insert .empty "session".toList ⟨[], none⟩) "session".toList halfSecond := by
  intro h
  exact absurd (applies_of_keeps h (by decide)).1 (by decide)

end Arcature.CacheStore
