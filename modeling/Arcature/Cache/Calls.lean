import Arcature.Cache.Store
import Arcature.Lib.Double
import Arcature.Lib.Expiry
import Arcature.Lib.Tasks

/-! The calls of the cache against one server (`cache/store.rs`).

    Each call checks what it was given, sends one request and reads the reply; `remember` sends a second where the
    first found nothing and its loader had an answer:

        calling ── refused ──────────────────────────────▶ returned (error)
           ├── sent, answered ───────────────────────────▶ returned (answer)
           ├── sent and answered too late, or not sent ──▶ returned (Backend)
           └── remember: nothing there ──▶ loading ──▶ storing ──▶ returned (answer)
                                              └── the loader's error ──▶ returned (error)

    Any number of clients call at once, each with a namespace and a limit of its own, while the server's clock goes
    on. A call writes once at most, whatever becomes of the connection; an error that is not `Backend` says that it
    wrote nothing, and an answer that it wrote exactly once; and a lease that was acquired keeps the others out until
    its time is over or somebody deletes, overwrites or shortens it (`cached`). -/

namespace Arcature.CacheStore
open Arcature.Lib Arcature.Lib.Expiry

/-! ### The server -/

/-- What is sent. -/
inductive Sent where
  | get (key : Str)
  | set (key : Str) (value : Bytes) (nx : Bool) (ex : Option UInt64)
  | del (key : Str)
  | exists (key : Str)
  | incrBy (key : Str) (delta : Int64)
  | decrBy (key : Str) (delta : Int64)
  | expire (key : Str) (seconds : Int64)

/-- What comes back. -/
inductive Reply where
  | error
  | nil
  | ok
  | bytes (value : Bytes)
  | int (n : ℤ)

/-- The server counts milliseconds. -/
def millis (seconds : ℕ) : ℕ := seconds * 1000

/-- A value that is a number: digits as they are printed, in the signed range. -/
def readInt (value : Bytes) : Option ℤ := (Str.ofBytes? value).bind fun s => (parseI64 s).filter fun n => intText n = s

/-- The number a value becomes; what is not there counts as zero. -/
def addTo (delta : ℤ) (value : Option Bytes) : Option ℤ :=
  ((value.map readInt).getD (some 0)).bind fun n =>
    if -2 ^ 63 ≤ n + delta ∧ n + delta < 2 ^ 63 then some (n + delta) else none

/-- The command of a request, if the server takes it. -/
def Sent.command : Sent → Option (Command Str Bytes)
  | .get key | .exists key => some (.get key)
  | .set key value nx ex =>
    if ex.all isExpiry then
      let ttl := ex.map fun seconds => millis seconds.toNat
      some (if nx then .setNx key value ttl else .set key value ttl)
    else none
  | .del key => some (.del key)
  | .incrBy key delta => some (.update key fun value => (addTo delta.toInt value).map fun n => (intText n).bytes)
  | .decrBy key delta =>
    if delta.toInt = -2 ^ 63 then none
    else some (.update key fun value => (addTo (-delta.toInt) value).map fun n => (intText n).bytes)
  | .expire key seconds => some (.expire key (seconds.toInt * 1000))

/-- What the server says to a request that it gets at a state. -/
def Sent.reply (s : Expiry.Store Str Bytes) : Sent → Reply
  | .get key => ((s.look key).map Reply.bytes).getD .nil
  | .set key _ nx ex => if ex.all isExpiry then if nx && (s.live key).isSome then .nil else .ok else .error
  | .del key | .exists key | .expire key _ => .int (if (s.live key).isSome then 1 else 0)
  | .incrBy key delta => ((addTo delta.toInt (s.look key)).map Reply.int).getD .error
  | .decrBy key delta =>
    if delta.toInt = -2 ^ 63 then .error else ((addTo (-delta.toInt) (s.look key)).map Reply.int).getD .error

/-! ### The calls -/

/-- A method of `Cache`, with its arguments. -/
inductive Call (τ : Type) where
  | getBytes (key : Str)
  | get (key : Str)
  | setBytes (key : Str) (value : Bytes)
  | set (key : Str) (value : τ)
  | put (key : Str) (value : τ) (ttl : StdDuration)
  | setBytesWithTtl (key : Str) (value : Bytes) (ttl : StdDuration)
  | remember (key : Str) (ttl : StdDuration)
  | forget (key : Str)
  | exists (key : Str)
  | incr (key : Str) (delta : Int64)
  | decr (key : Str) (delta : Int64)
  | expire (key : Str) (ttl : StdDuration)
  | setIfAbsent (key : Str) (value : Bytes)
  | setIfAbsentWithTtl (key : Str) (value : Bytes) (ttl : StdDuration)

/-- What a call answers. -/
inductive Outcome (τ : Type) where
  | unit
  | bytes (value : Option Bytes)
  | value (value : Option τ)
  | count (n : ℤ)
  | flag (set : Bool)

/-- The key a call is about. -/
def Call.key {τ : Type} : Call τ → Str
  | .getBytes key | .get key | .setBytes key _ | .set key _ | .put key _ _ | .setBytesWithTtl key _ _ | .remember key _
  | .forget key | .exists key | .incr key _ | .decr key _ | .expire key _ | .setIfAbsent key _
  | .setIfAbsentWithTtl key _ _ => key

section Steps

variable {τ : Type} (toVec : τ → Option Bytes) (fromSlice : Bytes → Option τ)

/-- `check_payload_size` before a request. -/
def Cache.sized (cache : Cache) (value : Bytes) (request : Sent) : Except CacheError Sent :=
  (checkPayloadSize value.length cache.maxPayloadSize).map fun _ => request

/-- The request of a call, unless it is refused first. -/
def Call.request (cache : Cache) : Call τ → Except CacheError Sent
  | .getBytes key | .get key | .remember key _ => .ok (.get (cache.resolveKey key))
  | .setBytes key value => cache.sized value (.set (cache.resolveKey key) value false none)
  | .set key value =>
    match toVec value with
    | none => .error .decode
    | some bytes => cache.sized bytes (.set (cache.resolveKey key) bytes false none)
  | .put key value ttl =>
    if ttl.1 = 0 then .error .zeroTtl
    else
      match toVec value with
      | none => .error .decode
      | some bytes => cache.sized bytes (.set (cache.resolveKey key) bytes false (some (asSecs ttl)))
  | .setBytesWithTtl key value ttl =>
    if ttl.1 = 0 then .error .zeroTtl
    else cache.sized value (.set (cache.resolveKey key) value false (some (asSecs ttl)))
  | .forget key => .ok (.del (cache.resolveKey key))
  | .exists key => .ok (.exists (cache.resolveKey key))
  | .incr key delta => .ok (.incrBy (cache.resolveKey key) delta)
  | .decr key delta => .ok (.decrBy (cache.resolveKey key) delta)
  | .expire key ttl =>
    if ttl.1 = 0 then .error .zeroTtl else .ok (.expire (cache.resolveKey key) (asSecs ttl).toInt64)
  | .setIfAbsent key value => cache.sized value (.set (cache.resolveKey key) value true none)
  | .setIfAbsentWithTtl key value ttl =>
    if ttl.1 = 0 then .error .zeroTtl
    else cache.sized value (.set (cache.resolveKey key) value true (some (asSecs ttl)))

/-- What `get` makes of the bytes it got. -/
def Cache.read (cache : Cache) (bytes : Bytes) : Except CacheError (Outcome τ) :=
  match checkPayloadSize bytes.length cache.maxPayloadSize with
  | .error e => .error e
  | .ok () =>
    match fromSlice bytes with
    | none => .error .decode
    | some value => .ok (.value (some value))

/-- What a call makes of the reply. A reply of another shape is the client library's error. -/
def Call.answer (cache : Cache) : Call τ → Reply → Except CacheError (Outcome τ)
  | .getBytes _, .nil => .ok (.bytes none)
  | .getBytes _, .bytes value => (checkPayloadSize value.length cache.maxPayloadSize).map fun _ => .bytes (some value)
  | .get _, .nil => .ok (.value none)
  | .get _, .bytes value | .remember _ _, .bytes value => cache.read fromSlice value
  | .setBytes _ _, .ok | .set _ _, .ok | .put _ _ _, .ok | .setBytesWithTtl _ _ _, .ok => .ok .unit
  | .forget _, .int n | .incr _ _, .int n | .decr _ _, .int n => .ok (.count n)
  | .exists _, .int n | .expire _ _, .int n => .ok (.flag (0 < n))
  | .setIfAbsent _ _, .nil | .setIfAbsentWithTtl _ _ _, .nil => .ok (.flag false)
  | .setIfAbsent _ _, .ok | .setIfAbsentWithTtl _ _ _, .ok => .ok (.flag true)
  | _, _ => .error .backend

/-- How far a call has come. -/
inductive Stage (τ : Type) where
  | calling
  | loading
  | storing (value : τ)
  | returned (answer : Except CacheError (Outcome τ))

/-- A call of a client. -/
structure Client (τ : Type) where
  cache : Cache
  call : Call τ
  stage : Stage τ

/-- What becomes of a request. -/
inductive Fate where
  | answered
  | unanswered
  | unsent
  deriving DecidableEq

/-- A turn: what time has gone by, what becomes of a request, and what a loader says. -/
structure Chance (τ : Type) where
  elapsed : ℕ
  fate : Fate
  loaded : Except CacheError τ

/-- What the client asks for at its turn, or why it does not. -/
def Client.request (client : Client τ) : Option (Except CacheError Sent) :=
  match client.stage, client.call with
  | .calling, call => some (call.request toVec client.cache)
  | .storing value, .remember key ttl => some ((Call.put key value ttl).request toVec client.cache)
  | _, _ => none

/-- The command that reaches the server. -/
def Client.sends (client : Client τ) (x : Chance τ) : Option (Command Str Bytes) :=
  match client.request toVec with
  | some (.ok request) => if x.fate = .unsent then none else request.command
  | _ => none

/-- What the reply makes of the client. -/
def Client.hears (client : Client τ) (reply : Reply) : Stage τ :=
  match client.stage, client.call, reply with
  | .calling, .remember _ _, .nil => .loading
  | .storing value, _, .ok => .returned (.ok (.value (some value)))
  | .storing _, _, _ => .returned (.error .backend)
  | _, call, reply => .returned (call.answer fromSlice client.cache reply)

/-- Where the client is after its turn, at the server's state when the request arrives. -/
def Client.advance (s : Expiry.Store Str Bytes) (client : Client τ) (x : Chance τ) : Stage τ :=
  match client.request toVec with
  | some (.error e) => .returned (.error e)
  | some (.ok request) =>
    if x.fate = .answered then client.hears fromSlice (request.reply s) else .returned (.error .backend)
  | none =>
    match client.stage with
    | .loading =>
      match x.loaded with
      | .error e => .returned (.error e)
      | .ok value => .storing value
    | stage => stage

/-- One turn of a client. -/
def turnOf (s : Expiry.Store Str Bytes) (client : Client τ) (x : Chance τ) : Expiry.Store Str Bytes × Client τ :=
  (s.receive x.elapsed (client.sends toVec x),
    { client with stage := client.advance toVec fromSlice (s.elapse x.elapsed) x })

/-- Clients of a server that has nothing stored. -/
def clients : Program (Expiry.Store Str Bytes) (Client τ) (Cache × Call τ) (Chance τ) :=
  ⟨⟨0, fun _ => none⟩, fun (cache, call) => ⟨cache, call, .calling⟩, turnOf toVec fromSlice⟩

/-! ### The vocabulary of the property -/

/-- What an event lets go by. -/
def elapsedOf (s : Tasks (Expiry.Store Str Bytes) (Client τ)) : Turn (Cache × Call τ) (Chance τ) → ℕ
  | .spawn _ => 0
  | .step n x => if (s.places[n]?).isSome then x.elapsed else 0

/-- What reaches the server at an event. -/
def sendsOf (s : Tasks (Expiry.Store Str Bytes) (Client τ)) :
    Turn (Cache × Call τ) (Chance τ) → Option (Command Str Bytes)
  | .spawn _ => none
  | .step n x => (s.places[n]?).bind fun client => client.sends toVec x

/-- A command of client `n` that may alter a key reaches the server. -/
def Writes (n : ℕ) (s : Tasks (Expiry.Store Str Bytes) (Client τ)) (e : Turn (Cache × Call τ) (Chance τ)) : Prop :=
  ∃ x c, e = .step n x ∧ sendsOf toVec s e = some c ∧ c.writes = true

/-- Client `n` finds these bytes at its key. -/
def Finds (n : ℕ) (found : Option Bytes) (s : Tasks (Expiry.Store Str Bytes) (Client τ))
    (e : Turn (Cache × Call τ) (Chance τ)) : Prop :=
  ∃ x client, e = .step n x ∧ s.places[n]? = some client ∧
    (s.memory.elapse x.elapsed).look (client.cache.resolveKey client.call.key) = found

/-- Client `n` stores these bytes at its key for that long. -/
def Stores (n : ℕ) (bytes : Bytes) (ttl : StdDuration) (s : Tasks (Expiry.Store Str Bytes) (Client τ))
    (e : Turn (Cache × Call τ) (Chance τ)) : Prop :=
  ∃ x client, e = .step n x ∧ s.places[n]? = some client ∧ sendsOf toVec s e =
    some (.set (client.cache.resolveKey client.call.key) bytes (some (millis (asSecs ttl).toNat)))

/-- A call that takes a lease: its key, and its time if it has one. -/
def Call.lease : Call τ → Option (Option StdDuration)
  | .setIfAbsent _ _ => some none
  | .setIfAbsentWithTtl _ _ ttl => some (some ttl)
  | _ => none

/-- A call that writes if it does anything. -/
def Call.writes : Call τ → Bool
  | .getBytes _ | .get _ | .exists _ | .remember _ _ => false
  | _ => true

/-- Client `n` is told that it has the lease. -/
def Takes (n : ℕ) (key : Str) (ttl : Option StdDuration) (s : Tasks (Expiry.Store Str Bytes) (Client τ))
    (e : Turn (Cache × Call τ) (Chance τ)) : Prop :=
  ∃ x client, e = .step n x ∧ s.places[n]? = some client ∧ client.stage = .calling ∧ client.call.lease = some ttl ∧
    client.cache.resolveKey client.call.key = key ∧
    (client.advance toVec fromSlice (s.memory.elapse x.elapsed) x) = .returned (.ok (.flag true))

/-- What a schedule of calls makes of the store and of what the clients are told. -/
structure Cached (es : List (Turn (Cache × Call τ) (Chance τ))) : Prop where
  register : ∀ key value, ((clients toVec fromSlice).tasks.run es).memory.look key = some value ↔
    ∃ deadline, (clients toVec fromSlice).tasks.Since
        (Makes Tasks.memory elapsedOf (sendsOf toVec) key (some ⟨value, deadline⟩))
        (Alters Tasks.memory elapsedOf (sendsOf toVec) key) es ∧
      Cell.alive ((clients toVec fromSlice).tasks.run es).memory.now ⟨value, deadline⟩ = true
  own : ∀ i n x client key, es[i]? = some (.step n x) →
    ((clients toVec fromSlice).tasks.run (es.take i)).places[n]? = some client →
      Alters Tasks.memory elapsedOf (sendsOf toVec) key ((clients toVec fromSlice).tasks.run (es.take i)) (.step n x) →
        key = client.cache.resolveKey client.call.key
  once : ∀ n i j, (clients toVec fromSlice).tasks.Fires es i (Writes toVec n) →
    (clients toVec fromSlice).tasks.Fires es j (Writes toVec n) → i = j
  refused : ∀ n client e, ((clients toVec fromSlice).tasks.run es).places[n]? = some client →
    client.stage = .returned (.error e) → e ≠ .backend → ∀ i, ¬ (clients toVec fromSlice).tasks.Fires es i (Writes toVec n)
  answered : ∀ n client answer, ((clients toVec fromSlice).tasks.run es).places[n]? = some client →
    client.stage = .returned (.ok answer) → client.call.writes = true →
      ∃ i, (clients toVec fromSlice).tasks.Fires es i (Writes toVec n)
  loads : ∀ n client, ((clients toVec fromSlice).tasks.run es).places[n]? = some client →
    (client.stage = .loading ∨ ∃ value, client.stage = .storing value) →
      ∃ i, (clients toVec fromSlice).tasks.Fires es i (Finds n none)
  remembered : ∀ n client key ttl answer, ((clients toVec fromSlice).tasks.run es).places[n]? = some client →
    client.call = .remember key ttl → client.stage = .returned (.ok answer) →
      ∃ value, answer = .value (some value) ∧
        ((∃ i bytes, (clients toVec fromSlice).tasks.Fires es i (Finds n (some bytes)) ∧ fromSlice bytes = some value) ∨
          ∃ i bytes, (clients toVec fromSlice).tasks.Fires es i (Stores toVec n bytes ttl) ∧ toVec value = some bytes)
  leases : ∀ n n' key ttl ttl' i j, (clients toVec fromSlice).tasks.Fires es i (Takes toVec fromSlice n key (some ttl)) →
    (clients toVec fromSlice).tasks.Fires es j (Takes toVec fromSlice n' key ttl') → i < j →
      ((clients toVec fromSlice).tasks.run (es.take (i + 1))).memory.now + millis (asSecs ttl).toNat ≤
          ((clients toVec fromSlice).tasks.run (es.take (j + 1))).memory.now ∨
        ∃ l, i < l ∧ l < j ∧ (clients toVec fromSlice).tasks.Fires es l
          (Revokes Tasks.memory elapsedOf (sendsOf toVec) key)

end Steps

section Proofs

variable {τ : Type} {toVec : τ → Option Bytes} {fromSlice : Bytes → Option τ}

/-! ### Requests -/

/-- The key of a request. -/
def Sent.key : Sent → Str
  | .get key | .set key _ _ _ | .del key | .exists key | .incrBy key _ | .decrBy key _ | .expire key _ => key

theorem key_command {request : Sent} {c : Command Str Bytes} (h : request.command = some c) : c.key = request.key := by
  cases request with
  | set key value nx ex =>
    simp only [Sent.command] at h
    split_ifs at h with hexpiry hnx
    · obtain rfl := Option.some.inj h
      rfl
    · obtain rfl := Option.some.inj h
      rfl
  | decrBy key delta =>
    simp only [Sent.command] at h
    split_ifs at h
    obtain rfl := Option.some.inj h
    rfl
  | _ =>
    obtain rfl := Option.some.inj h
    rfl

theorem sized_eq_ok {cache : Cache} {value : Bytes} {request request' : Sent}
    (h : cache.sized value request = .ok request') : request' = request := by
  rw [Cache.sized] at h
  cases hcheck : checkPayloadSize value.length cache.maxPayloadSize with
  | error e =>
    rw [hcheck] at h
    cases h
  | ok =>
    rw [hcheck] at h
    exact (Except.ok.inj h).symm

/-- A call asks for its own key only. -/
theorem key_request {cache : Cache} {call : Call τ} {request : Sent} (h : call.request toVec cache = .ok request) :
    request.key = cache.resolveKey call.key := by
  cases call with
  | getBytes | get | remember | forget | «exists» | incr | decr =>
    obtain rfl := Except.ok.inj h
    rfl
  | setBytes | setIfAbsent =>
    rw [sized_eq_ok h]
    rfl
  | set key value =>
    simp only [Call.request] at h
    split at h
    · cases h
    · rw [sized_eq_ok h]
      rfl
  | put key value ttl =>
    simp only [Call.request] at h
    split_ifs at h
    split at h
    · cases h
    · rw [sized_eq_ok h]
      rfl
  | setBytesWithTtl key value ttl | setIfAbsentWithTtl key value ttl =>
    simp only [Call.request] at h
    split_ifs at h
    rw [sized_eq_ok h]
    rfl
  | expire key ttl =>
    simp only [Call.request] at h
    split_ifs at h
    obtain rfl := Except.ok.inj h
    rfl

theorem command_set (key : Str) (value : Bytes) (seconds : UInt64) :
    (Sent.set key value false (some seconds)).command =
      if isExpiry seconds then some (.set key value (some (millis seconds.toNat))) else none := rfl

theorem reply_set (s : Expiry.Store Str Bytes) (key : Str) (value : Bytes) (seconds : UInt64) :
    (Sent.set key value false (some seconds)).reply s = if isExpiry seconds then .ok else .error := rfl

/-- What `put` asks for. -/
theorem request_of_put {cache : Cache} {key : Str} {value : τ} {ttl : StdDuration} {request : Sent}
    (h : (Call.put key value ttl).request toVec cache = .ok request) :
    ∃ bytes, toVec value = some bytes ∧ request = .set (cache.resolveKey key) bytes false (some (asSecs ttl)) := by
  simp only [Call.request] at h
  split_ifs at h
  split at h
  · cases h
  · next bytes hbytes => exact ⟨bytes, hbytes, sized_eq_ok h⟩

/-- A call that does not write only asks what is there. -/
theorem request_of_reads {cache : Cache} {call : Call τ} {request : Sent} (hreads : call.writes = false)
    (h : call.request toVec cache = .ok request) : request.command = some (.get (cache.resolveKey call.key)) := by
  cases call with
  | getBytes | get | remember | «exists» =>
    obtain rfl := Except.ok.inj h
    rfl
  | _ => cases hreads

/-- A call that writes asks for a command that does. -/
theorem request_of_writes {cache : Cache} {call : Call τ} {request : Sent} {c : Command Str Bytes}
    (hwrites : call.writes = true) (h : call.request toVec cache = .ok request) (hc : request.command = some c) :
    c.writes = true := by
  have hset : ∀ key value nx ex, request = .set key value nx ex → c.writes = true := by
    rintro key value nx ex rfl
    simp only [Sent.command] at hc
    split_ifs at hc
    · obtain rfl := Option.some.inj hc
      rfl
    · obtain rfl := Option.some.inj hc
      rfl
  cases call with
  | getBytes | get | remember | «exists» => cases hwrites
  | forget | incr =>
    obtain rfl := Except.ok.inj h
    obtain rfl := Option.some.inj hc
    rfl
  | decr =>
    obtain rfl := Except.ok.inj h
    simp only [Sent.command] at hc
    split_ifs at hc
    obtain rfl := Option.some.inj hc
    rfl
  | expire =>
    simp only [Call.request] at h
    split_ifs at h
    obtain rfl := Except.ok.inj h
    obtain rfl := Option.some.inj hc
    rfl
  | setBytes | setIfAbsent => exact hset _ _ _ _ (sized_eq_ok h)
  | set =>
    simp only [Call.request] at h
    split at h
    · cases h
    · exact hset _ _ _ _ (sized_eq_ok h)
  | put =>
    simp only [Call.request] at h
    split_ifs at h
    split at h
    · cases h
    · exact hset _ _ _ _ (sized_eq_ok h)
  | setBytesWithTtl | setIfAbsentWithTtl =>
    simp only [Call.request] at h
    split_ifs at h
    exact hset _ _ _ _ (sized_eq_ok h)

/-! ### Replies -/

/-- A request the server does not take is answered with an error. -/
theorem reply_of_not_taken {request : Sent} (h : request.command = none) (s : Expiry.Store Str Bytes) :
    request.reply s = .error := by
  cases request with
  | set key value nx ex =>
    simp only [Sent.command] at h
    split_ifs at h with hexpiry
    rw [Sent.reply, if_neg hexpiry]
  | decrBy key delta =>
    simp only [Sent.command] at h
    split_ifs at h with hleast
    rw [Sent.reply, if_pos hleast]
  | _ => cases h

theorem answer_error {cache : Cache} (call : Call τ) : call.answer fromSlice cache .error = .error .backend := by
  cases call <;> rfl

/-- A call that writes fails as the server does, or not at all. -/
theorem answer_of_writes {cache : Cache} {call : Call τ} {reply : Reply} {e : CacheError} (hwrites : call.writes = true)
    (h : call.answer fromSlice cache reply = .error e) : e = .backend := by
  unfold Call.answer at h
  split at h <;> first | exact (Except.error.inj h).symm | cases h | cases hwrites

theorem reply_get (s : Expiry.Store Str Bytes) (key : Str) :
    (s.look key = none ∧ (Sent.get key).reply s = .nil) ∨
      ∃ bytes, s.look key = some bytes ∧ (Sent.get key).reply s = .bytes bytes := by
  rw [Sent.reply]
  cases hlook : s.look key with
  | none => exact .inl ⟨rfl, rfl⟩
  | some bytes => exact .inr ⟨bytes, rfl, rfl⟩

theorem read_eq_ok {cache : Cache} {bytes : Bytes} {answer : Outcome τ} (h : cache.read fromSlice bytes = .ok answer) :
    ∃ value, answer = .value (some value) ∧ fromSlice bytes = some value := by
  rw [Cache.read] at h
  split at h
  · cases h
  · split at h
    · cases h
    · next value hvalue =>
      obtain rfl := Except.ok.inj h
      exact ⟨value, rfl, hvalue⟩

/-! ### One turn of a client -/

section Turn

variable {s : Expiry.Store Str Bytes} {client : Client τ} {x : Chance τ}

/-- A client asks on its first turn, and again to store what its loader had. -/
theorem client_request {request : Sent} (h : client.request toVec = some (.ok request)) :
    (client.stage = .calling ∧ client.call.request toVec client.cache = .ok request) ∨
      ∃ value key ttl, client.stage = .storing value ∧ client.call = .remember key ttl ∧
        (Call.put key value ttl).request toVec client.cache = .ok request := by
  unfold Client.request at h
  split at h
  · next hstage => exact .inl ⟨hstage, Option.some.inj h⟩
  · next value key ttl hstage hcall => exact .inr ⟨value, key, ttl, hstage, hcall, Option.some.inj h⟩
  · cases h

theorem key_client_request {request : Sent} (h : client.request toVec = some (.ok request)) :
    request.key = client.cache.resolveKey client.call.key := by
  rcases client_request h with ⟨-, hrequest⟩ | ⟨value, key, ttl, -, hcall, hrequest⟩
  · exact key_request hrequest
  · rw [key_request hrequest, hcall]
    rfl

theorem sends_eq_some {c : Command Str Bytes} (h : client.sends toVec x = some c) :
    ∃ request, client.request toVec = some (.ok request) ∧ request.command = some c := by
  unfold Client.sends at h
  split at h
  · next request hrequest =>
    split_ifs at h
    exact ⟨request, hrequest, h⟩
  · cases h

theorem sends_of_answered {request : Sent} (h : client.request toVec = some (.ok request)) (hfate : x.fate = .answered) :
    client.sends toVec x = request.command := by
  unfold Client.sends
  rw [h, hfate]
  rfl

/-- A client that has its answer asks for no more. -/
theorem request_of_returned {answer : Except CacheError (Outcome τ)} (h : client.stage = .returned answer) :
    client.request toVec = none := by
  unfold Client.request
  rw [h]

theorem sends_of_request_none (h : client.request toVec = none) : client.sends toVec x = none := by
  unfold Client.sends
  rw [h]

theorem advance_of_returned {answer : Except CacheError (Outcome τ)} (h : client.stage = .returned answer) :
    client.advance toVec fromSlice s x = .returned answer := by
  unfold Client.advance
  rw [request_of_returned h, h]

theorem advance_of_error {e : CacheError} (h : client.request toVec = some (.error e)) :
    client.advance toVec fromSlice s x = .returned (.error e) ∧ client.sends toVec x = none := by
  unfold Client.advance Client.sends
  rw [h]
  exact ⟨rfl, rfl⟩

theorem advance_of_ok {request : Sent} (h : client.request toVec = some (.ok request)) :
    (x.fate = .answered ∧ client.advance toVec fromSlice s x = client.hears fromSlice (request.reply s)) ∨
      client.advance toVec fromSlice s x = .returned (.error .backend) := by
  unfold Client.advance
  rw [h]
  dsimp only
  split_ifs with hfate
  · exact .inl ⟨hfate, rfl⟩
  · exact .inr rfl

/-- Whatever is sent ends the call, but for the question of `remember`. -/
theorem advance_of_writes {c : Command Str Bytes} (h : client.sends toVec x = some c) (hwrites : c.writes = true) :
    ∃ answer, client.advance toVec fromSlice s x = .returned answer := by
  obtain ⟨request, hrequest, hc⟩ := sends_eq_some h
  have hor : (_ ∧ client.advance toVec fromSlice s x = _) ∨ _ := advance_of_ok hrequest
  rcases hor with ⟨-, hadvance⟩ | hadvance
  · rw [hadvance]
    rcases client_request hrequest with ⟨hstage, hcalled⟩ | ⟨value, key, ttl, hstage, -, -⟩
    · unfold Client.hears
      rw [hstage]
      split
      · next key ttl _ hcall _ =>
        -- a `remember` that asks does not write
        rw [hcall] at hcalled
        obtain rfl := Except.ok.inj hcalled
        obtain rfl := Option.some.inj hc
        cases hwrites
      · cases ‹Stage.calling = Stage.storing _›
      · cases ‹Stage.calling = Stage.storing _›
      · exact ⟨_, rfl⟩
    · unfold Client.hears
      rw [hstage]
      split
      · cases ‹Stage.storing _ = Stage.calling›
      · exact ⟨_, rfl⟩
      · exact ⟨_, rfl⟩
      · exact ⟨_, rfl⟩
  · exact ⟨_, hadvance⟩

/-- What a call that asks first comes to. -/
theorem advance_of_calling {request : Sent} (hstage : client.stage = .calling)
    (hrequest : client.call.request toVec client.cache = .ok request) (hfate : x.fate = .answered) :
    (∃ key ttl, client.call = .remember key ttl ∧ s.look (client.cache.resolveKey key) = none ∧
      client.advance toVec fromSlice s x = .loading) ∨
    client.advance toVec fromSlice s x = .returned (client.call.answer fromSlice client.cache (request.reply s)) := by
  have hasks : client.request toVec = some (.ok request) := by
    unfold Client.request
    rw [hstage]
    exact congrArg some hrequest
  have hadvance : client.advance toVec fromSlice s x = client.hears fromSlice (request.reply s) := by
    unfold Client.advance
    rw [hasks]
    exact if_pos hfate
  rw [hadvance]
  unfold Client.hears
  rw [hstage]
  split
  · next key ttl _ hcall hnil =>
    rw [hcall] at hrequest
    obtain rfl := Except.ok.inj hrequest
    rcases reply_get s (client.cache.resolveKey key) with ⟨hlook, -⟩ | ⟨bytes, -, hreply⟩
    · exact .inl ⟨key, ttl, hcall, hlook, rfl⟩
    · rw [hreply] at hnil
      cases hnil
  · cases ‹Stage.calling = Stage.storing _›
  · cases ‹Stage.calling = Stage.storing _›
  · exact .inr rfl

end Turn

/-! ### What a call has done so far -/

/-- An answer to `remember` was found, or was stored. -/
def Remembered (toVec : τ → Option Bytes) (fromSlice : Bytes → Option τ) (es : List (Turn (Cache × Call τ) (Chance τ)))
    (n : ℕ) (ttl : StdDuration) (answer : Outcome τ) : Prop :=
  ∃ value, answer = .value (some value) ∧
    ((∃ i bytes, (clients toVec fromSlice).tasks.Fires es i (Finds n (some bytes)) ∧ fromSlice bytes = some value) ∨
      ∃ i bytes, (clients toVec fromSlice).tasks.Fires es i (Stores toVec n bytes ttl) ∧ toVec value = some bytes)

/-- The client has not written. -/
def Silent (toVec : τ → Option Bytes) (fromSlice : Bytes → Option τ) (es : List (Turn (Cache × Call τ) (Chance τ)))
    (n : ℕ) : Prop :=
  ∀ i, ¬ (clients toVec fromSlice).tasks.Fires es i (Writes toVec n)

/-- What a client has done by the time it is where it is. -/
def Client.Told (toVec : τ → Option Bytes) (fromSlice : Bytes → Option τ) (es : List (Turn (Cache × Call τ) (Chance τ)))
    (n : ℕ) (client : Client τ) : Prop :=
  match client.stage with
  | .calling => Silent toVec fromSlice es n
  | .loading | .storing _ => Silent toVec fromSlice es n ∧ (∃ key ttl, client.call = .remember key ttl) ∧
      ∃ i, (clients toVec fromSlice).tasks.Fires es i (Finds n none)
  | .returned (.error e) => e ≠ .backend → Silent toVec fromSlice es n
  | .returned (.ok answer) =>
    (client.call.writes = true → ∃ i, (clients toVec fromSlice).tasks.Fires es i (Writes toVec n)) ∧
      ∀ key ttl, client.call = .remember key ttl → Remembered toVec fromSlice es n ttl answer

variable {es : List (Turn (Cache × Call τ) (Chance τ))} {e : Turn (Cache × Call τ) (Chance τ)} {n : ℕ} {client : Client τ}

theorem fires_concat_left {P : Tasks (Expiry.Store Str Bytes) (Client τ) → Turn (Cache × Call τ) (Chance τ) → Prop}
    (h : ∃ i, (clients toVec fromSlice).tasks.Fires es i P) : ∃ i, (clients toVec fromSlice).tasks.Fires (es ++ [e]) i P := by
  obtain ⟨i, hfires⟩ := h
  exact ⟨i, Machine.fires_concat.mpr (.inl hfires)⟩

theorem fires_concat_last {P : Tasks (Expiry.Store Str Bytes) (Client τ) → Turn (Cache × Call τ) (Chance τ) → Prop}
    (h : P ((clients toVec fromSlice).tasks.run es) e) : ∃ i, (clients toVec fromSlice).tasks.Fires (es ++ [e]) i P :=
  ⟨es.length, Machine.fires_concat.mpr (.inr ⟨rfl, h⟩)⟩

theorem Remembered.concat {ttl : StdDuration} {answer : Outcome τ} (h : Remembered toVec fromSlice es n ttl answer) :
    Remembered toVec fromSlice (es ++ [e]) n ttl answer := by
  obtain ⟨value, hanswer, hor⟩ := h
  refine ⟨value, hanswer, hor.imp ?_ ?_⟩
  · rintro ⟨i, bytes, hfires, hvalue⟩
    exact ⟨i, bytes, Machine.fires_concat.mpr (.inl hfires), hvalue⟩
  · rintro ⟨i, bytes, hfires, hvalue⟩
    exact ⟨i, bytes, Machine.fires_concat.mpr (.inl hfires), hvalue⟩

theorem Silent.concat (h : Silent toVec fromSlice es n)
    (hno : ¬ Writes toVec n ((clients toVec fromSlice).tasks.run es) e) : Silent toVec fromSlice (es ++ [e]) n := by
  intro i hfires
  rcases Machine.fires_concat.mp hfires with hbefore | ⟨-, hlast⟩
  · exact h i hbefore
  · exact hno hlast

/-- A turn without a write leaves what was done. -/
theorem Client.Told.concat (h : client.Told toVec fromSlice es n)
    (hno : ¬ Writes toVec n ((clients toVec fromSlice).tasks.run es) e) : client.Told toVec fromSlice (es ++ [e]) n := by
  unfold Client.Told at h ⊢
  split at h
  · exact h.concat hno
  · exact ⟨h.1.concat hno, h.2.1, fires_concat_left h.2.2⟩
  · exact ⟨h.1.concat hno, h.2.1, fires_concat_left h.2.2⟩
  · exact fun hne => (h hne).concat hno
  · exact ⟨fun hwrites => fires_concat_left (h.1 hwrites), fun key ttl hcall => (h.2 key ttl hcall).concat⟩

theorem sendsOf_step (hclient : ((clients toVec fromSlice).tasks.run es).places[n]? = some client) (x : Chance τ) :
    sendsOf toVec ((clients toVec fromSlice).tasks.run es) (.step n x) = client.sends toVec x := by
  rw [sendsOf, hclient]
  rfl

/-- A turn at which nothing is sent, or only a question, does not write. -/
theorem not_writes {x : Chance τ} (hclient : ((clients toVec fromSlice).tasks.run es).places[n]? = some client)
    (h : ∀ c, client.sends toVec x = some c → c.writes = false) :
    ¬ Writes toVec n ((clients toVec fromSlice).tasks.run es) (.step n x) := by
  rintro ⟨x', c, he, hsends, hwrites⟩
  obtain ⟨-, rfl⟩ := Turn.step.inj he
  rw [sendsOf_step hclient] at hsends
  rw [h c hsends] at hwrites
  cases hwrites

theorem not_writes_of_other {s : Tasks (Expiry.Store Str Bytes) (Client τ)} (h : ∀ x, e ≠ .step n x) :
    ¬ Writes toVec n s e := by
  rintro ⟨x, -, he, -⟩
  exact h x he

/-- A client that was not started has done nothing. -/
theorem silent_of_unstarted (h : ((clients toVec fromSlice).tasks.run es).places[n]? = none) :
    Silent toVec fromSlice es n := by
  rintro i ⟨e, he, x, c, rfl, hsends, -⟩
  have hlen := Program.length_places_le (P := clients toVec fromSlice) es (i := i) (j := es.length)
    (List.getElem?_eq_some_iff.mp he).1.le
  rw [List.take_length] at hlen
  rw [List.getElem?_eq_none_iff] at h
  rw [sendsOf, List.getElem?_eq_none_iff.mpr (hlen.trans h)] at hsends
  cases hsends

/-- The place of a client after its own turn. -/
theorem act_clients (s : Expiry.Store Str Bytes) (client : Client τ) (x : Chance τ) :
    ((clients toVec fromSlice).act s client x).2 =
      { client with stage := client.advance toVec fromSlice (s.elapse x.elapsed) x } := rfl

section Own

variable {x : Chance τ}

/-- What a call that asked is told, and what it has done. -/
theorem told_of_reply {request : Sent} (hclient : ((clients toVec fromSlice).tasks.run es).places[n]? = some client)
    (hsilent : Silent toVec fromSlice es n) (hrequest : client.call.request toVec client.cache = .ok request)
    (hsends : client.sends toVec x = request.command) :
    Client.Told toVec fromSlice (es ++ [.step n x]) n
      { client with stage := .returned (client.call.answer fromSlice client.cache
                      (request.reply (((clients toVec fromSlice).tasks.run es).memory.elapse x.elapsed))) } := by
  cases hanswer : client.call.answer fromSlice client.cache
      (request.reply (((clients toVec fromSlice).tasks.run es).memory.elapse x.elapsed)) with
  | error e =>
    intro hne
    cases hwrites : client.call.writes with
    | true => exact absurd (answer_of_writes hwrites hanswer) hne
    | false =>
      refine hsilent.concat (not_writes hclient fun c hc => ?_)
      rw [hsends, request_of_reads hwrites hrequest] at hc
      obtain rfl := Option.some.inj hc
      rfl
  | ok answer =>
    constructor
    · intro hwrites
      cases hc : request.command with
      | none =>
        rw [reply_of_not_taken hc, answer_error] at hanswer
        cases hanswer
      | some c =>
        exact fires_concat_last ⟨x, c, rfl, by rw [sendsOf_step hclient, hsends, hc],
          request_of_writes hwrites hrequest hc⟩
    · intro key ttl hcall
      have hcall' : client.call = .remember key ttl := hcall
      rw [hcall'] at hrequest hanswer
      obtain rfl := Except.ok.inj hrequest
      rcases reply_get (((clients toVec fromSlice).tasks.run es).memory.elapse x.elapsed)
          (client.cache.resolveKey key) with ⟨-, hreply⟩ | ⟨bytes, hlook, hreply⟩
      · rw [hreply] at hanswer
        cases hanswer
      · rw [hreply] at hanswer
        obtain ⟨value, rfl, hvalue⟩ := read_eq_ok hanswer
        refine ⟨value, rfl, .inl ⟨es.length, bytes, Machine.fires_concat.mpr (.inr ⟨rfl, ?_⟩), hvalue⟩⟩
        exact ⟨x, client, rfl, hclient, by rw [hcall']; exact hlook⟩

/-- A call that is refused does nothing. -/
theorem told_of_error {err : CacheError} (hclient : ((clients toVec fromSlice).tasks.run es).places[n]? = some client)
    (hsilent : Silent toVec fromSlice es n) (hasks : client.request toVec = some (.error err)) :
    Client.Told toVec fromSlice (es ++ [.step n x]) n
      ((clients toVec fromSlice).act ((clients toVec fromSlice).tasks.run es).memory client x).2 := by
  obtain ⟨hadvance, hsends⟩ : client.advance toVec fromSlice _ x = _ ∧ _ := advance_of_error hasks
  rw [act_clients, hadvance]
  refine fun _ => hsilent.concat (not_writes hclient fun c hc => ?_)
  rw [hsends] at hc
  cases hc

theorem told_of_calling (hclient : ((clients toVec fromSlice).tasks.run es).places[n]? = some client)
    (hsilent : Silent toVec fromSlice es n) (hstage : client.stage = .calling) :
    Client.Told toVec fromSlice (es ++ [.step n x]) n
      ((clients toVec fromSlice).act ((clients toVec fromSlice).tasks.run es).memory client x).2 := by
  have hasks : client.request toVec = some (client.call.request toVec client.cache) := by
    unfold Client.request
    rw [hstage]
  cases hrequest : client.call.request toVec client.cache with
  | error err => exact told_of_error hclient hsilent (hasks.trans (congrArg some hrequest))
  | ok request =>
    rw [hrequest] at hasks
    rw [act_clients]
    by_cases hfate : x.fate = .answered
    · have hsends := sends_of_answered hasks hfate
      have hor : _ ∨ client.advance toVec fromSlice
          (((clients toVec fromSlice).tasks.run es).memory.elapse x.elapsed) x = _ :=
        advance_of_calling hstage hrequest hfate
      rcases hor with ⟨key, ttl, hcall, hlook, hadvance⟩ | hadvance
      · rw [hadvance]
        refine ⟨hsilent.concat (not_writes hclient fun c hc => ?_), ⟨key, ttl, hcall⟩,
          fires_concat_last ⟨x, client, rfl, hclient, by rw [hcall]; exact hlook⟩⟩
        rw [hsends, request_of_reads (by rw [hcall]; rfl) hrequest] at hc
        obtain rfl := Option.some.inj hc
        rfl
      · rw [hadvance]
        exact told_of_reply hclient hsilent hrequest hsends
    · unfold Client.advance
      rw [hasks]
      dsimp only
      rw [if_neg hfate]
      exact fun hne => absurd rfl hne

/-- A loader's error leaves the store as it is. -/
theorem told_of_loading (hclient : ((clients toVec fromSlice).tasks.run es).places[n]? = some client)
    (h : client.Told toVec fromSlice es n) (hstage : client.stage = .loading) :
    Client.Told toVec fromSlice (es ++ [.step n x]) n
      ((clients toVec fromSlice).act ((clients toVec fromSlice).tasks.run es).memory client x).2 := by
  rw [Client.Told, hstage] at h
  obtain ⟨hsilent, hcall, hfinds⟩ := h
  have hasks : client.request toVec = none := by
    unfold Client.request
    rw [hstage]
  have hno : Silent toVec fromSlice (es ++ [.step n x]) n := hsilent.concat (not_writes hclient fun c hc => by
    rw [sends_of_request_none hasks] at hc
    cases hc)
  rw [act_clients]
  unfold Client.advance
  rw [hasks, hstage]
  dsimp only
  cases x.loaded with
  | error err => exact fun _ => hno
  | ok value => exact ⟨hno, hcall, fires_concat_left hfinds⟩

/-- What a loader had is stored, or the call fails as the server does or before. -/
theorem told_of_storing {value : τ} (hclient : ((clients toVec fromSlice).tasks.run es).places[n]? = some client)
    (h : client.Told toVec fromSlice es n) (hstage : client.stage = .storing value) :
    Client.Told toVec fromSlice (es ++ [.step n x]) n
      ((clients toVec fromSlice).act ((clients toVec fromSlice).tasks.run es).memory client x).2 := by
  rw [Client.Told, hstage] at h
  obtain ⟨hsilent, ⟨key, ttl, hcall⟩, hfinds⟩ := h
  have hasks : client.request toVec = some ((Call.put key value ttl).request toVec client.cache) := by
    unfold Client.request
    rw [hstage, hcall]
  cases hrequest : (Call.put key value ttl).request toVec client.cache with
  | error err => exact told_of_error hclient hsilent (hasks.trans (congrArg some hrequest))
  | ok request =>
    rw [hrequest] at hasks
    rw [act_clients]
    have hor : (_ ∧ client.advance toVec fromSlice
        (((clients toVec fromSlice).tasks.run es).memory.elapse x.elapsed) x = _) ∨ _ := advance_of_ok hasks
    rcases hor with ⟨hfate, hadvance⟩ | hadvance
    · have hsends := sends_of_answered hasks hfate
      obtain ⟨bytes, hbytes, rfl⟩ := request_of_put hrequest
      rw [hadvance]
      unfold Client.hears
      rw [hstage, hcall, reply_set]
      rw [command_set] at hsends
      split_ifs at hsends ⊢ with hexpiry
      · -- the server takes the value, and answers that it did
        refine ⟨fun hwrites => (by cases hwrites), fun key' ttl' hcall' => ?_⟩
        obtain ⟨rfl, rfl⟩ := Call.remember.inj hcall'
        refine ⟨value, rfl, .inr ⟨es.length, bytes, Machine.fires_concat.mpr (.inr ⟨rfl, ?_⟩), hbytes⟩⟩
        refine ⟨x, client, rfl, hclient, ?_⟩
        rw [sendsOf_step hclient, hsends, hcall]
        rfl
      · exact fun hne => absurd rfl hne
    · rw [hadvance]
      exact fun hne => absurd rfl hne

/-- An answer stays as it is. -/
theorem told_of_returned {answer : Except CacheError (Outcome τ)}
    (hclient : ((clients toVec fromSlice).tasks.run es).places[n]? = some client) (h : client.Told toVec fromSlice es n)
    (hstage : client.stage = .returned answer) :
    Client.Told toVec fromSlice (es ++ [.step n x]) n
      ((clients toVec fromSlice).act ((clients toVec fromSlice).tasks.run es).memory client x).2 := by
  have hsame : ((clients toVec fromSlice).act ((clients toVec fromSlice).tasks.run es).memory client x).2 = client := by
    rw [act_clients, advance_of_returned hstage, ← hstage]
  rw [hsame]
  refine h.concat (not_writes hclient fun c hc => ?_)
  rw [sends_of_request_none (request_of_returned hstage)] at hc
  cases hc

end Own

/-- What a client has done, in every run. -/
theorem told_run (h : ((clients toVec fromSlice).tasks.run es).places[n]? = some client) :
    client.Told toVec fromSlice es n := by
  induction es using List.reverseRecOn generalizing client with
  | nil => cases h
  | append_singleton es e ih =>
    rw [Machine.run_concat, Program.next_tasks] at h
    rcases (clients toVec fromSlice).of_getElem?_turn h with ⟨hother, hsame⟩ | ⟨call, rfl, hnone, rfl⟩ |
      ⟨x, before, rfl, hbefore, rfl⟩
    · exact (ih hsame).concat (not_writes_of_other hother)
    · exact (silent_of_unstarted hnone).concat (not_writes_of_other fun x hx => by cases hx)
    · have htold := ih hbefore
      cases hstage : before.stage with
      | calling =>
        rw [Client.Told, hstage] at htold
        exact told_of_calling hbefore htold hstage
      | loading => exact told_of_loading hbefore htold hstage
      | storing value => exact told_of_storing hbefore htold hstage
      | returned answer => exact told_of_returned hbefore htold hstage

/-! ### One write -/

/-- A call that has its answer keeps it. -/
def KeepsAnswer (client client' : Client τ) : Prop :=
  ∀ answer, client.stage = .returned answer → client'.stage = .returned answer

theorem keepsAnswer_run {before : List (Turn (Cache × Call τ) (Chance τ))} {answer : Except CacheError (Outcome τ)}
    (h : ((clients toVec fromSlice).tasks.run before).places[n]? = some client) (hstage : client.stage = .returned answer)
    (after : List (Turn (Cache × Call τ) (Chance τ))) :
    ∃ client', ((clients toVec fromSlice).tasks.run (before ++ after)).places[n]? = some client' ∧
      client'.stage = .returned answer := by
  obtain ⟨-, client', hclient', hR⟩ := Program.rel_places (P := clients toVec fromSlice) (K := fun _ => True)
    (R := KeepsAnswer) (fun _ _ h => h) (fun hab hbc answer ha => hbc answer (hab answer ha)) (fun _ _ _ => trivial)
    (fun s i client x _ _ answer ha => by rw [act_clients]; exact advance_of_returned ha) trivial h after
  exact ⟨client', hclient', hR answer hstage⟩

theorem returned_of_writes (h : Writes toVec n ((clients toVec fromSlice).tasks.run es) e) :
    ∃ client answer, ((clients toVec fromSlice).tasks.run (es ++ [e])).places[n]? = some client ∧
      client.stage = .returned answer := by
  obtain ⟨x, c, rfl, hsends, hwrites⟩ := h
  cases hclient : ((clients toVec fromSlice).tasks.run es).places[n]? with
  | none =>
    rw [sendsOf, hclient] at hsends
    cases hsends
  | some client =>
    rw [sendsOf_step hclient] at hsends
    obtain ⟨answer, hanswer⟩ : ∃ answer, client.advance toVec fromSlice
        (((clients toVec fromSlice).tasks.run es).memory.elapse x.elapsed) x = .returned answer :=
      advance_of_writes hsends hwrites
    rw [Machine.run_concat, Program.next_tasks]
    exact ⟨_, answer, (clients toVec fromSlice).getElem?_turn hclient x, hanswer⟩

theorem not_writes_later {i j : ℕ} (hi : (clients toVec fromSlice).tasks.Fires es i (Writes toVec n))
    (hj : (clients toVec fromSlice).tasks.Fires es j (Writes toVec n)) : ¬ i < j := by
  intro hij
  obtain ⟨e, he, hwrites⟩ := hi
  obtain ⟨e', he', x, c, rfl, hsends, -⟩ := hj
  obtain ⟨client, answer, hclient, hstage⟩ := returned_of_writes hwrites
  have htake : es.take i ++ [e] = es.take (i + 1) := by
    obtain ⟨hlt, rfl⟩ := List.getElem?_eq_some_iff.mp he
    exact (List.take_succ_eq_append_getElem hlt).symm
  rw [htake] at hclient
  have hsplit : es.take (i + 1) ++ (es.take j).drop (i + 1) = es.take j := by
    have hprefix : (es.take j).take (i + 1) = es.take (i + 1) := by rw [List.take_take, min_eq_left hij]
    rw [← hprefix, List.take_append_drop]
  obtain ⟨client', hclient', hstage'⟩ := keepsAnswer_run hclient hstage ((es.take j).drop (i + 1))
  rw [hsplit] at hclient'
  rw [sendsOf_step hclient', sends_of_request_none (request_of_returned hstage')] at hsends
  cases hsends

/-! ### The store -/

/-- The clients drive the store. -/
theorem driven_clients : Driven (clients toVec fromSlice).tasks Tasks.memory elapsedOf (sendsOf toVec) where
  next s e := by
    rw [Program.next_tasks]
    rcases (clients toVec fromSlice).turn_cases s e with ⟨a, rfl, hturn⟩ | ⟨n, x, client, rfl, hclient, hturn⟩ |
      ⟨n, x, rfl, hnone, hturn⟩
    · rw [hturn]
      rfl
    · rw [hturn, elapsedOf, sendsOf, hclient]
      rfl
    · rw [hturn, elapsedOf, sendsOf, hnone]
      rfl
  empty _ := rfl

theorem look_eq_some {s : Expiry.Store Str Bytes} {key : Str} {value : Bytes} : s.look key = some value ↔
    ∃ deadline, s.cells key = some ⟨value, deadline⟩ ∧ Cell.alive s.now ⟨value, deadline⟩ = true := by
  rw [Expiry.Store.look, Option.map_eq_some_iff]
  constructor
  · rintro ⟨⟨v, deadline⟩, hlive, rfl⟩
    obtain ⟨hcells, halive⟩ := Option.filter_eq_some_iff.mp hlive
    exact ⟨deadline, hcells, halive⟩
  · rintro ⟨deadline, hcells, halive⟩
    exact ⟨⟨value, deadline⟩, Option.filter_eq_some_iff.mpr ⟨hcells, halive⟩, rfl⟩

/-- What a call that takes a lease asks for. -/
theorem request_of_lease {cache : Cache} {call : Call τ} {ttl : Option StdDuration} {request : Sent}
    (hlease : call.lease = some ttl) (h : call.request toVec cache = .ok request) :
    ∃ value, request = .set (cache.resolveKey call.key) value true (ttl.map asSecs) := by
  cases call with
  | setIfAbsent key value =>
    obtain rfl := Option.some.inj hlease
    exact ⟨value, sized_eq_ok h⟩
  | setIfAbsentWithTtl key value duration =>
    obtain rfl := Option.some.inj hlease
    simp only [Call.request] at h
    split_ifs at h
    exact ⟨value, sized_eq_ok h⟩
  | _ => cases hlease

/-- The answer that the lease was taken is given where the server found nothing and took the value. -/
theorem answer_of_lease {cache : Cache} {call : Call τ} {ttl : Option StdDuration} {reply : Reply}
    (hlease : call.lease = some ttl) (h : call.answer fromSlice cache reply = .ok (.flag true)) : reply = .ok := by
  cases call with
  | setIfAbsent key value => cases reply <;> first | rfl | cases h
  | setIfAbsentWithTtl key value duration => cases reply <;> first | rfl | cases h
  | _ => cases hlease

/-- A lease that a client is told of was granted. -/
theorem grants_of_takes {s : Tasks (Expiry.Store Str Bytes) (Client τ)} {key : Str} {ttl : Option StdDuration}
    (h : Takes toVec fromSlice n key ttl s e) :
    ∃ value, Grants Tasks.memory elapsedOf (sendsOf toVec) key value
      (ttl.map fun ttl => millis (asSecs ttl).toNat) s e := by
  obtain ⟨x, client, rfl, hclient, hstage, hlease, rfl, hadvance⟩ := h
  have hasks : client.request toVec = some (client.call.request toVec client.cache) := by
    unfold Client.request
    rw [hstage]
  cases hrequest : client.call.request toVec client.cache with
  | error err =>
    rw [hrequest] at hasks
    rw [(advance_of_error hasks).1] at hadvance
    cases hadvance
  | ok request =>
    rw [hrequest] at hasks
    have hor : (x.fate = .answered ∧ client.advance toVec fromSlice (s.memory.elapse x.elapsed) x = _) ∨ _ :=
      advance_of_ok hasks
    rcases hor with ⟨hfate, -⟩ | hfailed
    · have hsends := sends_of_answered hasks hfate
      have hanswered : _ ∨ client.advance toVec fromSlice (s.memory.elapse x.elapsed) x = _ :=
        advance_of_calling hstage hrequest hfate
      rcases hanswered with ⟨_, _, -, -, hloading⟩ | hanswered
      · rw [hloading] at hadvance
        cases hadvance
      · rw [hanswered] at hadvance
        have hreply := answer_of_lease hlease (Stage.returned.inj hadvance)
        obtain ⟨value, rfl⟩ := request_of_lease hlease hrequest
        simp only [Sent.reply, Bool.true_and] at hreply
        split_ifs at hreply with hexpiry hlive
        refine ⟨value, ?_, ?_⟩
        · rw [sendsOf, hclient, Option.bind_some, hsends]
          simp only [Sent.command, if_pos hexpiry, if_true, Option.map_map]
          rfl
        · rw [elapsedOf, hclient]
          simpa using hlive
    · rw [hfailed] at hadvance
      cases hadvance

/-! ### The lifetimes on the server's clock -/

/-- What the server holds for whoever asks in whole seconds. -/
def Shows (s : Expiry.Store Str Bytes) (store : Backend) : Prop :=
  ∀ k, store.get? k = (s.live k).map fun c => ⟨c.value, c.deadline.map fun (d : ℕ) => ((d : ℤ) - s.now) / 1000⟩

/-- The call of an operation that gives a key a time to live. -/
def Operation.toCall (key : Str) (ttl : StdDuration) : Operation τ → Call τ
  | .put value => .put key value ttl
  | .setBytesWithTtl value => .setBytesWithTtl key value ttl
  | .expire => .expire key ttl
  | .setIfAbsentWithTtl value => .setIfAbsentWithTtl key value ttl

/-- The server after a request. -/
def Sent.run (s : Expiry.Store Str Bytes) (request : Sent) : Expiry.Store Str Bytes :=
  match request.command with
  | none => s
  | some c => s.exec c

variable {s : Expiry.Store Str Bytes} {store : Backend}

theorem shows_insert (h : Shows s store) {c : Command Str Bytes} {value : Bytes} {seconds : ℕ} (hpos : 0 < seconds)
    (heffect : c.effect s = some (some ⟨value, some (s.now + millis seconds)⟩)) :
    Shows (s.exec c) (Map.insert store c.key ⟨value, some (seconds : ℤ)⟩) := by
  intro k
  rw [Map.get?_insert, live_exec heffect, now_exec]
  have hms : s.now < s.now + millis seconds := by
    rw [millis]
    omega
  by_cases hk : k = c.key
  · have hback : ((s.now + millis seconds : ℕ) - (s.now : ℤ)) / 1000 = seconds := by
      rw [millis]
      omega
    rw [if_pos hk, if_pos hk, Option.filter_some, if_pos (by simpa [Cell.alive] using hms), Option.map_some]
    simp only [Option.map_some, hback]
  · rw [if_neg hk, if_neg hk, h k]

theorem shows_remove (h : Shows s store) {c : Command Str Bytes} (heffect : c.effect s = some none) :
    Shows (s.exec c) (Map.remove store c.key) := by
  intro k
  rw [Map.get?_remove, live_exec heffect, now_exec]
  by_cases hk : k = c.key
  · rw [if_pos hk, if_pos hk]
    rfl
  · rw [if_neg hk, if_neg hk, h k]

theorem Shows.isSome (h : Shows s store) (k : Str) : (s.live k).isSome = (store.get? k).isSome := by
  rw [h k, Option.isSome_map]

theorem shows_setEx (h : Shows s store) (key : Str) (value : Bytes) (seconds : UInt64) :
    (store.setEx key value seconds = none ∧ (Sent.set key value false (some seconds)).reply s = .error) ∨
      ∃ after, store.setEx key value seconds = some after ∧
        (Sent.set key value false (some seconds)).reply s = .ok ∧
        Shows ((Sent.set key value false (some seconds)).run s) after := by
  rw [reply_set, Sent.run, command_set, Backend.setEx]
  split_ifs with hexpiry
  · refine .inr ⟨_, rfl, rfl, ?_⟩
    have hpos : 0 < seconds.toNat := by
      rw [isExpiry, Bool.and_eq_true, decide_eq_true_eq] at hexpiry
      exact hexpiry.1
    exact shows_insert h hpos rfl
  · exact .inl ⟨rfl, rfl⟩

theorem shows_setNxEx (h : Shows s store) (key : Str) (value : Bytes) (seconds : UInt64) :
    (store.setNxEx key value seconds = none ∧ (Sent.set key value true (some seconds)).reply s = .error) ∨
      ∃ set after, store.setNxEx key value seconds = some (set, after) ∧
        (Sent.set key value true (some seconds)).reply s = (if set then .ok else .nil) ∧
        Shows ((Sent.set key value true (some seconds)).run s) after := by
  have hcommand : (Sent.set key value true (some seconds)).command =
      if isExpiry seconds then some (.setNx key value (some (millis seconds.toNat))) else none := rfl
  have hreply : (Sent.set key value true (some seconds)).reply s =
      if isExpiry seconds then if (s.live key).isSome then .nil else .ok else .error := rfl
  rw [hreply, Sent.run, hcommand, Backend.setNxEx]
  split_ifs with hexpiry hlive
  · rw [h.isSome] at hlive
    obtain ⟨entry, hentry⟩ := Option.isSome_iff_exists.mp hlive
    refine .inr ⟨false, store, by rw [hentry], rfl, ?_⟩
    rw [← h.isSome] at hlive
    dsimp only
    rw [exec_of_effect_none (by simp [Command.effect, hlive])]
    exact h
  · have hnone : store.get? key = none := by
      rw [h.isSome] at hlive
      simpa using hlive
    refine .inr ⟨true, _, by rw [hnone], rfl, ?_⟩
    have hpos : 0 < seconds.toNat := by
      rw [isExpiry, Bool.and_eq_true, decide_eq_true_eq] at hexpiry
      exact hexpiry.1
    exact shows_insert h hpos (by simp [Command.effect, hlive])
  · exact .inl ⟨rfl, rfl⟩

theorem shows_expire (h : Shows s store) (key : Str) (seconds : Int64) :
    (Sent.expire key seconds).reply s = .int (if (store.expire key seconds).1 then 1 else 0) ∧
      Shows ((Sent.expire key seconds).run s) (store.expire key seconds).2 := by
  have hreply : (Sent.expire key seconds).reply s = .int (if (s.live key).isSome then 1 else 0) := rfl
  rw [hreply, Sent.run]
  dsimp only [Sent.command]
  cases hlive : s.live key with
  | none =>
    have hnone : store.get? key = none := by rw [h key, hlive]; rfl
    have hexpire : store.expire key seconds = (false, store) := by rw [Backend.expire, hnone]
    rw [hexpire, exec_of_effect_none (by simp [Command.effect, hlive])]
    exact ⟨rfl, h⟩
  | some c =>
    have hentry := h key
    rw [hlive, Option.map_some] at hentry
    by_cases hneg : seconds.toInt ≤ 0
    · have hexpire : store.expire key seconds = (true, Map.remove store key) := by
        rw [Backend.expire, hentry]
        exact if_pos hneg
      rw [hexpire]
      exact ⟨rfl, shows_remove h (by rw [Command.effect, hlive, Option.map_some, if_pos (by omega)])⟩
    · have hexpire : store.expire key seconds = (true, Map.insert store key ⟨c.value, some seconds.toInt⟩) := by
        rw [Backend.expire, hentry]
        exact if_neg hneg
      have hback : seconds.toInt = (seconds.toInt.toNat : ℤ) := by omega
      rw [hexpire, hback]
      refine ⟨rfl, shows_insert h (by omega) ?_⟩
      have hms : ((seconds.toInt.toNat : ℤ) * 1000).toNat = seconds.toInt.toNat * 1000 := by omega
      rw [Command.effect, hlive, Option.map_some, if_neg (by omega), millis, hms]

/-- A call and the operation it is come to the same: a refusal, or a request and its answer. -/
def Agrees (toVec : τ → Option Bytes) (fromSlice : Bytes → Option τ) (cache : Cache) (s : Expiry.Store Str Bytes)
    (store : Backend) (call : Call τ) (outcome : Except CacheError Unit × Backend) : Prop :=
  (∃ e, call.request toVec cache = .error e ∧ outcome = (.error e, store)) ∨
    ∃ request, call.request toVec cache = .ok request ∧ Shows (request.run s) outcome.2 ∧
      outcome.1 = (call.answer fromSlice cache (request.reply s)).map fun _ => ()

theorem agrees_setBytesWithTtl {cache : Cache} (h : Shows s store) (key : Str) (value : Bytes) {ttl : StdDuration}
    (hne : ttl.1 ≠ 0) :
    Agrees toVec fromSlice cache s store (.setBytesWithTtl key value ttl) (cache.setBytesWithTtl store key value ttl) := by
  rw [Agrees, Call.request, if_neg hne, Cache.sized, Cache.setBytesWithTtl, if_neg hne]
  cases checkPayloadSize value.length cache.maxPayloadSize with
  | error e => exact .inl ⟨e, rfl, rfl⟩
  | ok =>
    refine .inr ⟨_, rfl, ?_⟩
    dsimp only
    rcases shows_setEx h (cache.resolveKey key) value (asSecs ttl) with ⟨hset, hreply⟩ | ⟨after, hset, hreply, hshows⟩
    · rw [hset, hreply]
      refine ⟨?_, rfl⟩
      have hnot : ¬ isExpiry (asSecs ttl) = true := not_expiry_of_setEx hset
      rw [Sent.run, command_set, if_neg hnot]
      exact h
    · rw [hset, hreply]
      exact ⟨hshows, rfl⟩

theorem agrees_put {cache : Cache} (h : Shows s store) (key : Str) (value : τ) {ttl : StdDuration} (hne : ttl.1 ≠ 0) :
    Agrees toVec fromSlice cache s store (.put key value ttl) (cache.put toVec store key value ttl) := by
  cases hvec : toVec value with
  | none =>
    rw [Agrees, Call.request, if_neg hne, hvec, Cache.put, if_neg hne, hvec]
    exact .inl ⟨.decode, rfl, rfl⟩
  | some bytes =>
    have hagrees : Agrees toVec fromSlice cache s store (.setBytesWithTtl key bytes ttl) _ :=
      agrees_setBytesWithTtl h key bytes hne
    rw [Agrees, Call.request, if_neg hne] at hagrees
    rw [put_eq hvec, Agrees, Call.request, if_neg hne, hvec]
    refine hagrees.imp_right ?_
    rintro ⟨request, hrequest, hshows, hanswer⟩
    refine ⟨request, hrequest, hshows, hanswer.trans ?_⟩
    cases request.reply s <;> rfl

theorem agrees_expire {cache : Cache} (h : Shows s store) (key : Str) {ttl : StdDuration} (hne : ttl.1 ≠ 0) :
    Agrees toVec fromSlice cache s store (.expire key ttl)
      ((cache.expire store key ttl).map (·.map fun _ => ()) id) := by
  obtain ⟨hreply, hshows⟩ := shows_expire h (cache.resolveKey key) (asSecs ttl).toInt64
  rw [Agrees, Call.request, if_neg hne, Cache.expire, if_neg hne]
  refine .inr ⟨_, rfl, hshows, ?_⟩
  rw [hreply]
  rfl

theorem agrees_setIfAbsentWithTtl {cache : Cache} (h : Shows s store) (key : Str) (value : Bytes) {ttl : StdDuration}
    (hne : ttl.1 ≠ 0) : Agrees toVec fromSlice cache s store (.setIfAbsentWithTtl key value ttl)
      ((cache.setIfAbsentWithTtl store key value ttl).map (·.map fun _ => ()) id) := by
  rw [Agrees, Call.request, if_neg hne, Cache.sized, Cache.setIfAbsentWithTtl, if_neg hne]
  cases checkPayloadSize value.length cache.maxPayloadSize with
  | error e => exact .inl ⟨e, rfl, rfl⟩
  | ok =>
    refine .inr ⟨_, rfl, ?_⟩
    dsimp only
    rcases shows_setNxEx h (cache.resolveKey key) value (asSecs ttl) with
      ⟨hset, hreply⟩ | ⟨set, after, hset, hreply, hshows⟩
    · rw [hset, hreply]
      refine ⟨?_, rfl⟩
      have hnot : (Sent.set (cache.resolveKey key) value true (some (asSecs ttl))).command = none := by
        rw [Backend.setNxEx] at hset
        split_ifs at hset with hexpiry
        · split at hset <;> cases hset
        · exact if_neg hexpiry
      rw [Sent.run, hnot]
      exact h
    · rw [hset, hreply]
      cases set <;> exact ⟨hshows, rfl⟩

/-- On the server's clock a call that gives a time to live does what it does on whole seconds. -/
theorem agrees_call {cache : Cache} (h : Shows s store) (op : Operation τ) (key : Str) (ttl : StdDuration) :
    Agrees toVec fromSlice cache s store (op.toCall key ttl) (op.call toVec cache store key ttl) := by
  by_cases hzero : ttl.1 = 0
  · refine .inl ⟨.zeroTtl, ?_, call_zero hzero⟩
    cases op <;> simp [Operation.toCall, Call.request, hzero]
  · cases op with
    | put value => exact agrees_put h key value hzero
    | setBytesWithTtl value => exact agrees_setBytesWithTtl h key value hzero
    | expire => exact agrees_expire h key hzero
    | setIfAbsentWithTtl value => exact agrees_setIfAbsentWithTtl h key value hzero

/-! ### The property -/

/-- Whatever the clients call, on any clock and whatever becomes of the connections, the store is what the calls that
    wrote make of it, each wrote once at most and as its answer says, and leases exclude each other. -/
theorem cached (es : List (Turn (Cache × Call τ) (Chance τ))) : Cached toVec fromSlice es where
  register key value := by
    rw [look_eq_some]
    exact exists_congr fun deadline => and_congr_left' (driven_clients.cells_iff key ⟨value, deadline⟩ es)
  own i n x client key he hclient halters := by
    obtain ⟨cell, c, hsends, rfl, -⟩ := halters
    rw [sendsOf_step hclient] at hsends
    obtain ⟨request, hasks, hcommand⟩ := sends_eq_some hsends
    rw [key_command hcommand, key_client_request hasks]
  once n i j hi hj := le_antisymm (not_lt.mp (not_writes_later hj hi)) (not_lt.mp (not_writes_later hi hj))
  refused n client e h hstage hne := by
    have htold := told_run h
    rw [Client.Told, hstage] at htold
    exact htold hne
  answered n client answer h hstage hwrites := by
    have htold := told_run h
    rw [Client.Told, hstage] at htold
    exact htold.1 hwrites
  loads n client h hstage := by
    have htold := told_run h
    rcases hstage with hstage | ⟨value, hstage⟩
    · rw [Client.Told, hstage] at htold
      exact htold.2.2
    · rw [Client.Told, hstage] at htold
      exact htold.2.2
  remembered n client key ttl answer h hcall hstage := by
    have htold := told_run h
    rw [Client.Told, hstage] at htold
    exact htold.2 key ttl hcall
  leases n n' key ttl ttl' i j hi hj hij := by
    obtain ⟨e, he, htakes⟩ := hi
    obtain ⟨e', he', htakes'⟩ := hj
    obtain ⟨value, hgrants⟩ := grants_of_takes htakes
    obtain ⟨value', hgrants'⟩ := grants_of_takes htakes'
    exact driven_clients.exclusive ⟨e, he, hgrants⟩ ⟨e', he', hgrants'⟩ hij

end Proofs

end Arcature.CacheStore
