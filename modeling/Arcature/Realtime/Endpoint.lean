import Arcature.Http.ClientIp
import Arcature.Lib.Feed
import Arcature.Lib.HeaderMap
import Arcature.Realtime.Shutdown

/-! The live endpoints (`realtime/websocket.rs`, `realtime/sse.rs`) over one broadcast channel
    (`realtime/channel.rs`), with their origin policy (`realtime/origin.rs`) and the drain signal.

    A WebSocket connection is admitted, subscribes, and loops over what comes first of four:

        arriving ──▶ upgraded ──▶ subscribed ──▶ beating ──▶ looping ⇄ selecting
          └──▶ refused                                          ▲        ├ drain ─────▶ Close ──▶ ended
                                                                ├────────┼ peer ──▶ left: ended
                                                                ├─ sent ◀┼ feed ──▶ closed: ended
                                                                └─ sent ◀┴ tick ──▶ silent: Close ──▶ ended

    A stream of events is admitted, subscribes, and looks for a drain before each payload it waits for:

        arriving ──▶ admitted ──▶ preamble ──▶ checking ⇄ receiving ──▶ ended
          └──▶ refused                            └── draining ──▶ ended

    Both run beside any number of others, of publishers and of `begin_drain` calls, as tasks over one hub. Who
    may send is counted: a task that holds a `Broadcast` took it from another, and drops it where it ends.
    The channel closes with the last, so no handle is ever made of none. -/

namespace Arcature.Realtime
open Arcature.Lib

/-! ### Who may connect -/

/-- `OriginPolicy`, with the origins as texts. -/
inductive OriginPolicy where
  | denyAll
  | allowExact (origin : Str)
  | allowSet (origins : List Str)

/-- `VerifiedOrigin::from_header`. -/
def verifiedOrigin (value : Bytes) : Option Str :=
  (Http.toStr value).bind fun s => if s.bytes.all fun b => b < 0x80 then some s else none

/-- `OriginPolicy::authorize`: allowed or not. -/
def OriginPolicy.authorize (policy : OriginPolicy) (header : Option Bytes) : Bool :=
  match policy with
  | .denyAll => false
  | .allowExact origin => header.any fun h => (verifiedOrigin h).any fun v => v = origin
  | .allowSet origins => header.any fun h => (verifiedOrigin h).any fun v => origins.contains v

/-- The header that is asked for. -/
def originHeader (headers : HeaderMap Bytes) : Option Bytes := (headers.getAll "origin".toList).head?

/-- `admission_status`, of what admission can fail with. -/
inductive Refusal where
  | origin
  | unauthorized
  | connectionLimit
  deriving DecidableEq

/-- `admission_status`. -/
def Refusal.status : Refusal → ℕ
  | .origin | .unauthorized => 403
  | .connectionLimit => 503

/-! ### The hub -/

/-- What all tasks share: the clock, the channel with the number of its `Broadcast` handles, the drain signal. -/
structure Hub where
  now : ℕ
  made : Bool
  sent : List Bytes
  handles : ℕ
  signal : DrainSignal

/-- Somebody can still send. -/
def Hub.live (hub : Hub) : Bool := 0 < hub.handles

/-- A subscription: its first value, the value it reads next, and what `recv` has returned so far. -/
structure Subscription where
  first : ℕ
  next : ℕ
  told : List (Option Bytes)

/-- `Broadcast::subscribe`. -/
def Hub.subscribe (hub : Hub) : Subscription := ⟨hub.sent.length, hub.sent.length, []⟩

/-- The limits of both endpoints, and how many payloads the channel keeps. -/
structure Limits where
  kept : ℕ
  heartbeatInterval : ℕ
  heartbeatTimeout : ℕ
  retryMs : ℕ

/-! ### What a task gets at its turn -/

/-- What the socket has for the connection. -/
inductive Incoming where
  | close
  | pong
  | other
  | broken

/-- What is polled, and what comes of it where that is not up to the hub. -/
inductive Poll where
  | advance
  | register (room : Bool)
  | publish (payload : Bytes)
  | drop
  | drain
  | peer (message : Incoming)
  | feed
  | heartbeat

/-- A turn: what time has gone by since the last turn of any task, and what is polled. -/
structure Chance where
  elapsed : ℕ
  poll : Poll

/-! ### A WebSocket connection -/

/-- What is handed to the socket. -/
inductive Frame where
  | binary (payload : Bytes)
  | ping
  | close
  deriving DecidableEq

/-- Why a connection is over. -/
inductive End where
  | drained
  | silent
  | gone
  | closed
  | panicked
  deriving DecidableEq

/-- Where a connection is. While it sends it knows whether that ends it. -/
inductive Phase where
  | arriving
  | refused (why : Refusal)
  | upgraded
  | subscribed
  | beating
  | looping
  | selecting (drain : Stage)
  | ticked
  | sending (closing : Option End)
  | ended (why : End)

/-- A connection: its request, what the authorizer says to it, the variables of `run_connection`, when its
    interval began, and the frames it has handed over. -/
structure Connection where
  headers : HeaderMap Bytes
  authorized : Bool
  phase : Phase
  sub : Subscription
  opened : ℕ
  heartbeat : ℕ
  lastPong : ℕ
  frames : List Frame

section Steps

variable (policy : OriginPolicy) (limits : Limits)

/-- `WebSocketEndpoint::handle` on a request. -/
def Connection.arrive (headers : HeaderMap Bytes) (authorized : Bool) : Connection :=
  ⟨headers, authorized, .arriving, ⟨0, 0, []⟩, 0, 0, 0, []⟩

/-- The branch of `select!` that reads the channel. -/
def Connection.recv (hub : Hub) (c : Connection) : Connection :=
  match Feed.receive limits.kept hub.live hub.sent c.sub.next with
  | (.value payload, next) =>
    { c with
      sub := ⟨c.sub.first, next, c.sub.told ++ [some payload]⟩
      frames := c.frames ++ [.binary payload]
      phase := .sending none }
  | (.lagged, next) => { c with sub := ⟨c.sub.first, next, c.sub.told ++ [none]⟩, phase := .looping }
  | (.empty, _) => c
  | (.closed, _) => { c with phase := .ended .closed }

/-- `WebSocketEndpoint::handle` and `run_connection`, one access or one poll of a branch at a time. -/
def Connection.poll (hub : Hub) (c : Connection) (p : Poll) : Connection :=
  match c.phase, p with
  | .arriving, .register room =>
    if policy.authorize (originHeader c.headers) = false then { c with phase := .refused .origin }
    else if (c.authorized && hub.live) = false then { c with phase := .refused .unauthorized }
    else if room = false then { c with phase := .refused .connectionLimit }
    else { c with phase := .upgraded }
  | .upgraded, .advance => { c with sub := hub.subscribe, phase := .subscribed }
  | .subscribed, .advance =>
    -- an interval of no length panics
    if limits.heartbeatInterval = 0 then { c with phase := .ended .panicked }
    else { c with opened := hub.now, heartbeat := hub.now + limits.heartbeatInterval, phase := .beating }
  | .beating, .advance => { c with lastPong := hub.now, phase := .looping }
  | .looping, .advance => { c with phase := .selecting (.subscribed hub.signal.calls) }
  | .selecting drain, .drain =>
    if (Realtime.advance hub.signal drain ()).2 = .ready then
      { c with frames := c.frames ++ [.close], phase := .sending (some .drained) }
    else { c with phase := .selecting (Realtime.advance hub.signal drain ()).2 }
  | .selecting _, .peer .close => { c with phase := .ended .gone }
  | .selecting _, .peer .pong => { c with lastPong := hub.now, phase := .looping }
  | .selecting _, .peer .other => { c with phase := .looping }
  | .selecting _, .peer .broken => { c with phase := .ended .gone }
  | .selecting _, .feed => c.recv limits hub
  | .selecting _, .heartbeat =>
    -- a tick that was missed is made up for at once, so the next is due one interval after this one was
    if c.heartbeat ≤ hub.now then { c with heartbeat := c.heartbeat + limits.heartbeatInterval, phase := .ticked }
    else c
  | .ticked, .advance =>
    if limits.heartbeatTimeout < hub.now - c.lastPong then
      { c with frames := c.frames ++ [.close], phase := .sending (some .silent) }
    else { c with frames := c.frames ++ [.ping], phase := .sending none }
  -- the send may take its time, and whether it succeeds is not looked at
  | .sending none, .advance => { c with phase := .looping }
  | .sending (some why), .advance => { c with phase := .ended why }
  | _, _ => c

/-- The connection's clone of the `Broadcast`. -/
def Connection.holds (c : Connection) : Bool :=
  match c.phase with
  | .arriving | .refused _ | .ended _ => false
  | _ => true

/-! ### A stream of events -/

/-- What the client is sent: `data` takes the payload as text, or nothing where it is not UTF-8. -/
inductive Event where
  | retry (ms : ℕ)
  | data (text : Str)
  | comment (text : Str)
  deriving DecidableEq

/-- Where a stream is. -/
inductive StreamPhase where
  | arriving
  | refused (why : Refusal)
  | admitted
  | preamble
  | checking
  | receiving
  | ended
  deriving DecidableEq

/-- A stream: its request, its subscription, and the events it has produced. -/
structure EventStream where
  headers : HeaderMap Bytes
  phase : StreamPhase
  sub : Subscription
  events : List Event

/-- `SseEndpoint::handle` on a request. -/
def EventStream.arrive (headers : HeaderMap Bytes) : EventStream := ⟨headers, .arriving, ⟨0, 0, []⟩, []⟩

/-- What the client is told of a reception. -/
def eventOf : Option Bytes → Event
  | some payload => .data ((Str.ofBytes? payload).getD [])
  | none => .comment "lagged".toList

/-- What a reception makes of the stream. -/
def EventStream.recv (hub : Hub) (s : EventStream) : EventStream :=
  match Feed.receive limits.kept hub.live hub.sent s.sub.next with
  | (.value payload, next) =>
    { s with
      sub := ⟨s.sub.first, next, s.sub.told ++ [some payload]⟩
      events := s.events ++ [eventOf (some payload)]
      phase := .checking }
  | (.lagged, next) =>
    { s with
      sub := ⟨s.sub.first, next, s.sub.told ++ [none]⟩
      events := s.events ++ [eventOf none]
      phase := .checking }
  | (.empty, _) => s
  | (.closed, _) => { s with phase := .ended }

/-- `SseEndpoint::handle` and its stream, one access or one poll at a time. -/
def EventStream.poll (hub : Hub) (s : EventStream) (p : Poll) : EventStream :=
  match s.phase, p with
  | .arriving, .register room =>
    if policy.authorize (originHeader s.headers) = false then { s with phase := .refused .origin }
    else if room = false then { s with phase := .refused .connectionLimit }
    -- the endpoint holds a handle of its own: without one there is none to be asked
    else if hub.live = false then s
    else { s with phase := .admitted }
  | .admitted, .advance => { s with sub := hub.subscribe, phase := .preamble }
  | .preamble, .advance => { s with events := s.events ++ [.retry limits.retryMs], phase := .checking }
  | .checking, .advance => { s with phase := if hub.signal.draining then .ended else .receiving }
  | .receiving, .feed => s.recv limits hub
  | _, _ => s

/-- The endpoint's `Broadcast`, until `handle` returns. -/
def EventStream.holds (s : EventStream) : Bool := s.phase = .admitted

/-! ### Whoever has a handle -/

/-- A holder of a `Broadcast`: before it has it, with it, and after it has dropped it. -/
inductive Sender where
  | entering
  | holding
  | done
  deriving DecidableEq

/-- The first holder makes the channel, the others clone. -/
def Sender.poll (hub : Hub) (s : Sender) (p : Poll) : Sender :=
  match s, p with
  | .entering, .advance => if !hub.made || hub.live then .holding else .done
  | .holding, .drop => .done
  | _, _ => s

def Sender.holds (s : Sender) : Bool := s = .holding

/-! ### The tasks -/

/-- Where a task of any kind is. -/
inductive Party where
  | sender (s : Sender)
  | signalling (stage : Stage)
  | websocket (c : Connection)
  | sse (s : EventStream)

def Party.holds : Party → Bool
  | .sender s => s.holds
  | .signalling _ => false
  | .websocket c => c.holds
  | .sse s => s.holds

/-- What a task moves to. -/
def Party.poll (hub : Hub) (p : Poll) : Party → Party
  | .sender s => .sender (s.poll hub p)
  | .signalling stage => .signalling (Realtime.advance hub.signal stage ()).2
  | .websocket c => .websocket (c.poll policy limits hub p)
  | .sse s => .sse (s.poll policy limits hub p)

/-- What is sent: a payload no receiver listens for is lost, which no later subscription can tell. -/
def Party.publishes : Party → Poll → List Bytes
  | .sender .holding, .publish payload => [payload]
  | _, _ => []

/-- What a task does to the drain signal. -/
def Party.signals (signal : DrainSignal) : Party → DrainSignal
  | .signalling stage => (Realtime.advance signal stage ()).1
  | _ => signal

/-- One turn of a task. Its handle is cloned as it begins to hold one and dropped as it ceases to. -/
def turnOf (hub : Hub) (place : Party) (x : Chance) : Hub × Party :=
  let hub := { hub with now := hub.now + x.elapsed }
  let place' := place.poll policy limits hub x.poll
  ({ hub with
      made := hub.made || place'.holds
      sent := hub.sent ++ place.publishes x.poll
      handles := hub.handles + place'.holds.toNat - place.holds.toNat
      signal := place.signals hub.signal }, place')

/-- What is started. -/
inductive Arrival where
  | broadcast
  | beginDrain
  | websocket (headers : HeaderMap Bytes) (authorized : Bool)
  | sse (headers : HeaderMap Bytes)

/-- Where a task starts. -/
def Arrival.start : Arrival → Party
  | .broadcast => .sender .entering
  | .beginDrain => .signalling .beginDrain
  | .websocket headers authorized => .websocket (.arrive headers authorized)
  | .sse headers => .sse (.arrive headers)

/-- The endpoints of an application at work. -/
def realtime : Program Hub Party Arrival Chance :=
  ⟨⟨0, false, [], 0, ⟨false, 0⟩⟩, Arrival.start, turnOf policy limits⟩

end Steps

section Proofs

variable {policy : OriginPolicy} {limits : Limits}

/-! ### What one turn does -/

/-- The moves of a connection at a hub, with what allows each. -/
inductive Moved (policy : OriginPolicy) (limits : Limits) (hub : Hub) (c : Connection) : Connection → Prop
  | stays : Moved policy limits hub c c
  | refused (why : Refusal) (h : c.phase = .arriving) : Moved policy limits hub c { c with phase := .refused why }
  | admitted (h : c.phase = .arriving) (horigin : policy.authorize (originHeader c.headers) = true)
      (hauthorized : c.authorized = true) (hlive : hub.live = true) :
      Moved policy limits hub c { c with phase := .upgraded }
  | subscribes (h : c.phase = .upgraded) : Moved policy limits hub c { c with sub := hub.subscribe, phase := .subscribed }
  | panics (h : c.phase = .subscribed) : Moved policy limits hub c { c with phase := .ended .panicked }
  | begins (h : c.phase = .subscribed) (hinterval : 0 < limits.heartbeatInterval) : Moved policy limits hub c
      { c with opened := hub.now, heartbeat := hub.now + limits.heartbeatInterval, phase := .beating }
  | starts (h : c.phase = .beating) : Moved policy limits hub c { c with lastPong := hub.now, phase := .looping }
  | selects (h : c.phase = .looping) : Moved policy limits hub c { c with phase := .selecting (.subscribed hub.signal.calls) }
  | waits (drain : Stage) (h : c.phase = .selecting drain)
      (hnot : (advance hub.signal drain ()).2 ≠ .ready) :
      Moved policy limits hub c { c with phase := .selecting (advance hub.signal drain ()).2 }
  | drains (drain : Stage) (h : c.phase = .selecting drain) (hready : (advance hub.signal drain ()).2 = .ready) :
      Moved policy limits hub c { c with frames := c.frames ++ [.close], phase := .sending (some .drained) }
  | hears (drain : Stage) (h : c.phase = .selecting drain) :
      Moved policy limits hub c { c with lastPong := hub.now, phase := .looping }
  | ignores (drain : Stage) (h : c.phase = .selecting drain) : Moved policy limits hub c { c with phase := .looping }
  | leaves (drain : Stage) (h : c.phase = .selecting drain) : Moved policy limits hub c { c with phase := .ended .gone }
  | reads (drain : Stage) (payload : Bytes) (h : c.phase = .selecting drain)
      (hnext : hub.sent[c.sub.next]? = some payload) : Moved policy limits hub c
      { c with
        sub := ⟨c.sub.first, c.sub.next + 1, c.sub.told ++ [some payload]⟩
        frames := c.frames ++ [.binary payload]
        phase := .sending none }
  | lags (drain : Stage) (h : c.phase = .selecting drain) (hlag : c.sub.next + limits.kept < hub.sent.length) :
      Moved policy limits hub c
        { c with
          sub := ⟨c.sub.first, hub.sent.length - limits.kept, c.sub.told ++ [none]⟩
          phase := .looping }
  | closes (drain : Stage) (h : c.phase = .selecting drain) (hlive : hub.live = false) :
      Moved policy limits hub c { c with phase := .ended .closed }
  | ticks (drain : Stage) (h : c.phase = .selecting drain) (hdue : c.heartbeat ≤ hub.now) : Moved policy limits hub c
      { c with heartbeat := c.heartbeat + limits.heartbeatInterval, phase := .ticked }
  | gives (h : c.phase = .ticked) (hsilent : limits.heartbeatTimeout < hub.now - c.lastPong) :
      Moved policy limits hub c { c with frames := c.frames ++ [.close], phase := .sending (some .silent) }
  | pings (h : c.phase = .ticked) (hheard : hub.now - c.lastPong ≤ limits.heartbeatTimeout) :
      Moved policy limits hub c { c with frames := c.frames ++ [.ping], phase := .sending none }
  | sends (h : c.phase = .sending none) : Moved policy limits hub c { c with phase := .looping }
  | ends (why : End) (h : c.phase = .sending (some why)) : Moved policy limits hub c { c with phase := .ended why }

theorem moved_recv {hub : Hub} {c : Connection} {drain : Stage} (h : c.phase = .selecting drain) :
    Moved policy limits hub c (c.recv limits hub) := by
  rw [Connection.recv]
  rcases Feed.receive_cases limits.kept hub.live hub.sent c.sub.next with
    ⟨hlag, hreceive⟩ | ⟨payload, hnext, hreceive⟩ | ⟨-, hreceive⟩
  · rw [hreceive]
    exact .lags drain h hlag
  · rw [hreceive]
    exact .reads drain payload h hnext
  · rw [hreceive]
    cases hlive : hub.live with
    | true => exact .stays
    | false => exact .closes drain h hlive

theorem moved_poll (hub : Hub) (c : Connection) (p : Poll) : Moved policy limits hub c (c.poll policy limits hub p) := by
  unfold Connection.poll
  split
  case h_1 room h =>
    split_ifs with horigin hauthorized hroom
    · exact .refused _ h
    · exact .refused _ h
    · exact .refused _ h
    · simp only [Bool.not_eq_false, Bool.and_eq_true] at horigin hauthorized
      exact .admitted h horigin hauthorized.1 hauthorized.2
  case h_2 h => exact .subscribes h
  case h_3 h =>
    split_ifs with hinterval
    · exact .panics h
    · exact .begins h (Nat.pos_of_ne_zero hinterval)
  case h_4 h => exact .starts h
  case h_5 h => exact .selects h
  case h_6 drain h =>
    split_ifs with hready
    · exact .drains drain h hready
    · exact .waits drain h hready
  case h_7 drain h => exact .leaves drain h
  case h_8 drain h => exact .hears drain h
  case h_9 drain h => exact .ignores drain h
  case h_10 drain h => exact .leaves drain h
  case h_11 drain h => exact moved_recv h
  case h_12 drain h =>
    split_ifs with hdue
    · exact .ticks drain h hdue
    · exact .stays
  case h_13 h =>
    split_ifs with hsilent
    · exact .gives h hsilent
    · exact .pings h (not_lt.mp hsilent)
  case h_14 h => exact .sends h
  case h_15 why h => exact .ends why h
  case h_16 => exact .stays

/-- What every turn of every task does to the hub. -/
structure Hub.Later (hub hub' : Hub) : Prop where
  now : hub.now ≤ hub'.now
  sent : ∃ more, hub'.sent = hub.sent ++ more
  draining : hub.signal.draining = true → hub'.signal.draining = true

theorem draining_advance {signal : DrainSignal} (stage : Stage) (h : signal.draining = true) :
    (advance signal stage ()).1.draining = true := by
  cases stage <;> simp only [advance]
  case beginDrain => rw [if_pos h, h]
  case notifying => exact h
  case drainNotified => exact h
  all_goals first | (split_ifs <;> exact h) | exact h

theorem later_turnOf (hub : Hub) (place : Party) (x : Chance) : hub.Later (turnOf policy limits hub place x).1 where
  now := Nat.le_add_right _ _
  sent := ⟨_, rfl⟩
  draining h := by
    cases place with
    | signalling stage => exact draining_advance stage h
    | _ => exact h

/-! ### Handles -/

/-- The channel was closed under the task. -/
def Party.cutOff : Party → Prop
  | .websocket c => c.phase = .ended .closed ∨ c.phase = .sending (some .closed)
  | _ => False

theorem cutOff_moved {hub : Hub} {c c' : Connection} (hm : Moved policy limits hub c c')
    (hlive : c.holds = true → hub.live = true) (h : ¬ (Party.websocket c).cutOff) : ¬ (Party.websocket c').cutOff := by
  simp only [Party.cutOff] at h ⊢
  cases hm with
  | stays => exact h
  | closes drain hphase hclosed =>
    rw [hlive (by rw [Connection.holds, hphase])] at hclosed
    cases hclosed
  | ends why hphase =>
    rintro (hwhy | hwhy)
    · obtain rfl := Phase.ended.inj hwhy
      exact h (.inr hphase)
    · cases hwhy
  | _ => simp

theorem handles_turnOf {hub : Hub} {place : Party} (x : Chance) (hpos : place.holds = true → 0 < hub.handles) :
    (turnOf policy limits hub place x).1.handles + place.holds.toNat =
      hub.handles + (turnOf policy limits hub place x).2.holds.toNat := by
  have hle : place.holds.toNat ≤ hub.handles := by
    cases hholds : place.holds with
    | true => exact hpos hholds
    | false => exact Nat.zero_le _
  simp only [turnOf]
  omega

theorem holds_moved {hub : Hub} {c c' : Connection} (hm : Moved policy limits hub c c') (h : c'.holds = true) :
    c.holds = true ∨ hub.live = true := by
  cases hm with
  | stays => exact .inl h
  | refused | panics | leaves | closes | ends => cases h
  | admitted _ _ _ hlive => exact .inr hlive
  | subscribes hphase | begins hphase | starts hphase | selects hphase | waits _ hphase | drains _ hphase
  | hears _ hphase | ignores _ hphase | reads _ _ hphase | lags _ hphase | ticks _ hphase | gives hphase
  | pings hphase | sends hphase => exact .inl (by rw [Connection.holds, hphase])

/-- The handles are those that the tasks hold, and nobody who holds one sees the channel closed. -/
theorem kept_handles : (realtime policy limits).Kept (fun _ => True) (fun _ place => ¬ place.cutOff) Hub.handles
    Party.holds where
  init := trivial
  zero := rfl
  start _ call _ := by cases call <;> simp [realtime, Arrival.start, Party.cutOff, Connection.arrive]
  free call := by cases call <;> rfl
  memory _ _ _ _ _ _ := trivial
  place hub place x _ hopen hpos := by
    cases place with
    | websocket c =>
      refine cutOff_moved (moved_poll _ c x.poll) (fun hholds => ?_) hopen
      simpa [Hub.live] using hpos hholds
    | _ => simp [realtime, turnOf, Party.poll, Party.cutOff]
  rely _ _ _ _ _ _ _ h := h
  count _ _ x _ _ hpos := handles_turnOf x hpos

/-! ### The drain signal -/

/-- A subscription to the signal that was made. -/
def Stage.Listens : Stage → Prop
  | .subscribed _ | .waiting _ | .ready => True
  | _ => False

/-- What a connection knows of the signal. -/
def Phase.Knows (signal : DrainSignal) : Phase → Prop
  | .selecting drain => drain.Listens ∧ drain.Knows signal
  | .sending (some .drained) | .ended .drained => signal.draining = true
  | _ => True

/-- What a task knows of the signal. -/
def Party.Knows (signal : DrainSignal) : Party → Prop
  | .signalling stage => stage.Knows signal
  | .websocket c => c.phase.Knows signal
  | _ => True

/-- The task has set the flag and has still to wake the waiters. -/
def Party.notifies : Party → Bool
  | .signalling stage => stage.notifies
  | _ => false

theorem listens_advance {signal : DrainSignal} {stage : Stage} (h : stage.Listens) :
    (advance signal stage ()).1 = signal ∧ (advance signal stage ()).2.Listens := by
  cases stage with
  | subscribed seen =>
    simp only [advance]
    split_ifs <;> exact ⟨rfl, trivial⟩
  | waiting seen =>
    simp only [advance]
    split_ifs <;> exact ⟨rfl, trivial⟩
  | ready => exact ⟨rfl, trivial⟩
  | _ => exact h.elim

/-- A connection's wait for a drain goes on as any other does. -/
theorem knows_wait {signal : DrainSignal} {stage : Stage} (hsound : signal.Sound) (hlistens : stage.Listens)
    (hknows : stage.Knows signal) : (advance signal stage ()).2.Knows signal := by
  have hplace := kept_shutdown.place signal stage () hsound hknows fun howes => by
    obtain rfl := of_decide_eq_true howes
    exact hlistens.elim
  rwa [show shutdown.act signal stage () = advance signal stage () from rfl, (listens_advance hlistens).1] at hplace

theorem knows_moved {hub : Hub} {c c' : Connection} (hm : Moved policy limits hub c c') (hsound : hub.signal.Sound)
    (h : c.phase.Knows hub.signal) : c'.phase.Knows hub.signal := by
  cases hm with
  | stays => exact h
  | selects => exact ⟨trivial, le_rfl⟩
  | waits drain hphase =>
    rw [hphase] at h
    exact ⟨(listens_advance h.1).2, knows_wait hsound h.1 h.2⟩
  | drains drain hphase hready =>
    rw [hphase] at h
    have hwait := knows_wait hsound h.1 h.2
    rw [hready] at hwait
    exact hwait
  | ends why hphase =>
    rw [hphase] at h
    cases why <;> exact h
  | _ => exact trivial

/-- Another task's access to the signal leaves what a connection knows. -/
theorem knows_rely {signal : DrainSignal} {stage : Stage} {phase : Phase} (hsound : signal.Sound)
    (hknows : stage.Knows signal) (hpos : stage.notifies = true → 0 < signal.owed) (h : phase.Knows signal) :
    phase.Knows (advance signal stage ()).1 := by
  cases phase with
  | selecting drain => exact ⟨h.1, kept_shutdown.rely signal stage () drain hsound hknows hpos h.2⟩
  | sending closing =>
    rcases closing with _ | why
    · exact trivial
    · cases why <;> first | exact trivial | exact draining_advance stage h
  | ended why =>
    cases why <;> first | exact trivial | exact draining_advance stage h
  | _ => exact trivial

theorem kept_signal : (realtime policy limits).Kept (fun hub => hub.signal.Sound) (fun hub place => place.Knows hub.signal)
    (fun hub => hub.signal.owed) Party.notifies where
  init := kept_shutdown.init
  zero := rfl
  start _ call _ := by cases call <;> exact trivial
  free call := by cases call <;> rfl
  memory hub place x hsound hknows hpos := by
    cases place with
    | signalling stage => exact kept_shutdown.memory hub.signal stage () hsound hknows hpos
    | _ => exact hsound
  place hub place x hsound hknows hpos := by
    cases place with
    | signalling stage => exact kept_shutdown.place hub.signal stage () hsound hknows hpos
    | websocket c =>
      have hmoved : Moved policy limits _ c _ := moved_poll { hub with now := hub.now + x.elapsed } c x.poll
      have hknows' := knows_moved hmoved hsound hknows
      exact hknows'
    | _ => exact trivial
  rely hub place x other hsound hknows hpos hother := by
    cases place with
    | signalling stage =>
      cases other with
      | signalling stage' => exact kept_shutdown.rely hub.signal stage () stage' hsound hknows hpos hother
      | websocket c => exact knows_rely hsound hknows hpos hother
      | _ => exact trivial
    | _ => exact hother
  count hub place x hsound hknows hpos := by
    cases place with
    | signalling stage => exact kept_shutdown.count hub.signal stage () hsound hknows hpos
    | _ => rfl

/-- Once a drain has begun and its setter has notified, every wait for it is over at the next look. -/
theorem ready_of_drained {signal : DrainSignal} {stage : Stage} (hdraining : signal.draining = true)
    (howed : signal.owed = 0) (hlistens : stage.Listens) (hknows : stage.Knows signal) :
    (advance signal stage ()).2 = .ready := by
  cases stage with
  | subscribed seen => simp [advance, hdraining]
  | waiting seen =>
    have hseen : seen = 0 := hknows
    rw [DrainSignal.owed, hdraining, Bool.toNat_true] at howed
    have hcalls : signal.calls ≠ seen := by omega
    simp [advance, hcalls]
  | ready => rfl
  | _ => exact hlistens.elim

end Proofs

end Arcature.Realtime
