import Arcature.Realtime.Endpoint

/-! A WebSocket connection over its life (`realtime/websocket.rs`).

    Beside any number of other connections, publishers and drains, on any clock and whatever its peer does, a
    connection hands over what was published since it subscribed, in order and each payload once, with a gap only
    where it fell behind. It closes once and then says no more, because a drain has begun or because no pong was
    read for longer than the timeout; a silent peer is closed at the first tick that is read one interval after
    its time, and an announced drain the first time it is looked at. -/

namespace Arcature.Realtime
open Arcature.Lib

/-! ### The vocabulary of the property -/

/-- The payload of a frame. -/
def Frame.payload? : Frame → Option Bytes
  | .binary payload => some payload
  | _ => none

/-- The payloads handed over. -/
def Connection.payloads (c : Connection) : List Bytes := c.frames.filterMap Frame.payload?

/-- The pings handed over. -/
def Connection.pings (c : Connection) : ℕ := c.frames.count .ping

/-- The last frame of a connection that closes or has closed. -/
def Phase.closing : Phase → List Frame
  | .sending (some _) | .ended .drained | .ended .silent => [.close]
  | _ => []

/-- Past its admission. -/
def Phase.Admitted : Phase → Prop
  | .arriving | .refused _ => False
  | _ => True

section Vocabulary

variable (policy : OriginPolicy) (limits : Limits)

/-- Connection `i` reads the channel more than what is kept behind its end. -/
def Lags (i : ℕ) (s : Tasks Hub Party) (e : Turn Arrival Chance) : Prop :=
  ∃ c x, s.places[i]? = some (.websocket c) ∧ e = .step i x ∧ c.sub.next + limits.kept < s.memory.sent.length

/-- Connection `i` reads a pong. -/
def HearsPong (i : ℕ) (s : Tasks Hub Party) (e : Turn Arrival Chance) : Prop :=
  ∃ c drain elapsed, s.places[i]? = some (.websocket c) ∧ c.phase = .selecting drain ∧
    e = .step i ⟨elapsed, .peer .pong⟩

/-- Connection `i` gives its peer up. -/
def GivesUp (i : ℕ) (s : Tasks Hub Party) (e : Turn Arrival Chance) : Prop :=
  ∃ c c', s.places[i]? = some (.websocket c) ∧ c.phase ≠ .sending (some .silent) ∧
    ((realtime policy limits).turn s e).places[i]? = some (.websocket c') ∧ c'.phase = .sending (some .silent)

/-- The time on the clock after the first `k` events. -/
def clock (es : List (Turn Arrival Chance)) (k : ℕ) : ℕ := ((realtime policy limits).tasks.run (es.take k)).memory.now

/-- What a schedule makes of connection `i`. -/
structure Connected (es : List (Turn Arrival Chance)) (i : ℕ) (c : Connection) : Prop where
  admitted : c.phase.Admitted → policy.authorize (originHeader c.headers) = true ∧ c.authorized = true
  ordered : c.payloads.Sublist (((realtime policy limits).tasks.run es).memory.sent.drop c.sub.first)
  complete : (∀ k, ¬ (realtime policy limits).tasks.Fires es k (Lags limits i)) →
    c.payloads = (((realtime policy limits).tasks.run es).memory.sent.take c.sub.next).drop c.sub.first
  lastly : ∃ before, .close ∉ before ∧ c.frames = before ++ c.phase.closing
  uncut : c.phase ≠ .ended .closed
  drained : c.phase = .ended .drained ∨ c.phase = .sending (some .drained) →
    ((realtime policy limits).tasks.run es).memory.signal.draining = true
  heeds : ((realtime policy limits).tasks.run es).memory.signal.draining = true →
    (∀ place ∈ ((realtime policy limits).tasks.run es).places, place.notifies = false) →
      ∀ drain, c.phase = .selecting drain → ∀ elapsed,
        ((realtime policy limits).tasks.run (es ++ [.step i ⟨elapsed, .drain⟩])).places[i]? =
          some (.websocket { c with frames := c.frames ++ [.close], phase := .sending (some .drained) })
  silence : ∀ k, (realtime policy limits).tasks.Fires es k (GivesUp policy limits i) →
    ∀ j < k, (realtime policy limits).tasks.Fires es j (HearsPong i) →
      clock policy limits es (j + 1) + limits.heartbeatTimeout < clock policy limits es (k + 1)
  noticed : ∀ drain, c.phase = .selecting drain → ∀ elapsed elapsed',
    c.lastPong + limits.heartbeatTimeout + limits.heartbeatInterval ≤
        ((realtime policy limits).tasks.run es).memory.now + elapsed →
      ∃ c', ((realtime policy limits).tasks.run
          (es ++ [.step i ⟨elapsed, .heartbeat⟩] ++ [.step i ⟨elapsed', .advance⟩])).places[i]? = some (.websocket c') ∧
        c'.phase = .sending (some .silent)
  paced : c.opened + c.pings * limits.heartbeatInterval ≤ ((realtime policy limits).tasks.run es).memory.now

end Vocabulary

section Proofs

variable {policy : OriginPolicy} {limits : Limits}

/-! ### What a connection keeps -/

/-- Nothing was handed over yet. -/
def Phase.Fresh : Phase → Prop
  | .arriving | .refused _ | .upgraded | .subscribed | .beating => True
  | _ => False

/-- The clocks of a connection. A tick is due at most one interval after the time its peer has. -/
def Connection.Timed (limits : Limits) (now : ℕ) (c : Connection) : Prop :=
  match c.phase with
  | .beating =>
    0 < limits.heartbeatInterval ∧ c.opened ≤ now ∧ c.heartbeat = c.opened + limits.heartbeatInterval
  | .looping | .selecting _ | .sending none =>
    0 < limits.heartbeatInterval ∧
      c.heartbeat ≤ c.lastPong + limits.heartbeatTimeout + limits.heartbeatInterval ∧
      c.opened + (c.pings + 1) * limits.heartbeatInterval ≤ c.heartbeat
  | .ticked =>
    0 < limits.heartbeatInterval ∧ c.heartbeat ≤ now + limits.heartbeatInterval ∧
      c.opened + (c.pings + 2) * limits.heartbeatInterval ≤ c.heartbeat
  | _ => True

/-- The invariant of a connection. -/
structure Connection.Keeps (policy : OriginPolicy) (limits : Limits) (hub : Hub) (c : Connection) : Prop where
  reads : Feed.Reads limits.kept hub.sent c.sub.first c.sub.told c.sub.next
  told : c.payloads = c.sub.told.reduceOption
  fresh : c.phase.Fresh → c.frames = [] ∧ c.lastPong = 0
  closing : ∃ before, .close ∉ before ∧ c.frames = before ++ c.phase.closing
  reason : ∀ why, c.phase = .sending (some why) → why = .drained ∨ why = .silent
  admitted : c.phase.Admitted → policy.authorize (originHeader c.headers) = true ∧ c.authorized = true
  heard : c.lastPong ≤ hub.now
  timed : c.Timed limits hub.now
  paced : c.opened + c.pings * limits.heartbeatInterval ≤ hub.now

theorem keeps_later {hub hub' : Hub} {c : Connection} (h : c.Keeps policy limits hub) (hlater : hub.Later hub') :
    c.Keeps policy limits hub' := by
  obtain ⟨more, hmore⟩ := hlater.sent
  have hnow := hlater.now
  refine { h with reads := ?_, heard := h.heard.trans hnow, timed := ?_, paced := h.paced.trans hnow }
  · rw [hmore]
    exact h.reads.append more
  · have htimed := h.timed
    rw [Connection.Timed] at htimed ⊢
    cases hphase : c.phase with
    | beating =>
      rw [hphase] at htimed
      exact ⟨htimed.1, htimed.2.1.trans hnow, htimed.2.2⟩
    | ticked =>
      rw [hphase] at htimed
      exact ⟨htimed.1, htimed.2.1.trans (Nat.add_le_add_right hnow _), htimed.2.2⟩
    | sending closing =>
      rw [hphase] at htimed
      cases closing <;> exact htimed
    | _ =>
      rw [hphase] at htimed
      exact htimed

section Moved

variable {hub : Hub} {c c' : Connection}

theorem reads_moved (hm : Moved policy limits hub c c') (h : c.Keeps policy limits hub) :
    Feed.Reads limits.kept hub.sent c'.sub.first c'.sub.told c'.sub.next := by
  cases hm with
  | subscribes => exact .nil le_rfl
  | reads drain payload hphase hnext => exact h.reads.value hnext
  | lags drain hphase hlag => exact h.reads.lagged (by dsimp only; omega) (by dsimp only; omega)
  | _ => exact h.reads

theorem told_moved (hm : Moved policy limits hub c c') (h : c.Keeps policy limits hub) :
    c'.payloads = c'.sub.told.reduceOption := by
  have htold := h.told
  rw [Connection.payloads] at htold ⊢
  cases hm with
  | subscribes hphase =>
    have hfresh := (h.fresh (by rw [hphase]; exact trivial)).1
    simp [hfresh, Hub.subscribe]
  | reads drain payload hphase hnext =>
    simp only [List.filterMap_append, List.reduceOption_append, htold]
    rfl
  | lags drain hphase hlag =>
    simp only [List.reduceOption_append, htold]
    rw [List.reduceOption_cons_of_none, List.reduceOption_nil, List.append_nil]
  | drains | gives | pings =>
    rw [List.filterMap_append, htold]
    exact List.append_nil _
  | _ => exact htold

theorem fresh_moved (hm : Moved policy limits hub c c') (h : c.Keeps policy limits hub) :
    c'.phase.Fresh → c'.frames = [] ∧ c'.lastPong = 0 := by
  cases hm with
  | stays => exact h.fresh
  | refused _ hphase | admitted hphase | subscribes hphase | begins hphase =>
    exact fun _ => h.fresh (by rw [hphase]; exact trivial)
  | _ => exact fun hfresh => hfresh.elim

/-- Nothing is closed before the connection closes. -/
theorem Connection.Keeps.close_notMem (h : c.Keeps policy limits hub) (hopen : c.phase.closing = []) :
    .close ∉ c.frames := by
  obtain ⟨before, hnone, hframes⟩ := h.closing
  rwa [hframes, hopen, List.append_nil]

theorem closing_moved (hm : Moved policy limits hub c c') (h : c.Keeps policy limits hub) :
    ∃ before, .close ∉ before ∧ c'.frames = before ++ c'.phase.closing := by
  cases hm with
  | stays => exact h.closing
  | drains drain hphase => exact ⟨c.frames, h.close_notMem (by rw [hphase]; rfl), rfl⟩
  | gives hphase => exact ⟨c.frames, h.close_notMem (by rw [hphase]; rfl), rfl⟩
  | ends why hphase =>
    obtain ⟨before, hnone, hframes⟩ := h.closing
    refine ⟨before, hnone, ?_⟩
    rcases h.reason why hphase with rfl | rfl
    · rwa [hphase] at hframes
    · rwa [hphase] at hframes
  | reads _ payload hphase =>
    have hnone : .close ∉ c.frames := h.close_notMem (by rw [hphase]; rfl)
    exact ⟨c.frames ++ [.binary payload], by simpa using hnone, (List.append_nil _).symm⟩
  | pings hphase =>
    have hnone : .close ∉ c.frames := h.close_notMem (by rw [hphase]; rfl)
    exact ⟨c.frames ++ [.ping], by simpa using hnone, (List.append_nil _).symm⟩
  | refused _ hphase | admitted hphase | subscribes hphase | panics hphase | begins hphase | starts hphase
  | selects hphase | waits _ hphase | hears _ hphase | ignores _ hphase | leaves _ hphase | lags _ hphase
  | closes _ hphase | ticks _ hphase | sends hphase =>
    exact ⟨c.frames, h.close_notMem (by rw [hphase]; rfl), (List.append_nil _).symm⟩

theorem reason_moved (hm : Moved policy limits hub c c') (h : c.Keeps policy limits hub) :
    ∀ why, c'.phase = .sending (some why) → why = .drained ∨ why = .silent := by
  cases hm with
  | stays => exact h.reason
  | drains => exact fun why hwhy => .inl (Option.some.inj (Phase.sending.inj hwhy)).symm
  | gives => exact fun why hwhy => .inr (Option.some.inj (Phase.sending.inj hwhy)).symm
  | _ => exact fun why hwhy => by simp at hwhy

theorem admitted_moved (hm : Moved policy limits hub c c') (h : c.Keeps policy limits hub) :
    c'.phase.Admitted → policy.authorize (originHeader c'.headers) = true ∧ c'.authorized = true := by
  cases hm with
  | stays => exact h.admitted
  | refused => exact fun hadmitted => hadmitted.elim
  | admitted hphase horigin hauthorized hlive => exact fun _ => ⟨horigin, hauthorized⟩
  | subscribes hphase | panics hphase | begins hphase | starts hphase | selects hphase | waits _ hphase
  | drains _ hphase | hears _ hphase | ignores _ hphase | leaves _ hphase | reads _ _ hphase | lags _ hphase
  | closes _ hphase | ticks _ hphase | gives hphase | pings hphase | sends hphase | ends _ hphase =>
    exact fun _ => h.admitted (by rw [hphase]; exact trivial)

theorem heard_moved (hm : Moved policy limits hub c c') (h : c.Keeps policy limits hub) : c'.lastPong ≤ hub.now := by
  cases hm with
  | starts => exact le_rfl
  | hears => exact le_rfl
  | _ => exact h.heard

/-- A pong that is read is the last. -/
theorem lastPong_moved (hm : Moved policy limits hub c c') (h : c.Keeps policy limits hub) : c.lastPong ≤ c'.lastPong := by
  cases hm with
  | starts => exact h.heard
  | hears => exact h.heard
  | _ => exact le_rfl

/-- A tick that is due is due one interval after the last pong's time at the latest. -/
theorem timed_moved (hm : Moved policy limits hub c c') (h : c.Keeps policy limits hub) : c'.Timed limits hub.now := by
  have htimed := h.timed
  have hpaced := h.paced
  have hheard := h.heard
  rw [Connection.Timed] at htimed ⊢
  cases hm with
  | stays => exact htimed
  | begins hphase hinterval => exact ⟨hinterval, le_rfl, rfl⟩
  | starts hphase =>
    rw [hphase] at htimed
    obtain ⟨hinterval, hopened, hbeat⟩ := htimed
    have hnone : c.pings = 0 := by simp [Connection.pings, (h.fresh (by rw [hphase]; exact trivial)).1]
    refine ⟨hinterval, ?_, ?_⟩
    · dsimp only
      omega
    · change c.opened + (c.pings + 1) * _ ≤ c.heartbeat
      rw [hnone]
      omega
  | ticks drain hphase hdue =>
    rw [hphase] at htimed
    obtain ⟨hinterval, -, hpinged⟩ := htimed
    refine ⟨hinterval, Nat.add_le_add_right hdue _, ?_⟩
    change c.opened + (c.pings + 1 + 1) * _ ≤ c.heartbeat + _
    rw [Nat.succ_mul]
    omega
  | pings hphase hheard' =>
    rw [hphase] at htimed
    obtain ⟨hinterval, hbeat, hpinged⟩ := htimed
    refine ⟨hinterval, ?_, ?_⟩
    · dsimp only
      omega
    · simpa [Connection.pings] using hpinged
  | reads _ _ hphase =>
    rw [hphase] at htimed
    simpa [Connection.pings] using htimed
  | hears _ hphase =>
    rw [hphase] at htimed
    obtain ⟨hinterval, hbeat, hpinged⟩ := htimed
    refine ⟨hinterval, ?_, hpinged⟩
    dsimp only
    omega
  | selects hphase | waits _ hphase | ignores _ hphase | lags _ hphase | sends hphase =>
    rw [hphase] at htimed
    exact htimed
  | _ => exact trivial

theorem paced_moved (hm : Moved policy limits hub c c') (h : c.Keeps policy limits hub) :
    c'.opened + c'.pings * limits.heartbeatInterval ≤ hub.now := by
  have hpaced := h.paced
  cases hm with
  | begins hphase =>
    have hnone : c.pings = 0 := by simp [Connection.pings, (h.fresh (by rw [hphase]; exact trivial)).1]
    change hub.now + c.pings * _ ≤ _
    rw [hnone]
    omega
  | pings hphase =>
    have htimed := h.timed
    rw [Connection.Timed, hphase] at htimed
    obtain ⟨-, hbeat, hpinged⟩ := htimed
    have hcount : Connection.pings { c with frames := c.frames ++ [.ping], phase := .sending none } = c.pings + 1 := by
      simp [Connection.pings]
    rw [hcount]
    rw [Nat.succ_mul (c.pings + 1)] at hpinged
    dsimp only
    omega
  | drains | gives | reads => simpa [Connection.pings] using hpaced
  | _ => exact hpaced

/-- What a connection keeps at a move. -/
theorem keeps_moved (hm : Moved policy limits hub c c') (h : c.Keeps policy limits hub) : c'.Keeps policy limits hub where
  reads := reads_moved hm h
  told := told_moved hm h
  fresh := fresh_moved hm h
  closing := closing_moved hm h
  reason := reason_moved hm h
  admitted := admitted_moved hm h
  heard := heard_moved hm h
  timed := timed_moved hm h
  paced := paced_moved hm h

end Moved

/-! ### Runs -/

/-- What a task keeps, if it is a connection. -/
def Party.Keeps (policy : OriginPolicy) (limits : Limits) (hub : Hub) : Party → Prop
  | .websocket c => c.Keeps policy limits hub
  | _ => True

theorem later_elapsed (hub : Hub) (elapsed : ℕ) : hub.Later { hub with now := hub.now + elapsed } :=
  ⟨Nat.le_add_right _ _, ⟨[], (List.append_nil _).symm⟩, fun h => h⟩

theorem kept_websocket : (realtime policy limits).Kept (fun _ => True) (Party.Keeps policy limits) (fun _ => 0)
    fun _ => false where
  init := trivial
  zero := rfl
  start hub call _ := by
    cases call with
    | websocket headers authorized =>
      exact {
        reads := .nil (Nat.zero_le _)
        told := rfl
        fresh := fun _ => ⟨rfl, rfl⟩
        closing := ⟨[], List.not_mem_nil, rfl⟩
        reason := fun why hwhy => by simp [Connection.arrive] at hwhy
        admitted := fun hadmitted => hadmitted.elim
        heard := Nat.zero_le _
        timed := trivial
        paced := by simp [Connection.arrive, Connection.pings] }
    | _ => exact trivial
  free _ := rfl
  memory _ _ _ _ _ _ := trivial
  place hub place x _ hkeeps _ := by
    cases place with
    | websocket c =>
      -- the time goes by, the connection moves, and what it moved at is older than the hub it leaves
      have helapsed := keeps_later hkeeps (later_elapsed hub x.elapsed)
      have hmoved := keeps_moved (moved_poll _ c x.poll) helapsed
      exact keeps_later hmoved ⟨le_rfl, ⟨_, rfl⟩, fun h => h⟩
    | _ => exact trivial
  rely hub place x other _ _ _ hother := by
    cases other with
    | websocket c => exact keeps_later hother (later_turnOf hub place x)
    | _ => exact trivial
  count _ _ _ _ _ _ := rfl

variable {es : List (Turn Arrival Chance)} {i : ℕ} {c : Connection}

/-- The invariant of a connection in a run. -/
theorem keeps_run (h : ((realtime policy limits).tasks.run es).places[i]? = some (.websocket c)) :
    c.Keeps policy limits ((realtime policy limits).tasks.run es).memory :=
  (Program.Kept.run kept_websocket es).2.1 _ (List.mem_of_getElem? h)

/-- What a turn makes of a connection. -/
theorem act_websocket (hub : Hub) (c : Connection) (x : Chance) :
    ((realtime policy limits).act hub (.websocket c) x).2 =
      .websocket (c.poll policy limits { hub with now := hub.now + x.elapsed } x.poll) := rfl

theorem now_turn {s : Tasks Hub Party} {place : Party} (h : s.places[i]? = some place) (x : Chance) :
    ((realtime policy limits).turn s (.step i x)).memory.now = s.memory.now + x.elapsed := by
  simp [Program.turn, h, realtime, turnOf]

/-- A connection that moved made the step, and moved at the hub it found. -/
theorem moved_of_turn {s : Tasks Hub Party} {e : Turn Arrival Chance} {c' : Connection}
    (h' : ((realtime policy limits).turn s e).places[i]? = some (.websocket c')) :
    s.places[i]? = some (.websocket c') ∨ (∃ headers authorized, c' = .arrive headers authorized) ∨
      ∃ c x, e = .step i x ∧ s.places[i]? = some (.websocket c) ∧
        Moved policy limits { s.memory with now := s.memory.now + x.elapsed } c c' := by
  rcases (realtime policy limits).of_getElem?_turn h' with ⟨-, hsame⟩ | ⟨call, -, -, hstart⟩ | ⟨x, place, he, hplace, hact⟩
  · exact .inl hsame
  · cases call with
    | websocket headers authorized => exact .inr (.inl ⟨headers, authorized, Party.websocket.inj hstart⟩)
    | _ => cases hstart
  · cases place with
    | websocket c =>
      rw [act_websocket] at hact
      obtain rfl := Party.websocket.inj hact
      exact .inr (.inr ⟨c, x, he, hplace, moved_poll _ c x.poll⟩)
    | _ => cases hact

/-- A gap is told at a reading that is too late. -/
theorem told_of_not_lags (hno : ∀ k, ¬ (realtime policy limits).tasks.Fires es k (Lags limits i))
    (h : ((realtime policy limits).tasks.run es).places[i]? = some (.websocket c)) : none ∉ c.sub.told := by
  intro hgap
  have hcrossing := (realtime policy limits).tasks.crossing
    (Q := fun s : Tasks Hub Party => ∃ c, s.places[i]? = some (.websocket c) ∧ none ∈ c.sub.told)
    (Nat.zero_le _) le_rfl (by simp) ⟨c, by rwa [List.take_length], hgap⟩
  obtain ⟨k, -, -, hfires⟩ := hcrossing
  refine hno k (hfires.imp fun s e hcross => ?_)
  obtain ⟨hnot, c', hplace, hgap'⟩ := hcross
  rcases moved_of_turn hplace with hsame | ⟨headers, authorized, rfl⟩ | ⟨c, x, he, hc, hm⟩
  · exact absurd ⟨c', hsame, hgap'⟩ hnot
  · simp [Connection.arrive] at hgap'
  · have hbefore : none ∉ c.sub.told := fun hmem => hnot ⟨c, hc, hmem⟩
    cases hm with
    | lags drain hphase hlag => exact ⟨c, x, hc, he, hlag⟩
    | subscribes => simp [Hub.subscribe] at hgap'
    | reads => simp [hbefore] at hgap'
    | _ => exact absurd hgap' hbefore

/-! ### Silence -/

/-- A connection stays one, and its last pong moves forward only. -/
def LaterPong (place place' : Party) : Prop :=
  ∀ c, place = .websocket c → ∃ c', place' = .websocket c' ∧ c.lastPong ≤ c'.lastPong

theorem laterPong_run {before : List (Turn Arrival Chance)}
    (h : ((realtime policy limits).tasks.run before).places[i]? = some (.websocket c)) (after : List (Turn Arrival Chance)) :
    ∃ c', ((realtime policy limits).tasks.run (before ++ after)).places[i]? = some (.websocket c') ∧
      c.lastPong ≤ c'.lastPong := by
  have hrun := Program.rel_places (P := realtime policy limits) (R := LaterPong)
    (K := Program.Holds (fun _ => True) (Party.Keeps policy limits) (fun _ => 0) fun _ => false)
    (fun place c hc => ⟨c, hc, le_rfl⟩)
    (fun {p q r} hpq hqr c hc => by
      obtain ⟨c', hc', hle⟩ := hpq c hc
      obtain ⟨c'', hc'', hle'⟩ := hqr c' hc'
      exact ⟨c'', hc'', hle.trans hle'⟩)
    (fun s e hs => Program.Kept.turn kept_websocket e hs)
    (fun s j place x hs hplace c hc => by
      subst hc
      have hkeeps := hs.2.1 _ (List.mem_of_getElem? hplace)
      exact ⟨_, act_websocket s.memory c x,
        lastPong_moved (moved_poll _ c x.poll) (keeps_later hkeeps (later_elapsed s.memory x.elapsed))⟩)
    (Program.Kept.run kept_websocket before) h after
  obtain ⟨-, place', hplace', hR⟩ := hrun
  obtain ⟨c', rfl, hle⟩ := hR c rfl
  exact ⟨c', hplace', hle⟩

/-- Who is given up has been silent since its last pong. -/
theorem silent_of_givesUp {s : Tasks Hub Party} {e : Turn Arrival Chance} (h : GivesUp policy limits i s e) :
    ∃ c, s.places[i]? = some (.websocket c) ∧
      c.lastPong + limits.heartbeatTimeout < ((realtime policy limits).turn s e).memory.now := by
  obtain ⟨c, c', hc, hnot, hc', hsilent⟩ := h
  refine ⟨c, hc, ?_⟩
  rcases moved_of_turn hc' with hsame | ⟨headers, authorized, rfl⟩ | ⟨c₁, x, rfl, hc₁, hm⟩
  · rw [hc] at hsame
    obtain rfl := Party.websocket.inj (Option.some.inj hsame)
    exact absurd hsilent hnot
  · cases hsilent
  · rw [hc] at hc₁
    obtain rfl := Party.websocket.inj (Option.some.inj hc₁)
    rw [now_turn hc]
    cases hm with
    | gives hphase htimeout =>
      dsimp only at htimeout
      omega
    | stays => exact absurd hsilent hnot
    | _ => simp at hsilent

variable (policy limits) in
theorem lastPong_of_hearsPong {s : Tasks Hub Party} {e : Turn Arrival Chance} (h : HearsPong i s e) :
    ∃ c, ((realtime policy limits).turn s e).places[i]? = some (.websocket c) ∧
      c.lastPong = ((realtime policy limits).turn s e).memory.now := by
  obtain ⟨c, drain, elapsed, hc, hphase, rfl⟩ := h
  refine ⟨_, (realtime policy limits).getElem?_turn hc _, ?_⟩
  simp [Program.turn, hc, realtime, turnOf, Connection.poll, hphase]

theorem silence_run {k : ℕ} (hgives : (realtime policy limits).tasks.Fires es k (GivesUp policy limits i)) {j : ℕ}
    (hjk : j < k) (hhears : (realtime policy limits).tasks.Fires es j (HearsPong i)) :
    clock policy limits es (j + 1) + limits.heartbeatTimeout < clock policy limits es (k + 1) := by
  obtain ⟨e, he, hgives⟩ := hgives
  obtain ⟨e', he', hhears⟩ := hhears
  obtain ⟨c, hc, hlast⟩ := lastPong_of_hearsPong policy limits hhears
  rw [← Program.next_tasks, ← Machine.run_take_succ he'] at hc hlast
  obtain ⟨c₁, hc₁, hsilent⟩ := silent_of_givesUp hgives
  rw [← Program.next_tasks, ← Machine.run_take_succ he] at hsilent
  -- the pong is still the last but for later ones when the peer is given up
  have hsplit : es.take (j + 1) ++ (es.take k).drop (j + 1) = es.take k := by
    have htake : (es.take k).take (j + 1) = es.take (j + 1) := by rw [List.take_take, min_eq_left hjk]
    rw [← htake, List.take_append_drop]
  obtain ⟨c₂, hc₂, hle⟩ := laterPong_run hc ((es.take k).drop (j + 1))
  rw [hsplit, hc₁] at hc₂
  obtain rfl := Party.websocket.inj (Option.some.inj hc₂)
  rw [hlast] at hle
  rw [clock, clock]
  omega

/-! ### The two ways to close -/

theorem poll_drain {hub : Hub} {drain : Stage} (hphase : c.phase = .selecting drain)
    (hready : (advance hub.signal drain ()).2 = .ready) :
    c.poll policy limits hub .drain = { c with frames := c.frames ++ [.close], phase := .sending (some .drained) } := by
  rw [Connection.poll.eq_def, hphase]
  exact if_pos hready

theorem poll_heartbeat {hub : Hub} {drain : Stage} (hphase : c.phase = .selecting drain) (hdue : c.heartbeat ≤ hub.now) :
    c.poll policy limits hub .heartbeat =
      { c with heartbeat := c.heartbeat + limits.heartbeatInterval, phase := .ticked } := by
  rw [Connection.poll.eq_def, hphase]
  exact if_pos hdue

theorem poll_silent {hub : Hub} (hphase : c.phase = .ticked) (hsilent : limits.heartbeatTimeout < hub.now - c.lastPong) :
    c.poll policy limits hub .advance =
      { c with frames := c.frames ++ [.close], phase := .sending (some .silent) } := by
  rw [Connection.poll.eq_def, hphase]
  exact if_pos hsilent

/-- A drain that was announced is heeded at the first look. -/
theorem heeds_run (h : ((realtime policy limits).tasks.run es).places[i]? = some (.websocket c))
    (hdraining : ((realtime policy limits).tasks.run es).memory.signal.draining = true)
    (hquiet : ∀ place ∈ ((realtime policy limits).tasks.run es).places, place.notifies = false) {drain : Stage}
    (hphase : c.phase = .selecting drain) (elapsed : ℕ) :
    ((realtime policy limits).tasks.run (es ++ [.step i ⟨elapsed, .drain⟩])).places[i]? =
      some (.websocket { c with frames := c.frames ++ [.close], phase := .sending (some .drained) }) := by
  obtain ⟨-, hknows, howed⟩ : Program.Holds _ _ _ _ ((realtime policy limits).tasks.run es) := kept_signal.run es
  have hc : c.phase.Knows _ := hknows _ (List.mem_of_getElem? h)
  rw [hphase] at hc
  have hnone : ((realtime policy limits).tasks.run es).places.countP Party.notifies = 0 :=
    List.countP_eq_zero.mpr fun place hmem => by simp [hquiet place hmem]
  have hready := ready_of_drained hdraining (howed.trans hnone) hc.1 hc.2
  rw [Machine.run_concat, Program.next_tasks, (realtime policy limits).getElem?_turn h, act_websocket]
  exact congrArg (fun c => some (Party.websocket c)) (poll_drain hphase hready)

/-- A peer that was silent too long is given up at the first tick that is read one interval later. -/
theorem noticed_run (h : ((realtime policy limits).tasks.run es).places[i]? = some (.websocket c)) {drain : Stage}
    (hphase : c.phase = .selecting drain) {elapsed : ℕ} (elapsed' : ℕ)
    (hlate : c.lastPong + limits.heartbeatTimeout + limits.heartbeatInterval ≤
      ((realtime policy limits).tasks.run es).memory.now + elapsed) :
    ∃ c', ((realtime policy limits).tasks.run
        (es ++ [.step i ⟨elapsed, .heartbeat⟩] ++ [.step i ⟨elapsed', .advance⟩])).places[i]? = some (.websocket c') ∧
      c'.phase = .sending (some .silent) := by
  have htimed := (keeps_run h).timed
  rw [Connection.Timed, hphase] at htimed
  obtain ⟨hinterval, hdue, -⟩ := htimed
  have htick := (realtime policy limits).getElem?_turn h ⟨elapsed, .heartbeat⟩
  rw [act_websocket, poll_heartbeat hphase (hdue.trans hlate)] at htick
  have hgive := (realtime policy limits).getElem?_turn htick ⟨elapsed', .advance⟩
  rw [act_websocket, poll_silent rfl (by dsimp only; rw [now_turn h]; dsimp only; omega)] at hgive
  rw [Machine.run_concat, Program.next_tasks, Machine.run_concat, Program.next_tasks]
  exact ⟨_, hgive, rfl⟩

/-! ### The property -/

/-- A connection hands over what was published since it subscribed, closes once and last, and only for a drain or
    for silence, whatever runs beside it. -/
theorem connected (es : List (Turn Arrival Chance)) (i : ℕ) (c : Connection)
    (h : ((realtime policy limits).tasks.run es).places[i]? = some (.websocket c)) :
    Connected policy limits es i c where
  admitted := (keeps_run h).admitted
  ordered := by
    have hkeeps := keeps_run h
    rw [hkeeps.told]
    exact hkeeps.reads.sublist.trans ((List.take_sublist _ _).drop _)
  complete hno := by
    have hkeeps := keeps_run h
    rw [hkeeps.told]
    exact hkeeps.reads.eq_window (told_of_not_lags hno h)
  lastly := (keeps_run h).closing
  uncut hcut := (kept_handles.run es).2.1 _ (List.mem_of_getElem? h) (.inl hcut)
  drained hphase := by
    have hknows : c.phase.Knows _ := (kept_signal.run es).2.1 _ (List.mem_of_getElem? h)
    rcases hphase with hphase | hphase
    · rw [hphase] at hknows
      exact hknows
    · rw [hphase] at hknows
      exact hknows
  heeds hdraining hquiet drain hphase elapsed := heeds_run h hdraining hquiet hphase elapsed
  silence k hgives j hjk hhears := silence_run hgives hjk hhears
  noticed drain hphase elapsed elapsed' hlate := noticed_run h hphase elapsed' hlate
  paced := (keeps_run h).paced

/-- A channel, one connection from the origin `a`, and a payload that it reads. -/
theorem connected_reading : ∃ c,
    ((realtime (.allowExact ['a']) ⟨1, 20, 40, 3000⟩).tasks.run
      [.spawn .broadcast, .step 0 ⟨0, .advance⟩, .spawn (.websocket [("origin".toList, [97])] true),
        .step 1 ⟨0, .register true⟩, .step 1 ⟨0, .advance⟩, .step 1 ⟨1, .advance⟩, .step 1 ⟨0, .advance⟩,
        .step 1 ⟨0, .advance⟩, .step 0 ⟨0, .publish [7]⟩, .step 1 ⟨2, .feed⟩]).places[1]? = some (.websocket c) ∧
      c.frames = [.binary [7]] ∧
        Connected (.allowExact ['a']) ⟨1, 20, 40, 3000⟩
          [.spawn .broadcast, .step 0 ⟨0, .advance⟩, .spawn (.websocket [("origin".toList, [97])] true),
            .step 1 ⟨0, .register true⟩, .step 1 ⟨0, .advance⟩, .step 1 ⟨1, .advance⟩, .step 1 ⟨0, .advance⟩,
            .step 1 ⟨0, .advance⟩, .step 0 ⟨0, .publish [7]⟩, .step 1 ⟨2, .feed⟩] 1 c :=
  ⟨_, rfl, rfl, connected _ 1 _ rfl⟩

end Proofs

end Arcature.Realtime
