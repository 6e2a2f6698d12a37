import Arcature.Realtime.Endpoint

/-! A stream of events over its life (`realtime/sse.rs`).

    Beside any number of connections, publishers and drains, a stream sends its preamble and then what was
    published since it subscribed, in order and each payload once, with a comment wherever it fell behind. It ends
    when it finds a drain begun or when nobody can send and it has sent everything. The drain is looked for between
    two payloads only: a stream sends one event more at most, but one that waits for a payload waits on. -/

namespace Arcature.Realtime
open Arcature.Lib

/-! ### The vocabulary of the property -/

/-- Past its admission. -/
def StreamPhase.Admitted : StreamPhase → Prop
  | .arriving | .refused _ => False
  | _ => True

/-- The preamble, once it was sent. -/
def StreamPhase.opening (limits : Limits) : StreamPhase → List Event
  | .checking | .receiving | .ended => [.retry limits.retryMs]
  | _ => []

section Vocabulary

variable (policy : OriginPolicy) (limits : Limits)

/-- What a schedule makes of stream `i`. -/
structure Streamed (es : List (Turn Arrival Chance)) (i : ℕ) (s : EventStream) : Prop where
  admitted : s.phase.Admitted → policy.authorize (originHeader s.headers) = true
  ordered : ∃ told : List (Option Bytes), s.events = s.phase.opening limits ++ told.map eventOf ∧
    told.reduceOption.Sublist (((realtime policy limits).tasks.run es).memory.sent.drop s.sub.first)
  complete : .comment "lagged".toList ∉ s.events → s.events = s.phase.opening limits ++
    ((((realtime policy limits).tasks.run es).memory.sent.take s.sub.next).drop s.sub.first).map fun p => eventOf (some p)
  ends : s.phase = .ended → ((realtime policy limits).tasks.run es).memory.signal.draining = true ∨
    (((realtime policy limits).tasks.run es).memory.handles = 0 ∧
      s.sub.next = ((realtime policy limits).tasks.run es).memory.sent.length)
  drains : ((realtime policy limits).tasks.run es).memory.signal.draining = true → ∀ after,
    ∃ s', ((realtime policy limits).tasks.run (es ++ after)).places[i]? = some (.sse s') ∧
      s'.events.length ≤ s.events.length + 1

end Vocabulary

section Proofs

variable {policy : OriginPolicy} {limits : Limits}

/-! ### What one turn does -/

/-- The moves of a stream at a hub, with what allows each. -/
inductive Streams (policy : OriginPolicy) (limits : Limits) (hub : Hub) (s : EventStream) : EventStream → Prop
  | stays : Streams policy limits hub s s
  | refused (why : Refusal) (h : s.phase = .arriving) : Streams policy limits hub s { s with phase := .refused why }
  | admitted (h : s.phase = .arriving) (horigin : policy.authorize (originHeader s.headers) = true)
      (hlive : hub.live = true) : Streams policy limits hub s { s with phase := .admitted }
  | subscribes (h : s.phase = .admitted) : Streams policy limits hub s { s with sub := hub.subscribe, phase := .preamble }
  | begins (h : s.phase = .preamble) : Streams policy limits hub s
      { s with events := s.events ++ [.retry limits.retryMs], phase := .checking }
  | stops (h : s.phase = .checking) (hdraining : hub.signal.draining = true) :
      Streams policy limits hub s { s with phase := .ended }
  | goesOn (h : s.phase = .checking) (hdraining : hub.signal.draining = false) :
      Streams policy limits hub s { s with phase := .receiving }
  | reads (payload : Bytes) (h : s.phase = .receiving) (hnext : hub.sent[s.sub.next]? = some payload) :
      Streams policy limits hub s
        { s with
          sub := ⟨s.sub.first, s.sub.next + 1, s.sub.told ++ [some payload]⟩
          events := s.events ++ [eventOf (some payload)]
          phase := .checking }
  | lags (h : s.phase = .receiving) (hlag : s.sub.next + limits.kept < hub.sent.length) : Streams policy limits hub s
      { s with
        sub := ⟨s.sub.first, hub.sent.length - limits.kept, s.sub.told ++ [none]⟩
        events := s.events ++ [eventOf none]
        phase := .checking }
  | closes (h : s.phase = .receiving) (hlive : hub.live = false) (hall : hub.sent.length ≤ s.sub.next) :
      Streams policy limits hub s { s with phase := .ended }

theorem streams_recv {hub : Hub} {s : EventStream} (h : s.phase = .receiving) :
    Streams policy limits hub s (s.recv limits hub) := by
  rw [EventStream.recv]
  rcases Feed.receive_cases limits.kept hub.live hub.sent s.sub.next with
    ⟨hlag, hreceive⟩ | ⟨payload, hnext, hreceive⟩ | ⟨hall, hreceive⟩
  · rw [hreceive]
    exact .lags h hlag
  · rw [hreceive]
    exact .reads payload h hnext
  · rw [hreceive]
    cases hlive : hub.live with
    | true => exact .stays
    | false => exact .closes h hlive hall

theorem streams_poll (hub : Hub) (s : EventStream) (p : Poll) :
    Streams policy limits hub s (s.poll policy limits hub p) := by
  unfold EventStream.poll
  split
  case h_1 room h =>
    split_ifs with horigin hroom hlive
    · exact .refused _ h
    · exact .refused _ h
    · exact .stays
    · simp only [Bool.not_eq_false] at horigin hlive
      exact .admitted h horigin hlive
  case h_2 h => exact .subscribes h
  case h_3 h => exact .begins h
  case h_4 h =>
    split_ifs with hdraining
    · exact .stops h hdraining
    · exact .goesOn h (by simpa using hdraining)
  case h_5 h => exact streams_recv h
  case h_6 => exact .stays

/-! ### What a stream keeps -/

/-- Nobody can send any more, nor ever will. -/
def Hub.Over (hub : Hub) : Prop := hub.made = true ∧ hub.handles = 0

/-- The invariant of a stream. -/
structure EventStream.Keeps (policy : OriginPolicy) (limits : Limits) (hub : Hub) (s : EventStream) : Prop where
  reads : Feed.Reads limits.kept hub.sent s.sub.first s.sub.told s.sub.next
  told : s.events = s.phase.opening limits ++ s.sub.told.map eventOf
  fresh : s.phase.opening limits = [] → s.sub.told = []
  admitted : s.phase.Admitted → policy.authorize (originHeader s.headers) = true ∧ hub.made = true
  ends : s.phase = .ended → hub.signal.draining = true ∨ (hub.Over ∧ s.sub.next = hub.sent.length)

/-- Between two turns the hub may have gone on, but not once it is over. -/
theorem EventStream.Keeps.later {hub hub' : Hub} {s : EventStream} (h : s.Keeps policy limits hub)
    (hlater : hub.Later hub') (hmade : hub.made = true → hub'.made = true)
    (hover : hub.Over → hub'.Over ∧ hub'.sent = hub.sent) : s.Keeps policy limits hub' := by
  obtain ⟨more, hmore⟩ := hlater.sent
  refine { h with reads := ?_, admitted := fun hphase => ?_, ends := fun hphase => ?_ }
  · rw [hmore]
    exact h.reads.append more
  · obtain ⟨horigin, hwas⟩ := h.admitted hphase
    exact ⟨horigin, hmade hwas⟩
  · rcases h.ends hphase with hdraining | ⟨hwas, hall⟩
    · exact .inl (hlater.draining hdraining)
    · obtain ⟨hstill, hsame⟩ := hover hwas
      exact .inr ⟨hstill, by rw [hsame, hall]⟩

section Moved

variable {hub : Hub} {s s' : EventStream}

theorem reads_streams (hm : Streams policy limits hub s s') (h : s.Keeps policy limits hub) :
    Feed.Reads limits.kept hub.sent s'.sub.first s'.sub.told s'.sub.next := by
  cases hm with
  | subscribes => exact .nil le_rfl
  | reads payload hphase hnext => exact h.reads.value hnext
  | lags hphase hlag => exact h.reads.lagged (by dsimp only; omega) (by dsimp only; omega)
  | _ => exact h.reads

theorem told_streams (hm : Streams policy limits hub s s') (h : s.Keeps policy limits hub) :
    s'.events = s'.phase.opening limits ++ s'.sub.told.map eventOf := by
  have htold := h.told
  cases hm with
  | stays => exact htold
  | subscribes hphase =>
    rw [hphase, h.fresh (by rw [hphase]; rfl)] at htold
    exact htold
  | begins hphase =>
    rw [hphase, h.fresh (by rw [hphase]; rfl)] at htold
    dsimp only
    rw [htold, h.fresh (by rw [hphase]; rfl)]
    rfl
  | reads payload hphase | lags hphase =>
    rw [hphase] at htold
    dsimp only
    rw [htold, List.map_append, List.append_assoc]
    rfl
  | refused _ hphase | admitted hphase | stops hphase | goesOn hphase | closes hphase =>
    rw [hphase] at htold
    exact htold

theorem fresh_streams (hm : Streams policy limits hub s s') (h : s.Keeps policy limits hub) :
    s'.phase.opening limits = [] → s'.sub.told = [] := by
  cases hm with
  | stays => exact h.fresh
  | refused _ hphase | admitted hphase => exact fun _ => h.fresh (by rw [hphase]; rfl)
  | subscribes => exact fun _ => rfl
  | _ => exact fun hopening => by cases hopening

theorem admitted_streams (hm : Streams policy limits hub s s') (hmade : 0 < hub.handles → hub.made = true)
    (h : s.Keeps policy limits hub) :
    s'.phase.Admitted → policy.authorize (originHeader s'.headers) = true ∧ hub.made = true := by
  cases hm with
  | stays => exact h.admitted
  | refused => exact fun hadmitted => hadmitted.elim
  | admitted hphase horigin hlive => exact fun _ => ⟨horigin, hmade (by simpa [Hub.live] using hlive)⟩
  | subscribes hphase | begins hphase | stops hphase | goesOn hphase | reads _ hphase | lags hphase
  | closes hphase => exact fun _ => h.admitted (by rw [hphase]; exact trivial)

theorem ends_streams (hm : Streams policy limits hub s s') (h : s.Keeps policy limits hub) :
    s'.phase = .ended → hub.signal.draining = true ∨ (hub.Over ∧ s'.sub.next = hub.sent.length) := by
  cases hm with
  | stays => exact h.ends
  | stops hphase hdraining => exact fun _ => .inl hdraining
  | closes hphase hlive hall =>
    have hnone : hub.handles = 0 := by simpa [Hub.live] using hlive
    exact fun _ => .inr ⟨⟨(h.admitted (by rw [hphase]; exact trivial)).2, hnone⟩, le_antisymm h.reads.next_le hall⟩
  | _ => exact fun hended => by cases hended

theorem keeps_streams (hm : Streams policy limits hub s s') (hmade : 0 < hub.handles → hub.made = true)
    (h : s.Keeps policy limits hub) : s'.Keeps policy limits hub where
  reads := reads_streams hm h
  told := told_streams hm h
  fresh := fresh_streams hm h
  admitted := admitted_streams hm hmade h
  ends := ends_streams hm h

/-- How many events a stream can still send once a drain has begun. -/
def StreamPhase.left : StreamPhase → ℕ
  | .arriving | .admitted | .preamble | .receiving => 1
  | _ => 0

theorem left_streams (hm : Streams policy limits hub s s') (hdraining : hub.signal.draining = true) :
    s'.events.length + s'.phase.left ≤ s.events.length + s.phase.left := by
  cases hm with
  | stays => exact le_rfl
  | refused _ hphase | admitted hphase | subscribes hphase | stops hphase | closes hphase =>
    rw [hphase]
    simp [StreamPhase.left]
  | goesOn hphase hnot =>
    rw [hdraining] at hnot
    cases hnot
  | begins hphase | reads _ hphase | lags hphase =>
    rw [hphase]
    simp [StreamPhase.left]

end Moved

/-! ### Runs -/

/-- What a task keeps, if it is a stream. -/
def Party.KeepsEvents (policy : OriginPolicy) (limits : Limits) (hub : Hub) : Party → Prop
  | .sse s => s.Keeps policy limits hub
  | _ => True

/-- Whoever comes to hold a handle held one, or found the channel live or not yet made. -/
theorem holds_poll {hub : Hub} {place : Party} {p : Poll} (h : (place.poll policy limits hub p).holds = true) :
    place.holds = true ∨ hub.live = true ∨ hub.made = false := by
  cases place with
  | sender s =>
    cases s with
    | entering =>
      cases p with
      | advance =>
        cases hlive : hub.live with
        | true => exact .inr (.inl rfl)
        | false =>
          refine .inr (.inr ?_)
          simpa [Party.poll, Party.holds, Sender.poll, Sender.holds, hlive] using h
      | _ => cases h
    | holding => exact .inl rfl
    | done => cases h
  | signalling stage => cases h
  | websocket c =>
    have hmoved : Moved policy limits hub c (c.poll policy limits hub p) := moved_poll hub c p
    exact (holds_moved hmoved h).imp_right .inl
  | sse s =>
    have hmoved : Streams policy limits hub s (s.poll policy limits hub p) := streams_poll hub s p
    have hphase : (s.poll policy limits hub p).phase = .admitted := of_decide_eq_true h
    generalize s.poll policy limits hub p = s' at hmoved hphase
    cases hmoved with
    | stays => exact .inl (decide_eq_true hphase)
    | admitted _ _ hlive => exact .inr (.inl hlive)
    | _ => cases hphase

/-- Once it is over, the channel stays so whatever is done. -/
theorem over_turnOf {hub : Hub} {place : Party} (x : Chance) (hpos : place.holds = true → 0 < hub.handles)
    (h : hub.Over) : (turnOf policy limits hub place x).1.Over ∧ (turnOf policy limits hub place x).1.sent = hub.sent := by
  obtain ⟨hmade, hnone⟩ := h
  have hfree : place.holds = false := by
    by_contra hholds
    have hsome := hpos (by simpa using hholds)
    omega
  have hfree' : (turnOf policy limits hub place x).2.holds = false := by
    by_contra hholds
    have hholds' : (place.poll policy limits { hub with now := hub.now + x.elapsed } x.poll).holds = true :=
      Bool.eq_true_of_not_eq_false hholds
    rcases holds_poll hholds' with hheld | hlive | hunmade
    · rw [hfree] at hheld
      cases hheld
    · simp [Hub.live, hnone] at hlive
    · rw [hmade] at hunmade
      cases hunmade
  have hcount : (turnOf policy limits hub place x).1.handles + _ = hub.handles + _ := handles_turnOf x hpos
  rw [hfree, hfree', hnone] at hcount
  refine ⟨⟨?_, by simpa using hcount⟩, ?_⟩
  · simp [turnOf, hmade]
  · have hquiet : place.publishes x.poll = [] := by
      rw [Party.publishes.eq_def]
      split
      · cases hfree
      · rfl
    simp [turnOf, hquiet]

theorem kept_sse : (realtime policy limits).Kept (fun hub => 0 < hub.handles → hub.made = true)
    (Party.KeepsEvents policy limits) Hub.handles Party.holds where
  init h := absurd h (lt_irrefl 0)
  zero := rfl
  start hub call _ := by
    cases call with
    | sse headers =>
      exact {
        reads := .nil (Nat.zero_le _)
        told := rfl
        fresh := fun _ => rfl
        admitted := fun hadmitted => hadmitted.elim
        ends := fun hended => by cases hended }
    | _ => exact trivial
  free call := by cases call <;> rfl
  memory hub place x hmade _ hpos hsome := by
    have hcount : (turnOf policy limits hub place x).1.handles + _ = hub.handles + _ := handles_turnOf x hpos
    have hgoal : hub.made = true ∨ (turnOf policy limits hub place x).2.holds = true := by
      cases hholds : (turnOf policy limits hub place x).2.holds with
      | true => exact .inr rfl
      | false =>
        refine .inl (hmade ?_)
        have hsome' : 0 < (turnOf policy limits hub place x).1.handles := hsome
        rw [hholds, Bool.toNat_false] at hcount
        omega
    simpa [realtime, turnOf] using hgoal
  place hub place x hmade hkeeps hpos := by
    cases place with
    | sse s =>
      have helapsed : s.Keeps policy limits { hub with now := hub.now + x.elapsed } :=
        hkeeps.later ⟨Nat.le_add_right _ _, ⟨[], (List.append_nil _).symm⟩, fun h => h⟩ (fun h => h) fun h => ⟨h, rfl⟩
      have hmoved : Streams policy limits _ s _ := streams_poll { hub with now := hub.now + x.elapsed } s x.poll
      have hkept := keeps_streams hmoved hmade helapsed
      refine hkept.later ⟨le_rfl, ⟨_, rfl⟩, fun h => h⟩ (fun h => ?_) fun h => ?_
      · simp [realtime, turnOf, show hub.made = true from h]
      · exact over_turnOf x hpos h
    | _ => exact trivial
  rely hub place x other _ _ hpos hother := by
    cases other with
    | sse s =>
      refine EventStream.Keeps.later hother (later_turnOf hub place x) (fun h => ?_) fun h => over_turnOf x hpos h
      simp [realtime, turnOf, h]
    | _ => exact trivial
  count _ _ x _ _ hpos := handles_turnOf x hpos

variable {es : List (Turn Arrival Chance)} {i : ℕ} {s : EventStream}

/-- The invariant of a stream in a run. -/
theorem keepsEvents_run (h : ((realtime policy limits).tasks.run es).places[i]? = some (.sse s)) :
    s.Keeps policy limits ((realtime policy limits).tasks.run es).memory :=
  (Program.Kept.run kept_sse es).2.1 _ (List.mem_of_getElem? h)

/-- A stream stays one, and what it has left it can send once. -/
def Lessens (place place' : Party) : Prop :=
  ∀ s, place = .sse s → ∃ s', place' = .sse s' ∧
    s'.events.length + s'.phase.left ≤ s.events.length + s.phase.left

theorem draining_turn {s : Tasks Hub Party} (e : Turn Arrival Chance) (h : s.memory.signal.draining = true) :
    ((realtime policy limits).turn s e).memory.signal.draining = true := by
  rcases (realtime policy limits).turn_cases s e with
    ⟨a, -, hturn⟩ | ⟨i, x, place, -, -, hturn⟩ | ⟨-, -, -, -, hturn⟩
  · rw [hturn]
    exact h
  · rw [hturn]
    exact (later_turnOf s.memory place x).draining h
  · rw [hturn]
    exact h

theorem lessens_run (h : ((realtime policy limits).tasks.run es).places[i]? = some (.sse s))
    (hdraining : ((realtime policy limits).tasks.run es).memory.signal.draining = true) (after : List (Turn Arrival Chance)) :
    ∃ s', ((realtime policy limits).tasks.run (es ++ after)).places[i]? = some (.sse s') ∧
      s'.events.length + s'.phase.left ≤ s.events.length + s.phase.left := by
  have hrun := Program.rel_places (P := realtime policy limits) (R := Lessens)
    (K := fun s => s.memory.signal.draining = true)
    (fun place s hs => ⟨s, hs, le_rfl⟩)
    (fun {p q r} hpq hqr s hs => by
      obtain ⟨s', hs', hle⟩ := hpq s hs
      obtain ⟨s'', hs'', hle'⟩ := hqr s' hs'
      exact ⟨s'', hs'', hle'.trans hle⟩)
    (fun s e hs => draining_turn e hs)
    (fun s j place x hs _ st hst => by
      subst hst
      exact ⟨_, rfl, left_streams (streams_poll { s.memory with now := s.memory.now + x.elapsed } st x.poll) hs⟩)
    hdraining h after
  obtain ⟨-, place', hplace', hR⟩ := hrun
  obtain ⟨s', rfl, hle⟩ := hR s rfl
  exact ⟨s', hplace', hle⟩

/-! ### The property -/

theorem comment_mem_iff {told : List (Option Bytes)} {opening : List Event}
    (hopening : .comment "lagged".toList ∉ opening) :
    .comment "lagged".toList ∈ opening ++ told.map eventOf ↔ none ∈ told := by
  rw [List.mem_append, or_iff_right hopening, List.mem_map]
  constructor
  · rintro ⟨x, hmem, hx⟩
    cases x with
    | none => exact hmem
    | some payload => cases hx
  · exact fun hmem => ⟨none, hmem, rfl⟩

theorem eq_map_some : ∀ {told : List (Option Bytes)}, none ∉ told → told = told.reduceOption.map some
  | [], _ => rfl
  | none :: told, h => absurd List.mem_cons_self h
  | some payload :: told, h => by
    rw [List.reduceOption_cons_of_some, List.map_cons, ← eq_map_some fun hmem => h (List.mem_cons_of_mem _ hmem)]

/-- A stream sends its preamble and what was published since it subscribed, marks each gap, ends when a drain has
    begun or nobody can send, and sends one event at most once a drain has begun, whatever runs beside it. -/
theorem streamed (es : List (Turn Arrival Chance)) (i : ℕ) (s : EventStream)
    (h : ((realtime policy limits).tasks.run es).places[i]? = some (.sse s)) : Streamed policy limits es i s where
  admitted hphase := ((keepsEvents_run h).admitted hphase).1
  ordered := by
    have hkeeps := keepsEvents_run h
    exact ⟨s.sub.told, hkeeps.told, hkeeps.reads.sublist.trans ((List.take_sublist _ _).drop _)⟩
  complete hno := by
    have hkeeps := keepsEvents_run h
    have hopening : .comment "lagged".toList ∉ s.phase.opening limits := by
      cases s.phase <;> simp [StreamPhase.opening]
    rw [hkeeps.told, comment_mem_iff hopening] at hno
    rw [hkeeps.told, ← hkeeps.reads.eq_window hno]
    nth_rewrite 1 [eq_map_some hno]
    rw [List.map_map]
    rfl
  ends hphase := ((keepsEvents_run h).ends hphase).imp_right fun hover => ⟨hover.1.2, hover.2⟩
  drains hdraining after := by
    obtain ⟨s', hs', hle⟩ := lessens_run h hdraining after
    have hleft : s.phase.left ≤ 1 := by cases s.phase <;> simp [StreamPhase.left]
    exact ⟨s', hs', by omega⟩

/-- A stream that waits as a drain begins waits on, sends the payload that comes, and ends then. -/
theorem streamed_draining : ∃ s,
    ((realtime (.allowExact ['a']) ⟨1, 20, 40, 3000⟩).tasks.run
      [.spawn .broadcast, .step 0 ⟨0, .advance⟩, .spawn (.sse [("origin".toList, [97])]), .step 1 ⟨0, .register true⟩,
        .step 1 ⟨0, .advance⟩, .step 1 ⟨0, .advance⟩, .step 1 ⟨0, .advance⟩, .spawn .beginDrain, .step 2 ⟨0, .advance⟩,
        .step 2 ⟨0, .advance⟩, .step 1 ⟨9, .feed⟩, .step 0 ⟨0, .publish [104, 105]⟩, .step 1 ⟨0, .feed⟩,
        .step 1 ⟨0, .advance⟩]).places[1]? = some (.sse s) ∧
      (s.phase = .ended ∧ s.events = [.retry 3000, .data "hi".toList]) ∧
        Streamed (.allowExact ['a']) ⟨1, 20, 40, 3000⟩
          [.spawn .broadcast, .step 0 ⟨0, .advance⟩, .spawn (.sse [("origin".toList, [97])]), .step 1 ⟨0, .register true⟩,
            .step 1 ⟨0, .advance⟩, .step 1 ⟨0, .advance⟩, .step 1 ⟨0, .advance⟩, .spawn .beginDrain,
            .step 2 ⟨0, .advance⟩, .step 2 ⟨0, .advance⟩, .step 1 ⟨9, .feed⟩, .step 0 ⟨0, .publish [104, 105]⟩,
            .step 1 ⟨0, .feed⟩, .step 1 ⟨0, .advance⟩] 1 s :=
  ⟨_, rfl, by decide, streamed _ 1 _ rfl⟩

end Proofs

end Arcature.Realtime
