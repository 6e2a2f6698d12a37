import Arcature.Cli.Dev.Backend
import Arcature.Http.ClientIp
import Arcature.Lib.HeaderMap

/-! One request at the development server (`dev_proxy/service.rs`, `dev_proxy/vite.rs`,
    `cli/commands/dev/service.rs`).

    Two servers may answer it, Vite and the application, and the application may be building, up or broken:

        arriving ── Vite's ──▶ connect ── ok ──▶ forward ──▶ its answer, or 502
                                  └─ refused ──▶ the application's answer
                 └─ other ──▶ the application's answer ── not 404, or no replay ──▶ answered
                                  └─ 404 ──▶ connect ──▶ replay ── not 404 ──▶ Vite's answer
                                                  └──────────────┴─ else ──▶ the 404

        application   look ── failed ──▶ the compile error
                       ▲    ├ building ──▶ wait for a change ── too late ──▶ the building page
                       │    └ ready ──▶ connect ── ok ──▶ forward ──▶ its answer, or 502
                       └── 20 ms ◀── refused ┘ ── too late ──▶ 502

    The status changes under the request's feet, and either server may die at any moment. The request is handed to
    one server at most, Vite gets a copy without a body and only of what the application does not know, what is
    answered was said by the server it is ascribed to or is true of the status, and a request is held no longer
    than its time unless the status keeps changing (`supervised`). -/

namespace Arcature.DevProxy
open Arcature.Lib Arcature.Cli.Dev

/-! ### Which paths are Vite's -/

/-- `str::trim_matches('/')`. -/
def trimSlashes (s : Str) : Str := ((s.dropWhile (· = '/')).reverse.dropWhile (· = '/')).reverse

/-- `normalise_root`. -/
def normaliseRoot (raw : Str) : Option Str :=
  if trimSlashes raw.trim = [] then none else some ('/' :: trimSlashes raw.trim ++ ['/'])

/-- A directory below the document root, between slashes. -/
def IsRoot (root : Str) : Prop := ∃ name, name ≠ [] ∧ root = '/' :: name ++ ['/']

theorem isRoot_normaliseRoot {raw root : Str} (h : normaliseRoot raw = some root) : IsRoot root := by
  rw [normaliseRoot] at h
  split_ifs at h with hempty
  exact ⟨_, hempty, (Option.some.inj h).symm⟩

/-- `ViteRoutes`. -/
structure ViteRoutes where
  assetRoots : List Str
  isRoot : ∀ root ∈ assetRoots, IsRoot root

namespace ViteRoutes

/-- `BUILT_IN`. -/
def builtIn : List Str := ["/@".toList, "/node_modules/.vite/".toList]

/-- `DEFAULT_ASSET_ROOTS`. -/
def defaultAssetRoots : List Str := ["/resources/".toList, "/src/".toList]

/-- `ViteRoutes::new`. -/
def new (assetRoots : List Str) : ViteRoutes where
  assetRoots := assetRoots.filterMap normaliseRoot
  isRoot root h := by
    obtain ⟨raw, -, hraw⟩ := List.mem_filterMap.mp h
    exact isRoot_normaliseRoot hraw

/-- `ViteRoutes::defaults`. -/
def defaults : ViteRoutes := new defaultAssetRoots

/-- `parse_prefixes`. -/
def parsePrefixes (raw : Option Str) : ViteRoutes :=
  match raw with
  | none => defaults
  | some raw =>
    if raw.trim = [] then defaults
    else if (new (raw.splitOn ',')).assetRoots = [] then defaults
    else new (raw.splitOn ',')

/-- `matches_path`. -/
def matchesPath (routes : ViteRoutes) (path : Str) : Bool :=
  builtIn.any (·.isPrefixOf path) || routes.assetRoots.any (·.isPrefixOf path)

end ViteRoutes

/-- A request, as far as the proxies read it. -/
structure Request where
  method : Str
  path : Str
  headers : HeaderMap Bytes
  body : Bytes
  deriving DecidableEq

/-- The text of a header, if it has one. -/
def Request.text (req : Request) (name : Str) : Option Str := (req.headers.getAll name).head?.bind Http.toStr

/-- `is_vite_ws_upgrade`. -/
def Request.isViteWsUpgrade (req : Request) : Bool :=
  (req.text "connection".toList).any (fun v => "upgrade".toList <:+: v.map Char.toLower) &&
    (req.text "upgrade".toList).any (fun v => v.map Char.toLower = "websocket".toList) &&
    (req.text "sec-websocket-protocol".toList).any
      (fun v => "vite-hmr".toList <:+: v || "vite-ping".toList <:+: v)

/-- `matches_request`. -/
def ViteRoutes.matchesRequest (routes : ViteRoutes) (req : Request) : Bool :=
  routes.matchesPath req.path || req.isViteWsUpgrade

/-- Whether a 404 of the application is tried at Vite. -/
def Request.replayable (req : Request) : Bool :=
  (req.method = "GET".toList || req.method = "HEAD".toList) && !req.headers.containsKey "upgrade".toList

/-- What Vite is asked then. -/
def Request.replay (req : Request) : Request := { req with body := [] }

/-! ### Answers -/

/-- A response of Vite or of the application. -/
structure Response where
  status : ℕ
  headers : HeaderMap Bytes
  body : Bytes
  deriving DecidableEq

/-- What the browser gets: a response, or one of the pages. -/
inductive Reply where
  | upstream (response : Response)
  | building (waited : ℕ)
  | compileError (diagnostics : Str)
  | backendGone (reason : Str)
  | badGateway
  deriving DecidableEq

/-- The status of an answer. -/
def Reply.status : Reply → ℕ
  | .upstream response => response.status
  | .building _ => 503
  | .compileError _ => 500
  | .backendGone _ | .badGateway => 502

/-! ### The application behind its status -/

/-- `RECONNECT_INTERVAL`, in milliseconds. -/
def reconnectInterval : ℕ := 20

/-- How far `hold_then_forward` has come. It remembers when it started, and `settle` which status it has seen. -/
inductive Inner where
  | entering
  | settling (started : ℕ)
  | waiting (started seen : ℕ)
  | connecting (started : ℕ)
  | pausing (started wake : ℕ)
  | forwarding
  deriving DecidableEq

/-- How a connection and a request turn out, once they have. -/
structure Chance where
  connected : Option (Except Str Unit)
  response : Option (Except Str Response)

/-- The status channel, and the clock in milliseconds. -/
structure Watched where
  status : BackendStatus
  version : ℕ
  now : ℕ

/-- One stretch of `hold_then_forward`: to the next place, or to its answer. -/
def Inner.poll (hold : ℕ) (w : Watched) (x : Chance) : Inner → Inner ⊕ Reply
  | .entering => .inl (.settling w.now)
  | .settling started =>
    match w.status with
    | .ready => .inl (.connecting started)
    | .failed diagnostics => .inr (.compileError diagnostics)
    | .building => .inl (.waiting started w.version)
  | .waiting started seen =>
    if w.version ≠ seen then .inl (.settling started)
    else if started + hold ≤ w.now then .inr (.building (w.now - started))
    else .inl (.waiting started seen)
  | .connecting started =>
    match x.connected with
    | none => .inl (.connecting started)
    | some (.ok _) => .inl .forwarding
    | some (.error reason) =>
      if started + hold ≤ w.now then .inr (.backendGone reason)
      else .inl (.pausing started (w.now + reconnectInterval))
  | .pausing started wake => if wake ≤ w.now then .inl (.settling started) else .inl (.pausing started wake)
  | .forwarding =>
    match x.response with
    | none => .inl .forwarding
    | some (.ok response) => .inr (.upstream response)
    | some (.error reason) => .inr (.backendGone reason)

/-! ### The proxy in front -/

/-- How far the request has come. -/
inductive Stage where
  | arriving
  | connectingVite
  | forwardingVite
  | application (inner : Inner)
  | retrying (fromApp : Reply)
  | replaying (fromApp : Reply)
  | answered (reply : Reply)
  deriving DecidableEq

/-- Who a request is handed to. -/
inductive Upstream where | vite | app
  deriving DecidableEq

/-- The request's state, with the requests that were handed to a server. -/
structure Held where
  watched : Watched
  stage : Stage
  forwards : List (Upstream × Request)

/-- The status changes, time passes, or the request is polled. -/
inductive Event where
  | mark (status : BackendStatus)
  | tick (elapsed : ℕ)
  | poll (x : Chance)

section Steps

variable (routes : ViteRoutes) (hold : ℕ) (req : Request)

/-- Whether a 404 of the application is answered by asking Vite. -/
def retries : Bool := !routes.matchesRequest req && req.replayable

/-- What follows the application's answer. -/
def afterApp (reply : Reply) : Stage :=
  if retries routes req = true ∧ reply.status = 404 then .retrying reply else .answered reply

/-- A poll: the next stage, and what is handed to a server. -/
def Stage.poll (w : Watched) (x : Chance) : Stage → Stage × List (Upstream × Request)
  | .arriving => (if routes.matchesRequest req then .connectingVite else .application .entering, [])
  | .connectingVite =>
    match x.connected with
    | none => (.connectingVite, [])
    | some (.ok _) => (.forwardingVite, [(.vite, req)])
    | some (.error _) => (.application .entering, [])
  | .forwardingVite =>
    match x.response with
    | none => (.forwardingVite, [])
    | some (.ok response) => (.answered (.upstream response), [])
    | some (.error _) => (.answered .badGateway, [])
  | .application inner =>
    match inner.poll hold w x with
    | .inl next => (.application next, if inner ≠ .forwarding ∧ next = .forwarding then [(.app, req)] else [])
    | .inr reply => (afterApp routes req reply, [])
  | .retrying fromApp =>
    match x.connected with
    | none => (.retrying fromApp, [])
    | some (.ok _) => (.replaying fromApp, [(.vite, req.replay)])
    | some (.error _) => (.answered fromApp, [])
  | .replaying fromApp =>
    match x.response with
    | none => (.replaying fromApp, [])
    | some (.ok response) =>
      (.answered (if response.status ≠ 404 then .upstream response else fromApp), [])
    | some (.error _) => (.answered fromApp, [])
  | .answered reply => (.answered reply, [])

/-- One event. -/
def Held.step (s : Held) : Event → Held
  | .mark status => { s with watched := { s.watched with status, version := s.watched.version + 1 } }
  | .tick elapsed => { s with watched := { s.watched with now := s.watched.now + elapsed } }
  | .poll x =>
    { s with
      stage := (s.stage.poll routes hold req s.watched x).1
      forwards := s.forwards ++ (s.stage.poll routes hold req s.watched x).2 }

/-- A request, from its arrival. -/
def supervisor : Machine Held Event Unit :=
  ⟨⟨⟨.building, 0, 0⟩, .arriving, []⟩, fun s e => (s.step routes hold req e, ())⟩

/-! ### What is said -/

/-- What becomes of Vite's answer to a request it was handed first. -/
def Reply.ofVite : Except Str Response → Reply
  | .ok response => .upstream response
  | .error _ => .badGateway

/-- The application's service gives its answer. -/
def AppSays (reply : Reply) (s : Held) (e : Event) : Prop :=
  ∃ x inner, e = .poll x ∧ s.stage = .application inner ∧ inner.poll hold s.watched x = .inr reply

/-- Vite gives its answer to what it was handed, or dies over it. -/
def ViteSays (response : Except Str Response) (s : Held) (e : Event) : Prop :=
  ∃ x, e = .poll x ∧ x.response = some response ∧ (s.stage = .forwardingVite ∨ ∃ reply, s.stage = .replaying reply)

/-- Vite cannot be reached, fails, or knows nothing either. -/
def ViteHasNone (s : Held) (e : Event) : Prop :=
  ∃ x fromApp, e = .poll x ∧
    ((s.stage = .retrying fromApp ∧ ∃ reason, x.connected = some (.error reason)) ∨
      (s.stage = .replaying fromApp ∧ ((∃ reason, x.response = some (.error reason)) ∨
        ∃ response, x.response = some (.ok response) ∧ response.status = 404)))

/-- What the application's service says is so. -/
def Grounded : Reply → Held → Event → Prop
  | .upstream response, s, e => ∃ x, e = .poll x ∧ s.stage = .application .forwarding ∧ x.response = some (.ok response)
  | .building waited, s, _ => s.watched.status = .building ∧ hold ≤ waited
  | .compileError diagnostics, s, _ => s.watched.status = .failed diagnostics
  | .backendGone reason, s, e => ∃ x, e = .poll x ∧
      ((s.stage = .application .forwarding ∧ x.response = some (.error reason)) ∨
        ∃ started, s.stage = .application (.connecting started) ∧ x.connected = some (.error reason) ∧
          started + hold ≤ s.watched.now)
  | .badGateway, _, _ => False

/-- The application's service still holds the request, and since when. -/
def Stage.heldSince : Stage → Option ℕ
  | .application (.settling started) | .application (.waiting started _) | .application (.connecting started)
  | .application (.pausing started _) => some started
  | _ => none

/-- A poll that finds out how a connection turns out. -/
def Event.connects : Event → Bool
  | .poll x => x.connected.isSome
  | _ => false

/-- A change of the status. -/
def Event.marks : Event → Bool
  | .mark _ => true
  | _ => false

/-- The application's service has given an answer. -/
def Said (es : List Event) (reply : Reply) : Prop :=
  ∃ k, (supervisor routes hold req).Fires es k (AppSays hold reply)

/-- What the servers were handed: the request goes to one of them, and a copy without its body to Vite if the
    application does not know it. -/
def Handed (es : List Event) (forwards : List (Upstream × Request)) : Prop :=
  forwards = [] ∨ (forwards = [(.vite, req)] ∧ routes.matchesRequest req = true) ∨ forwards = [(.app, req)] ∨
    (forwards = [(.app, req), (.vite, req.replay)] ∧ retries routes req = true ∧
      ∃ fromApp, Said routes hold req es fromApp ∧ fromApp.status = 404)

/-- Whose answer it is: Vite's, the application's, or Vite's in place of the application's 404. -/
def Ascribed (es : List Event) (reply : Reply) : Prop :=
  (routes.matchesRequest req = true ∧ ∃ k response,
    (supervisor routes hold req).Fires es k (ViteSays response) ∧ reply = .ofVite response) ∨
  Said routes hold req es reply ∨
  ∃ j k fromApp response, (supervisor routes hold req).Fires es j (AppSays hold fromApp) ∧ fromApp.status = 404 ∧
    retries routes req = true ∧ (supervisor routes hold req).Fires es k (ViteSays (.ok response)) ∧ j < k ∧
    response.status ≠ 404 ∧ reply = .upstream response

/-- A 404 that could be tried at Vite was. -/
def Tried (es : List Event) (reply : Reply) : Prop :=
  reply.status = 404 → retries routes req = true → ∃ k, (supervisor routes hold req).Fires es k ViteHasNone

end Steps

section Proofs

variable {routes : ViteRoutes} {hold : ℕ} {req : Request}

/-! ### The application -/

theorem status_of_notFound {inner : Inner} {w : Watched} {x : Chance} {reply : Reply}
    (h : inner.poll hold w x = .inr reply) (hstatus : reply.status = 404) : inner = .forwarding := by
  cases inner with
  | forwarding => rfl
  | entering => cases h
  | settling started =>
    simp only [Inner.poll] at h
    split at h
    · cases h
    · obtain rfl := Sum.inr.inj h
      cases hstatus
    · cases h
  | waiting started seen =>
    simp only [Inner.poll] at h
    split_ifs at h
    obtain rfl := Sum.inr.inj h
    cases hstatus
  | connecting started =>
    simp only [Inner.poll] at h
    split at h
    · cases h
    · cases h
    · split_ifs at h
      obtain rfl := Sum.inr.inj h
      cases hstatus
  | pausing started wake =>
    simp only [Inner.poll] at h
    split_ifs at h

/-- A request that was handed over is handed over once. -/
theorem forwarding_of_poll {w : Watched} {x : Chance} {next : Inner}
    (h : Inner.forwarding.poll hold w x = .inl next) : next = .forwarding := by
  simp only [Inner.poll] at h
  split at h
  · exact (Sum.inl.inj h).symm
  · cases h
  · cases h

/-- What `settle` has seen is older than the status, or is `building`; a pause ends soon after the time is over. -/
def Inner.Knows (hold : ℕ) (w : Watched) : Inner → Prop
  | .waiting _ seen => seen ≤ w.version ∧ (w.version = seen → w.status = .building)
  | .pausing started wake => wake ≤ started + hold + reconnectInterval
  | _ => True

theorem knows_poll {inner next : Inner} {w : Watched} {x : Chance} (hknows : inner.Knows hold w)
    (h : inner.poll hold w x = .inl next) : next.Knows hold w := by
  cases inner with
  | entering =>
    obtain rfl := Sum.inl.inj h
    exact trivial
  | settling started =>
    simp only [Inner.poll] at h
    split at h
    · obtain rfl := Sum.inl.inj h
      exact trivial
    · cases h
    · next hbuilding =>
      obtain rfl := Sum.inl.inj h
      exact ⟨le_rfl, fun _ => hbuilding⟩
  | waiting started seen =>
    simp only [Inner.poll] at h
    split_ifs at h
    · obtain rfl := Sum.inl.inj h
      exact trivial
    · obtain rfl := Sum.inl.inj h
      exact hknows
  | connecting started =>
    simp only [Inner.poll] at h
    split at h
    · obtain rfl := Sum.inl.inj h
      exact trivial
    · obtain rfl := Sum.inl.inj h
      exact trivial
    · split_ifs at h with hlate
      obtain rfl := Sum.inl.inj h
      simp only [Inner.Knows]
      omega
  | pausing started wake =>
    simp only [Inner.poll] at h
    split_ifs at h
    · obtain rfl := Sum.inl.inj h
      exact trivial
    · obtain rfl := Sum.inl.inj h
      exact hknows
  | forwarding =>
    obtain rfl := forwarding_of_poll h
    exact trivial

/-- The status changes, or time passes, under what is known of them. -/
theorem Inner.Knows.later {inner : Inner} {w w' : Watched} (hknows : inner.Knows hold w)
    (h : w'.version = w.version ∧ w'.status = w.status ∨ w.version < w'.version) : inner.Knows hold w' := by
  cases inner with
  | waiting started seen =>
    obtain ⟨hseen, hbuilding⟩ := hknows
    rcases h with ⟨hversion, hstatus⟩ | hversion
    · refine ⟨by omega, fun hsame => ?_⟩
      rw [hstatus]
      exact hbuilding (by omega)
    · refine ⟨by omega, fun hsame => ?_⟩
      omega
  | pausing started wake => exact hknows
  | _ => exact trivial

/-- What has happened by the time the request is at its stage. -/
def Tracked (routes : ViteRoutes) (hold : ℕ) (req : Request) (es : List Event) (s : Held) : Prop :=
  match s.stage with
  | .arriving => s.forwards = []
  | .connectingVite => s.forwards = [] ∧ routes.matchesRequest req = true
  | .forwardingVite => s.forwards = [(.vite, req)] ∧ routes.matchesRequest req = true
  | .application inner =>
    s.forwards = (if inner = .forwarding then [(.app, req)] else []) ∧ inner.Knows hold s.watched
  | .retrying fromApp =>
    s.forwards = [(.app, req)] ∧ retries routes req = true ∧ fromApp.status = 404 ∧ Said routes hold req es fromApp
  | .replaying fromApp =>
    s.forwards = [(.app, req), (.vite, req.replay)] ∧ retries routes req = true ∧ fromApp.status = 404 ∧
      Said routes hold req es fromApp
  | .answered reply =>
    Handed routes hold req es s.forwards ∧ Ascribed routes hold req es reply ∧ Tried routes hold req es reply

theorem Said.concat {es : List Event} {reply : Reply} (h : Said routes hold req es reply) (e : Event) :
    Said routes hold req (es ++ [e]) reply := by
  obtain ⟨k, hfires⟩ := h
  exact ⟨k, Machine.fires_concat.mpr (.inl hfires)⟩

theorem Handed.concat {es : List Event} {forwards : List (Upstream × Request)}
    (h : Handed routes hold req es forwards) (e : Event) : Handed routes hold req (es ++ [e]) forwards := by
  rcases h with h | h | h | ⟨h, hretries, fromApp, hsaid, hstatus⟩
  · exact .inl h
  · exact .inr (.inl h)
  · exact .inr (.inr (.inl h))
  · exact .inr (.inr (.inr ⟨h, hretries, fromApp, hsaid.concat e, hstatus⟩))

theorem Ascribed.concat {es : List Event} {reply : Reply} (h : Ascribed routes hold req es reply) (e : Event) :
    Ascribed routes hold req (es ++ [e]) reply := by
  rcases h with ⟨hroutes, k, response, hfires, heq⟩ | h |
    ⟨j, k, fromApp, response, hsays, hstatus, hretries, hvite, hjk, hne, heq⟩
  · exact .inl ⟨hroutes, k, response, Machine.fires_concat.mpr (.inl hfires), heq⟩
  · exact .inr (.inl (h.concat e))
  · exact .inr (.inr ⟨j, k, fromApp, response, Machine.fires_concat.mpr (.inl hsays), hstatus, hretries,
      Machine.fires_concat.mpr (.inl hvite), hjk, hne, heq⟩)

theorem Tried.concat {es : List Event} {reply : Reply} (h : Tried routes hold req es reply) (e : Event) :
    Tried routes hold req (es ++ [e]) reply := by
  intro hstatus hretries
  obtain ⟨k, hfires⟩ := h hstatus hretries
  exact ⟨k, Machine.fires_concat.mpr (.inl hfires)⟩

/-- A request that does not move keeps its history. -/
theorem Tracked.later {es : List Event} {s s' : Held} (h : Tracked routes hold req es s) (e : Event)
    (hstage : s'.stage = s.stage) (hforwards : s'.forwards = s.forwards)
    (hknows : ∀ inner : Inner, inner.Knows hold s.watched → inner.Knows hold s'.watched) :
    Tracked routes hold req (es ++ [e]) s' := by
  rw [Tracked] at h ⊢
  rw [hstage, hforwards]
  cases hs : s.stage with
  | arriving | connectingVite | forwardingVite =>
    rw [hs] at h
    exact h
  | application inner =>
    rw [hs] at h
    exact ⟨h.1, hknows inner h.2⟩
  | retrying fromApp | replaying fromApp =>
    rw [hs] at h
    exact ⟨h.1, h.2.1, h.2.2.1, h.2.2.2.concat e⟩
  | answered reply =>
    rw [hs] at h
    exact ⟨h.1.concat e, h.2.1.concat e, h.2.2.concat e⟩

/-- A poll moves the request on with its history. -/
theorem tracked_poll {es : List Event} (x : Chance)
    (h : Tracked routes hold req es ((supervisor routes hold req).run es)) :
    Tracked routes hold req (es ++ [.poll x]) (((supervisor routes hold req).run es).step routes hold req (.poll x)) := by
  rw [Tracked] at h
  cases hs : ((supervisor routes hold req).run es).stage with
  | arriving =>
    simp only [hs] at h
    simp only [Tracked, Held.step, hs, Stage.poll, h, List.append_nil]
    by_cases hroutes : routes.matchesRequest req = true
    · simp [hroutes]
    · simp [hroutes, Inner.Knows]
  | connectingVite =>
    simp only [hs] at h
    obtain ⟨hforwards, hroutes⟩ := h
    rcases hx : x.connected with - | (reason | accepted)
    · simp [Tracked, Held.step, hs, Stage.poll, hx, hforwards, hroutes]
    · simp [Tracked, Held.step, hs, Stage.poll, hx, hforwards, Inner.Knows]
    · simp [Tracked, Held.step, hs, Stage.poll, hx, hforwards, hroutes]
  | forwardingVite =>
    simp only [hs] at h
    obtain ⟨hforwards, hroutes⟩ := h
    have hsays : ∀ response, x.response = some response → (supervisor routes hold req).Fires (es ++ [.poll x])
        es.length (ViteSays response) :=
      fun response hresponse => Machine.fires_last.mpr ⟨x, rfl, hresponse, .inl hs⟩
    rcases hx : x.response with - | (reason | response)
    · simp [Tracked, Held.step, hs, Stage.poll, hx, hforwards, hroutes]
    all_goals
      simp only [Tracked, Held.step, hs, Stage.poll, hx, hforwards, List.append_nil]
      refine ⟨.inr (.inl ⟨rfl, hroutes⟩), .inl ⟨hroutes, es.length, _, hsays _ hx, rfl⟩, fun _ hretries => ?_⟩
      simp [retries, hroutes] at hretries
  | application inner =>
    simp only [hs] at h
    obtain ⟨hforwards, hknows⟩ := h
    cases hpoll : inner.poll hold ((supervisor routes hold req).run es).watched x with
    | inl next =>
      simp only [Tracked, Held.step, hs, Stage.poll, hpoll, hforwards]
      refine ⟨?_, knows_poll hknows hpoll⟩
      by_cases hinner : inner = .forwarding
      · subst hinner
        simp [forwarding_of_poll hpoll]
      · simp [hinner]
    | inr reply =>
      have hsays : Said routes hold req (es ++ [.poll x]) reply :=
        ⟨es.length, Machine.fires_last.mpr ⟨x, inner, rfl, hs, hpoll⟩⟩
      simp only [Tracked, Held.step, hs, Stage.poll, hpoll, hforwards, List.append_nil, afterApp]
      by_cases hretried : retries routes req = true ∧ reply.status = 404
      · obtain rfl := status_of_notFound hpoll hretried.2
        simp [hretried, hsays]
      · rw [if_neg hretried]
        refine ⟨?_, .inr (.inl hsays), fun hstatus hretries => absurd ⟨hretries, hstatus⟩ hretried⟩
        by_cases hinner : inner = .forwarding
        · rw [if_pos hinner]
          exact .inr (.inr (.inl rfl))
        · rw [if_neg hinner]
          exact .inl rfl
  | retrying fromApp =>
    simp only [hs] at h
    obtain ⟨hforwards, hretries, hstatus, hsaid⟩ := h
    rcases hx : x.connected with - | (reason | accepted)
    · simp [Tracked, Held.step, hs, Stage.poll, hx, hforwards, hretries, hstatus, hsaid.concat]
    · simp only [Tracked, Held.step, hs, Stage.poll, hx, hforwards, List.append_nil]
      refine ⟨.inr (.inr (.inl rfl)), .inr (.inl (hsaid.concat _)), fun _ _ => ⟨es.length, ?_⟩⟩
      exact Machine.fires_last.mpr ⟨x, fromApp, rfl, .inl ⟨hs, reason, hx⟩⟩
    · simp [Tracked, Held.step, hs, Stage.poll, hx, hforwards, hretries, hstatus, hsaid.concat]
  | replaying fromApp =>
    simp only [hs] at h
    obtain ⟨hforwards, hretries, hstatus, hsaid⟩ := h
    have hhanded : Handed routes hold req (es ++ [.poll x]) [(.app, req), (.vite, req.replay)] :=
      .inr (.inr (.inr ⟨rfl, hretries, fromApp, hsaid.concat _, hstatus⟩))
    rcases hx : x.response with - | (reason | response)
    · simp [Tracked, Held.step, hs, Stage.poll, hx, hforwards, hretries, hstatus, hsaid.concat]
    · simp only [Tracked, Held.step, hs, Stage.poll, hx, hforwards, List.append_nil]
      refine ⟨hhanded, .inr (.inl (hsaid.concat _)), fun _ _ => ⟨es.length, ?_⟩⟩
      exact Machine.fires_last.mpr ⟨x, fromApp, rfl, .inr ⟨hs, .inl ⟨reason, hx⟩⟩⟩
    · simp only [Tracked, Held.step, hs, Stage.poll, hx, hforwards, List.append_nil]
      by_cases hfound : response.status = 404
      · rw [if_neg (not_not.mpr hfound)]
        refine ⟨hhanded, .inr (.inl (hsaid.concat _)), fun _ _ => ⟨es.length, ?_⟩⟩
        exact Machine.fires_last.mpr ⟨x, fromApp, rfl, .inr ⟨hs, .inr ⟨response, hx, hfound⟩⟩⟩
      · rw [if_pos hfound]
        obtain ⟨j, hfires⟩ := hsaid
        refine ⟨hhanded, .inr (.inr ⟨j, es.length, fromApp, response, Machine.fires_concat.mpr (.inl hfires), hstatus,
          hretries, ?_, hfires.lt, hfound, rfl⟩), fun hstatus' _ => absurd hstatus' hfound⟩
        exact Machine.fires_last.mpr ⟨x, rfl, hx, .inr ⟨fromApp, hs⟩⟩
  | answered reply =>
    simp only [hs] at h
    simp only [Tracked, Held.step, hs, Stage.poll, List.append_nil]
    exact ⟨h.1.concat _, h.2.1.concat _, h.2.2.concat _⟩

theorem tracked_run (es : List Event) : Tracked routes hold req es ((supervisor routes hold req).run es) := by
  induction es using List.reverseRecOn with
  | nil => rfl
  | append_singleton es e ih =>
    rw [Machine.run_concat]
    cases e with
    | mark status => exact ih.later _ rfl rfl fun inner hknows => hknows.later (.inr (Nat.lt_succ_self _))
    | tick elapsed => exact ih.later _ rfl rfl fun inner hknows => hknows.later (.inl ⟨rfl, rfl⟩)
    | poll x => exact tracked_poll x ih

theorem knows_run {es : List Event} {inner : Inner}
    (h : ((supervisor routes hold req).run es).stage = .application inner) :
    inner.Knows hold ((supervisor routes hold req).run es).watched := by
  have htracked : Tracked routes hold req es ((supervisor routes hold req).run es) := tracked_run es
  rw [Tracked, h] at htracked
  exact htracked.2

/-! ### Time -/

/-- How many looks and connections are left when the time is over, as long as the status stays what it is. -/
def Inner.left (version : ℕ) : Inner → ℕ
  | .settling _ => 2
  | .waiting _ seen => if version = seen then 1 else 3
  | .connecting _ => 1
  | .pausing _ _ => 3
  | _ => 0

/-- The same of a request. -/
def Stage.left (version : ℕ) : Stage → ℕ
  | .application inner => inner.left version
  | _ => 0

/-- The request was taken by the application's service, whose time is over. -/
def Stage.Late (hold now : ℕ) : Stage → Prop
  | .arriving | .connectingVite | .forwardingVite | .application .entering => False
  | stage => ∀ started, stage.heldSince = some started → started + hold + reconnectInterval ≤ now

/-- Each poll that learns how a connection turns out brings a late request nearer to its answer. -/
theorem left_poll {inner next : Inner} {w : Watched} {x : Chance} (hknows : inner.Knows hold w)
    (hlate : (Stage.application inner).Late hold w.now) (h : inner.poll hold w x = .inl next) :
    next.left w.version ≤ inner.left w.version - x.connected.isSome.toNat ∧
      (Stage.application next).Late hold w.now := by
  cases inner with
  | entering => exact hlate.elim
  | settling started =>
    simp only [Inner.poll] at h
    split at h
    · obtain rfl := Sum.inl.inj h
      refine ⟨?_, hlate⟩
      cases x.connected <;> simp [Inner.left]
    · cases h
    · obtain rfl := Sum.inl.inj h
      refine ⟨?_, hlate⟩
      cases x.connected <;> simp [Inner.left]
  | waiting started seen =>
    have htime : started + hold + reconnectInterval ≤ w.now := hlate started rfl
    simp only [Inner.poll] at h
    split_ifs at h with hchanged hover
    · obtain rfl := Sum.inl.inj h
      refine ⟨?_, hlate⟩
      cases x.connected <;> simp [Inner.left, hchanged]
    · omega
  | connecting started =>
    have htime : started + hold + reconnectInterval ≤ w.now := hlate started rfl
    simp only [Inner.poll] at h
    split at h
    · next hpending =>
      obtain rfl := Sum.inl.inj h
      exact ⟨by simp [Inner.left, hpending], hlate⟩
    · obtain rfl := Sum.inl.inj h
      exact ⟨Nat.zero_le _, fun started hsince => by cases hsince⟩
    · split_ifs at h with hover
      omega
  | pausing started wake =>
    have htime : started + hold + reconnectInterval ≤ w.now := hlate started rfl
    have hwake : wake ≤ w.now := le_trans hknows htime
    simp only [Inner.poll, if_pos hwake] at h
    obtain rfl := Sum.inl.inj h
    refine ⟨?_, hlate⟩
    cases x.connected <;> simp [Inner.left]
  | forwarding =>
    obtain rfl := forwarding_of_poll h
    exact ⟨Nat.zero_le _, hlate⟩

/-- A change of the status makes a waiting request look again. -/
theorem left_mark (stage : Stage) (version version' : ℕ) :
    stage.left version' ≤ stage.left version + 2 ∧ (stage.left version = 0 → stage.left version' = 0) := by
  cases stage with
  | application inner =>
    cases inner with
    | waiting started seen =>
      have hbounds : ∀ v, 1 ≤ (Inner.waiting started seen).left v ∧ (Inner.waiting started seen).left v ≤ 3 := by
        intro v
        simp only [Inner.left]
        split_ifs <;> simp
      have hbefore := hbounds version
      have hnew := hbounds version'
      simp only [Stage.left]
      omega
    | entering | settling | connecting | pausing | forwarding => exact ⟨Nat.le_add_right _ _, fun hzero => hzero⟩
  | arriving | connectingVite | forwardingVite | retrying | replaying | answered => exact ⟨Nat.zero_le _, fun hzero => hzero⟩

/-- One event of a late request. -/
theorem left_step {s : Held} (hknows : ∀ inner, s.stage = .application inner → inner.Knows hold s.watched)
    (hlate : s.stage.Late hold s.watched.now) (e : Event) :
    (s.step routes hold req e).stage.left (s.step routes hold req e).watched.version ≤
        s.stage.left s.watched.version + 2 * [e].countP Event.marks - [e].countP Event.connects ∧
      (s.stage.left s.watched.version = 0 →
        (s.step routes hold req e).stage.left (s.step routes hold req e).watched.version = 0) ∧
      (s.step routes hold req e).stage.Late hold (s.step routes hold req e).watched.now := by
  obtain ⟨w, stage, forwards⟩ := s
  cases e with
  | mark status =>
    obtain ⟨hleft, hzero⟩ := left_mark stage w.version (w.version + 1)
    exact ⟨hleft, hzero, hlate⟩
  | tick elapsed =>
    refine ⟨by simp [Held.step, Event.marks, Event.connects], fun h => h, ?_⟩
    cases stage with
    | application inner =>
      cases inner with
      | entering => exact hlate.elim
      | _ => exact fun started hsince => (hlate started hsince).trans (Nat.le_add_right _ _)
    | arriving | connectingVite | forwardingVite => exact hlate.elim
    | retrying | replaying | answered => exact fun started hsince => by cases hsince
  | poll x =>
    cases stage with
    | application inner =>
      have hknows : inner.Knows hold w := hknows inner rfl
      have hlate : (Stage.application inner).Late hold w.now := hlate
      have hconnects : [Event.poll x].countP Event.connects = x.connected.isSome.toNat := by
        rw [List.countP_singleton, Event.connects]
        cases x.connected <;> rfl
      have hmarks : [Event.poll x].countP Event.marks = 0 := rfl
      simp only [Held.step, Stage.poll, hconnects, hmarks]
      cases hpoll : inner.poll hold w x with
      | inl next =>
        obtain ⟨hleft, hlate'⟩ := left_poll hknows hlate hpoll
        simp only [Stage.left]
        exact ⟨by omega, fun hzero => by omega, hlate'⟩
      | inr reply =>
        have hafter : (afterApp routes req reply).left w.version = 0 ∧ (afterApp routes req reply).Late hold w.now := by
          rw [afterApp]
          split_ifs
          · exact ⟨rfl, fun started hsince => by cases hsince⟩
          · exact ⟨rfl, fun started hsince => by cases hsince⟩
        rw [hafter.1]
        exact ⟨Nat.zero_le _, fun _ => rfl, hafter.2⟩
    | arriving | connectingVite | forwardingVite => exact hlate.elim
    | retrying fromApp =>
      rcases hx : x.connected with - | (reason | accepted) <;>
        simp [Held.step, Stage.poll, hx, Stage.left, Stage.Late, Stage.heldSince]
    | replaying fromApp =>
      rcases hx : x.response with - | (reason | response) <;>
        simp [Held.step, Stage.poll, hx, Stage.left, Stage.Late, Stage.heldSince]
    | answered reply => simp [Held.step, Stage.poll, Stage.left, Stage.Late, Stage.heldSince]

theorem left_run {before : List Event} {started : ℕ}
    (hsince : ((supervisor routes hold req).run before).stage.heldSince = some started)
    (htime : started + hold + reconnectInterval ≤ ((supervisor routes hold req).run before).watched.now)
    (after : List Event) :
    ((supervisor routes hold req).run (before ++ after)).stage.left
        ((supervisor routes hold req).run (before ++ after)).watched.version ≤
          3 + 2 * after.countP Event.marks - after.countP Event.connects ∧
      ((supervisor routes hold req).run (before ++ after)).stage.Late hold
        ((supervisor routes hold req).run (before ++ after)).watched.now := by
  induction after using List.reverseRecOn with
  | nil =>
    rw [List.append_nil]
    generalize (supervisor routes hold req).run before = s at hsince htime ⊢
    obtain ⟨w, stage, forwards⟩ := s
    cases stage with
    | application inner =>
      cases inner with
      | entering | forwarding => cases hsince
      | settling | connecting | pausing =>
        obtain rfl := Option.some.inj hsince
        refine ⟨by simp [Stage.left, Inner.left], fun started' hsince' => ?_⟩
        obtain rfl := Option.some.inj hsince'
        exact htime
      | waiting =>
        obtain rfl := Option.some.inj hsince
        refine ⟨?_, fun started' hsince' => ?_⟩
        · simp only [Stage.left, Inner.left]
          split_ifs <;> simp
        · obtain rfl := Option.some.inj hsince'
          exact htime
    | _ => cases hsince
  | append_singleton after e ih =>
    obtain ⟨hleft, hlate⟩ := ih
    have hknows : ∀ inner, ((supervisor routes hold req).run (before ++ after)).stage = .application inner →
        inner.Knows hold ((supervisor routes hold req).run (before ++ after)).watched := fun inner => knows_run
    obtain ⟨hnext, hzero, hlate'⟩ : _ ∧ _ ∧ ((supervisor routes hold req).next _ e).stage.Late hold _ :=
      left_step hknows hlate e
    rw [← List.append_assoc, Machine.run_concat, List.countP_append, List.countP_append]
    refine ⟨?_, hlate'⟩
    change (Held.step routes hold req _ e).stage.left (Held.step routes hold req _ e).watched.version ≤ _
    by_cases hnone : ((supervisor routes hold req).run (before ++ after)).stage.left
        ((supervisor routes hold req).run (before ++ after)).watched.version = 0
    · rw [hzero hnone]
      exact Nat.zero_le _
    · omega

end Proofs

end Arcature.DevProxy
