import Arcature.Inertia.Selection
import Arcature.Inertia.Together
import Arcature.Lib.Clock

/-! The props of a page and how a request resolves them (`inertia/props.rs`, `inertia/page.rs`).

    Three passes. Every entry is decided on first (`planPage`), which parks the resolvers that are to
    run; then they run together; then the entries are recorded in the order of their declaration
    (`apply`), shared entries first:

        shared ─┐  plan   [nothing, invoke 0, ready v, invoke 1, announce, ..]
        page   ─┘           │ park                                  │ take slot, apply
                            ▼                                       ▼
                          [future 0, future 1]  ── together ──▶  [outcome 0, outcome 1]

    The passes are linked by the slot numbers alone. An index past the outcomes and an outcome that
    is not there when its entry is recorded would panic: both are `none` here, as is running out of
    the fuel the resolvers are polled with. -/

namespace Arcature.Inertia
open Arcature.Lib

/-! ### Props -/

/-- How the client merges a prop with what it holds. -/
inductive MergeStrategy where
  | merge
  | prepend
  | deepMerge
  deriving DecidableEq

/-- Which end of an infinite scroll the client is loading. -/
inductive MergeIntent where
  | prepend
  | append
  deriving DecidableEq

/-- One page of an infinite scroll. -/
inductive PageIdentifier where
  | number (n : Int64)
  | text (s : Str)
  deriving DecidableEq

/-- The state of an infinite scroll. -/
structure ScrollProp where
  pageName : Str
  previousPage : Option PageIdentifier
  nextPage : Option PageIdentifier
  currentPage : Option PageIdentifier
  reset : Bool
  deriving DecidableEq

/-- How a once prop is named and when the client lets it go. -/
structure OnceProp where
  key : Option Str
  ttl : Option Duration
  deriving DecidableEq

/-- What a prop is, over whatever its resolver gives when it is called. -/
inductive BaseProp (ρ : Type) where
  | eager (value : Json)
  | always (value : Json)
  | lazy (resolver : ρ)
  | optional (resolver : ρ)
  | deferred (resolver : ρ) (group : Option Str)

/-- A prop and its labels. -/
structure PageProp (ρ : Type) where
  base : BaseProp ρ
  merge : Option MergeStrategy := none
  mergePath : Option Str := none
  matchOn : Option Str := none
  scroll : Option ScrollProp := none
  once : Option OnceProp := none
  rescue : Bool := false

/-- What the Inertia headers of a request say. -/
structure InertiaRequest where
  partialComponent : Option Str
  only : List Str
  except : List Str
  reset : List Str
  errorBag : Option Str
  exceptOnce : List Str
  mergeIntent : Option MergeIntent

/-- A shared prop: one like those of a page, or a resolver that is shown the request. -/
inductive SharedProp (ρ : Type) where
  | page (prop : PageProp ρ)
  | optional (resolver : InertiaRequest → ρ)

/-- The entries of a page, in the order of their declaration. -/
abbrev Props (ρ : Type) := List (Str × PageProp ρ)

/-- The entries shared by every page, in the order of their declaration. -/
abbrev SharedProps (ρ : Type) := List (Str × SharedProp ρ)

namespace OnceProp

/-- The key of a once prop, by default its path. -/
def resolvedKey (once : OnceProp) (path : Str) : Str := once.key.getD path

/-- When the client is to let go of the value, in milliseconds. -/
def expiresAt (once : OnceProp) (nowMs : ℕ) : Option ℕ :=
  once.ttl.map fun ttl => min (nowMs + min (ttl / 10 ^ 6) (2 ^ 64 - 1)) (2 ^ 64 - 1)

end OnceProp

namespace PageProp
variable {ρ : Type}

/-- The path the merge labels apply to. -/
def mergeKey (prop : PageProp ρ) (key : Str) : Str :=
  match prop.mergePath with
  | some suffix => childPath key suffix
  | none => key

/-- The strategy to record; the request's intent speaks for props with a scroll state only. -/
def strategyFor (prop : PageProp ρ) (intent : Option MergeIntent) : Option MergeStrategy :=
  match prop.scroll.isSome, intent with
  | true, some .prepend => some .prepend
  | true, _ => some (prop.merge.getD .merge)
  | false, _ => prop.merge

end PageProp

namespace InertiaRequest

/-- The selection a request makes of a component. -/
def partialFor (request : InertiaRequest) (component : Str) : Option PartialSelection :=
  if request.partialComponent = some component then
    some ⟨request.only, request.except, request.reset⟩
  else none

/-- Whether the client holds the value of a once key. -/
def holdsOnce (request : InertiaRequest) (key : Str) : Bool := request.exceptOnce.contains key

end InertiaRequest

/-! ### Metadata -/

/-- An entry of `onceProps`. -/
structure OncePropEntry where
  prop : Str
  expiresAt : Option ℕ
  deriving DecidableEq

/-- What a page object says about its props. -/
structure PageMetadata where
  sharedProps : List Str := []
  mergeProps : List Str := []
  prependProps : List Str := []
  deepMergeProps : List Str := []
  matchPropsOn : List Str := []
  scrollProps : Map Str ScrollProp := .empty
  onceProps : Map Str OncePropEntry := .empty
  deferredProps : Option (Map Str (List Str)) := none
  rescuedProps : List Str := []

namespace PageMetadata

/-- A path at the end of a list that does not have it. -/
def pushNew (entries : List Str) (entry : Str) : List Str :=
  if entry ∈ entries then entries else entries ++ [entry]

def recordMerge (metadata : PageMetadata) (strategy : MergeStrategy) (path : Str) : PageMetadata :=
  match strategy with
  | .merge => { metadata with mergeProps := pushNew metadata.mergeProps path }
  | .prepend => { metadata with prependProps := pushNew metadata.prependProps path }
  | .deepMerge => { metadata with deepMergeProps := pushNew metadata.deepMergeProps path }

def recordMatchOn (metadata : PageMetadata) (key : Str) : PageMetadata :=
  { metadata with matchPropsOn := pushNew metadata.matchPropsOn key }

def recordScroll (metadata : PageMetadata) (prop : Str) (scroll : ScrollProp) : PageMetadata :=
  { metadata with scrollProps := metadata.scrollProps.insert prop scroll }

def recordOnce (metadata : PageMetadata) (key prop : Str) (expiresAt : Option ℕ) : PageMetadata :=
  { metadata with onceProps := metadata.onceProps.insert key ⟨prop, expiresAt⟩ }

def recordDeferred (metadata : PageMetadata) (group path : Str) : PageMetadata :=
  let groups := metadata.deferredProps.getD .empty
  { metadata with deferredProps := some (groups.insert group ((groups.get? group).getD [] ++ [path])) }

def recordRescued (metadata : PageMetadata) (path : Str) : PageMetadata :=
  { metadata with rescuedProps := metadata.rescuedProps ++ [path] }

def recordShared (metadata : PageMetadata) (key : Str) : PageMetadata :=
  { metadata with sharedProps := pushNew metadata.sharedProps key }

end PageMetadata

/-! ### Deciding -/

/-- A failed render. -/
inductive InertiaError (ε : Type) where
  | serialize
  | propResolution (path : Str) (source : ε)

/-- What of a request the resolution reads. -/
structure ResolveContext where
  isFull : Bool
  selection : Option PartialSelection
  resetPaths : List Str
  intent : Option MergeIntent
  nowMs : ℕ

/-- Gather it. -/
def ResolveContext.of (request : InertiaRequest) (component : Str) (nowMs : ℕ) : ResolveContext where
  isFull := (request.partialFor component).isNone
  selection := request.partialFor component
  resetPaths := ((request.partialFor component).map PartialSelection.reset).getD []
  intent := request.mergeIntent
  nowMs := nowMs

def ResolveContext.included (context : ResolveContext) (path : Str) : Bool :=
  Inertia.included path context.selection

/-- What a planned entry does. -/
inductive Action (ε : Type) where
  | nothing
  | ready (value : Json)
  | failed (error : InertiaError ε)
  | invoke (slot : ℕ) (rescue : Bool)
  | announce (group : Str)

/-- One entry's decision. -/
structure Planned (ρ ε : Type) where
  key : Str
  prop : Option (PageProp ρ)
  shared : Bool
  onceKey : Option Str
  withheld : Bool
  action : Action ε

section plan
variable {ρ ε : Type}

/-- `SerializedValue::resolve`: a value that was serialized before. -/
def resolveSerialized (value : Json) : Except (InertiaError ε) Json := .ok value

/-- Park a resolver and return its slot. -/
def park (resolvers : List ρ) (future : ρ) : ℕ × List ρ := (resolvers.length, resolvers ++ [future])

/-- A value in hand, or why it is not. -/
def ready : Except (InertiaError ε) Json → Action ε
  | .ok value => .ready value
  | .error error => .failed error

/-- Park a resolver and plan to wait for it. -/
def invoke (resolvers : List ρ) (future : ρ) (rescue : Bool) : Action ε × List ρ :=
  let (slot, resolvers) := park resolvers future
  (.invoke slot rescue, resolvers)

/-- What a prop that is not withheld does. -/
def planBase (key : Str) (prop : PageProp ρ) (context : ResolveContext) (resolvers : List ρ) :
    Action ε × List ρ :=
  match prop.base with
  | .eager value =>
    if context.isFull || context.included key then
      (ready ((resolveSerialized value).map (filterNestedValue context.selection key)), resolvers)
    else (.nothing, resolvers)
  | .always value => (ready (resolveSerialized value), resolvers)
  | .lazy resolver =>
    if context.isFull || context.included key then invoke resolvers resolver prop.rescue
    else (.nothing, resolvers)
  | .optional resolver =>
    if !context.isFull && context.included key then invoke resolvers resolver prop.rescue
    else (.nothing, resolvers)
  | .deferred resolver group =>
    if context.isFull then (.announce (group.getD "default".toList), resolvers)
    else if context.included key then invoke resolvers resolver prop.rescue
    else (.nothing, resolvers)

/-- Decide on a prop. -/
def planPage (key : Str) (prop : PageProp ρ) (request : InertiaRequest) (context : ResolveContext)
    (resolvers : List ρ) : Planned ρ ε × List ρ :=
  let onceKey := prop.once.map fun spec => spec.resolvedKey key
  let withheld := onceKey.any request.holdsOnce
  let (action, resolvers) :=
    if withheld then (Action.nothing, resolvers) else planBase key prop context resolvers
  (⟨key, some prop, false, onceKey, withheld, action⟩, resolvers)

/-- What a shared resolver does. -/
def planOptional (key : Str) (future : ρ) (context : ResolveContext) (resolvers : List ρ) :
    Action ε × List ρ :=
  if context.isFull || !context.included key then (.nothing, resolvers)
  else invoke resolvers future false

/-- Decide on a shared prop. -/
def planShared (key : Str) (prop : SharedProp ρ) (request : InertiaRequest)
    (context : ResolveContext) (resolvers : List ρ) : Planned ρ ε × List ρ :=
  match prop with
  | .page prop =>
    let (planned, resolvers) := planPage key prop request context resolvers
    ({ planned with shared := true }, resolvers)
  | .optional resolver =>
    let (action, resolvers) := planOptional key (resolver request) context resolvers
    (⟨key, none, true, none, false, action⟩, resolvers)

/-- Decide on all entries, the shared ones that no entry of the page shadows before those of the
    page, and park their resolvers. -/
def plan (page : Props ρ) (shared : SharedProps ρ) (request : InertiaRequest)
    (context : ResolveContext) : List (Planned ρ ε) × List ρ :=
  let pageKeys := page.map Prod.fst
  let (plans, resolvers) := shared.foldl (fun (plans, resolvers) (key, prop) =>
    if key ∈ pageKeys then (plans, resolvers)
    else
      let (planned, resolvers) := planShared key prop request context resolvers
      (plans ++ [planned], resolvers)) ([], [])
  page.foldl (fun (plans, resolvers) (key, prop) =>
    let (planned, resolvers) := planPage key prop request context resolvers
    (plans ++ [planned], resolvers)) (plans, resolvers)

end plan

/-! ### Recording -/

/-- What a resolver hands back. -/
abbrev ResolverOutcome (ε : Type) := Except ε Json

section record
variable {ρ ε : Type}

/-- The once entry of a prop that was in play: sent, or withheld because it was sent before. -/
def recordInPlay (planned : Planned ρ ε) (included : Bool) (context : ResolveContext)
    (metadata : PageMetadata) : PageMetadata :=
  match planned.prop.bind PageProp.once, planned.onceKey with
  | some spec, some onceKey =>
    if included || planned.withheld then
      metadata.recordOnce onceKey planned.key (spec.expiresAt context.nowMs)
    else metadata
  | _, _ => metadata

/-- The labels of a prop that was sent. -/
def recordLabels (key : Str) (prop : PageProp ρ) (context : ResolveContext)
    (metadata : PageMetadata) : PageMetadata :=
  let metadata :=
    match prop.scroll with
    | some scroll => metadata.recordScroll key scroll
    | none => metadata
  if key ∈ context.resetPaths then metadata
  else
    let mergeKey := prop.mergeKey key
    let metadata :=
      match prop.strategyFor context.intent with
      | some strategy => metadata.recordMerge strategy mergeKey
      | none => metadata
    match prop.matchOn with
    | some field => metadata.recordMatchOn (childPath mergeKey field)
    | none => metadata

/-- What is recorded of an entry besides its value. -/
def recordEntry (planned : Planned ρ ε) (included : Bool) (context : ResolveContext)
    (metadata : PageMetadata) : PageMetadata :=
  let metadata := recordInPlay planned included context metadata
  if included then
    let metadata :=
      match planned.prop with
      | some prop => recordLabels planned.key prop context metadata
      | none => metadata
    if planned.shared then metadata.recordShared (topLevelKey planned.key) else metadata
  else metadata

/-- Carry out a planned entry; no outcome for a resolver that was invoked is a panic. -/
def apply (planned : Planned ρ ε) (outcome : Option (ResolverOutcome ε)) (context : ResolveContext)
    (state : Map Str Json × PageMetadata) :
    Option (Except (InertiaError ε) (Map Str Json × PageMetadata)) :=
  let (props, metadata) := state
  let send (value : Json) :=
    some (.ok (insertNested props planned.key value, recordEntry planned true context metadata))
  match planned.action with
  | .nothing => some (.ok (props, recordEntry planned false context metadata))
  | .ready value => send value
  | .failed error => some (.error error)
  | .announce group =>
    some (.ok (props,
      recordEntry planned false context (metadata.recordDeferred group planned.key)))
  | .invoke _ rescue =>
    match outcome with
    | none => none
    | some (.ok value) => send value
    | some (.error source) =>
      if rescue then
        some (.ok (props, recordEntry planned false context (metadata.recordRescued planned.key)))
      else some (.error (.propResolution planned.key source))

/-- Record the plans in order, each with the outcome taken from its slot; a slot past the outcomes
    is a panic. -/
def record (context : ResolveContext) : List (Planned ρ ε) → List (Option (ResolverOutcome ε)) →
    Map Str Json × PageMetadata → Option (Except (InertiaError ε) (Map Str Json × PageMetadata))
  | [], _, state => some (.ok state)
  | planned :: plans, outcomes, state =>
    let taken :=
      match planned.action with
      | .invoke slot _ => outcomes[slot]?.map fun outcome => (outcome, outcomes.set slot none)
      | _ => some (none, outcomes)
    taken.bind fun (outcome, outcomes) =>
      (apply planned outcome context state).bind fun
        | .ok state => record context plans outcomes state
        | .error error => some (.error error)

/-- The resolved props and their metadata. -/
structure Resolved where
  props : Map Str Json
  metadata : PageMetadata

def errorsKey : Str := "errors".toList

/-- `errors` is always there, under the bag the request asked for. -/
def withErrors (request : InertiaRequest) (props : Map Str Json) : Map Str Json :=
  let props :=
    if (props.get? errorsKey).isSome then props else props.insert errorsKey (.object .empty)
  match request.errorBag with
  | none => props
  | some bag =>
    let errors := (props.get? errorsKey).getD (.object .empty)
    (props.remove errorsKey).insert errorsKey (.object (Map.empty.insert bag errors))

/-- Resolve all props for a request. -/
def resolve (fuel : ℕ) (page : Props (Future (ResolverOutcome ε)))
    (shared : SharedProps (Future (ResolverOutcome ε))) (request : InertiaRequest) (component : Str)
    (nowMs : ℕ) : Option (Except (InertiaError ε) Resolved) :=
  let context := ResolveContext.of request component nowMs
  let (plans, resolvers) := plan page shared request context
  (resolveTogether fuel resolvers).bind fun outcomes =>
    (record context plans outcomes (.empty, {})).map fun
      | .ok (props, metadata) => .ok ⟨withErrors request props, metadata⟩
      | .error error => .error error

end record

end Arcature.Inertia
