import Arcature.Inertia.Props

/-! The order in which resolvers finish cannot be told from the result.

    The reference runs the entries one after another, each from its decision to its record before
    the next is looked at (`inTurn`, `sequential`), over resolvers that answer at once. It has no
    slots and no futures. The code decides on all, polls together and records, over futures that
    answer `Pending` any number of times:

        resolve (futures) = sequential (their outcomes)

    Entry by entry the plan is the reference's step with its resolver cut out and parked
    (`Entry.plan_spec`); the slots the plans name are those the outcomes stand in, so that recording
    puts it back (`record_planEntries`). -/

namespace Arcature.Inertia
open Arcature.Lib

/-! ### Resolvers in and out of a page -/

section map
variable {ρ σ : Type} (g : ρ → σ)

def BaseProp.map : BaseProp ρ → BaseProp σ
  | .eager value => .eager value
  | .always value => .always value
  | .lazy resolver => .lazy (g resolver)
  | .optional resolver => .optional (g resolver)
  | .deferred resolver group => .deferred (g resolver) group

def PageProp.map (prop : PageProp ρ) : PageProp σ where
  base := prop.base.map g
  merge := prop.merge
  mergePath := prop.mergePath
  matchOn := prop.matchOn
  scroll := prop.scroll
  once := prop.once
  rescue := prop.rescue

def SharedProp.map : SharedProp ρ → SharedProp σ
  | .page prop => .page (prop.map g)
  | .optional resolver => .optional fun request => g (resolver request)

/-- A page with every resolver replaced. -/
def Props.mapResolvers (page : Props ρ) : Props σ := List.map (fun (key, prop) => (key, prop.map g)) page

/-- Shared props with every resolver replaced. -/
def SharedProps.mapResolvers (shared : SharedProps ρ) : SharedProps σ :=
  List.map (fun (key, prop) => (key, prop.map g)) shared

end map

/-! ### One entry after another -/

/-- An entry of either list. -/
inductive Entry (ρ : Type) where
  | shared (key : Str) (prop : SharedProp ρ)
  | page (key : Str) (prop : PageProp ρ)

/-- The entries of a page in the order of their declaration: the shared ones that the page does not
    shadow, and its own. -/
def entriesOf {ρ : Type} (page : Props ρ) (shared : SharedProps ρ) : List (Entry ρ) :=
  (shared.filter fun (key, _) => key ∉ page.map Prod.fst).map (fun (key, prop) => .shared key prop) ++
    page.map fun (key, prop) => .page key prop

/-- What an entry comes to once its resolver, if it is run, has answered. -/
inductive Settled (ε : Type) where
  | nothing
  | sent (value : Json)
  | announced (group : Str)
  | rescued
  | failed (error : InertiaError ε)

section reference
variable {ρ ε : Type}

/-- What a resolver's answer makes of its entry. -/
def settleOutcome (key : Str) (rescue : Bool) : ResolverOutcome ε → Settled ε
  | .ok value => .sent value
  | .error source => if rescue then .rescued else .failed (.propResolution key source)

/-- What a prop that is not withheld comes to. -/
def PageProp.settle (key : Str) (prop : PageProp (ResolverOutcome ε)) (context : ResolveContext) :
    Settled ε :=
  match prop.base with
  | .eager value =>
    if context.isFull || context.included key then
      .sent (filterNestedValue context.selection key value)
    else .nothing
  | .always value => .sent value
  | .lazy outcome =>
    if context.isFull || context.included key then settleOutcome key prop.rescue outcome
    else .nothing
  | .optional outcome =>
    if !context.isFull && context.included key then settleOutcome key prop.rescue outcome
    else .nothing
  | .deferred outcome group =>
    if context.isFull then .announced (group.getD "default".toList)
    else if context.included key then settleOutcome key prop.rescue outcome
    else .nothing

/-- Whether the client holds the value of a prop. -/
def PageProp.withheld (key : Str) (prop : PageProp ρ) (request : InertiaRequest) : Bool :=
  (prop.once.map fun spec => spec.resolvedKey key).any request.holdsOnce

namespace Entry

def key : Entry ρ → Str
  | .shared key _ => key
  | .page key _ => key

/-- What an entry comes to. -/
def settle (request : InertiaRequest) (context : ResolveContext) :
    Entry (ResolverOutcome ε) → Settled ε
  | .shared key (.page prop) | .page key prop =>
    if prop.withheld key request then .nothing else prop.settle key context
  | .shared key (.optional resolver) =>
    if context.isFull || !context.included key then .nothing
    else settleOutcome key false (resolver request)

/-- The labels of an entry, as they are recorded. -/
def labels (request : InertiaRequest) (action : Action ε) : Entry ρ → Planned ρ ε
  | .shared key (.page prop) =>
    ⟨key, some prop, true, prop.once.map fun spec => spec.resolvedKey key,
      prop.withheld key request, action⟩
  | .shared key (.optional _) => ⟨key, none, true, none, false, action⟩
  | .page key prop =>
    ⟨key, some prop, false, prop.once.map fun spec => spec.resolvedKey key,
      prop.withheld key request, action⟩

def map {σ : Type} (g : ρ → σ) : Entry ρ → Entry σ
  | .shared key prop => .shared key (prop.map g)
  | .page key prop => .page key (prop.map g)

end Entry

/-- An entry from its decision to its record. -/
def inTurn (request : InertiaRequest) (context : ResolveContext) (state : Map Str Json × PageMetadata)
    (entry : Entry (ResolverOutcome ε)) : Except (InertiaError ε) (Map Str Json × PageMetadata) :=
  let (props, metadata) := state
  let recorded (included : Bool) := recordEntry (entry.labels (ε := ε) request .nothing) included context
  match entry.settle request context with
  | .nothing => .ok (props, recorded false metadata)
  | .sent value => .ok (insertNested props entry.key value, recorded true metadata)
  | .announced group => .ok (props, recorded false (metadata.recordDeferred group entry.key))
  | .rescued => .ok (props, recorded false (metadata.recordRescued entry.key))
  | .failed error => .error error

/-- All entries, one after another; the first that fails is the answer. -/
def sequential (page : Props (ResolverOutcome ε)) (shared : SharedProps (ResolverOutcome ε))
    (request : InertiaRequest) (component : Str) (nowMs : ℕ) : Except (InertiaError ε) Resolved :=
  ((entriesOf page shared).foldlM (inTurn request (.of request component nowMs)) (.empty, {})).map
    fun (props, metadata) => ⟨withErrors request props, metadata⟩

end reference

/-! ### A plan and its reference -/

section refine
variable {ρ ε : Type} {request : InertiaRequest} {context : ResolveContext}

/-- Decide on an entry. -/
def Entry.plan (request : InertiaRequest) (context : ResolveContext) (resolvers : List ρ) :
    Entry ρ → Planned ρ ε × List ρ
  | .shared key prop => planShared key prop request context resolvers
  | .page key prop => planPage key prop request context resolvers

/-- Decide on entries in order. -/
def planEntries (request : InertiaRequest) (context : ResolveContext) :
    List (Entry ρ) → List ρ → List (Planned ρ ε) × List ρ
  | [], resolvers => ([], resolvers)
  | entry :: entries, resolvers =>
    let (planned, resolvers) := entry.plan request context resolvers
    let (plans, resolvers) := planEntries request context entries resolvers
    (planned :: plans, resolvers)

theorem foldl_plan (entries : List (Entry ρ)) (plans : List (Planned ρ ε)) (resolvers : List ρ) :
    entries.foldl (fun (plans, resolvers) entry =>
        (plans ++ [(entry.plan request context resolvers).1],
          (entry.plan (ε := ε) request context resolvers).2)) (plans, resolvers) =
      (plans ++ (planEntries request context entries resolvers).1,
        (planEntries (ε := ε) request context entries resolvers).2) := by
  induction entries generalizing plans resolvers with
  | nil => simp [planEntries]
  | cons entry entries ih => simp [planEntries, ih]

/-- The loops of the code are one pass over the entries. -/
theorem plan_eq (page : Props ρ) (shared : SharedProps ρ) :
    plan page shared request context =
      (planEntries request context (entriesOf page shared) [] : List (Planned ρ ε) × List ρ) := by
  have hloop := @foldl_plan ρ ε request context (entriesOf page shared) [] []
  rw [entriesOf, List.foldl_append, List.foldl_map, List.foldl_map, List.foldl_filter,
    List.nil_append] at hloop
  refine Eq.trans ?_ hloop
  change List.foldl _ (List.foldl _ _ shared) page = List.foldl _ (List.foldl _ _ shared) page
  refine congrArg (fun state => List.foldl _ state page) (List.foldl_ext _ _ _ ?_)
  rintro ⟨plans, resolvers⟩ ⟨key, prop⟩ -
  by_cases h : key ∈ page.map Prod.fst
  · simp [h]
  · simp [h, Entry.plan]

/-- What an entry is planned to do, and the resolvers with its own parked. -/
def Entry.action (request : InertiaRequest) (context : ResolveContext) (resolvers : List ρ) :
    Entry ρ → Action ε × List ρ
  | .shared key (.page prop) | .page key prop =>
    if prop.withheld key request then (.nothing, resolvers)
    else planBase key prop context resolvers
  | .shared key (.optional resolver) => planOptional key (resolver request) context resolvers

theorem Entry.plan_eq_labels (entry : Entry ρ) (resolvers : List ρ) :
    (entry.plan request context resolvers : Planned ρ ε × List ρ) =
      (entry.labels request (entry.action request context resolvers).1,
        (entry.action (ε := ε) request context resolvers).2) := by
  match entry with
  | .shared key (.page prop) => rfl
  | .shared key (.optional resolver) => rfl
  | .page key prop => rfl

/-- An action with its resolver parked in the next slot, and what the entry comes to when the
    resolver answers. -/
inductive Parked (key : Str) (resolvers : List (Future (ResolverOutcome ε))) :
    Action ε × List (Future (ResolverOutcome ε)) → Settled ε → Prop
  | nothing : Parked key resolvers (.nothing, resolvers) .nothing
  | ready (value : Json) : Parked key resolvers (.ready value, resolvers) (.sent value)
  | announce (group : Str) : Parked key resolvers (.announce group, resolvers) (.announced group)
  | invoke (future : Future (ResolverOutcome ε)) (rescue : Bool) :
    Parked key resolvers (.invoke resolvers.length rescue, resolvers ++ [future])
      (settleOutcome key rescue future.outcome)

theorem planBase_parked (key : Str) (prop : PageProp (Future (ResolverOutcome ε)))
    (resolvers : List (Future (ResolverOutcome ε))) :
    Parked key resolvers (planBase key prop context resolvers)
      ((prop.map Future.outcome).settle key context) := by
  obtain ⟨base⟩ := prop
  cases base with
  | eager value =>
    simp only [planBase, PageProp.settle, PageProp.map, BaseProp.map]
    split_ifs
    · exact .ready _
    · exact .nothing
  | always value => exact .ready value
  | lazy resolver =>
    simp only [planBase, PageProp.settle, PageProp.map, BaseProp.map]
    split_ifs
    · exact .invoke resolver _
    · exact .nothing
  | optional resolver =>
    simp only [planBase, PageProp.settle, PageProp.map, BaseProp.map]
    split_ifs
    · exact .invoke resolver _
    · exact .nothing
  | deferred resolver group =>
    simp only [planBase, PageProp.settle, PageProp.map, BaseProp.map]
    split_ifs
    · exact .announce _
    · exact .invoke resolver _
    · exact .nothing

/-- An entry is planned to do what the reference does, with the resolver cut out. -/
theorem Entry.action_parked (entry : Entry (Future (ResolverOutcome ε)))
    (resolvers : List (Future (ResolverOutcome ε))) :
    Parked entry.key resolvers (entry.action request context resolvers)
      ((entry.map Future.outcome).settle request context) := by
  have hpage : ∀ key (prop : PageProp (Future (ResolverOutcome ε))), Parked key resolvers
      (if prop.withheld key request then (.nothing, resolvers)
        else planBase key prop context resolvers)
      (if (prop.map Future.outcome).withheld key request then .nothing
        else (prop.map Future.outcome).settle key context) := by
    intro key prop
    have hsame : (prop.map Future.outcome).withheld key request = prop.withheld key request := rfl
    rw [hsame]
    split_ifs
    · exact .nothing
    · exact planBase_parked key prop resolvers
  match entry with
  | .shared key (.page prop) => exact hpage key prop
  | .page key prop => exact hpage key prop
  | .shared key (.optional resolver) =>
    simp only [Entry.action, Entry.map, SharedProp.map, Entry.settle, planOptional]
    split_ifs
    · exact .nothing
    · exact .invoke (resolver request) false

/-- The labels say nothing about the resolver. -/
theorem recordEntry_labels (entry : Entry (Future (ResolverOutcome ε))) (action : Action ε)
    (included : Bool) (metadata : PageMetadata) :
    recordEntry (entry.labels request action) included context metadata =
      recordEntry ((entry.map Future.outcome).labels (ε := ε) request .nothing) included context
        metadata := by
  match entry with
  | .shared key (.page prop) => rfl
  | .shared key (.optional resolver) => rfl
  | .page key prop => rfl

theorem key_labels (entry : Entry ρ) (action : Action ε) :
    (entry.labels request action).key = entry.key ∧
      (entry.labels request action).action = action := by
  match entry with
  | .shared key (.page prop) => exact ⟨rfl, rfl⟩
  | .shared key (.optional resolver) => exact ⟨rfl, rfl⟩
  | .page key prop => exact ⟨rfl, rfl⟩

/-- An entry that waits for nothing is recorded as in the reference, and one that waits is when it
    is given what its resolver answers. -/
theorem apply_parked {entry : Entry (Future (ResolverOutcome ε))} {action : Action ε}
    {resolvers parked : List (Future (ResolverOutcome ε))}
    (h : Parked entry.key resolvers (action, parked)
      ((entry.map Future.outcome).settle request context)) :
    (parked = resolvers ∧ (∀ slot rescue, action ≠ .invoke slot rescue) ∧ ∀ state,
      apply (entry.labels request action) none context state =
        some (inTurn request context state (entry.map Future.outcome))) ∨
    ∃ future rescue, parked = resolvers ++ [future] ∧ action = .invoke resolvers.length rescue ∧
      ∀ state, apply (entry.labels request action) (some future.outcome) context state =
        some (inTurn request context state (entry.map Future.outcome)) := by
  have hkey : (entry.map Future.outcome).key = entry.key := by cases entry <;> rfl
  generalize hsettle : (entry.map Future.outcome).settle request context = settled at h
  cases h with
  | nothing =>
    left
    simp [apply, inTurn, key_labels, hsettle, recordEntry_labels]
  | ready value =>
    left
    simp [apply, inTurn, key_labels, hsettle, recordEntry_labels, hkey]
  | announce group =>
    left
    simp [apply, inTurn, key_labels, hsettle, recordEntry_labels, hkey]
  | invoke future rescue =>
    refine Or.inr ⟨future, rescue, rfl, rfl, ?_⟩
    cases hout : future.outcome with
    | ok value => 
      simp [apply, inTurn, key_labels, hsettle, recordEntry_labels, hkey, hout, settleOutcome]
    | error source =>
      cases rescue <;>
        simp [apply, inTurn, key_labels, hsettle, recordEntry_labels, hkey, hout, settleOutcome]

/-- Recording the plans of entries gives what the entries give one after another, if the slots not
    taken yet hold what their resolvers answer. -/
theorem record_planEntries (entries : List (Entry (Future (ResolverOutcome ε))))
    (resolvers : List (Future (ResolverOutcome ε))) :
    ∃ parked, (planEntries (ε := ε) request context entries resolvers).2 = resolvers ++ parked ∧
      ∀ (taken : List (Option (ResolverOutcome ε))) (state : Map Str Json × PageMetadata),
        taken.length = resolvers.length →
        record context (planEntries request context entries resolvers).1
            (taken ++ parked.map fun f => some f.outcome) state =
          some ((entries.map (Entry.map Future.outcome)).foldlM (inTurn request context) state) := by
  induction entries generalizing resolvers with
  | nil => exact ⟨[], by simp [planEntries], fun taken state _ => rfl⟩
  | cons entry entries ih =>
    have hparked := @Entry.action_parked ε request context entry resolvers
    rcases haction : (entry.action request context resolvers : Action ε × _) with ⟨action, resolvers'⟩
    rw [haction] at hparked
    obtain ⟨parked, hplans, hrecord⟩ := ih resolvers'
    have hpass : planEntries (ε := ε) request context (entry :: entries) resolvers =
        (entry.labels request action :: (planEntries request context entries resolvers').1,
          (planEntries (ε := ε) request context entries resolvers').2) := by
      simp only [planEntries, Entry.plan_eq_labels, haction]
    have hfold : ∀ state, ((entry :: entries).map (Entry.map Future.outcome)).foldlM
        (inTurn request context) state = (inTurn request context state (entry.map Future.outcome)).bind
          fun state => (entries.map (Entry.map Future.outcome)).foldlM (inTurn request context) state :=
      fun state => rfl
    simp only [hpass, hplans, hfold]
    rcases apply_parked hparked with ⟨rfl, hnone, happly⟩ | ⟨future, rescue, rfl, rfl, happly⟩
    · refine ⟨parked, rfl, fun taken state hlength => ?_⟩
      rw [record]
      simp only [(key_labels _ _).2, Option.bind_some, happly]
      cases hturn : inTurn request context state (entry.map Future.outcome) with
      | error error => rfl
      | ok state => exact hrecord taken state hlength
    · refine ⟨future :: parked, by simp, fun taken state hlength => ?_⟩
      rw [record]
      have hslot : (taken ++ some future.outcome :: parked.map fun f => some f.outcome)[
          resolvers.length]? = some (some future.outcome) := by
        rw [← hlength]; simp
      have hset : (taken ++ some future.outcome :: parked.map fun f => some f.outcome).set
          resolvers.length none = (taken ++ [none]) ++ parked.map fun f => some f.outcome := by
        rw [← hlength]; simp
      simp only [(key_labels _ _).2, List.map_cons, hslot, hset, Option.map_some, Option.bind_some,
        happly]
      cases hturn : inTurn request context state (entry.map Future.outcome) with
      | error error => rfl
      | ok state => exact hrecord (taken ++ [none]) state (by simp [hlength])

theorem entriesOf_map {σ : Type} (g : ρ → σ) (page : Props ρ) (shared : SharedProps ρ) :
    entriesOf (page.mapResolvers g) (shared.mapResolvers g) =
      (entriesOf page shared).map (Entry.map g) := by
  simp only [entriesOf, SharedProps.mapResolvers, Props.mapResolvers, List.map_append,
    List.map_map, List.filter_map, Function.comp_def, Entry.map]

end refine

/-! ### Completion order -/

/-- Whatever the resolvers' pending counts, enough polls bring the resolution to an end, with the
    props, the metadata or the error of running the same resolvers one after another; and every
    resolver that was invoked was polled up to its first `Ready` and never again. -/
theorem resolve_eq_sequential {ε : Type} (page : Props (Future (ResolverOutcome ε)))
    (shared : SharedProps (Future (ResolverOutcome ε))) (request : InertiaRequest) (component : Str)
    (nowMs : ℕ) :
    ∃ enough, ∀ fuel, enough ≤ fuel →
      resolve fuel page shared request component nowMs =
        some (sequential (page.mapResolvers Future.outcome) (shared.mapResolvers Future.outcome)
          request component nowMs) ∧
      ∃ s, drive fuel (.start (plan (ε := ε) page shared request
          (.of request component nowMs)).2) = some s ∧
        ∀ slot future, (plan (ε := ε) page shared request
            (.of request component nowMs)).2[slot]? = some future →
          answers slot s.polls = List.replicate future.pending false ++ [true] := by
  obtain ⟨parked, hparked, hrecord⟩ :=
    @record_planEntries ε request (.of request component nowMs) (entriesOf page shared) []
  rw [List.nil_append] at hparked
  refine ⟨(parked.map Future.pending).sum + 1, fun fuel hfuel => ?_⟩
  have henough : ∀ f ∈ parked, f.pending < fuel := by
    intro f hf
    have := List.le_sum_of_mem (List.mem_map_of_mem (f := Future.pending) hf)
    omega
  obtain ⟨s, hdrive, houtcomes, hpolls⟩ := resolveTogether_eq parked (by omega) henough
  refine ⟨?_, s, by rw [plan_eq, hparked, hdrive], by rwa [plan_eq, hparked]⟩
  have hrun := hrecord [] (.empty, {}) rfl
  rw [List.nil_append] at hrun
  simp only [resolve, plan_eq, hparked, resolveTogether, hdrive, Option.map_some, Option.bind_some,
    houtcomes, hrun, sequential, entriesOf_map]
  cases List.foldlM (inTurn request (ResolveContext.of request component nowMs)) (.empty, {})
    ((entriesOf page shared).map (Entry.map Future.outcome)) <;> rfl

end Arcature.Inertia
