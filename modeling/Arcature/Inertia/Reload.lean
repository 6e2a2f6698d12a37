import Arcature.Inertia.Sequential

/-! What a partial reload ships, by the kind of prop that carries it.

    The props of a page are what its entries send, put in one after another (`sequential_props`), so
    that an entry matters through what it sends alone. On a partial reload a value that was there is
    filtered before it is sent; one that a resolver gave is not:

        except user.token
        eager   {user: {name, token}}   ships  {user: {name}}
        lazy    {user: {name, token}}   ships  {user: {name, token}}

    The two are the same exactly for the values the filter has nothing to take out of
    (`reload_same_iff`). -/

namespace Arcature.Inertia
open Arcature.Lib

variable {ε : Type}

/-! ### What the props are made of -/

/-- What an entry does to the props. -/
def send (request : InertiaRequest) (context : ResolveContext) (props : Map Str Json)
    (entry : Entry (ResolverOutcome ε)) : Except (InertiaError ε) (Map Str Json) :=
  match entry.settle request context with
  | .sent value => .ok (insertNested props entry.key value)
  | .failed error => .error error
  | _ => .ok props

theorem foldlM_inTurn_props (request : InertiaRequest) (context : ResolveContext)
    (entries : List (Entry (ResolverOutcome ε))) (state : Map Str Json × PageMetadata) :
    (entries.foldlM (inTurn request context) state).map Prod.fst =
      entries.foldlM (send request context) state.1 := by
  induction entries generalizing state with
  | nil => rfl
  | cons entry entries ih =>
    rw [List.foldlM_cons, List.foldlM_cons]
    cases hsettle : entry.settle request context with
    | failed error => simp [inTurn, send, hsettle, bind, Except.bind, Except.map]
    | nothing | sent value | announced group | rescued =>
      simp only [inTurn, send, hsettle]
      exact ih _

/-- The props are what the entries send, put in one after another. -/
theorem sequential_props (page : Props (ResolverOutcome ε)) (shared : SharedProps (ResolverOutcome ε))
    (request : InertiaRequest) (component : Str) (nowMs : ℕ) :
    (sequential page shared request component nowMs).map Resolved.props =
      ((entriesOf page shared).foldlM (send request (.of request component nowMs)) .empty).map
        (withErrors request) := by
  rw [← foldlM_inTurn_props request _ (entriesOf page shared) (.empty, {}), sequential]
  cases (entriesOf page shared).foldlM (inTurn request (.of request component nowMs)) (.empty, {})
    <;> rfl

/-! ### The same value by another kind of prop -/

/-- A prop that is resolved, by a resolver of which `gives` holds. -/
inductive Resolves {ρ : Type} (gives : ρ → Prop) : BaseProp ρ → Prop
  | lazy {resolver : ρ} (h : gives resolver) : Resolves gives (.lazy resolver)
  | optional {resolver : ρ} (h : gives resolver) : Resolves gives (.optional resolver)
  | deferred {resolver : ρ} {group : Option Str} (h : gives resolver) :
    Resolves gives (.deferred resolver group)

/-- A resolver that gives `v`. -/
def Gives (v : Json) (outcome : ResolverOutcome ε) : Prop := outcome = .ok v

/-- A future that comes to `v`. -/
def ComesTo (v : Json) (future : Future (ResolverOutcome ε)) : Prop := Gives v future.outcome

/-- Two pages with the same shared props and entries but one, eager with the value `v` in the first
    and with a resolver that comes to `v` in the second, or a shared resolver that does. -/
inductive Swapped (key : Str) (v : Json) : Props (Future (ResolverOutcome ε)) →
    SharedProps (Future (ResolverOutcome ε)) → Props (Future (ResolverOutcome ε)) →
    SharedProps (Future (ResolverOutcome ε)) → Prop
  | page {before after : Props (Future (ResolverOutcome ε))}
    {shared : SharedProps (Future (ResolverOutcome ε))} {prop : PageProp (Future (ResolverOutcome ε))}
    {base : BaseProp (Future (ResolverOutcome ε))} (h : Resolves (ComesTo v) base) :
    Swapped key v (before ++ (key, { prop with base := .eager v }) :: after) shared
      (before ++ (key, { prop with base := base }) :: after) shared
  | shared {before after : SharedProps (Future (ResolverOutcome ε))}
    {page : Props (Future (ResolverOutcome ε))} {prop : PageProp (Future (ResolverOutcome ε))}
    {base : BaseProp (Future (ResolverOutcome ε))} (h : Resolves (ComesTo v) base) :
    Swapped key v page (before ++ (key, .page { prop with base := .eager v }) :: after)
      page (before ++ (key, .page { prop with base := base }) :: after)
  | sharedOptional {before after : SharedProps (Future (ResolverOutcome ε))}
    {page : Props (Future (ResolverOutcome ε))}
    {resolver : InertiaRequest → Future (ResolverOutcome ε)}
    (h : ∀ request, ComesTo v (resolver request)) :
    Swapped key v page (before ++ (key, .page { base := .eager v }) :: after)
      page (before ++ (key, .optional resolver) :: after)

/-- An entry, not `always`, that carries the value `v` at `key`. -/
inductive Carries (key : Str) (v : Json) : Entry (ResolverOutcome ε) → Prop
  | page {prop : PageProp (ResolverOutcome ε)}
    (h : prop.base = .eager v ∨ Resolves (Gives v) prop.base) : Carries key v (.page key prop)
  | shared {prop : PageProp (ResolverOutcome ε)}
    (h : prop.base = .eager v ∨ Resolves (Gives v) prop.base) :
    Carries key v (.shared key (.page prop))
  | sharedOptional {resolver : InertiaRequest → ResolverOutcome ε}
    (h : ∀ request, Gives v (resolver request)) : Carries key v (.shared key (.optional resolver))

/-- Nothing the request does not ask for is inside a value it asks for. -/
def Unfiltered (selection : PartialSelection) (key : Str) (v : Json) : Prop :=
  included key (some selection) = true → ∀ p, Below key v p → included p (some selection) = true

/-- The props a resolution ends with. -/
def shippedProps (answer : Option (Except (InertiaError ε) Resolved)) :
    Option (Except (InertiaError ε) (Map Str Json)) :=
  answer.map (Except.map Resolved.props)

section settle
variable {request : InertiaRequest} {context : ResolveContext} {key : Str} {v : Json}

theorem settleOutcome_of_gives {outcome : ResolverOutcome ε} (h : Gives v outcome) (rescue : Bool) :
    settleOutcome key rescue outcome = .sent v := by
  rw [show outcome = .ok v from h, settleOutcome]

theorem settle_eager {prop : PageProp (ResolverOutcome ε)} (hbase : prop.base = .eager v)
    (hselects : context.isFull = false) :
    prop.settle key context =
      if context.included key then .sent (filterNestedValue context.selection key v)
      else .nothing := by
  simp [PageProp.settle, hbase, hselects]

theorem settle_resolves {prop : PageProp (ResolverOutcome ε)}
    (hbase : Resolves (Gives v) prop.base) (hselects : context.isFull = false) :
    prop.settle key context = if context.included key then .sent v else .nothing := by
  obtain ⟨base⟩ := prop
  cases hbase with
  | lazy h | optional h | deferred h =>
    simp [PageProp.settle, hselects, settleOutcome_of_gives h]

/-- What an entry that carries a value sends of it. -/
theorem Carries.settle {entry : Entry (ResolverOutcome ε)} (h : Carries key v entry)
    (hselects : context.isFull = false) :
    entry.settle request context = .nothing ∨ context.included key = true ∧
      (entry.settle request context = .sent v ∨
        entry.settle request context = .sent (filterNestedValue context.selection key v)) := by
  have hprop : ∀ prop : PageProp (ResolverOutcome ε), prop.base = .eager v ∨
      Resolves (Gives v) prop.base → ∀ settled, settled = (if prop.withheld key request then
        .nothing else prop.settle key context) → settled = .nothing ∨
      context.included key = true ∧ (settled = .sent v ∨
        settled = .sent (filterNestedValue context.selection key v)) := by
    rintro prop (hbase | hbase) settled rfl
    · rw [settle_eager hbase hselects]
      split_ifs <;> simp_all
    · rw [settle_resolves hbase hselects]
      split_ifs <;> simp_all
  cases h with
  | page hbase => exact hprop _ hbase _ rfl
  | shared hbase => exact hprop _ hbase _ rfl
  | sharedOptional hgives =>
    simp only [Entry.settle, hselects, settleOutcome_of_gives (hgives request)]
    split_ifs <;> simp_all

/-- Two props with one value and the same labels send the same, if the filter would leave it. -/
theorem settle_swapped {prop : PageProp (Future (ResolverOutcome ε))}
    {base : BaseProp (Future (ResolverOutcome ε))} (hbase : Resolves (ComesTo v) base)
    (hselects : context.isFull = false)
    (hsame : context.included key = true → filterNestedValue context.selection key v = v) :
    (PageProp.map Future.outcome { prop with base := .eager v }).settle key context =
      (PageProp.map Future.outcome { prop with base := base }).settle key context := by
  have hresolves : Resolves (Gives v)
      (PageProp.map Future.outcome { prop with base := base }).base := by
    cases hbase with
    | lazy h => exact .lazy h
    | optional h => exact .optional h
    | deferred h => exact .deferred h
  rw [settle_eager rfl hselects, settle_resolves hresolves hselects]
  split_ifs with hin
  · rw [hsame hin]
  · rfl

end settle

/-! ### One entry of many -/

section swap
variable {ρ : Type}

theorem entriesOf_page (before after : Props ρ) (shared : SharedProps ρ) (key : Str) (prop : PageProp ρ) :
    entriesOf (before ++ (key, prop) :: after) shared =
      ((shared.filter fun (k, _) => k ∉ before.map Prod.fst ++ key :: after.map Prod.fst).map
          (fun (k, prop) => .shared k prop) ++ before.map fun (k, prop) => .page k prop) ++
        .page key prop :: after.map fun (k, prop) => .page k prop := by
  have hkeys : (before ++ (key, prop) :: after).map Prod.fst =
      before.map Prod.fst ++ key :: after.map Prod.fst := by simp
  rw [entriesOf, hkeys, List.map_append, List.map_cons, List.append_assoc]

theorem entriesOf_shared (page : Props ρ) (before after : SharedProps ρ) (key : Str)
    (prop : SharedProp ρ) :
    entriesOf page (before ++ (key, prop) :: after) =
      if key ∈ page.map Prod.fst then entriesOf page (before ++ after)
      else (before.filter fun (k, _) => k ∉ page.map Prod.fst).map (fun (k, prop) => .shared k prop) ++
        .shared key prop :: entriesOf page after := by
  split_ifs with hkey
  · simp only [entriesOf, List.filter_append, List.map_append]
    rw [List.filter_cons_of_neg (by simpa using hkey)]
  · simp only [entriesOf, List.filter_append, List.map_append]
    rw [List.filter_cons_of_pos (by simpa using hkey)]
    simp

end swap

/-- Pages that differ by a swap have the same entries, or the same but for one that sends the same
    wherever the filter leaves its value. -/
theorem Swapped.entries {key : Str} {v : Json} {page page' : Props (Future (ResolverOutcome ε))}
    {shared shared' : SharedProps (Future (ResolverOutcome ε))}
    (h : Swapped key v page shared page' shared') :
    entriesOf page shared = entriesOf page' shared' ∨
      ∃ front back entry entry', entriesOf page shared = front ++ entry :: back ∧
        entriesOf page' shared' = front ++ entry' :: back ∧ entry.key = entry'.key ∧
        ∀ request context, context.isFull = false →
          (context.included key = true → filterNestedValue context.selection key v = v) →
          (entry.map Future.outcome).settle request context =
            (entry'.map Future.outcome).settle request context := by
  cases h with
  | page hbase =>
    refine Or.inr ⟨_, _, _, _, entriesOf_page _ _ _ _ _, entriesOf_page _ _ _ _ _, rfl, ?_⟩
    intro request context hselects hsame
    simp only [Entry.map, Entry.settle, settle_swapped hbase hselects hsame]
    rfl
  | @shared before after page prop base hbase =>
    rw [entriesOf_shared, entriesOf_shared]
    split_ifs
    · exact Or.inl rfl
    · refine Or.inr ⟨_, _, _, _, rfl, rfl, rfl, ?_⟩
      intro request context hselects hsame
      simp only [Entry.map, SharedProp.map, Entry.settle, settle_swapped hbase hselects hsame]
      rfl
  | @sharedOptional before after page resolver hgives =>
    rw [entriesOf_shared, entriesOf_shared]
    split_ifs
    · exact Or.inl rfl
    · refine Or.inr ⟨_, _, _, _, rfl, rfl, rfl, ?_⟩
      intro request context hselects hsame
      have hout : (resolver request).outcome = .ok v := hgives request
      simp only [Entry.map, SharedProp.map, Entry.settle, PageProp.withheld, PageProp.map,
        BaseProp.map, PageProp.settle, hselects, hout, settleOutcome]
      cases hin : context.included key with
      | true => simp [hsame hin]
      | false => simp

/-- What a page ships is what its entries send, put in one after another. -/
theorem resolve_props (page : Props (Future (ResolverOutcome ε)))
    (shared : SharedProps (Future (ResolverOutcome ε))) (request : InertiaRequest) (component : Str)
    (nowMs : ℕ) :
    ∃ enough, ∀ fuel, enough ≤ fuel →
      shippedProps (resolve fuel page shared request component nowMs) =
        some ((((entriesOf page shared).map (Entry.map Future.outcome)).foldlM
          (send request (.of request component nowMs)) .empty).map (withErrors request)) := by
  obtain ⟨enough, hrun⟩ := resolve_eq_sequential page shared request component nowMs
  refine ⟨enough, fun fuel hfuel => ?_⟩
  rw [(hrun fuel hfuel).1, shippedProps, Option.map_some, sequential_props, entriesOf_map]

/-! ### What was put in can be told -/

theorem get?_insertNested_isSome (props : Map Str Json) (dotted : Str) (value : Json) (k : Str) :
    ((insertNested props dotted value).get? k).isSome =
      (decide (k = topLevelKey dotted) || (props.get? k).isSome) := by
  unfold insertNested topLevelKey
  split
  · next h => exact absurd h (List.splitOn_ne_nil _ _)
  · next first h => by_cases hk : k = first <;> simp [h, hk]
  · next first rest _ h => by_cases hk : k = first <;> simp [h, hk]

theorem insertNested_injective {props : Map Str Json} {dotted : Str} {v w : Json}
    (h : insertNested props dotted v = insertNested props dotted w) : v = w := by
  have hfollow := follow_insertNested props dotted v
  rw [h, follow_insertNested] at hfollow
  exact (Option.some_inj.mp hfollow).symm

/-- The props with errors, empty ones if there were none. -/
def defaultErrors (m : Map Str Json) : Map Str Json :=
  if (m.get? errorsKey).isSome then m else m.insert errorsKey (.object .empty)

/-- The props with their errors in a bag. -/
def bagErrors (bag : Str) (m : Map Str Json) : Map Str Json :=
  (m.remove errorsKey).insert errorsKey
    (.object (Map.empty.insert bag ((m.get? errorsKey).getD (.object .empty))))

theorem withErrors_eq (request : InertiaRequest) (m : Map Str Json) :
    withErrors request m =
      match request.errorBag with
      | none => defaultErrors m
      | some bag => bagErrors bag (defaultErrors m) := rfl

theorem isSome_defaultErrors (m : Map Str Json) : ((defaultErrors m).get? errorsKey).isSome := by
  unfold defaultErrors
  split_ifs with hsome
  · exact hsome
  · simp

theorem defaultErrors_injective {m n : Map Str Json}
    (hboth : (m.get? errorsKey).isSome = (n.get? errorsKey).isSome)
    (h : defaultErrors m = defaultErrors n) : m = n := by
  unfold defaultErrors at h
  rw [← hboth] at h
  split_ifs at h with hm
  · exact h
  · have hnone : m.get? errorsKey = none := by simpa using hm
    have hnone' : n.get? errorsKey = none := by simpa [hnone] using hboth
    refine Map.ext fun k => ?_
    by_cases hkey : k = errorsKey
    · rw [hkey, hnone, hnone']
    · have hk := congrArg (Map.get? · k) h
      simpa [hkey] using hk

theorem bagErrors_injective {bag : Str} {m n : Map Str Json} (hm : (m.get? errorsKey).isSome)
    (hn : (n.get? errorsKey).isSome) (h : bagErrors bag m = bagErrors bag n) : m = n := by
  refine Map.ext fun k => ?_
  have hk := congrArg (Map.get? · k) h
  simp only [bagErrors, Map.get?_insert, Map.get?_remove] at hk
  by_cases hkey : k = errorsKey
  · subst hkey
    obtain ⟨x, hx⟩ := Option.isSome_iff_exists.mp hm
    obtain ⟨y, hy⟩ := Option.isSome_iff_exists.mp hn
    rw [if_pos rfl, if_pos rfl, Option.some_inj, Json.object.injEq] at hk
    have herrors := congrArg (Map.get? · bag) hk
    simpa [hx, hy] using herrors
  · simpa [hkey] using hk

/-- The errors that are put in, or moved into a bag, hide no difference between maps that both have
    errors or both have none. -/
theorem withErrors_injective {request : InertiaRequest} {m n : Map Str Json}
    (hboth : (m.get? errorsKey).isSome = (n.get? errorsKey).isSome)
    (h : withErrors request m = withErrors request n) : m = n := by
  apply defaultErrors_injective hboth
  rw [withErrors_eq, withErrors_eq] at h
  cases hbag : request.errorBag with
  | none => simpa [hbag] using h
  | some bag =>
    simp only [hbag] at h
    exact bagErrors_injective (isSome_defaultErrors m) (isSome_defaultErrors n) h

/-! ### The selection and the kind of prop -/

section reload
variable {request : InertiaRequest} {component : Str} {selection : PartialSelection} {key : Str}
  {v : Json}

theorem context_of_partial (hselects : request.partialFor component = some selection) (nowMs : ℕ) :
    (ResolveContext.of request component nowMs).isFull = false ∧
      (ResolveContext.of request component nowMs).selection = some selection := by
  simp [ResolveContext.of, hselects]

/-- A swap does not show where the filter leaves the value. -/
theorem shippedProps_of_unfiltered (hselects : request.partialFor component = some selection)
    (hvalue : Unfiltered selection key v) {page page' : Props (Future (ResolverOutcome ε))}
    {shared shared' : SharedProps (Future (ResolverOutcome ε))}
    (h : Swapped key v page shared page' shared') (nowMs : ℕ) :
    ∃ enough, ∀ fuel, enough ≤ fuel →
      shippedProps (resolve fuel page shared request component nowMs) =
        shippedProps (resolve fuel page' shared' request component nowMs) := by
  obtain ⟨enough, hrun⟩ := resolve_props page shared request component nowMs
  obtain ⟨enough', hrun'⟩ := resolve_props page' shared' request component nowMs
  obtain ⟨hfull, hselection⟩ := context_of_partial hselects nowMs
  refine ⟨max enough enough', fun fuel hfuel => ?_⟩
  rw [hrun fuel (by omega), hrun' fuel (by omega)]
  rcases h.entries with hsame | ⟨front, back, entry, entry', hentries, hentries', hkey, hsettle⟩
  · rw [hsame]
  · have hsend : ∀ props, send request (.of request component nowMs) props
        (entry.map Future.outcome) =
        send request (.of request component nowMs) props (entry'.map Future.outcome) := by
      intro props
      have hkeys : (entry.map Future.outcome).key = (entry'.map Future.outcome).key := by
        have hmap : ∀ e : Entry (Future (ResolverOutcome ε)), (e.map Future.outcome).key = e.key := by
          intro e
          cases e <;> rfl
        rw [hmap, hmap, hkey]
      rw [send, send, hkeys, hsettle request _ hfull]
      intro hin
      rw [hselection]
      rw [ResolveContext.included, hselection] at hin
      exact (filterNestedValue_eq_self_iff _ _ _).mpr (hvalue hin)
    rw [hentries, hentries']
    simp only [List.map_append, List.map_cons, List.foldlM_append, List.foldlM_cons, hsend]

theorem resolve_single {prop : PageProp (Future (ResolverOutcome ε))} {nowMs : ℕ} {w : Json}
    (h : (Entry.page key (prop.map Future.outcome)).settle request (.of request component nowMs) =
      .sent w) :
    ∃ enough, ∀ fuel, enough ≤ fuel →
      shippedProps (resolve fuel [(key, prop)] [] request component nowMs) =
        some (.ok (withErrors request (insertNested .empty key w))) := by
  obtain ⟨enough, hrun⟩ := resolve_props [(key, prop)] [] request component nowMs
  refine ⟨enough, fun fuel hfuel => ?_⟩
  rw [hrun fuel hfuel]
  simp only [entriesOf, List.filter_nil, List.map_nil, List.nil_append, List.map_cons, Entry.map,
    List.foldlM_cons, List.foldlM_nil, send, h]
  rfl

theorem lazy_gives (v : Json) : Resolves (Gives v) (.lazy (.ok v) : BaseProp (ResolverOutcome ε)) := by
  apply Resolves.lazy
  rfl

/-- A lazy prop without labels sends what its resolver gives. -/
theorem settle_lazy (hselects : request.partialFor component = some selection)
    (hin : included key (some selection) = true) (nowMs : ℕ) :
    (Entry.page key { base := .lazy (.ok v) } : Entry (ResolverOutcome ε)).settle request
      (.of request component nowMs) = .sent v := by
  obtain ⟨hfull, hselection⟩ := context_of_partial hselects nowMs
  rw [Entry.settle, settle_resolves (lazy_gives v) hfull, ResolveContext.included, hselection, if_pos hin]
  rfl

/-- The page of one eager prop and the page of one lazy prop show every value the filter changes. -/
theorem unfiltered_of_shippedProps (hselects : request.partialFor component = some selection)
    (h : ∀ page shared page' shared', Swapped (ε := ε) key v page shared page' shared' → ∀ nowMs,
      ∃ enough, ∀ fuel, enough ≤ fuel →
        shippedProps (resolve fuel page shared request component nowMs) =
          shippedProps (resolve fuel page' shared' request component nowMs)) :
    Unfiltered selection key v := by
  intro hin
  rw [← filterNestedValue_eq_self_iff]
  obtain ⟨hfull, hselection⟩ := context_of_partial hselects 0
  have hincluded : (ResolveContext.of request component 0).included key = true := by
    rwa [ResolveContext.included, hselection]
  let eager : PageProp (Future (ResolverOutcome ε)) := { base := .eager v }
  let lazy : PageProp (Future (ResolverOutcome ε)) := { base := .lazy ⟨0, .ok v⟩ }
  have heager : (Entry.page key (eager.map Future.outcome)).settle request (.of request component 0) =
      .sent (filterNestedValue (some selection) key v) := by
    rw [Entry.settle, settle_eager rfl hfull, if_pos hincluded, hselection]
    rfl
  have hlazy : (Entry.page key (lazy.map Future.outcome)).settle request (.of request component 0) =
      .sent v := settle_lazy hselects hin 0
  obtain ⟨enough, hsame⟩ := h [(key, eager)] [] [(key, lazy)] []
    (@Swapped.page ε key v [] [] [] eager _ (.lazy rfl)) 0
  obtain ⟨enough₁, hrun₁⟩ := resolve_single heager
  obtain ⟨enough₂, hrun₂⟩ := resolve_single hlazy
  have hshipped := hsame (max enough (max enough₁ enough₂)) (by omega)
  rw [hrun₁ _ (by omega), hrun₂ _ (by omega), Option.some_inj, Except.ok.injEq] at hshipped
  exact insertNested_injective (withErrors_injective
    (by rw [get?_insertNested_isSome, get?_insertNested_isSome]) hshipped)

/-- The two ways to select a path. -/
theorem included_iff {p : Str} : included p (some selection) = true ↔
    (selection.only = [] ∨ ∃ o ∈ selection.only, AtOrBelow o p ∨ AtOrBelow p o) ∧
      ∀ e ∈ selection.except, ¬ AtOrBelow e p :=
  matchPathIncluded_iff

/-- On a partial reload a prop with a resolver ships what the eager prop with its value does, in any
    page, and nothing the request excludes or does not ask for is shipped of a value but through
    `always`, exactly when the request does not ask for the key or asks for all that is inside. -/
theorem reload_same_iff (request : InertiaRequest) (component : Str) (selection : PartialSelection)
    (hselects : request.partialFor component = some selection) (key : Str) (v : Json) :
    ((∀ page shared page' shared', Swapped (ε := ε) key v page shared page' shared' → ∀ nowMs,
      ∃ enough, ∀ fuel, enough ≤ fuel →
        shippedProps (resolve fuel page shared request component nowMs) =
          shippedProps (resolve fuel page' shared' request component nowMs)) ↔
      Unfiltered selection key v) ∧
    ((∀ entry, Carries (ε := ε) key v entry → ∀ nowMs w p,
      entry.settle request (.of request component nowMs) = .sent w → p = key ∨ Below key w p →
        (selection.only = [] ∨ ∃ o ∈ selection.only, AtOrBelow o p ∨ AtOrBelow p o) ∧
          ∀ e ∈ selection.except, ¬ AtOrBelow e p) ↔
      Unfiltered selection key v) := by
  refine ⟨⟨unfiltered_of_shippedProps hselects, fun hvalue page shared page' shared' h nowMs =>
    shippedProps_of_unfiltered hselects hvalue h nowMs⟩, ?_⟩
  simp only [← included_iff]
  constructor
  · intro hshipped hin p hp
    have hcarries : Carries key v (.page key { base := .lazy (.ok v) } : Entry (ResolverOutcome ε)) :=
      .page (Or.inr (lazy_gives v))
    exact hshipped _ hcarries 0 v p (settle_lazy hselects hin 0) (Or.inr hp)
  · intro hvalue entry hcarries nowMs w p hsent hp
    obtain ⟨hfull, hselection⟩ := context_of_partial hselects nowMs
    rcases @Carries.settle ε request _ key v entry hcarries hfull with hnone | ⟨hin, hsettle⟩
    · simp [hnone] at hsent
    · rw [ResolveContext.included, hselection] at hin
      rw [hselection, (filterNestedValue_eq_self_iff _ _ _).mpr (hvalue hin), or_self, hsent] at hsettle
      obtain rfl : w = v := by simpa using hsettle
      rcases hp with rfl | hp
      · exact hin
      · exact hvalue hin p hp

end reload

/-! ### A field the request excludes -/

/-- A reload of `posts` without the token of the user. -/
def withoutToken : InertiaRequest where
  partialComponent := some "posts".toList
  only := []
  except := ["user.token".toList]
  reset := []
  errorBag := none
  exceptOnce := []
  mergeIntent := none

/-- A user with a name and a token. -/
def userValue : Json :=
  .object ((Map.empty.insert "name".toList (.string "ada".toList)).insert "token".toList .null)

/-- Whether a path is shipped. -/
def ships {ε : Type} (answer : Option (Except (InertiaError ε) Resolved)) (path : List Str) : Bool :=
  match answer with
  | some (.ok resolved) => ((Json.object resolved.props).follow path).isSome
  | _ => false

/-- A value without members is shipped alike. -/
theorem reload_same_name :
    withoutToken.partialFor "posts".toList = some ⟨[], ["user.token".toList], []⟩ ∧
    ∃ enough, ∀ fuel, enough ≤ fuel →
      shippedProps (resolve (ε := Str) fuel
        [("user.name".toList, { base := .eager (.string "ada".toList) })] [] withoutToken
        "posts".toList 0) =
      shippedProps (resolve fuel
        [("user.name".toList, { base := .lazy ⟨3, .ok (.string "ada".toList)⟩ })] [] withoutToken
        "posts".toList 0) := by
  have hselects : withoutToken.partialFor "posts".toList = some ⟨[], ["user.token".toList], []⟩ := rfl
  have hbase : Resolves (ComesTo (.string "ada".toList))
      (.lazy ⟨3, .ok (.string "ada".toList)⟩ : BaseProp (Future (ResolverOutcome Str))) := by
    apply Resolves.lazy
    rfl
  refine ⟨hselects, (reload_same_iff withoutToken _ _ hselects _ _).1.mpr ?_ _ _ _ _
    (@Swapped.page Str _ _ [] [] [] { base := .eager (.string "ada".toList) } _ hbase) 0⟩
  intro _ p hp
  exact absurd hp (not_below_leaf (by simp))

/-- The token is left out of the eager value and shipped with the lazy one. -/
theorem lazy_ships_excluded :
    ships (resolve (ε := Str) 1 [("user".toList, { base := .eager userValue })] [] withoutToken
      "posts".toList 0) ["user".toList, "token".toList] = false ∧
    ships (resolve (ε := Str) 1 [("user".toList, { base := .lazy ⟨0, .ok userValue⟩ })] [] withoutToken
      "posts".toList 0) ["user".toList, "token".toList] = true := by
  constructor
  · decide +kernel
  · decide +kernel

end Arcature.Inertia
