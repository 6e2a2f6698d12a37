import Arcature.Inertia.Sequential

/-! Which once props a response announces.

    A once prop is sent once and kept by the client, which names the keys it holds with every request. The
    response answers with an entry for every once prop in play: one that is sent now, or one that is
    withheld because the client holds it.

        once settings   full visit                              value and entry
        once settings   full visit, the client holds it         entry
        once settings   partial reload of users                 neither
        once settings   partial reload of users, it is held     entry, although it was not asked for

    What is withheld is decided before what is selected, so the last line announces a prop that the reload
    did not ask for. And the entries are kept by their once key: a later prop with the key of an earlier one
    takes its entry. Outside these two cases an entry is there exactly for what is in play
    (`announced_iff`). -/

namespace Arcature.Inertia
open Arcature.Lib

/-! ### Entries in play -/

section entry

variable {ρ ε : Type} (request : InertiaRequest) (context : ResolveContext)

namespace Entry

/-- The prop of an entry, if it is one like those of a page. -/
def prop? : Entry ρ → Option (PageProp ρ)
  | .shared _ (.page prop) | .page _ prop => some prop
  | .shared _ (.optional _) => none

/-- The once label of an entry. -/
def once? (entry : Entry ρ) : Option OnceProp := entry.prop?.bind PageProp.once

/-- The key under which the client keeps its value. -/
def onceKey? (entry : Entry ρ) : Option Str := entry.once?.map fun spec => spec.resolvedKey entry.key

/-- The client holds the value. -/
def Withheld (entry : Entry ρ) : Prop := ∃ held, entry.onceKey? = some held ∧ request.holdsOnce held = true

/-- The request asked for the entry; what is always sent is asked for by every request. -/
def Selected (entry : Entry ρ) : Prop :=
  context.included entry.key = true ∨ ∃ prop value, entry.prop? = some prop ∧ prop.base = .always value

/-- The value is sent. -/
def Sent (entry : Entry (ResolverOutcome ε)) : Prop := ∃ value, entry.settle request context = .sent value

/-- Sent now, or withheld because it was sent before. -/
def InPlay (entry : Entry (ResolverOutcome ε)) : Prop := entry.Sent request context ∨ entry.Withheld request

/-- In play with a once key. -/
def Announces (entry : Entry (ResolverOutcome ε)) (onceKey : Str) : Prop :=
  entry.onceKey? = some onceKey ∧ entry.InPlay request context

end Entry

/-- Whether an entry came to a value. -/
def Settled.isSent : Settled ε → Bool
  | .sent _ => true
  | _ => false

/-- The entry of `onceProps` that an entry makes, under its once key. -/
def announcement (entry : Entry (ResolverOutcome ε)) : Option (Str × OncePropEntry) :=
  match entry.once? with
  | some spec =>
    if (entry.settle request context).isSent || (entry.onceKey?.any request.holdsOnce) then
      some (spec.resolvedKey entry.key, ⟨entry.key, spec.expiresAt context.nowMs⟩)
    else none
  | none => none

variable {request} {context} {entry : Entry (ResolverOutcome ε)}

theorem isSent_iff : (entry.settle request context).isSent = true ↔ entry.Sent request context := by
  rw [Entry.Sent]
  cases entry.settle request context <;> simp [Settled.isSent]

theorem Entry.withheld_iff : entry.onceKey?.any request.holdsOnce = true ↔ entry.Withheld request := by
  rw [Entry.Withheld]
  cases entry.onceKey? <;> simp

theorem announcement_eq_some {onceKey : Str} {made : OncePropEntry} :
    announcement request context entry = some (onceKey, made) →
      entry.Announces request context onceKey ∧ made.prop = entry.key := by
  intro h
  rw [announcement] at h
  cases honce : entry.once? with
  | none => simp [honce] at h
  | some spec =>
    rw [honce] at h
    dsimp only at h
    split_ifs at h with hplay
    obtain ⟨rfl, rfl⟩ := Prod.mk.inj (Option.some.inj h)
    rw [Bool.or_eq_true, isSent_iff, Entry.withheld_iff] at hplay
    exact ⟨⟨by rw [Entry.onceKey?, honce, Option.map_some], hplay⟩, rfl⟩

theorem exists_announcement {onceKey : Str} (h : entry.Announces request context onceKey) :
    ∃ made, announcement request context entry = some (onceKey, made) := by
  obtain ⟨hkey, hplay⟩ := h
  obtain ⟨spec, honce, rfl⟩ := Option.map_eq_some_iff.mp hkey
  refine ⟨⟨entry.key, spec.expiresAt context.nowMs⟩, ?_⟩
  rw [Entry.InPlay, ← isSent_iff, ← Entry.withheld_iff, ← Bool.or_eq_true] at hplay
  rw [announcement, honce]
  dsimp only
  rw [if_pos hplay]

/-- What a partial reload did not ask for is not sent. -/
theorem selected_of_sent (hfull : context.isFull = true → context.selection = none)
    (h : entry.Sent request context) : entry.Selected context := by
  have hincluded : (context.isFull || context.included entry.key) = true → context.included entry.key = true := by
    intro h
    rcases Bool.or_eq_true_iff.mp h with h | h
    · rw [ResolveContext.included, hfull h]
      rfl
    · exact h
  have hpage : ∀ {prop : PageProp (ResolverOutcome ε)} {value : Json}, entry.prop? = some prop →
      (if prop.withheld entry.key request then .nothing else prop.settle entry.key context) = .sent value →
        entry.Selected context := by
    intro prop value hprop h
    split_ifs at h
    obtain ⟨base⟩ := prop
    cases base with
    | eager v =>
      simp only [PageProp.settle] at h
      split_ifs at h with hin
      exact .inl (hincluded hin)
    | always v => exact .inr ⟨_, v, hprop, rfl⟩
    | lazy outcome =>
      simp only [PageProp.settle] at h
      split_ifs at h with hin
      exact .inl (hincluded hin)
    | optional outcome =>
      simp only [PageProp.settle] at h
      split_ifs at h with hin
      exact .inl (Bool.and_eq_true_iff.mp hin).2
    | deferred outcome group =>
      simp only [PageProp.settle] at h
      split_ifs at h with _ hin
      exact .inl hin
  obtain ⟨value, h⟩ := h
  cases entry with
  | page key prop => exact hpage rfl h
  | shared key shared =>
    cases shared with
    | page prop => exact hpage rfl h
    | optional resolver =>
      rw [Entry.settle] at h
      split_ifs at h with hout
      rw [Bool.or_eq_true, not_or, Bool.not_eq_true', Bool.not_eq_false] at hout
      exact .inl hout.2

/-! ### What one entry records -/

theorem onceProps_recordMerge (metadata : PageMetadata) (strategy : MergeStrategy) (path : Str) :
    (metadata.recordMerge strategy path).onceProps = metadata.onceProps := by
  cases strategy <;> rfl

theorem onceProps_recordLabels (key : Str) (prop : PageProp (ResolverOutcome ε)) (metadata : PageMetadata) :
    (recordLabels key prop context metadata).onceProps = metadata.onceProps := by
  rw [recordLabels]
  dsimp only
  cases prop.scroll <;> split_ifs
  · rfl
  · cases prop.matchOn <;> cases prop.strategyFor context.intent
    all_goals first | rfl | exact onceProps_recordMerge _ _ _
  · rfl
  · cases prop.matchOn <;> cases prop.strategyFor context.intent
    all_goals first | rfl | exact onceProps_recordMerge _ _ _

/-- Of what is recorded of an entry, the once entry goes to `onceProps`, and nothing else. -/
theorem onceProps_recordEntry (included : Bool) (metadata : PageMetadata) :
    (recordEntry (entry.labels (ε := ε) request .nothing) included context metadata).onceProps =
      match entry.once? with
      | some spec =>
        if included || (entry.onceKey?.any request.holdsOnce) then
          metadata.onceProps.insert (spec.resolvedKey entry.key) ⟨entry.key, spec.expiresAt context.nowMs⟩
        else metadata.onceProps
      | none => metadata.onceProps := by
  have hlabels : ∀ planned : Planned (ResolverOutcome ε) ε,
      (recordEntry planned included context metadata).onceProps =
        (recordInPlay planned included context metadata).onceProps := by
    intro planned
    rw [recordEntry]
    dsimp only
    split_ifs
    · cases planned.prop with
      | none => rfl
      | some prop => exact onceProps_recordLabels _ _ _
    · cases planned.prop with
      | none => rfl
      | some prop => exact onceProps_recordLabels _ _ _
    · rfl
  have hpage : ∀ (key : Str) (prop : PageProp (ResolverOutcome ε)) (shared : Bool),
      (recordInPlay (⟨key, some prop, shared, prop.once.map fun spec => spec.resolvedKey key,
          prop.withheld key request, .nothing⟩ : Planned (ResolverOutcome ε) ε) included context metadata).onceProps =
        match prop.once with
        | some spec =>
          if included || prop.withheld key request then
            metadata.onceProps.insert (spec.resolvedKey key) ⟨key, spec.expiresAt context.nowMs⟩
          else metadata.onceProps
        | none => metadata.onceProps := by
    intro key prop shared
    rw [recordInPlay, Option.bind_some]
    cases prop.once with
    | none => rfl
    | some spec =>
      dsimp only [Option.map_some]
      split_ifs <;> rfl
  rw [hlabels]
  match entry with
  | .shared key (.page prop) => exact hpage key prop true
  | .page key prop => exact hpage key prop false
  | .shared key (.optional resolver) => rfl

/-- An entry in its turn puts its announcement in. -/
theorem onceProps_inTurn {state state' : Map Str Json × PageMetadata}
    (h : inTurn request context state entry = .ok state') :
    state'.2.onceProps = state.2.onceProps.insertSome (announcement request context entry) := by
  have hrecord : ∀ metadata : PageMetadata,
      (recordEntry (entry.labels (ε := ε) request .nothing) (entry.settle request context).isSent context
        metadata).onceProps = metadata.onceProps.insertSome (announcement request context entry) := by
    intro metadata
    rw [onceProps_recordEntry, announcement]
    cases entry.once? with
    | none => rfl
    | some spec =>
      dsimp only
      split_ifs <;> rfl
  obtain ⟨props, metadata⟩ := state
  rw [inTurn] at h
  cases hsettle : entry.settle request context with
  | failed error => simp [hsettle] at h
  | nothing | sent value =>
    simp only [hsettle, Except.ok.injEq] at h
    rw [← h, ← hrecord metadata, hsettle]
    rfl
  | announced group =>
    simp only [hsettle, Except.ok.injEq] at h
    rw [← h]
    refine Eq.trans ?_ (hrecord (metadata.recordDeferred group entry.key))
    rw [hsettle]
    rfl
  | rescued =>
    simp only [hsettle, Except.ok.injEq] at h
    rw [← h]
    refine Eq.trans ?_ (hrecord (metadata.recordRescued entry.key))
    rw [hsettle]
    rfl

/-- `onceProps` after all entries have had their turn. -/
theorem onceProps_foldlM {entries : List (Entry (ResolverOutcome ε))} {state state' : Map Str Json × PageMetadata}
    (h : entries.foldlM (inTurn request context) state = .ok state') :
    state'.2.onceProps = entries.foldl
      (fun onceProps entry => onceProps.insertSome (announcement request context entry)) state.2.onceProps := by
  induction entries generalizing state with
  | nil => rw [← Except.ok.inj h, List.foldl_nil]
  | cons entry entries ih =>
    rw [List.foldlM_cons] at h
    cases hturn : inTurn request context state entry with
    | error e =>
      rw [hturn] at h
      cases h
    | ok next =>
      rw [hturn] at h
      rw [ih h, List.foldl_cons, onceProps_inTurn hturn]

end entry

/-! ### What the response names -/

section response

variable {ε : Type} (request : InertiaRequest) (context : ResolveContext)

/-- `onceProps` names the key of a prop. -/
def PageMetadata.Names (metadata : PageMetadata) (key : Str) : Prop :=
  ∃ onceKey made, metadata.onceProps.get? onceKey = some made ∧ made.prop = key

/-- An entry in play whose once key no later one in play has. -/
def Stays (entries : List (Entry (ResolverOutcome ε))) (entry : Entry (ResolverOutcome ε)) : Prop :=
  ∃ before after onceKey, entries = before ++ entry :: after ∧ entry.Announces request context onceKey ∧
    ∀ later ∈ after, ¬ later.Announces request context onceKey

/-- A once prop of this key was asked for and is in play. -/
def PlaysSelected (entries : List (Entry (ResolverOutcome ε))) (key : Str) : Prop :=
  ∃ entry ∈ entries, entry.key = key ∧ entry.onceKey?.isSome = true ∧ entry.Selected context ∧
    entry.InPlay request context

/-- When the entries announce what they should. -/
structure Clear (entries : List (Entry (ResolverOutcome ε))) : Prop where
  /-- A held prop that was not asked for has its once key from a later prop in play, or its key from one that
      was asked for. -/
  unasked : ∀ entry ∈ entries, entry.Withheld request → ¬ entry.Selected context →
    Stays request context entries entry → PlaysSelected request context entries entry.key
  /-- A prop that was asked for and is in play keeps an entry when later ones with its once key are recorded. -/
  kept : ∀ key, PlaysSelected request context entries key →
    ∃ entry ∈ entries, entry.key = key ∧ Stays request context entries entry

variable {request} {context} {entries : List (Entry (ResolverOutcome ε))}

theorem names_iff_stays {state' : Map Str Json × PageMetadata} {key : Str}
    (h : entries.foldlM (inTurn request context) (.empty, {}) = .ok state') :
    state'.2.Names key ↔ ∃ entry ∈ entries, entry.key = key ∧ Stays request context entries entry := by
  rw [PageMetadata.Names, onceProps_foldlM h]
  simp only [Map.get?_foldl_insertSome]
  constructor
  · rintro ⟨onceKey, made, ⟨before, entry, after, hentries, hmade, hafter⟩, hkey⟩
    obtain ⟨hannounces, hprop⟩ := announcement_eq_some hmade
    refine ⟨entry, ?_, hprop.symm.trans hkey, before, after, onceKey, hentries, hannounces, fun later hlater h => ?_⟩
    · rw [hentries]
      exact List.mem_append_right _ List.mem_cons_self
    · obtain ⟨made', hmade'⟩ := exists_announcement h
      exact hafter later hlater made' hmade'
  · rintro ⟨entry, -, hkey, before, after, onceKey, hentries, hannounces, hafter⟩
    obtain ⟨made, hmade⟩ := exists_announcement hannounces
    refine ⟨onceKey, made, ⟨before, entry, after, hentries, hmade, fun later hlater made' hmade' => ?_⟩,
      (announcement_eq_some hmade).2.trans hkey⟩
    exact hafter later hlater (announcement_eq_some hmade').1

/-- An entry for exactly the props in play that the request asked for, and no value of any other, exactly if
    the entries are clear. -/
theorem names_iff_clear {state' : Map Str Json × PageMetadata}
    (hfull : context.isFull = true → context.selection = none)
    (h : entries.foldlM (inTurn request context) (.empty, {}) = .ok state') :
    ((∀ key, state'.2.Names key ↔ PlaysSelected request context entries key) ∧
      ∀ entry ∈ entries, ¬ entry.Selected context → ¬ entry.Sent request context) ↔
        Clear request context entries := by
  constructor
  · rintro ⟨hnames, -⟩
    refine ⟨fun entry hentry _ _ hstays => ?_, fun key hkey => ?_⟩
    · exact (hnames entry.key).mp ((names_iff_stays h).mpr ⟨entry, hentry, rfl, hstays⟩)
    · exact (names_iff_stays h).mp ((hnames key).mpr hkey)
  · intro hclear
    refine ⟨fun key => ⟨fun hnames => ?_, fun hkey => ?_⟩, fun entry _ hunasked hsent => ?_⟩
    · obtain ⟨entry, hentry, rfl, hstays⟩ := (names_iff_stays h).mp hnames
      obtain ⟨-, -, onceKey, -, ⟨hkey, hplay⟩, -⟩ := id hstays
      by_cases hselected : entry.Selected context
      · exact ⟨entry, hentry, rfl, by rw [hkey]; rfl, hselected, hplay⟩
      · -- it was not sent, for what is sent was asked for
        have hwithheld : entry.Withheld request :=
          hplay.resolve_left fun hsent => hselected (selected_of_sent hfull hsent)
        exact hclear.unasked entry hentry hwithheld hselected hstays
    · exact (names_iff_stays h).mpr (hclear.kept key hkey)
    · exact hunasked (selected_of_sent hfull hsent)

end response

/-- Whatever the request: once the resolvers have answered, a successful response announces exactly the once
    props in play that the request asked for, and sends no value of a prop it did not ask for, exactly if no
    held prop is announced without having been asked for and none loses its entry to a later one. -/
theorem announced_iff {ε : Type} (page : Props (Future (ResolverOutcome ε)))
    (shared : SharedProps (Future (ResolverOutcome ε))) (request : InertiaRequest) (component : Str) (nowMs : ℕ) :
    ∃ enough, ∀ fuel, enough ≤ fuel → ∃ answer, resolve fuel page shared request component nowMs = some answer ∧
      ∀ resolved, answer = .ok resolved →
        let context := ResolveContext.of request component nowMs
        let entries := (entriesOf page shared).map (Entry.map Future.outcome)
        ((∀ key, resolved.metadata.Names key ↔ PlaysSelected request context entries key) ∧
          ∀ entry ∈ entries, ¬ entry.Selected context → ¬ entry.Sent request context) ↔
            Clear request context entries := by
  obtain ⟨enough, hrun⟩ := resolve_eq_sequential page shared request component nowMs
  refine ⟨enough, fun fuel hfuel => ⟨_, (hrun fuel hfuel).1, fun resolved hresolved => ?_⟩⟩
  rw [sequential, entriesOf_map] at hresolved
  have hfull : (ResolveContext.of request component nowMs).isFull = true →
      (ResolveContext.of request component nowMs).selection = none := Option.isNone_iff_eq_none.mp
  cases hfold : ((entriesOf page shared).map (Entry.map Future.outcome)).foldlM
      (inTurn request (.of request component nowMs)) (.empty, {}) with
  | error e =>
    rw [hfold] at hresolved
    cases hresolved
  | ok state =>
    rw [hfold] at hresolved
    obtain rfl := Except.ok.inj hresolved
    exact names_iff_clear hfull hfold

/-- A partial reload of `users` by a client that holds `settings`. -/
def usersOnly : InertiaRequest where
  partialComponent := some "home".toList
  only := ["users".toList]
  except := []
  reset := []
  errorBag := none
  exceptOnce := ["settings".toList]
  mergeIntent := none

/-- A page with one once prop. -/
def settingsOnce : Props (Future (ResolverOutcome Str)) :=
  [("settings".toList, { base := .eager .null, once := some ⟨none, none⟩ })]

/-- The prop that was not asked for is announced. -/
theorem settings_announced : ∃ resolved, resolve 1 settingsOnce [] usersOnly "home".toList 0 = some (.ok resolved) ∧
    resolved.metadata.Names "settings".toList ∧
    ∀ entry ∈ (entriesOf settingsOnce []).map (Entry.map Future.outcome),
      ¬ entry.Selected (ResolveContext.of usersOnly "home".toList 0) := by
  refine ⟨_, rfl, ⟨"settings".toList, ⟨"settings".toList, none⟩, by decide, rfl⟩, fun entry hentry => ?_⟩
  obtain rfl := List.mem_singleton.mp hentry
  rintro (hin | ⟨prop, value, hprop, hbase⟩)
  · exact absurd hin (by decide)
  · obtain rfl := Option.some.inj hprop
    cases hbase

end Arcature.Inertia
