import Arcature.Uag.RoutesTs
import Arcature.Uag.Schema
import Arcature.Uag.TypeMap

/-! The two TypeScript tables of an artifact (`uag/codegen/routes_ts.rs`, `uag/codegen/forms_ts.rs`).

    Both are keyed by the names of routes, and both keep one route of each name. `routes.ts` keeps the
    least by method and path, `forms.ts` the first that has an action:

        GET   /links   links                     routes.ts   links  GET  /links
        POST  /links   links   action NewLink    forms.ts    links  NewLink

    So a form is sent to another route than the one that reads it, unless the first action of a name
    is also the least of its name (`sameRoute_iff`). -/

namespace Arcature.Uag
open Arcature.Lib

/-- Lines, each with its line break. -/
def unlines (lines : List String) : Str := lines.flatMap fun line => line.toList ++ ['\n']

/-- `GENERATED_HEADER`. -/
def generatedHeader : Str := unlines
  ["// Generated by `arc typegen` from the Arcature application graph.",
    "// Do not edit -- this file is overwritten on the next run."]

/-- What stands for a character in a TypeScript string. -/
def tsChar (c : Char) : Str :=
  if c = '\x22' then "\\\"".toList
  else if c = '\\' then "\\\\".toList
  else if c = '\n' then "\\n".toList
  else if c = '\r' then "\\r".toList
  else if c = '\t' then "\\t".toList
  else if c.toNat < 0x20 then "\\u00".toList ++ [Nat.digitChar (c.toNat / 16), Nat.digitChar (c.toNat % 16)]
  else [c]

/-- `ts_string`. -/
def tsString (value : Str) : Str := "\"".toList ++ value.flatMap tsChar ++ "\"".toList

/-- The order of the entries: name, method, path and parameters. -/
def entryKey (e : Str × TsRoute) : Str ×ₗ Str ×ₗ Str ×ₗ List Str :=
  toLex (e.1, toLex (e.2.method, toLex (e.2.path, e.2.params)))

/-- The named routes. -/
def unsortedEntries (routes : List UagRoute) : List (Str × TsRoute) :=
  (routes.filter (·.name ≠ [])).map fun r => (r.name, ⟨r.method, r.path, r.params⟩)

/-- The entries of `routes`: one of each name. -/
def routeEntries (routes : List UagRoute) : List (Str × TsRoute) :=
  dedupByKey Prod.fst (sortByKey entryKey (unsortedEntries routes))

/-- The first of each name, in the order of the names. -/
def firstOfNames {α : Type} (l : List (Str × α)) : List (Str × α) :=
  dedupByKey Prod.fst (sortByKey Prod.fst l)

/-- The actions of `forms`: one of each name. -/
def formActions (routes : List UagRoute) : List (Str × UagPayload) :=
  firstOfNames ((routes.filter (·.name ≠ [])).filterMap fun r => r.action.map fun a => (r.name, a))

/-- The actions of `forms`, each with the route it is the action of. -/
def formSources (routes : List UagRoute) : List (Str × UagRoute × UagPayload) :=
  firstOfNames ((routes.filter (·.name ≠ [])).filterMap fun r => r.action.map fun a => (r.name, r, a))

/-- Carrying the route along changes nothing. -/
theorem formActions_eq_map (routes : List UagRoute) :
    formActions routes = (formSources routes).map fun s => (s.1, s.2.2) := by
  have hactions : (routes.filter (·.name ≠ [])).filterMap (fun r => r.action.map fun a => (r.name, a)) =
      ((routes.filter (·.name ≠ [])).filterMap fun r => r.action.map fun a => (r.name, r, a)).map
        fun s => (s.1, s.2.2) := by
    rw [List.map_filterMap]
    simp only [Option.map_map, Function.comp_def]
  rw [formActions, firstOfNames, hactions, sortByKey_map, dedupByKey_map]
  rfl

/-! ### One name, one route -/

/-- A name that is in both files has in `routes.ts` the method and the path of the route whose action
    `forms.ts` lists. -/
def SameRoute (artifact : UagArtifact) : Prop :=
  ∀ name entry r a, (name, entry) ∈ routeEntries artifact.routes →
    (name, r, a) ∈ formSources artifact.routes → entry.method = r.method ∧ entry.path = r.path

theorem mem_formSources_iff {routes : List UagRoute} {name : Str} {r : UagRoute} {a : UagPayload} :
    (name, r, a) ∈ formSources routes ↔
      name ≠ [] ∧ routes.find? (fun r => r.name = name ∧ r.action.isSome) = some r ∧ r.action = some a := by
  rw [formSources, firstOfNames, mem_dedupByKey_iff (pairwise_sortByKey _ _), find?_sortByKey,
    List.find?_filterMap, List.find?_filter, Option.bind_eq_some_iff]
  have hfound : ∀ r : UagRoute, (decide (r.name ≠ []) = true ∧
      (r.action.map fun a => (r.name, r, a)).any (fun s => decide (s.1 = name)) = true) ↔
      name ≠ [] ∧ r.name = name ∧ r.action.isSome := by
    intro r
    cases haction : r.action with
    | none => simp
    | some a =>
      by_cases hname : r.name = name
      · simp [hname]
      · simp [hname]
  simp_rw [hfound]
  constructor
  · rintro ⟨r', hfind, haction⟩
    obtain ⟨a', haction', hs⟩ := Option.map_eq_some_iff.mp haction
    obtain ⟨-, rfl, rfl⟩ : r'.name = name ∧ r' = r ∧ a' = a := by simpa using hs
    have hname := (by simpa using List.find?_some hfind : name ≠ [] ∧ _).1
    refine ⟨hname, ?_, haction'⟩
    simpa [hname] using hfind
  · rintro ⟨hname, hfind, haction⟩
    have hr : r.name = name := (by simpa using List.find?_some hfind : r.name = name ∧ _).1
    refine ⟨r, ?_, ?_⟩
    · simpa [hname] using hfind
    · rw [haction, Option.map_some, hr]

theorem mem_unsortedEntries_iff {routes : List UagRoute} {e : Str × TsRoute} :
    e ∈ unsortedEntries routes ↔
      ∃ r ∈ routes, r.name ≠ [] ∧ e = (r.name, ⟨r.method, r.path, r.params⟩) := by
  rw [unsortedEntries, List.mem_map]
  constructor
  · rintro ⟨r, hr, rfl⟩
    obtain ⟨hmem, hname⟩ := List.mem_filter.mp hr
    exact ⟨r, hmem, by simpa using hname, rfl⟩
  · rintro ⟨r, hmem, hname, rfl⟩
    exact ⟨r, List.mem_filter.mpr ⟨hmem, by simpa using hname⟩, rfl⟩

theorem fst_le_of_entryKey_le {e e' : Str × TsRoute} (h : entryKey e ≤ entryKey e') : e.1 ≤ e'.1 := by
  rcases Prod.Lex.toLex_le_toLex.mp h with h | ⟨h, -⟩
  · exact h.le
  · exact h.le

theorem method_path_le_of_entryKey_le {name : Str} {e e' : TsRoute}
    (h : entryKey (name, e) ≤ entryKey (name, e')) : toLex (e.method, e.path) ≤ toLex (e'.method, e'.path) := by
  rcases Prod.Lex.toLex_le_toLex.mp h with h | ⟨-, h⟩
  · exact absurd h (lt_irrefl _)
  · rcases Prod.Lex.toLex_le_toLex.mp h with h | ⟨hmethod, h⟩
    · exact Prod.Lex.toLex_le_toLex.mpr (.inl h)
    · refine Prod.Lex.toLex_le_toLex.mpr (.inr ⟨hmethod, ?_⟩)
      rcases Prod.Lex.toLex_le_toLex.mp h with h | ⟨h, -⟩
      · exact h.le
      · exact h.le

theorem mem_routeEntries_iff {routes : List UagRoute} {e : Str × TsRoute} :
    e ∈ routeEntries routes ↔
      (sortByKey entryKey (unsortedEntries routes)).find? (·.1 = e.1) = some e :=
  mem_dedupByKey_iff ((pairwise_sortByKey entryKey _).imp fun h => fst_le_of_entryKey_le h)

/-- The entry of a name is the one of a route of that name. -/
theorem exists_route_of_mem_routeEntries {routes : List UagRoute} {name : Str} {entry : TsRoute}
    (hentry : (name, entry) ∈ routeEntries routes) :
    ∃ r ∈ routes, r.name = name ∧ r.method = entry.method ∧ r.path = entry.path := by
  have hmem := List.mem_of_find?_eq_some (mem_routeEntries_iff.mp hentry)
  rw [(perm_sortByKey entryKey _).mem_iff, mem_unsortedEntries_iff] at hmem
  obtain ⟨r, hr, -, he⟩ := hmem
  obtain ⟨rfl, rfl⟩ := Prod.mk.inj he
  exact ⟨r, hr, rfl, rfl, rfl⟩

theorem mem_sortedEntries {routes : List UagRoute} {r : UagRoute} (hr : r ∈ routes) (hname : r.name ≠ []) :
    (r.name, ⟨r.method, r.path, r.params⟩) ∈ sortByKey entryKey (unsortedEntries routes) := by
  rw [(perm_sortByKey entryKey _).mem_iff, mem_unsortedEntries_iff]
  exact ⟨r, hr, hname, rfl⟩

/-- It is the least of them. -/
theorem le_of_mem_routeEntries {routes : List UagRoute} {entry : TsRoute} {r : UagRoute}
    (hentry : (r.name, entry) ∈ routeEntries routes) (hr : r ∈ routes) (hname : r.name ≠ []) :
    toLex (entry.method, entry.path) ≤ toLex (r.method, r.path) := by
  have hown := mem_sortedEntries hr hname
  have hle := le_of_find?_eq_some (pairwise_sortByKey entryKey _) (mem_routeEntries_iff.mp hentry) hown (by simp)
  exact method_path_le_of_entryKey_le hle

/-- Every name has an entry. -/
theorem exists_mem_routeEntries {routes : List UagRoute} {r : UagRoute} (hr : r ∈ routes) (hname : r.name ≠ []) :
    ∃ entry, (r.name, entry) ∈ routeEntries routes := by
  have hown := mem_sortedEntries hr hname
  have hsome : ((sortByKey entryKey (unsortedEntries routes)).find? (·.1 = r.name)).isSome := by
    rw [List.find?_isSome]
    exact ⟨_, hown, by simp⟩
  obtain ⟨e, he⟩ := Option.isSome_iff_exists.mp hsome
  have hfst : e.1 = r.name := by simpa using List.find?_some he
  refine ⟨e.2, mem_routeEntries_iff.mpr ?_⟩
  rw [he, ← hfst]

/-- The two files are about the same routes exactly if the first action of every name has no route of
    that name before it in the order of methods and paths. -/
theorem sameRoute_iff (artifact : UagArtifact) :
    SameRoute artifact ↔
      ∀ name r, name ≠ [] → artifact.routes.find? (fun r => r.name = name ∧ r.action.isSome) = some r →
        ∀ r' ∈ artifact.routes, r'.name = name → toLex (r.method, r.path) ≤ toLex (r'.method, r'.path) := by
  constructor
  · rintro h name r hname hfirst r' hr' rfl
    have hsome : r.action.isSome := (by simpa using List.find?_some hfirst : _ ∧ r.action.isSome).2
    obtain ⟨a, ha⟩ := Option.isSome_iff_exists.mp hsome
    obtain ⟨entry, hentry⟩ := exists_mem_routeEntries hr' hname
    obtain ⟨hmethod, hpath⟩ := h _ entry r a hentry (mem_formSources_iff.mpr ⟨hname, hfirst, ha⟩)
    rw [← hmethod, ← hpath]
    exact le_of_mem_routeEntries hentry hr' hname
  · intro h name entry r a hentry hsource
    obtain ⟨hname, hfirst, -⟩ := mem_formSources_iff.mp hsource
    obtain ⟨r', hr', hname', hmethod, hpath⟩ := exists_route_of_mem_routeEntries hentry
    have hr : r.name = name := (by simpa using List.find?_some hfirst : r.name = name ∧ _).1
    subst hr
    have hle := le_of_mem_routeEntries hentry (List.mem_of_find?_eq_some hfirst) hname
    have hge := h _ r hname hfirst r' hr' hname'
    rw [hmethod, hpath] at hge
    exact Prod.mk.inj (toLex.injective (le_antisymm hle hge))

/-- A page and a form of one name. -/
def linksRoute (method : Str) (action : Option UagPayload) : UagRoute :=
  { module := "Links".toList, method, path := "/links".toList, name := "links".toList,
    handler := "LinksController::index".toList, params := [], pages := ∅, action, query := none,
    queryString := none, policies := ∅ }

/-- The form of `POST /links` is listed under the name of `GET /links`. -/
theorem form_of_another_route :
    ¬ SameRoute (.new .empty
      [linksRoute "GET".toList none, linksRoute "POST".toList (some ⟨"NewLink".toList, []⟩)] .empty) := by
  intro h
  have hentry := h "links".toList ⟨"GET".toList, "/links".toList, []⟩
    (linksRoute "POST".toList (some ⟨"NewLink".toList, []⟩)) ⟨"NewLink".toList, []⟩
  exact absurd (hentry (by decide +kernel) (by decide +kernel)).1 (by decide)

end Arcature.Uag
