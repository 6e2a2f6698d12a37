import Arcature.Uag.RoutesTs
import Arcature.Uag.Validate

/-! Which conflicts of routes are reported.

    Routes are grouped by their method and the text of their path (`duplicate_routes` in
    `uag/validate.rs`). A router does not compare texts, but what its patterns match:

        GET /users/{id}       a group of one
        GET /users/{slug}     a group of one, and the same URLs

    Of the routes that have one path as a text, each group is reported, once and with all of its
    handlers. For a router that is all that conflicts exactly if no two routes that conflict are spelled
    differently (`duplicates_reported`). -/

namespace Arcature.Uag
open Arcature.Lib Arcature.Routing

/-! ### Conflicts and their reports -/

/-- What `validate` reports. -/
def diagnostics (artifact : UagArtifact) (pagesDir : Option (Str → Bool)) : List UagDiagnostic :=
  match validate artifact pagesDir with
  | .ok _ => []
  | .error diagnostics => diagnostics

/-- A duplicate route as its method, its path and its handlers. -/
def UagDiagnostic.duplicate? : UagDiagnostic → Option (Str × Str × List Str)
  | .duplicateRoute method path handlers => some (method, path, handlers)
  | _ => none

/-- One method, and one path as a text. -/
def SamePath (r r' : UagRoute) : Prop := r.method = r'.method ∧ r.path = r'.path

/-- One method, and paths that match the same URLs: a router says which URLs a path matches. -/
def Conflict (matched : Str → Set Str) (r r' : UagRoute) : Prop :=
  r.method = r'.method ∧ matched r.path = matched r'.path

open Classical in
/-- The routes of an artifact that conflict with a route, in their order. -/
noncomputable def rivals (conflict : UagRoute → UagRoute → Prop) (artifact : UagArtifact) (r : UagRoute) :
    List UagRoute :=
  artifact.routes.filter (conflict r ·)

/-- The handlers of those routes. -/
noncomputable def handlers (conflict : UagRoute → UagRoute → Prop) (artifact : UagArtifact) (r : UagRoute) :
    List Str :=
  (rivals conflict artifact r).map (·.handler)

/-- Every class of two or more conflicting routes is reported, with all of its handlers, and nothing else is
    reported as a duplicate. -/
structure Reported (conflict : UagRoute → UagRoute → Prop) (artifact : UagArtifact) (found : List UagDiagnostic) :
    Prop where
  complete : ∀ r ∈ artifact.routes, 1 < (rivals conflict artifact r).length → ∃ r' ∈ rivals conflict artifact r,
    .duplicateRoute r'.method r'.path (handlers conflict artifact r) ∈ found
  sound : ∀ d ∈ found.filterMap UagDiagnostic.duplicate?, ∃ r ∈ artifact.routes,
    1 < (rivals conflict artifact r).length ∧ d = (r.method, r.path, handlers conflict artifact r)
  once : ((found.filterMap UagDiagnostic.duplicate?).map fun d => (d.1, d.2.1)).Nodup

/-! ### What is grouped -/

variable {artifact : UagArtifact}

theorem filter_key_eq (r : UagRoute) :
    (artifact.routes.filter fun r' => (toLex (r'.method, r'.path) : Str ×ₗ Str) = toLex (r.method, r.path)) =
      rivals SamePath artifact r := by
  refine List.filter_congr fun r' _ => decide_eq_decide.mpr ?_
  rw [toLex_inj, Prod.mk.injEq]
  exact ⟨fun h => ⟨h.1.symm, h.2.symm⟩, fun h => ⟨h.1.symm, h.2.symm⟩⟩

/-- The groups of two or more are what is reported. -/
theorem mem_duplicateRoutes {d : UagDiagnostic} : d ∈ duplicateRoutes artifact ↔ ∃ r ∈ artifact.routes,
    1 < (rivals SamePath artifact r).length ∧ d = .duplicateRoute r.method r.path (handlers SamePath artifact r) := by
  simp only [duplicateRoutes, List.mem_filterMap, Finset.mem_sort, List.mem_toFinset, List.mem_map,
    Option.ite_none_right_eq_some, Option.some_inj]
  constructor
  · rintro ⟨_, ⟨r, hr, rfl⟩, hlen, rfl⟩
    rw [filter_key_eq, List.length_map] at hlen
    exact ⟨r, hr, hlen, by rw [filter_key_eq]; rfl⟩
  · rintro ⟨r, hr, hlen, rfl⟩
    refine ⟨_, ⟨r, hr, rfl⟩, ?_, ?_⟩
    · rw [filter_key_eq, List.length_map]
      exact hlen
    · rw [filter_key_eq]
      rfl

/-- The reports are of different methods or paths. -/
theorem nodup_duplicateRoutes :
    (((duplicateRoutes artifact).filterMap UagDiagnostic.duplicate?).map fun d => (d.1, d.2.1)).Nodup := by
  rw [duplicateRoutes, List.filterMap_filterMap, List.map_filterMap]
  refine List.Nodup.filterMap ?_ (Finset.sort_nodup _ _)
  -- A report names the key of its group.
  have hkey : ∀ (k : Str ×ₗ Str) (handlers : List Str) (b : Str × Str),
      b ∈ Option.map (fun d : Str × Str × List Str => (d.1, d.2.1))
        ((if 1 < handlers.length then some (UagDiagnostic.duplicateRoute (ofLex k).1 (ofLex k).2 handlers)
          else none).bind UagDiagnostic.duplicate?) → b = ofLex k := by
    intro k handlers b hb
    split_ifs at hb
    · exact (Option.some.inj hb).symm
    · cases hb
  intro k k' b hb hb'
  exact ofLex_inj.mp ((hkey k _ b hb).symm.trans (hkey k' _ b hb'))

/-- The other checks report no duplicates. -/
theorem duplicates_diagnostics (pagesDir : Option (Str → Bool)) :
    (diagnostics artifact pagesDir).filterMap UagDiagnostic.duplicate? =
      (duplicateRoutes artifact).filterMap UagDiagnostic.duplicate? := by
  have hpages : (unregisteredPages artifact).filterMap UagDiagnostic.duplicate? = [] := by
    simp only [unregisteredPages, List.filterMap_eq_nil_iff, List.mem_flatMap, List.mem_map]
    rintro _ ⟨_, -, _, -, rfl⟩
    rfl
  have hcomponents : ((pagesDir.map (missingPageComponents artifact)).getD []).filterMap UagDiagnostic.duplicate? =
      [] := by
    cases pagesDir with
    | none => rfl
    | some isFile =>
      simp only [Option.map_some, Option.getD_some, missingPageComponents, List.filterMap_eq_nil_iff,
        List.mem_filterMap, Option.ite_none_left_eq_some, Option.some_inj]
      rintro _ ⟨_, -, -, rfl⟩
      rfl
  have hpolicies : (undeclaredPolicies artifact).filterMap UagDiagnostic.duplicate? = [] := by
    simp only [undeclaredPolicies, List.filterMap_eq_nil_iff, List.mem_flatMap, List.mem_map]
    rintro _ ⟨_, -, _, -, rfl⟩
    rfl
  have hexports : (undeclaredExports artifact).filterMap UagDiagnostic.duplicate? = [] := by
    simp only [undeclaredExports, List.filterMap_eq_nil_iff, List.mem_flatMap]
    rintro d ⟨name, -, hd⟩
    split at hd
    · cases hd
    · obtain ⟨export_, -, rfl⟩ := List.mem_map.mp hd
      rfl
  have hall : diagnostics artifact pagesDir = duplicateRoutes artifact ++ unregisteredPages artifact ++
      (pagesDir.map (missingPageComponents artifact)).getD [] ++ undeclaredPolicies artifact ++
      undeclaredExports artifact := by
    rw [diagnostics, validate]
    split_ifs with hnil
    · exact hnil.symm
    · rfl
  rw [hall]
  simp only [List.filterMap_append, hpages, hcomponents, hpolicies, hexports, List.append_nil]

theorem mem_diagnostics {pagesDir : Option (Str → Bool)} {d : Str × Str × List Str} :
    d ∈ (diagnostics artifact pagesDir).filterMap UagDiagnostic.duplicate? ↔ ∃ r ∈ artifact.routes,
      1 < (rivals SamePath artifact r).length ∧ d = (r.method, r.path, handlers SamePath artifact r) := by
  rw [duplicates_diagnostics, List.mem_filterMap]
  constructor
  · rintro ⟨_, hmem, hd⟩
    obtain ⟨r, hr, hlen, rfl⟩ := mem_duplicateRoutes.mp hmem
    exact ⟨r, hr, hlen, (Option.some.inj hd).symm⟩
  · rintro ⟨r, hr, hlen, rfl⟩
    exact ⟨_, mem_duplicateRoutes.mpr ⟨r, hr, hlen, rfl⟩, rfl⟩

/-- A report among the findings is one of the duplicates. -/
theorem mem_of_duplicateRoute {found : List UagDiagnostic} {method path : Str} {handlers : List Str} :
    .duplicateRoute method path handlers ∈ found ↔
      (method, path, handlers) ∈ found.filterMap UagDiagnostic.duplicate? := by
  rw [List.mem_filterMap]
  constructor
  · exact fun h => ⟨_, h, rfl⟩
  · rintro ⟨d, hmem, hd⟩
    cases d with
    | duplicateRoute => cases hd; exact hmem
    | _ => cases hd

/-! ### Reported by text, and by what is matched -/

theorem mem_rivals {conflict : UagRoute → UagRoute → Prop} {r r' : UagRoute} :
    r' ∈ rivals conflict artifact r ↔ r' ∈ artifact.routes ∧ conflict r r' := by
  simp only [rivals, List.mem_filter, decide_eq_true_eq]

/-- The groups by text are all reported, and only they. -/
theorem reported_samePath (artifact : UagArtifact) (pagesDir : Option (Str → Bool)) :
    Reported SamePath artifact (diagnostics artifact pagesDir) where
  complete r hr hlen :=
    ⟨r, mem_rivals.mpr ⟨hr, rfl, rfl⟩, mem_of_duplicateRoute.mpr (mem_diagnostics.mpr ⟨r, hr, hlen, rfl⟩)⟩
  sound _ hd := mem_diagnostics.mp hd
  once := by
    rw [duplicates_diagnostics]
    exact nodup_duplicateRoutes

section Matched
variable {matched : Str → Set Str}

theorem SamePath.conflict {r r' : UagRoute} (h : SamePath r r') : Conflict matched r r' :=
  ⟨h.1, congrArg matched h.2⟩

/-- A group is within its class, and is the class if it has as many routes. -/
theorem path_eq_of_length {r r' : UagRoute} (hr' : r' ∈ rivals (Conflict matched) artifact r)
    (hlen : (rivals SamePath artifact r').length = (rivals (Conflict matched) artifact r).length) :
    ∀ s ∈ rivals (Conflict matched) artifact r, s.path = r'.path := by
  obtain ⟨-, hmethod, hmatched⟩ := mem_rivals.mp hr'
  have hsublist : (rivals SamePath artifact r').Sublist (rivals (Conflict matched) artifact r) := by
    refine List.monotone_filter_right _ fun s hs => ?_
    simp only [decide_eq_true_eq] at hs ⊢
    exact ⟨hmethod.trans hs.1, hmatched.trans (congrArg matched hs.2)⟩
  intro s hs
  rw [← hsublist.eq_of_length hlen] at hs
  exact (mem_rivals.mp hs).2.2.symm

/-- The classes of a router are all reported, and only they, exactly if routes that conflict are spelled alike. -/
theorem reported_conflict_iff (pagesDir : Option (Str → Bool)) :
    Reported (Conflict matched) artifact (diagnostics artifact pagesDir) ↔
      ∀ r ∈ artifact.routes, ∀ r' ∈ artifact.routes, Conflict matched r r' → r.path = r'.path := by
  constructor
  · intro h r hr r' hr' hconflict
    by_contra hne
    have hself : r ∈ rivals (Conflict matched) artifact r := mem_rivals.mpr ⟨hr, rfl, rfl⟩
    have hother : r' ∈ rivals (Conflict matched) artifact r := mem_rivals.mpr ⟨hr', hconflict⟩
    have htwo : 1 < (rivals (Conflict matched) artifact r).length := by
      rcases hlist : rivals (Conflict matched) artifact r with _ | ⟨x, _ | ⟨y, rest⟩⟩
      · rw [hlist] at hself
        cases hself
      · rw [hlist, List.mem_singleton] at hself hother
        exact absurd (congrArg UagRoute.path (hself.trans hother.symm)) hne
      · simp
    obtain ⟨s, hs, hfound⟩ := h.complete r hr htwo
    obtain ⟨s', -, -, heq⟩ := mem_diagnostics.mp (mem_of_duplicateRoute.mp hfound)
    rw [Prod.mk.injEq, Prod.mk.injEq] at heq
    obtain ⟨hmethod, hpath, hhandlers⟩ := heq
    have hsame : rivals SamePath artifact s' = rivals SamePath artifact s := by
      refine List.filter_congr fun t _ => ?_
      rw [SamePath, SamePath, hmethod, hpath]
    have hlen : (rivals SamePath artifact s).length = (rivals (Conflict matched) artifact r).length := by
      rw [← hsame]
      simpa [handlers] using (congrArg List.length hhandlers).symm
    exact hne ((path_eq_of_length hs hlen r hself).trans (path_eq_of_length hs hlen r' hother).symm)
  · intro h
    have hrivals : ∀ r ∈ artifact.routes, rivals (Conflict matched) artifact r = rivals SamePath artifact r := by
      intro r hr
      refine List.filter_congr fun r' hr' => decide_eq_decide.mpr ?_
      exact ⟨fun hconflict => ⟨hconflict.1, h r hr r' hr' hconflict⟩, SamePath.conflict⟩
    have htext := reported_samePath artifact pagesDir
    refine ⟨fun r hr hlen => ?_, fun d hd => ?_, htext.once⟩
    · rw [handlers, hrivals r hr] at *
      exact htext.complete r hr hlen
    · obtain ⟨r, hr, hlen, heq⟩ := htext.sound d hd
      rw [handlers, ← hrivals r hr] at *
      exact ⟨r, hr, hlen, heq⟩

end Matched

/-- The groups of one method and one path as a text are all reported, each once and with all handlers, and
    nothing else. For any router these are the classes of conflicting routes exactly if no two routes that
    conflict are spelled differently. -/
theorem duplicates_reported (artifact : UagArtifact) (pagesDir : Option (Str → Bool)) :
    Reported SamePath artifact (diagnostics artifact pagesDir) ∧
      ∀ matched : Str → Set Str, Reported (Conflict matched) artifact (diagnostics artifact pagesDir) ↔
        ∀ r ∈ artifact.routes, ∀ r' ∈ artifact.routes, Conflict matched r r' → r.path = r'.path :=
  ⟨reported_samePath artifact pagesDir, fun _ => reported_conflict_iff pagesDir⟩

/-! ### A conflict of two spellings -/

/-- What templates match: the URLs of the template that a path spells. -/
def matchedUrls (path : Str) : Set Str :=
  {url | ∃ (t : Template) (values : Str → Str), t.path = path ∧ Matches values t.segments (decodedSegments url)}

theorem text_inj {s s' : Segment} (h : s.WellFormed) (h' : s'.WellFormed) (heq : s.text = s'.text) : s = s' := by
  have hopen : ∀ {text rest : Str}, '{' ∉ text → text ≠ '{' :: rest := by
    rintro text rest hmem rfl
    exact hmem List.mem_cons_self
  have hstar : ∀ {name rest : Str}, Segment.IsName name → name ++ ['}'] ≠ '*' :: rest := by
    intro name rest hname hcontra
    obtain ⟨hne, -, -, hhead⟩ := hname
    obtain ⟨c, name, rfl⟩ := List.exists_cons_of_ne_nil hne
    rw [List.cons_append, List.cons.injEq] at hcontra
    exact hhead (congrArg some hcontra.1)
  cases s with
  | literal text =>
    cases s' with
    | literal text' => exact congrArg Segment.literal heq
    | capture name => exact absurd heq (hopen h.1)
    | wildcard name => exact absurd heq (hopen h.1)
  | capture name =>
    cases s' with
    | literal text => exact absurd heq.symm (hopen h'.1)
    | capture name' => exact congrArg Segment.capture (List.append_cancel_right (List.cons.inj heq).2)
    | wildcard name' => exact absurd (List.cons.inj heq).2 (hstar h)
  | wildcard name =>
    cases s' with
    | literal text => exact absurd heq.symm (hopen h'.1)
    | capture name' => exact absurd (List.cons.inj heq).2.symm (hstar h')
    | wildcard name' =>
      exact congrArg Segment.wildcard (List.append_cancel_right (List.cons.inj (List.cons.inj heq).2).2)

/-- A path spells one template. -/
theorem segments_eq_of_path {t t' : Template} (h : t.path = t'.path) : t.segments = t'.segments := by
  have htexts : t.segments.map Segment.text = t'.segments.map Segment.text := by
    rw [← splitOn_path, ← splitOn_path, h]
  refine List.ext_getElem (by simpa using congrArg List.length htexts) fun i hi hi' => ?_
  have hat := List.getElem_of_eq htexts (by simpa using hi)
  rw [List.getElem_map, List.getElem_map] at hat
  exact text_inj (t.wellFormed _ (List.getElem_mem hi)) (t'.wellFormed _ (List.getElem_mem hi')) hat

theorem mem_matchedUrls {t : Template} {url : Str} :
    url ∈ matchedUrls t.path ↔ ∃ values, Matches values t.segments (decodedSegments url) := by
  constructor
  · rintro ⟨t', values, hpath, hmatches⟩
    rw [segments_eq_of_path hpath] at hmatches
    exact ⟨values, hmatches⟩
  · rintro ⟨values, hmatches⟩
    exact ⟨t, values, rfl, hmatches⟩

/-- `/users/{id}`, with another name for the capture. -/
def usersBy (name : Str) (h : Segment.IsName name) : Template where
  segments := [.literal [], .literal "users".toList, .capture name]
  segments_ne := by simp
  wellFormed := by
    intro s hs
    fin_cases hs
    · exact ⟨by simp, by simp⟩
    · exact ⟨by simp, by simp⟩
    · exact h

/-- The name of the capture is immaterial. -/
theorem matchedUrls_usersBy {name name' : Str} (h : Segment.IsName name) (h' : Segment.IsName name') :
    matchedUrls (usersBy name h).path ⊆ matchedUrls (usersBy name' h').path := by
  intro url hurl
  obtain ⟨values, hmatches⟩ := mem_matchedUrls.mp hurl
  refine mem_matchedUrls.mpr ⟨fun _ => values name, ?_⟩
  generalize decodedSegments url = pieces at hmatches
  cases hmatches with
  | literal hmatches => cases hmatches with
    | literal hmatches => cases hmatches with
      | capture hmatches =>
        cases hmatches
        exact .literal (.literal (.capture .nil))

theorem isName_id : Segment.IsName "id".toList := ⟨by simp, by simp, by simp, by simp⟩

theorem isName_slug : Segment.IsName "slug".toList := ⟨by simp, by simp, by simp, by simp⟩

/-- A route that shows a user. -/
def showUser (path handler : Str) : UagRoute where
  module := "Users".toList
  method := "GET".toList
  path
  name := []
  handler
  params := pathParams path
  pages := ∅
  action := none
  query := none
  queryString := none
  policies := ∅

/-- Users are shown by id, and by slug. -/
def twoSpellings : UagArtifact where
  format := artifactFormat
  schemaVersion := currentSchemaVersion
  modules := Map.empty
  routes := [showUser (usersBy _ isName_id).path "Users::show".toList,
    showUser (usersBy _ isName_slug).path "Users::by_slug".toList]
  pages := Map.empty

/-- Both match the same URLs under one method, and nothing is reported. -/
theorem two_spellings_pass :
    validate twoSpellings none = .ok () ∧
      Conflict matchedUrls (showUser (usersBy _ isName_id).path "Users::show".toList)
        (showUser (usersBy _ isName_slug).path "Users::by_slug".toList) ∧
      ¬ Reported (Conflict matchedUrls) twoSpellings (diagnostics twoSpellings none) := by
  have hne : (usersBy _ isName_id).path ≠ (usersBy _ isName_slug).path := by decide +kernel
  have hconflict : Conflict matchedUrls (showUser (usersBy _ isName_id).path "Users::show".toList)
      (showUser (usersBy _ isName_slug).path "Users::by_slug".toList) :=
    ⟨rfl, (matchedUrls_usersBy isName_id isName_slug).antisymm (matchedUrls_usersBy isName_slug isName_id)⟩
  refine ⟨validate_eq_ok_iff.mpr ⟨?_, ?_, nofun, ?_, ?_⟩, hconflict, ?_⟩
  · simpa [twoSpellings, showUser] using hne
  · simp [twoSpellings, showUser]
  · simp [twoSpellings, showUser]
  · simp [twoSpellings]
  · rw [reported_conflict_iff]
    intro h
    exact hne (h _ List.mem_cons_self _ (List.mem_cons_of_mem _ List.mem_cons_self) hconflict)

end Arcature.Uag
