import Arcature.Uag.Schema
import Mathlib.Data.Finset.Sort

/-! The checks of an artifact that both sides of the application compile without
    (`uag/validate.rs`).

    A finding is reported in the words of the application, and all of them are reported, in this order:

        two routes of one method and path
        a page that no contract registers
        a page without a component file
        a policy that no module declares
        an export that its module does not declare -/

namespace Arcature.Uag
open Arcature.Lib

/-- One problem. -/
inductive UagDiagnostic where
  | duplicateRoute (method path : Str) (handlers : List Str)
  | unregisteredPage (route page : Str)
  | missingPageComponent (page : Str) (searched : List Str)
  | undeclaredPolicy (route policy : Str)
  | undeclaredExport (module export_ : Str)
  deriving DecidableEq

/-- `PAGE_EXTENSIONS`. -/
def pageExtensions : List Str := ["tsx", "vue", "svelte"].map String.toList

/-- `route_label`. -/
def routeLabel (route : UagRoute) : Str :=
  if route.name = [] then route.method ++ " ".toList ++ route.path else route.name

/-- `duplicate_routes`: the groups of routes, in the order of method and path. -/
def duplicateRoutes (artifact : UagArtifact) : List UagDiagnostic :=
  let key (r : UagRoute) : Str ×ₗ Str := toLex (r.method, r.path)
  let keys := (artifact.routes.map key).toFinset.sort (· ≤ ·)
  keys.filterMap fun k =>
    let handlers := (artifact.routes.filter (key · = k)).map (·.handler)
    if 1 < handlers.length then some (.duplicateRoute (ofLex k).1 (ofLex k).2 handlers) else none

/-- `unregistered_pages`. -/
def unregisteredPages (artifact : UagArtifact) : List UagDiagnostic :=
  artifact.routes.flatMap fun route =>
    ((route.pages.sort (· ≤ ·)).filter (· ∉ artifact.pages.keys)).map (.unregisteredPage (routeLabel route))

/-- `missing_page_components`: `isFile` says which files the directory of the pages has. -/
def missingPageComponents (artifact : UagArtifact) (isFile : Str → Bool) : List UagDiagnostic :=
  (artifact.pages.keys.sort (· ≤ ·)).filterMap fun page =>
    let searched := pageExtensions.map fun ext => page ++ ".".toList ++ ext
    if searched.any isFile then none else some (.missingPageComponent page searched)

/-- The policies of all modules. -/
def declaredPolicies (artifact : UagArtifact) : Finset Str :=
  artifact.modules.keys.biUnion fun name => ((artifact.modules.get? name).map (·.policies)).getD ∅

/-- `undeclared_policies`. -/
def undeclaredPolicies (artifact : UagArtifact) : List UagDiagnostic :=
  artifact.routes.flatMap fun route =>
    ((route.policies.sort (· ≤ ·)).filter (· ∉ declaredPolicies artifact)).map (.undeclaredPolicy (routeLabel route))

/-- What a module can export. -/
def UagModule.declared (module : UagModule) : Finset Str :=
  module.controllers.keys ∪ module.services ∪ module.policies

/-- `undeclared_exports`. -/
def undeclaredExports (artifact : UagArtifact) : List UagDiagnostic :=
  (artifact.modules.keys.sort (· ≤ ·)).flatMap fun name =>
    match artifact.modules.get? name with
    | none => []
    | some module =>
      ((module.exports.sort (· ≤ ·)).filter (· ∉ module.declared)).map (.undeclaredExport name)

/-- `validate`: the component files are looked for if there is a directory of pages. -/
def validate (artifact : UagArtifact) (pagesDir : Option (Str → Bool)) : Except (List UagDiagnostic) Unit :=
  let diagnostics := duplicateRoutes artifact ++ unregisteredPages artifact ++
    (pagesDir.map (missingPageComponents artifact)).getD [] ++ undeclaredPolicies artifact ++
    undeclaredExports artifact
  if diagnostics = [] then .ok () else .error diagnostics

/-! ### What passes -/

variable {artifact : UagArtifact}

theorem duplicateRoutes_eq_nil_iff :
    duplicateRoutes artifact = [] ↔ (artifact.routes.map fun r => (r.method, r.path)).Nodup := by
  have hkeys : (artifact.routes.map fun r => (toLex (r.method, r.path) : Str ×ₗ Str)).Nodup ↔
      (artifact.routes.map fun r => (r.method, r.path)).Nodup := by
    have hcomp : (artifact.routes.map fun r => (toLex (r.method, r.path) : Str ×ₗ Str)) =
        (artifact.routes.map fun r => (r.method, r.path)).map toLex := by
      rw [List.map_map]
      rfl
    rw [hcomp, List.nodup_map_iff toLex.injective]
  rw [← hkeys, List.nodup_iff_count_le_one, duplicateRoutes, List.filterMap_eq_nil_iff]
  have hcount : ∀ k : Str ×ₗ Str,
      ((artifact.routes.filter fun r => toLex (r.method, r.path) = k).map (·.handler)).length =
        (artifact.routes.map fun r => (toLex (r.method, r.path) : Str ×ₗ Str)).count k := by
    intro k
    rw [List.length_map, List.count_eq_length_filter, List.filter_map, List.length_map]
    refine congrArg List.length (List.filter_congr fun r _ => ?_)
    rw [Function.comp_apply, beq_eq_decide]
  constructor
  · intro h k
    by_cases hk : k ∈ artifact.routes.map fun r => (toLex (r.method, r.path) : Str ×ₗ Str)
    · have hnone := h k (by simpa using hk)
      simp only [hcount] at hnone
      by_contra hcontra
      rw [if_pos (not_le.mp hcontra)] at hnone
      cases hnone
    · rw [List.count_eq_zero_of_not_mem hk]
      exact Nat.zero_le 1
  · intro h k _
    simp only [hcount]
    rw [if_neg (not_lt.mpr (h k))]

theorem unregisteredPages_eq_nil_iff :
    unregisteredPages artifact = [] ↔ ∀ r ∈ artifact.routes, r.pages ⊆ artifact.pages.keys := by
  simp [unregisteredPages, Finset.subset_iff]

theorem missingPageComponents_eq_nil_iff {isFile : Str → Bool} :
    missingPageComponents artifact isFile = [] ↔ ∀ page ∈ artifact.pages.keys,
      ∃ ext ∈ pageExtensions, isFile (page ++ ".".toList ++ ext) := by
  simp [missingPageComponents]

theorem undeclaredPolicies_eq_nil_iff :
    undeclaredPolicies artifact = [] ↔ ∀ r ∈ artifact.routes, r.policies ⊆ declaredPolicies artifact := by
  simp [undeclaredPolicies, Finset.subset_iff]

theorem undeclaredExports_eq_nil_iff :
    undeclaredExports artifact = [] ↔
      ∀ name module, artifact.modules.get? name = some module → module.exports ⊆ module.declared := by
  rw [undeclaredExports, List.flatMap_eq_nil_iff]
  constructor
  · intro h name module hget
    have hmem : name ∈ artifact.modules.keys := by
      by_contra hmem
      simp [Map.get?, hmem] at hget
    have hnone := h name (by simpa using hmem)
    simp only [hget] at hnone
    simpa [Finset.subset_iff] using hnone
  · intro h name _
    cases hget : artifact.modules.get? name with
    | none => rfl
    | some module => simpa [Finset.subset_iff] using h name module hget

/-- Nothing is reported exactly if methods and paths are taken once, pages are registered and have
    their components, and policies and exports are declared. -/
theorem validate_eq_ok_iff {pagesDir : Option (Str → Bool)} :
    validate artifact pagesDir = .ok () ↔
      (artifact.routes.map fun r => (r.method, r.path)).Nodup ∧
      (∀ r ∈ artifact.routes, r.pages ⊆ artifact.pages.keys) ∧
      (∀ isFile, pagesDir = some isFile → ∀ page ∈ artifact.pages.keys,
        ∃ ext ∈ pageExtensions, isFile (page ++ ".".toList ++ ext)) ∧
      (∀ r ∈ artifact.routes, r.policies ⊆ declaredPolicies artifact) ∧
      ∀ name module, artifact.modules.get? name = some module → module.exports ⊆ module.declared := by
  have hok : ∀ diagnostics : List UagDiagnostic,
      (if diagnostics = [] then Except.ok () else .error diagnostics) = .ok () ↔ diagnostics = [] := by
    intro diagnostics
    split <;> simp_all
  rw [validate, hok, List.append_eq_nil_iff, List.append_eq_nil_iff, List.append_eq_nil_iff, List.append_eq_nil_iff,
    duplicateRoutes_eq_nil_iff, unregisteredPages_eq_nil_iff, undeclaredPolicies_eq_nil_iff,
    undeclaredExports_eq_nil_iff, and_assoc, and_assoc, and_assoc]
  cases pagesDir with
  | none => simp
  | some isFile => simp [missingPageComponents_eq_nil_iff]

end Arcature.Uag
