import Arcature.Inertia.Exposure
import Arcature.Lib.Depth

/-! The types of the pages of an application, and what the pages send (`inertia/contracts/registry.rs`,
    `uag/codegen/pages_dts.rs`).

    A schema is computed when its page is registered, by calling for the schemas of the structs within:

        LinksPage ── nests ──▶ Link ── nests ──▶ Tag        three calls deep
        Comment ── nests ──▶ Comment                        without end

    So the file is written exactly if no struct that a page nests nests itself, and then a value of a
    page has the type that the file declares for it exactly if the value is plain. -/

namespace Arcature.Inertia.Contracts
open Arcature.Lib Arcature.Lib.TypeScript Arcature.Uag

variable {σ : Type}

namespace Family
variable (F : Family σ)

/-- `PAGE_CONTRACT_ENTRY`. -/
def entry (depth : ℕ) (s : σ) : PageContractEntry := ⟨(F.pageName s).getD [], F.exposureSchema depth s⟩

/-- `pages.d.ts` of an application with these pages. -/
def pagesFile (depth : ℕ) (registered : List σ) : Option Str :=
  match registerAll .empty (registered.map (F.entry depth)) with
  | some (.ok pages) => some (pagesDts pages)
  | _ => none

/-- A struct whose schema the schema of another one calls for. -/
def Nests (s t : σ) : Prop := ∃ call ∈ F.calls s, ∃ ty ∈ call.inner, F.clientData s ty = some t

/-- No struct that a page nests, however deep, nests itself. -/
def Grounded (registered : List σ) : Prop :=
  ∀ p ∈ registered, ∀ s, Relation.ReflTransGen F.Nests p s → ¬ Relation.TransGen F.Nests s s

/-- `pages.d.ts` is written, and declares for the page a type that the value has as JSON. -/
def Described (registered : List σ) (p : σ) (v : Value σ) : Prop :=
  ∃ depth file ty, F.pagesFile depth registered = some file ∧
    pageType file ((F.pageName p).getD []) = some ty ∧ Inhabits ty (serialize F v)

end Family

section
variable {F : Family σ}

/-! ### Schemas that are computed -/

theorem BuilderCall.prop_mono {exposure exposure' : SynType → Option PropsSchema}
    (hmono : ∀ ty schema, exposure ty = some schema → exposure' ty = some schema) {call : BuilderCall}
    {p : Str × PropSchema} (h : call.prop exposure = some p) : call.prop exposure' = some p := by
  cases call with
  | required | optional => exact h
  | _ name ty =>
    obtain ⟨inner, hinner, rfl⟩ := Option.map_eq_some_iff.mp h
    rw [BuilderCall.prop, hmono ty inner hinner, Option.map_some]

theorem exposureSchema_succ {depth : ℕ} {s : σ} {schema : PropsSchema} (h : F.exposureSchema depth s = some schema) :
    F.exposureSchema (depth + 1) s = some schema := by
  induction depth generalizing s schema with
  | zero => cases h
  | succ depth ih =>
    obtain ⟨props, hprops, rfl⟩ := runCalls_eq_some.mp h
    refine runCalls_eq_some.mpr ⟨props, hprops.imp fun call p hp => BuilderCall.prop_mono ?_ hp, rfl⟩
    intro ty inner hinner
    obtain ⟨t, ht, hinner⟩ := Option.bind_eq_some_iff.mp hinner
    exact Option.bind_eq_some_iff.mpr ⟨t, ht, ih hinner⟩

theorem exposureSchema_mono {depth depth' : ℕ} (hle : depth ≤ depth') {s : σ} {schema : PropsSchema}
    (h : F.exposureSchema depth s = some schema) : F.exposureSchema depth' s = some schema := by
  induction hle with
  | refl => exact h
  | step _ ih => exact exposureSchema_succ ih

/-- A schema is computed from those of the structs within. -/
theorem acc_of_exposureSchema {depth : ℕ} {s : σ} {schema : PropsSchema} (h : F.exposureSchema depth s = some schema) :
    Acc (fun t s => F.Nests s t) s := by
  induction depth generalizing s schema with
  | zero => cases h
  | succ depth ih =>
    obtain ⟨props, hprops, -⟩ := runCalls_eq_some.mp h
    refine Acc.intro s ?_
    rintro t ⟨call, hcall, ty, hty, ht⟩
    obtain ⟨p, -, hprop⟩ := exists_right_of_mem hprops hcall
    cases call with
    | required | optional => cases hty
    | _ name ty' =>
      cases hty
      obtain ⟨inner, hinner, -⟩ := Option.map_eq_some_iff.mp hprop
      dsimp only at hinner
      rw [ht] at hinner
      exact ih hinner

/-- The prop of a call in a struct, with so many calls of `exposure_schema` within one another. -/
def callProp (F : Family σ) (s : σ) (depth : ℕ) (call : BuilderCall) : Option (Str × PropSchema) :=
  call.prop fun ty => (F.clientData s ty).bind (F.exposureSchema depth)

theorem callProp_mono {s : σ} {call : BuilderCall} {m n : ℕ} (hle : m ≤ n) (h : (callProp F s m call).isSome) :
    (callProp F s n call).isSome := by
  obtain ⟨p, hp⟩ := Option.isSome_iff_exists.mp h
  refine Option.isSome_iff_exists.mpr ⟨p, BuilderCall.prop_mono ?_ hp⟩
  intro ty inner hinner
  obtain ⟨t, ht, hinner⟩ := Option.bind_eq_some_iff.mp hinner
  exact Option.bind_eq_some_iff.mpr ⟨t, ht, exposureSchema_mono hle hinner⟩

theorem exists_callProp {s : σ} {call : BuilderCall} (hcertified : ∀ ty ∈ call.inner, (F.clientData s ty).isSome)
    (h : ∀ ty ∈ call.inner, ∀ t, F.clientData s ty = some t → ∃ depth, (F.exposureSchema depth t).isSome) :
    ∃ depth, (callProp F s depth call).isSome := by
  cases call with
  | required | optional => exact ⟨0, rfl⟩
  | _ name ty =>
    obtain ⟨t, ht⟩ := Option.isSome_iff_exists.mp (hcertified ty rfl)
    obtain ⟨depth, hdepth⟩ := h ty rfl t ht
    refine ⟨depth, ?_⟩
    rw [callProp, BuilderCall.prop, Option.isSome_map, ht]
    exact hdepth

/-- Without a cycle every schema is computed. -/
theorem exists_exposureSchema (hF : F.Accepted) {s : σ} (h : Acc (fun t s => F.Nests s t) s) :
    ∃ depth, (F.exposureSchema depth s).isSome := by
  induction h with
  | intro s _ ih =>
    obtain ⟨depth, hdepth⟩ : ∃ depth, ∀ call ∈ F.calls s, (callProp F s depth call).isSome := by
      refine exists_bound (p := fun depth call => (callProp F s depth call).isSome)
        (fun call m n hle h => callProp_mono hle h) fun call hcall => ?_
      exact exists_callProp (hF.certified s call hcall) fun ty hty t ht => ih t ⟨call, hcall, ty, hty, ht⟩
    obtain ⟨props, hprops⟩ := exists_mapM_eq_some hdepth
    refine ⟨depth + 1, Option.isSome_iff_exists.mpr ⟨⟨OrdMap.ofList props⟩, ?_⟩⟩
    exact runCalls_eq_some.mpr ⟨props, mapM_eq_some_iff.mp hprops, rfl⟩

theorem grounded_iff [Finite σ] {registered : List σ} :
    F.Grounded registered ↔ ∀ p ∈ registered, Acc (fun t s => F.Nests s t) p :=
  forall₂_congr fun _ _ => acc_iff_no_cycle.symm

/-! ### The file and its types -/

/-- The schemas of all pages are computed in one file. -/
theorem exists_pagesFile (hF : F.Accepted) {registered : List σ}
    (hnames : registered.Pairwise fun p q =>
      eqIgnoreAsciiCase ((F.pageName p).getD []) ((F.pageName q).getD []) = false)
    (h : ∀ p ∈ registered, Acc (fun t s => F.Nests s t) p) :
    ∃ depth file, F.pagesFile depth registered = some file := by
  obtain ⟨depth, hdepth⟩ : ∃ depth, ∀ p ∈ registered, (F.exposureSchema depth p).isSome := by
    refine exists_bound (fun p m n hle h => ?_) fun p hp => exists_exposureSchema hF (h p hp)
    obtain ⟨schema, hschema⟩ := Option.isSome_iff_exists.mp h
    exact Option.isSome_iff_exists.mpr ⟨schema, exposureSchema_mono hle hschema⟩
  have hschema : ∀ e ∈ registered.map (F.entry depth), e.schema.isSome := by
    rw [List.forall_mem_map]
    exact hdepth
  have hfresh : ∀ e ∈ registered.map (F.entry depth), ∀ k ∈ (OrdMap.empty : Pages).entries.map Prod.fst,
      eqIgnoreAsciiCase k e.name = false := fun e _ k hk => (List.not_mem_nil hk).elim
  obtain ⟨pages, hpages⟩ := registerAll_of_distinct hschema (List.pairwise_map.mpr hnames) hfresh
  exact ⟨depth, pagesDts pages, by rw [Family.pagesFile, hpages]⟩

/-- The type that the file declares for a page is that of its schema. -/
theorem pageType_pagesFile {depth : ℕ} {registered : List σ} {file : Str} (h : F.pagesFile depth registered = some file)
    {p : σ} (hp : p ∈ registered) : ∃ schema, F.exposureSchema depth p = some schema ∧
      pageType file ((F.pageName p).getD []) = some (tsType (objectOf schema)) := by
  rw [Family.pagesFile] at h
  split at h
  · rename_i pages hpages
    obtain rfl := Option.some.inj h
    obtain ⟨schema, hschema, hget⟩ := (registerAll_ok hpages).2 _ (List.mem_map_of_mem hp)
    refine ⟨schema, hschema, ?_⟩
    rw [pageType_pagesDts]
    exact congrArg (Option.map _) hget
  · cases h

/-- A page sends what its type says exactly if its type is written and its value is plain: no struct
    that a registered page nests nests itself, no struct in the value has a raw identifier, and where
    the macro reads a primitive there is no `None` and no struct. -/
theorem described_iff [Finite σ] (hF : F.Accepted) {registered : List σ}
    (hnames : registered.Pairwise fun p q =>
      eqIgnoreAsciiCase ((F.pageName p).getD []) ((F.pageName q).getD []) = false)
    {p : σ} (hp : p ∈ registered) {v : Value σ} (hv : F.HasType (.struct p) v) :
    F.Described registered p v ↔ F.Grounded registered ∧ F.Plain v := by
  rw [grounded_iff]
  constructor
  · rintro ⟨depth, file, ty, hfile, hty, hinhabits⟩
    refine ⟨fun q hq => ?_, ?_⟩
    · obtain ⟨schema, hschema, -⟩ := pageType_pagesFile hfile hq
      exact acc_of_exposureSchema hschema
    · obtain ⟨schema, hschema, htype⟩ := pageType_pagesFile hfile hp
      obtain rfl := Option.some.inj (htype.symm.trans hty)
      exact (inhabits_iff_plain hF depth hschema hv).mp hinhabits
  · rintro ⟨hgrounded, hplain⟩
    obtain ⟨depth, file, hfile⟩ := exists_pagesFile hF hnames hgrounded
    obtain ⟨schema, hschema, htype⟩ := pageType_pagesFile hfile hp
    exact ⟨depth, file, _, hfile, htype, (inhabits_iff_plain hF depth hschema hv).mpr hplain⟩

end

/-! ### Pages -/

/-- A type without arguments, by its name. -/
def bare (name : String) : SynType := .path [] name.toList .none

/-- A type with one argument, by the names of both. -/
def applied (name inner : String) : SynType := .path [] name.toList (.angleBracketed [.type (bare inner)])

/-- The structs of an application with links. -/
inductive LinkStruct where
  | page
  | tag
  deriving DecidableEq

instance : Finite LinkStruct :=
  .of_injective (· = .page) fun s t h => by cases s <;> cases t <;> simp_all

/-- `#[page("links/Show")] struct ShowPage` and `#[resource] struct Tag`. -/
def links : Family LinkStruct where
  pageName
    | .page => some "links/Show".toList
    | .tag => none
  fields
    | .page => [⟨⟨false, "title".toList, by decide⟩, bare "String"⟩,
        ⟨⟨false, "tags".toList, by decide⟩, applied "Vec" "Tag"⟩,
        ⟨⟨false, "pinned".toList, by decide⟩, applied "Option" "Tag"⟩]
    | .tag => [⟨⟨false, "label".toList, by decide⟩, bare "String"⟩]
  resolve _
    | .path _ ident _ => if ident = "Tag".toList then some .tag else none
    | .other => none

/-- A page with one tag and no pinned one. -/
def shown : Value LinkStruct :=
  .struct .page [.string "Docs".toList, .vec [.struct .tag [.string "lean".toList]], .none]

theorem accepted_links : links.Accepted where
  expands s := by cases s <;> rfl
  typed s := by cases s <;> decide
  distinct s := by cases s <;> decide
  certified s := by
    have hcalls : ∀ call ∈ links.calls s, ∀ ty ∈ call.inner, ty = bare "Tag" := by
      cases s with
      | tag =>
        intro call hcall ty hty
        obtain rfl := List.mem_singleton.mp hcall
        cases hty
      | page =>
        intro call hcall ty hty
        rcases List.mem_cons.mp hcall with rfl | hcall
        · cases hty
        rcases List.mem_cons.mp hcall with rfl | hcall
        · cases hty
          rfl
        · obtain rfl := List.mem_singleton.mp hcall
          cases hty
          rfl
    intro call hcall ty hty
    rw [hcalls call hcall ty hty]
    rfl

theorem hasType_shown : links.HasType (.struct .page) shown := by
  have htag : links.HasType (.struct .tag) (.struct .tag [.string "lean".toList]) := by
    refine .struct rfl fun e he t ht => ?_
    obtain rfl := List.mem_singleton.mp he
    obtain rfl := Option.some.inj (ht.symm.trans (show links.typeOf .tag _ = some (.primitive .string) from rfl))
    exact .string _
  refine .struct rfl fun e he t ht => ?_
  rcases List.mem_cons.mp he with rfl | he
  · obtain rfl := Option.some.inj (ht.symm.trans (show links.typeOf .page _ = some (.primitive .string) from rfl))
    exact .string _
  rcases List.mem_cons.mp he with rfl | he
  · obtain rfl := Option.some.inj (ht.symm.trans (show links.typeOf .page _ = some (.vec (.struct .tag)) from rfl))
    exact .vec fun v hv => List.mem_singleton.mp hv ▸ htag
  · obtain rfl := List.mem_singleton.mp he
    obtain rfl := Option.some.inj (ht.symm.trans (show links.typeOf .page _ = some (.option (.struct .tag)) from rfl))
    exact .none _

theorem grounded_links : links.Grounded [.page] := by
  rw [grounded_iff]
  intro p hp
  obtain rfl := List.mem_singleton.mp hp
  obtain ⟨schema, hschema⟩ : ∃ schema, links.exposureSchema 2 .page = some schema := ⟨_, rfl⟩
  exact acc_of_exposureSchema hschema

theorem described_shown : links.Described [.page] .page shown :=
  (described_iff accepted_links (List.pairwise_singleton _ _) List.mem_cons_self hasType_shown).mpr
    ⟨grounded_links, by decide⟩

/-- `#[page("profile")] struct ProfilePage`, with one field. -/
def profile (field : Field) : Family Unit where
  pageName _ := some "profile".toList
  fields _ := [field]
  resolve _ _ := none

theorem accepted_profile {field : Field} (hreads : field.readsPrimitive)
    (htyped : ((profile field).typeOf () field.ty).isSome) : (profile field).Accepted := by
  rw [Field.readsPrimitive] at hreads
  split at hreads
  · rename_i call hmap
    have hexpand : (profile field).expand () = .ok [call] := by
      simp only [Family.expand, profile, page, parsePageName, itemChains, fieldChains, List.mapM_cons,
        List.mapM_nil, hmap]
      rfl
    have hcalls : (profile field).calls () = [call] := by rw [Family.calls, hexpand]
    refine ⟨fun _ => by rw [hexpand]; rfl, fun _ f hf => ?_, fun _ => List.nodup_singleton _, fun _ c hc ty hty => ?_⟩
    · rw [List.mem_singleton.mp hf]
      exact htyped
    · rw [hcalls, List.mem_singleton] at hc
      rw [hc, Option.isNone_iff_eq_none.mp hreads] at hty
      cases hty
  · cases hreads

theorem hasType_profile {field : Field} {t : RustType Unit} {v : Value Unit}
    (ht : (profile field).typeOf () field.ty = some t) (hv : (profile field).HasType t v) :
    (profile field).HasType (.struct ()) (.struct () [v]) := by
  refine .struct rfl fun e he t' ht' => ?_
  obtain rfl := List.mem_singleton.mp he
  obtain rfl := Option.some.inj (ht'.symm.trans ht)
  exact hv

/-- `r#type: String`. -/
def rawField : Field := ⟨⟨true, "type".toList, by decide⟩, bare "String"⟩

/-- `bio: Option<String>`. -/
def optionField : Field := ⟨⟨false, "bio".toList, by decide⟩, applied "Option" "String"⟩

/-- A value of the page does not have the type that the file declares for it. -/
def Misdescribes (field : Field) (v : Value Unit) : Prop :=
  (profile field).Accepted ∧ (profile field).HasType (.struct ()) (.struct () [v]) ∧
    ∃ file ty, (profile field).pagesFile 1 [()] = some file ∧ pageType file "profile".toList = some ty ∧
      ¬ Inhabits ty (serialize (profile field) (.struct () [v]))

theorem misdescribes_of_not_plain {field : Field} {v : Value Unit} {file : Str}
    (haccepted : (profile field).Accepted) (htyped : (profile field).HasType (.struct ()) (.struct () [v]))
    (hfile : (profile field).pagesFile 1 [()] = some file) (hplain : ¬ (profile field).Plain (.struct () [v])) :
    Misdescribes field v := by
  obtain ⟨schema, hschema, htype⟩ := pageType_pagesFile hfile List.mem_cons_self
  refine ⟨haccepted, htyped, file, _, hfile, htype, fun h => ?_⟩
  exact hplain ((inhabits_iff_plain haccepted 1 hschema htyped).mp h)

/-- The member of the value has another name, or it is `null`. -/
theorem profile_misdescribed :
    Misdescribes rawField (.string "admin".toList) ∧ Misdescribes optionField (.none : Value Unit) := by
  constructor
  · exact misdescribes_of_not_plain (accepted_profile rfl rfl) (hasType_profile rfl (.string _)) rfl (by decide)
  · exact misdescribes_of_not_plain (accepted_profile rfl rfl)
      (hasType_profile rfl (.none (.primitive .string))) rfl (by decide)

end Arcature.Inertia.Contracts
