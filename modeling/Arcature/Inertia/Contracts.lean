import Arcature.Lib.OrdMap
import Arcature.Lib.Text
import Mathlib.Data.Char

/-! The typed contracts of the pages (`inertia/contracts`).

    A schema says what a page or a resource exposes, prop by prop. It is built by a chain of calls and
    is ordered by name, whatever the order of the calls:

        PropsSchema.new
          .required "title" string              title: string
          .optional "bio" string                bio?: string
          .nestedOptional "avatar" avatar       avatar?: avatar | null
          .nestedArray "tags" tag               tags: tag[]

    The registry holds one schema for each page and refuses a name that it has in either case. -/

namespace Arcature.Inertia.Contracts
open Arcature.Lib

/-- `PropSchema`. -/
structure PropOf (τ : Type) where
  required : Bool
  ty : τ
  deriving DecidableEq

/-- `ContractType`; the fields of an object are in the order of their names. -/
inductive ContractType where
  | boolean
  | number
  | string
  | array (item : ContractType)
  | object (fields : List (Str × PropOf ContractType))
  | nullable (item : ContractType)

/-- One prop: whether it is required, and its type. -/
abbrev PropSchema := PropOf ContractType

/-- `PropsSchema`. -/
structure PropsSchema where
  fields : OrdMap Str PropSchema

/-- `ContractType::object`. -/
def objectOf (schema : PropsSchema) : ContractType := .object schema.fields.entries

namespace PropsSchema

/-- `PropsSchema::new`. -/
def new : PropsSchema := ⟨.empty⟩

/-- `required`. -/
def required (schema : PropsSchema) (name : Str) (ty : ContractType) : PropsSchema :=
  ⟨schema.fields.insert name ⟨true, ty⟩⟩

/-- `optional`. -/
def optional (schema : PropsSchema) (name : Str) (ty : ContractType) : PropsSchema :=
  ⟨schema.fields.insert name ⟨false, ty⟩⟩

/-- `nested`, of a type with this schema. -/
def nested (schema : PropsSchema) (name : Str) (inner : PropsSchema) : PropsSchema :=
  ⟨schema.fields.insert name ⟨true, objectOf inner⟩⟩

/-- `nested_optional`, of a type with this schema. -/
def nestedOptional (schema : PropsSchema) (name : Str) (inner : PropsSchema) : PropsSchema :=
  ⟨schema.fields.insert name ⟨false, .nullable (objectOf inner)⟩⟩

/-- `nested_array`, of a type with this schema. -/
def nestedArray (schema : PropsSchema) (name : Str) (inner : PropsSchema) : PropsSchema :=
  ⟨schema.fields.insert name ⟨true, .array (objectOf inner)⟩⟩

end PropsSchema

/-! ### The registry -/

/-- `PageContractEntry`; the schema is computed when the entry is registered. -/
structure PageContractEntry where
  name : Str
  schema : Option PropsSchema

/-- `ContractError`. -/
inductive ContractError where
  | duplicatePage (name : Str)
  | caseConflict (existing attempted : Str)
  deriving DecidableEq

/-- `eq_ignore_ascii_case`. -/
def eqIgnoreAsciiCase (a b : Str) : Bool := a.map Char.toLower = b.map Char.toLower

/-- The schemas of the pages, by name. -/
abbrev Pages := OrdMap Str PropsSchema

/-- `PageContracts::insert`; `none` when the schema is not computed. -/
def register (pages : Pages) (entry : PageContractEntry) : Option (Except ContractError Pages) :=
  if (pages.get? entry.name).isSome then some (.error (.duplicatePage entry.name))
  else
    match (pages.entries.map Prod.fst).find? (eqIgnoreAsciiCase · entry.name) with
    | some existing => some (.error (.caseConflict existing entry.name))
    | none => entry.schema.map fun schema => .ok (pages.insert entry.name schema)

/-- Entries registered one after the other; the first refusal ends it. -/
def registerAll (pages : Pages) : List PageContractEntry → Option (Except ContractError Pages)
  | [] => some (.ok pages)
  | entry :: entries =>
    (register pages entry).bind fun
      | .error e => some (.error e)
      | .ok pages => registerAll pages entries

/-- What is registered stays, and every entry is with its schema. -/
theorem registerAll_ok {entries : List PageContractEntry} {pages pages' : Pages}
    (h : registerAll pages entries = some (.ok pages')) :
    (∀ k schema, pages.get? k = some schema → pages'.get? k = some schema) ∧
      ∀ e ∈ entries, ∃ schema, e.schema = some schema ∧ pages'.get? e.name = some schema := by
  induction entries generalizing pages with
  | nil =>
    cases h
    exact ⟨fun _ _ h => h, nofun⟩
  | cons entry entries ih =>
    obtain ⟨result, hregister, h⟩ := Option.bind_eq_some_iff.mp h
    rw [register] at hregister
    split_ifs at hregister with hduplicate
    · cases hregister
      cases h
    split at hregister
    · cases hregister
      cases h
    obtain ⟨schema, hschema, rfl⟩ := Option.map_eq_some_iff.mp hregister
    obtain ⟨hkept, hentries⟩ := ih h
    have hinserted := hkept entry.name schema (by rw [OrdMap.get?_insert, if_pos rfl])
    refine ⟨fun k s hk => hkept k s ?_, fun e he => ?_⟩
    · rw [OrdMap.get?_insert, if_neg, hk]
      rintro rfl
      exact hduplicate (by rw [hk]; rfl)
    · rcases List.mem_cons.mp he with rfl | he
      · exact ⟨schema, hschema, hinserted⟩
      · exact hentries e he

theorem eqIgnoreAsciiCase_self (name : Str) : eqIgnoreAsciiCase name name = true := decide_eq_true rfl

/-- Entries with schemas are registered, if no name comes again in either case. -/
theorem registerAll_of_distinct {entries : List PageContractEntry} {pages : Pages}
    (hschema : ∀ e ∈ entries, e.schema.isSome)
    (hdistinct : entries.Pairwise fun a b => eqIgnoreAsciiCase a.name b.name = false)
    (hfresh : ∀ e ∈ entries, ∀ k ∈ pages.entries.map Prod.fst, eqIgnoreAsciiCase k e.name = false) :
    ∃ pages', registerAll pages entries = some (.ok pages') := by
  induction entries generalizing pages with
  | nil => exact ⟨pages, rfl⟩
  | cons entry entries ih =>
    obtain ⟨hhead, hdistinct⟩ := List.pairwise_cons.mp hdistinct
    obtain ⟨schema, hentry⟩ := Option.isSome_iff_exists.mp (hschema entry List.mem_cons_self)
    have hnew := hfresh entry List.mem_cons_self
    have hduplicate : ¬ (pages.get? entry.name).isSome := by
      intro h
      have := hnew entry.name (OrdMap.mem_keys_iff.mpr h)
      rw [eqIgnoreAsciiCase_self] at this
      cases this
    have hconflict : (pages.entries.map Prod.fst).find? (eqIgnoreAsciiCase · entry.name) = none :=
      List.find?_eq_none.mpr fun k hk => by simp [hnew k hk]
    rw [registerAll, register, if_neg hduplicate, hconflict, hentry]
    refine ih (fun e he => hschema e (List.mem_cons_of_mem _ he)) hdistinct fun e he k hk => ?_
    rw [OrdMap.mem_keys_iff, OrdMap.get?_insert] at hk
    split_ifs at hk with hname
    · rw [hname]
      exact hhead e he
    · exact hfresh e (List.mem_cons_of_mem _ he) k (OrdMap.mem_keys_iff.mpr hk)

end Arcature.Inertia.Contracts
