import Arcature.Inertia.PageMacro
import Arcature.Lib.Double
import Arcature.Lib.Traverse
import Arcature.Uag.PagesDts

/-! What a page sends and what its type says (`macros/src/page.rs` beside serde's `Serialize`).

    A struct is described twice. The derive writes its values as JSON, the macro writes its schema,
    which becomes the type in `pages.d.ts`:

        r#type: String            "type": "a"       "r#type": string
        bio: Option<String>       "bio": null       "bio"?: string
        avatar: Option<Avatar>    "avatar": null    "avatar"?: Avatar | null
        tags: Vec<Tag>            "tags": []        "tags": Tag[]

    The second column has the type in the third in the last two lines only. Nothing else goes wrong: a
    value has its type exactly if no struct in it has a raw identifier and a primitive stands wherever
    the macro reads one (`inhabits_iff_plain`). -/

namespace Arcature.Inertia.Contracts
open Arcature.Lib Arcature.Lib.TypeScript Arcature.Uag

/-! ### Types and values -/

/-- The primitives, by how they are written. -/
inductive Primitive where
  | string
  | char
  | url
  | bool
  | number
  deriving DecidableEq

/-- The primitive of a name. -/
def primitiveNamed (name : Str) : Option Primitive :=
  if name = "String".toList ∨ name = "str".toList then some .string
  else if name = "char".toList then some .char
  else if name = "Url".toList then some .url
  else if name = "bool".toList then some .bool
  else if name ∈ numberNames then some .number
  else none

/-- What a type is. -/
inductive RustType (σ : Type) where
  | primitive (p : Primitive)
  | struct (s : σ)
  | option (inner : RustType σ)
  | vec (item : RustType σ)

/-- The structs with `#[page]` or `#[resource]`: the name of each that is a page, its fields, and which
    struct a path in it stands for. -/
structure Family (σ : Type) where
  pageName : σ → Option Str
  fields : σ → List Field
  resolve : σ → SynType → Option σ

variable {σ : Type}

namespace Family
variable (F : Family σ)

/-- A path that is neither `Option` nor `Vec`: a struct hides the primitive of its name. -/
def named (s : σ) (leading : List Str) (ident : Str) (arguments : PathArguments SynType) : Option (RustType σ) :=
  match F.resolve s (.path leading ident arguments) with
  | some t => some (.struct t)
  | none => (primitiveNamed ident).map .primitive

/-- What a type in a struct is. -/
def typeOf (s : σ) : SynType → Option (RustType σ)
  | .path leading ident (.angleBracketed [.type inner]) =>
    if ident = "Option".toList then (typeOf s inner).map .option
    else if ident = "Vec".toList then (typeOf s inner).map .vec
    else F.named s leading ident (.angleBracketed [.type inner])
  | .path leading ident arguments =>
    if ident = "Option".toList ∨ ident = "Vec".toList then none else F.named s leading ident arguments
  | .other => none

/-- The struct that a type is: the types that implement `ClientData`. -/
def clientData (s : σ) (ty : SynType) : Option σ :=
  match F.typeOf s ty with
  | some (.struct t) => some t
  | _ => none

end Family

/-- A value of a type of a family; the values of the fields of a struct are in the order of the fields. -/
inductive Value (σ : Type) where
  | string (s : Str)
  | char (c : Char)
  | url (text : Str)
  | bool (b : Bool)
  | number (n : Number)
  | none
  | some (v : Value σ)
  | vec (items : List (Value σ))
  | struct (s : σ) (values : List (Value σ))

/-- A number that is no NaN and not infinite. -/
def isFinite : Number → Bool
  | .float bits => F64.isFinite ⟨bits⟩
  | _ => true

/-- The values of a type; the numbers are the finite ones. -/
inductive Family.HasType (F : Family σ) : RustType σ → Value σ → Prop where
  | string (s : Str) : HasType F (.primitive .string) (.string s)
  | char (c : Char) : HasType F (.primitive .char) (.char c)
  | url (text : Str) : HasType F (.primitive .url) (.url text)
  | bool (b : Bool) : HasType F (.primitive .bool) (.bool b)
  | number (n : Number) (h : isFinite n) : HasType F (.primitive .number) (.number n)
  | none (inner : RustType σ) : HasType F (.option inner) .none
  | some {inner : RustType σ} {v : Value σ} (h : HasType F inner v) : HasType F (.option inner) (.some v)
  | vec {item : RustType σ} {items : List (Value σ)} (h : ∀ v ∈ items, HasType F item v) :
    HasType F (.vec item) (.vec items)
  | struct {s : σ} {values : List (Value σ)} (length : values.length = (F.fields s).length)
    (typed : ∀ e ∈ (F.fields s).zip values, ∀ t, F.typeOf s e.1.ty = some t → HasType F t e.2) :
    HasType F (.struct s) (.struct s values)

mutual

/-- `serialize`: a field goes by its identifier without the raw prefix. -/
def serialize (F : Family σ) : Value σ → Json
  | .string s => .string s
  | .char c => .string [c]
  | .url text => .string text
  | .bool b => .bool b
  | .number n => .number n
  | .none => .null
  | .some v => serialize F v
  | .vec items => .array (serializeAll F items)
  | .struct s values => Json.objectOf (((F.fields s).map (·.ident.name)).zip (serializeAll F values))

/-- `serialize`, of one value after the other. -/
def serializeAll (F : Family σ) : List (Value σ) → List Json
  | [] => []
  | v :: values => serialize F v :: serializeAll F values

end

/-! ### Schemas and the file -/

namespace Family
variable (F : Family σ)

/-- What the macro makes of a struct. -/
def expand (s : σ) : Except Refusal (List BuilderCall) :=
  match F.pageName s with
  | some name => (page (some name) (.named (F.fields s))).map Prod.snd
  | none => resource [] (.named (F.fields s))

/-- The calls in the `exposure_schema` of a struct. -/
def calls (s : σ) : List BuilderCall :=
  match F.expand s with
  | .ok calls => calls
  | .error _ => []

/-- `exposure_schema`, with so many calls of it within one another. -/
def exposureSchema : ℕ → σ → Option PropsSchema
  | 0, _ => none
  | depth + 1, s => runCalls (fun ty => (F.clientData s ty).bind (exposureSchema depth)) (F.calls s)

/-- The structs are accepted: by the macros, and by the compiler, which knows the type of every field,
    sees no field name twice and finds `ClientData` where a call asks for it. -/
structure Accepted : Prop where
  expands : ∀ s, (F.expand s).isOk
  typed : ∀ s, ∀ field ∈ F.fields s, (F.typeOf s field.ty).isSome
  distinct : ∀ s, ((F.fields s).map (·.ident.name)).Nodup
  certified : ∀ s, ∀ call ∈ F.calls s, ∀ ty ∈ call.inner, (F.clientData s ty).isSome

end Family

/-! ### The two descriptions -/

mutual

/-- The structs that occur in a value, with the values of their fields. -/
def structsIn : Value σ → List (σ × List (Value σ))
  | .struct s values => (s, values) :: structsInAll values
  | .some v => structsIn v
  | .vec items => structsInAll items
  | _ => []

/-- The structs that occur in any of some values. -/
def structsInAll : List (Value σ) → List (σ × List (Value σ))
  | [] => []
  | v :: values => structsIn v ++ structsInAll values

end

/-- A string, a number or a boolean. -/
def Value.isScalar : Value σ → Bool
  | .none | .some _ | .vec _ | .struct _ _ => false
  | _ => true

/-- A value of primitives alone: one, one that is there, or a list of them. -/
def Value.isPrimitive : Value σ → Bool
  | .some v => v.isScalar
  | .vec items => items.all Value.isScalar
  | v => v.isScalar

/-- Whether the macro reads a primitive in the type of a field, so that its call needs no schema. -/
def Field.readsPrimitive (field : Field) : Bool :=
  match mapField field.ident.text field.ty with
  | .ok call => call.inner.isNone
  | .error _ => false

/-- No struct in a value has a raw identifier, and where the macro reads a primitive there is one:
    not `None`, and no struct that has the name of a primitive. -/
def Family.Plain (F : Family σ) (v : Value σ) : Prop :=
  ∀ o ∈ structsIn v, ∀ e ∈ (F.fields o.1).zip o.2,
    e.1.ident.raw = false ∧ (e.1.readsPrimitive → e.2.isPrimitive)

instance (F : Family σ) (v : Value σ) : Decidable (F.Plain v) :=
  inferInstanceAs (Decidable (∀ o ∈ structsIn v, ∀ e ∈ (F.fields o.1).zip o.2,
    e.1.ident.raw = false ∧ (e.1.readsPrimitive → e.2.isPrimitive)))

/-! ### Calls and fields -/

/-- The prop that a call adds. -/
def BuilderCall.prop (exposure : SynType → Option PropsSchema) : BuilderCall → Option (Str × PropSchema)
  | .required name ty => some (name, ⟨true, ty⟩)
  | .optional name ty => some (name, ⟨false, ty⟩)
  | .nested name ty => (exposure ty).map fun inner => (name, ⟨true, objectOf inner⟩)
  | .nestedOptional name ty => (exposure ty).map fun inner => (name, ⟨false, .nullable (objectOf inner)⟩)
  | .nestedArray name ty => (exposure ty).map fun inner => (name, ⟨true, .array (objectOf inner)⟩)

theorem run_eq (exposure : SynType → Option PropsSchema) (schema : PropsSchema) (call : BuilderCall) :
    call.run exposure schema = (call.prop exposure).map fun p => ⟨schema.fields.insert p.1 p.2⟩ := by
  cases call with
  | required name ty => rfl
  | optional name ty => rfl
  | _ name ty =>
    rw [BuilderCall.run, BuilderCall.prop, Option.map_map]
    rfl

theorem foldlM_run (exposure : SynType → Option PropsSchema) (calls : List BuilderCall) (schema : PropsSchema) :
    calls.foldlM (BuilderCall.run exposure) schema = (calls.mapM (BuilderCall.prop exposure)).map fun props =>
      ⟨props.foldl (fun m e => m.insert e.1 e.2) schema.fields⟩ := by
  induction calls generalizing schema with
  | nil => rfl
  | cons call calls ih =>
    rw [List.foldlM_cons, List.mapM_cons, run_eq]
    cases call.prop exposure with
    | none => rfl
    | some p =>
      simp only [Option.map_some, Option.bind_eq_bind, Option.bind_some, ih]
      cases calls.mapM (BuilderCall.prop exposure) <;> rfl

/-- A schema is the map of the props of its calls. -/
theorem runCalls_eq_some {exposure : SynType → Option PropsSchema} {calls : List BuilderCall} {schema : PropsSchema} :
    runCalls exposure calls = some schema ↔
      ∃ props, List.Forall₂ (fun call p => call.prop exposure = some p) calls props ∧
        ⟨OrdMap.ofList props⟩ = schema := by
  rw [runCalls, foldlM_run, Option.map_eq_some_iff]
  simp_rw [mapM_eq_some_iff]
  rfl

/-! ### Identifiers -/

theorem Ident.name_eq_of_text_eq {a b : Ident} (h : a.text = b.text) : a.name = b.name := by
  obtain ⟨rawA, nameA, hA⟩ := a
  obtain ⟨rawB, nameB, hB⟩ := b
  cases rawA <;> cases rawB
  · exact h
  · refine absurd ?_ hA
    rw [show nameA = "r#".toList ++ nameB from h]
    exact List.mem_append_left _ (by decide)
  · refine absurd ?_ hB
    rw [← show "r#".toList ++ nameA = nameB from h]
    exact List.mem_append_left _ (by decide)
  · exact List.append_cancel_left h

theorem Ident.text_of_not_raw {ident : Ident} (h : ident.raw = false) : ident.text = ident.name := by
  rw [Ident.text, h, if_neg Bool.false_ne_true]

/-- A raw identifier is written as no identifier is called. -/
theorem Ident.text_ne_name_of_raw {a b : Ident} (h : a.raw = true) : a.text ≠ b.name := by
  intro heq
  refine b.noHash ?_
  rw [← heq, Ident.text, if_pos h]
  exact List.mem_append_left _ (by decide)

/-! ### Types -/

/-- The contract of a primitive. -/
def Primitive.contract : Primitive → ContractType
  | .string | .char | .url => .string
  | .bool => .boolean
  | .number => .number

/-- The macro knows the primitives by their names. -/
theorem primitiveContractCall_eq (name : Str) :
    primitiveContractCall name = (primitiveNamed name).map Primitive.contract := by
  rw [primitiveContractCall, primitiveNamed]
  by_cases hstring : name = "String".toList ∨ name = "str".toList
  · have hmem : name ∈ stringNames := by
      rcases hstring with rfl | rfl <;> decide
    rw [if_pos hmem, if_pos hstring]
    rfl
  · by_cases hchar : name = "char".toList
    · subst hchar
      rfl
    · by_cases hurl : name = "Url".toList
      · subst hurl
        rfl
      · have hmem : name ∉ stringNames := by
          rw [not_or] at hstring
          simp only [stringNames, List.map_cons, List.map_nil, List.mem_cons, List.not_mem_nil, or_false]
          tauto
        rw [if_neg hmem, if_neg hstring, if_neg hchar, if_neg hurl]
        split_ifs <;> rfl

theorem not_wrapper_of_primitive {name : Str} {p : Primitive} (h : primitiveNamed name = some p) :
    name ≠ "Option".toList ∧ name ≠ "Vec".toList := by
  constructor
  · rintro rfl
    exact nomatch (show primitiveNamed "Option".toList = none from rfl).symm.trans h
  · rintro rfl
    exact nomatch (show primitiveNamed "Vec".toList = none from rfl).symm.trans h

section
variable (F : Family σ) (s : σ)

theorem typeOf_path {leading : List Str} {ident : Str} {arguments : PathArguments SynType}
    (hoption : ident ≠ "Option".toList) (hvec : ident ≠ "Vec".toList) :
    F.typeOf s (.path leading ident arguments) = F.named s leading ident arguments := by
  rw [Family.typeOf.eq_def]
  split
  · rename_i heq
    cases heq
    rw [if_neg hoption, if_neg hvec]
  · rename_i heq
    cases heq
    rw [if_neg (not_or.mpr ⟨hoption, hvec⟩)]
  · rename_i heq
    cases heq

theorem typeOf_option {leading : List Str} {arguments : PathArguments SynType} {t : RustType σ}
    (h : F.typeOf s (.path leading "Option".toList arguments) = some t) :
    ∃ inner t', arguments = .angleBracketed [.type inner] ∧ F.typeOf s inner = some t' ∧ t = .option t' := by
  rw [Family.typeOf.eq_def] at h
  split at h
  · rename_i inner heq
    cases heq
    rw [if_pos rfl] at h
    obtain ⟨t', ht', rfl⟩ := Option.map_eq_some_iff.mp h
    exact ⟨inner, t', rfl, ht', rfl⟩
  · rename_i heq
    cases heq
    rw [if_pos (.inl rfl)] at h
    cases h
  · rename_i heq
    cases heq

theorem typeOf_vec {leading : List Str} {arguments : PathArguments SynType} {t : RustType σ}
    (h : F.typeOf s (.path leading "Vec".toList arguments) = some t) :
    ∃ inner t', arguments = .angleBracketed [.type inner] ∧ F.typeOf s inner = some t' ∧ t = .vec t' := by
  rw [Family.typeOf.eq_def] at h
  split at h
  · rename_i inner heq
    cases heq
    rw [if_neg (by decide), if_pos rfl] at h
    obtain ⟨t', ht', rfl⟩ := Option.map_eq_some_iff.mp h
    exact ⟨inner, t', rfl, ht', rfl⟩
  · rename_i heq
    cases heq
    rw [if_pos (.inr rfl)] at h
    cases h
  · rename_i heq
    cases heq

/-- What the macro's reading of a primitive may be: a primitive written so, or a struct by its name. -/
def ReadsAs (prim : ContractType) (t : RustType σ) : Prop :=
  ∃ p : Primitive, p.contract = prim ∧ (t = .primitive p ∨ ∃ u, t = .struct u)

theorem readsAs_of_path {leading : List Str} {ident : Str} {arguments : PathArguments SynType} {prim : ContractType}
    {t : RustType σ} (hprim : primitiveContractCall ident = some prim)
    (ht : F.typeOf s (.path leading ident arguments) = some t) : ReadsAs prim t := by
  rw [primitiveContractCall_eq] at hprim
  obtain ⟨p, hp, rfl⟩ := Option.map_eq_some_iff.mp hprim
  obtain ⟨hoption, hvec⟩ := not_wrapper_of_primitive hp
  rw [typeOf_path F s hoption hvec, Family.named] at ht
  refine ⟨p, rfl, ?_⟩
  split at ht
  · rename_i u _
    exact .inr ⟨u, (Option.some.inj ht).symm⟩
  · rw [hp] at ht
    exact .inl (Option.some.inj ht).symm

theorem eq_struct_of_clientData {ty : SynType} {t : RustType σ} (ht : F.typeOf s ty = some t)
    (h : (F.clientData s ty).isSome) : ∃ u, F.clientData s ty = some u ∧ t = .struct u := by
  obtain ⟨u, hu⟩ := Option.isSome_iff_exists.mp h
  refine ⟨u, hu, ?_⟩
  rw [Family.clientData, ht] at hu
  cases t with
  | struct v =>
    obtain rfl := Option.some.inj hu
    rfl
  | _ => cases hu

/-- What the macro makes of a field, and what the field is. -/
inductive FieldCall (name : Str) : BuilderCall → RustType σ → Prop where
  | plain {prim : ContractType} {t : RustType σ} (h : ReadsAs prim t) : FieldCall name (.required name prim) t
  | optional {prim : ContractType} {t : RustType σ} (h : ReadsAs prim t) :
    FieldCall name (.optional name prim) (.option t)
  | array {prim : ContractType} {t : RustType σ} (h : ReadsAs prim t) :
    FieldCall name (.required name (.array prim)) (.vec t)
  | nested {ty : SynType} {u : σ} (h : F.clientData s ty = some u) : FieldCall name (.nested name ty) (.struct u)
  | nestedOptional {ty : SynType} {u : σ} (h : F.clientData s ty = some u) :
    FieldCall name (.nestedOptional name ty) (.option (.struct u))
  | nestedArray {ty : SynType} {u : σ} (h : F.clientData s ty = some u) :
    FieldCall name (.nestedArray name ty) (.vec (.struct u))

theorem fieldCall_of_mapField {name : Str} {ty : SynType} {call : BuilderCall} {t : RustType σ}
    (h : mapField name ty = .ok call) (ht : F.typeOf s ty = some t)
    (hcertified : ∀ ty ∈ call.inner, (F.clientData s ty).isSome) : FieldCall F s name call t := by
  cases ty with
  | other => cases h
  | path leading ident arguments =>
    rw [mapField] at h
    split_ifs at h with hoption hvec
    · subst hoption
      obtain ⟨inner, t', rfl, ht', rfl⟩ := typeOf_option F s ht
      cases inner with
      | other => cases h
      | path leading' ident' arguments' =>
        cases hprim : primitiveContractCall ident' with
        | some prim =>
          simp only [mapOption, singleGenericArg, bind, Except.bind, hprim] at h
          cases h
          exact .optional (readsAs_of_path F s hprim ht')
        | none =>
          simp only [mapOption, singleGenericArg, bind, Except.bind, hprim] at h
          cases h
          obtain ⟨u, hu, rfl⟩ := eq_struct_of_clientData F s ht' (hcertified _ rfl)
          exact .nestedOptional hu
    · subst hvec
      obtain ⟨inner, t', rfl, ht', rfl⟩ := typeOf_vec F s ht
      cases inner with
      | other => cases h
      | path leading' ident' arguments' =>
        cases hprim : primitiveContractCall ident' with
        | some prim =>
          simp only [mapVec, singleGenericArg, bind, Except.bind, hprim] at h
          cases h
          exact .array (readsAs_of_path F s hprim ht')
        | none =>
          simp only [mapVec, singleGenericArg, bind, Except.bind, hprim] at h
          cases h
          obtain ⟨u, hu, rfl⟩ := eq_struct_of_clientData F s ht' (hcertified _ rfl)
          exact .nestedArray hu
    · cases hprim : primitiveContractCall ident with
      | some prim =>
        simp only [mapPath, hprim] at h
        cases h
        exact .plain (readsAs_of_path F s hprim ht)
      | none =>
        simp only [mapPath, hprim] at h
        cases h
        obtain ⟨u, hu, rfl⟩ := eq_struct_of_clientData F s ht (hcertified _ rfl)
        exact .nested hu

end

/-! ### Values -/

theorem structsInAll_eq : ∀ values : List (Value σ), structsInAll values = values.flatMap structsIn
  | [] => rfl
  | v :: values => by rw [structsInAll, structsInAll_eq values, List.flatMap_cons]

theorem serializeAll_eq (F : Family σ) : ∀ values : List (Value σ), serializeAll F values = values.map (serialize F)
  | [] => rfl
  | v :: values => by rw [serializeAll, serializeAll_eq F values, List.map_cons]

theorem structsIn_of_isScalar {v : Value σ} (h : v.isScalar) : structsIn v = [] := by
  cases v <;> first | rfl | cases h

theorem structsIn_of_isPrimitive {v : Value σ} (h : v.isPrimitive) : structsIn v = [] := by
  cases v with
  | some w =>
    rw [structsIn]
    exact structsIn_of_isScalar h
  | vec items =>
    rw [structsIn, structsInAll_eq, List.flatMap_eq_nil_iff]
    exact fun w hw => structsIn_of_isScalar (List.all_eq_true.mp h w hw)
  | _ => first | rfl | cases h

section
variable {F : Family σ}

theorem plain_of_structsIn_eq_nil {v : Value σ} (h : structsIn v = []) : F.Plain v := by
  intro o ho
  rw [h] at ho
  cases ho

theorem plain_of_isPrimitive {v : Value σ} (h : v.isPrimitive) : F.Plain v :=
  plain_of_structsIn_eq_nil (structsIn_of_isPrimitive h)

theorem plain_some_iff {v : Value σ} : F.Plain (.some v) ↔ F.Plain v := by
  rw [Family.Plain, structsIn]
  rfl

theorem plain_vec_iff {items : List (Value σ)} : F.Plain (.vec items) ↔ ∀ v ∈ items, F.Plain v := by
  simp only [Family.Plain, structsIn, structsInAll_eq, List.mem_flatMap]
  constructor
  · intro h v hv o ho
    exact h o ⟨v, hv, ho⟩
  · rintro h o ⟨v, hv, ho⟩
    exact h v hv o ho

theorem inhabits_readsAs {prim : ContractType} {t : RustType σ} {w : Value σ} (h : ReadsAs prim t)
    (hw : F.HasType t w) :
    (Inhabits (tsType prim) (serialize F w) ↔ w.isScalar) ∧ w.isPrimitive = w.isScalar := by
  obtain ⟨p, rfl, rfl | ⟨u, rfl⟩⟩ := h
  · cases hw with
    | string s => exact ⟨iff_of_true (.string s) rfl, rfl⟩
    | char c => exact ⟨iff_of_true (.string [c]) rfl, rfl⟩
    | url text => exact ⟨iff_of_true (.string text) rfl, rfl⟩
    | bool b => exact ⟨iff_of_true (.boolean b) rfl, rfl⟩
    | number n _ => exact ⟨iff_of_true (.number n) rfl, rfl⟩
  · cases hw
    refine ⟨iff_of_false (fun hinhabits => ?_) nofun, rfl⟩
    cases p <;> cases hinhabits

theorem not_inhabits_null_of_readsAs {prim : ContractType} {t : RustType σ} (h : ReadsAs prim t) :
    ¬ Inhabits (tsType prim) .null := by
  obtain ⟨p, rfl, -⟩ := h
  intro hinhabits
  cases p <;> cases hinhabits

theorem inhabits_objectOf_or_null {inner : PropsSchema} {u : σ} {w : Value σ} (hw : F.HasType (.struct u) w) :
    Inhabits (tsType (.nullable (objectOf inner))) (serialize F w) ↔
      Inhabits (tsType (objectOf inner)) (serialize F w) := by
  rw [tsType, inhabits_union_iff, or_iff_left]
  cases hw
  exact nofun

/-- A field has the type of its prop exactly if the macro reads it right, given that for the structs
    within it. -/
theorem inhabits_field {s : σ} {exposure : SynType → Option PropsSchema} {name : Str} {call : BuilderCall}
    {t : RustType σ} {w : Value σ} {p : Str × PropSchema} (hcall : FieldCall F s name call t)
    (hprop : call.prop exposure = some p) (hw : F.HasType t w)
    (hinner : ∀ ty u inner, F.clientData s ty = some u → exposure ty = some inner → ∀ v, F.HasType (.struct u) v →
      (Inhabits (tsType (objectOf inner)) (serialize F v) ↔ F.Plain v)) :
    Inhabits (tsType p.2.ty) (serialize F w) ↔ (call.inner.isNone → w.isPrimitive) ∧ F.Plain w := by
  cases hcall with
  | plain hreads =>
    cases hprop
    obtain ⟨hscalar, hprimitive⟩ := inhabits_readsAs hreads hw
    rw [hscalar, ← hprimitive]
    exact ⟨fun h => ⟨fun _ => h, plain_of_isPrimitive h⟩, fun h => h.1 rfl⟩
  | optional hreads =>
    cases hprop
    cases hw with
    | none => exact iff_of_false (not_inhabits_null_of_readsAs hreads) fun h => nomatch h.1 rfl
    | some hw =>
      rw [serialize, (inhabits_readsAs hreads hw).1]
      exact ⟨fun h => ⟨fun _ => h, plain_some_iff.mpr (plain_of_structsIn_eq_nil (structsIn_of_isScalar h))⟩,
        fun h => h.1 rfl⟩
  | @array prim t hreads =>
    cases hprop
    cases hw with
    | @vec _ items hitems =>
      rw [tsType, serialize, serializeAll_eq, inhabits_array_iff, List.forall_mem_map]
      have hscalars : (∀ v ∈ items, Inhabits (tsType prim) (serialize F v)) ↔ (Value.vec items).isPrimitive := by
        rw [Value.isPrimitive, List.all_eq_true]
        exact forall₂_congr fun v hv => (inhabits_readsAs hreads (hitems v hv)).1
      rw [hscalars]
      exact ⟨fun h => ⟨fun _ => h, plain_of_isPrimitive h⟩, fun h => h.1 rfl⟩
  | nested hu =>
    obtain ⟨inner, hexposure, rfl⟩ := Option.map_eq_some_iff.mp hprop
    rw [hinner _ _ inner hu hexposure w hw]
    exact (and_iff_right nofun).symm
  | nestedOptional hu =>
    obtain ⟨inner, hexposure, rfl⟩ := Option.map_eq_some_iff.mp hprop
    cases hw with
    | none => exact iff_of_true (.right .null) ⟨nofun, plain_of_structsIn_eq_nil rfl⟩
    | some hw =>
      rw [serialize, inhabits_objectOf_or_null hw, hinner _ _ inner hu hexposure _ hw, plain_some_iff]
      exact (and_iff_right nofun).symm
  | nestedArray hu =>
    obtain ⟨inner, hexposure, rfl⟩ := Option.map_eq_some_iff.mp hprop
    cases hw with
    | @vec _ items hitems =>
      rw [tsType, serialize, serializeAll_eq, inhabits_array_iff, List.forall_mem_map, plain_vec_iff]
      have hplain : (∀ v ∈ items, Inhabits (tsType (objectOf inner)) (serialize F v)) ↔ ∀ v ∈ items, F.Plain v :=
        forall₂_congr fun v hv => hinner _ _ inner hu hexposure v (hitems v hv)
      rw [hplain]
      exact (and_iff_right nofun).symm

/-! ### Structs -/

/-- The prop that stands for a field. -/
def IsProp (F : Family σ) (s : σ) (exposure : SynType → Option PropsSchema) (field : Field) (p : Str × PropSchema) :
    Prop :=
  ∃ call t, mapField field.ident.text field.ty = .ok call ∧ F.typeOf s field.ty = some t ∧
    FieldCall F s field.ident.text call t ∧ call.prop exposure = some p

theorem IsProp.name {s : σ} {exposure : SynType → Option PropsSchema} {field : Field} {p : Str × PropSchema}
    (h : IsProp F s exposure field p) : field.ident.text = p.1 := by
  obtain ⟨call, t, -, -, hcall, hprop⟩ := h
  cases hcall with
  | plain | optional | array =>
    cases hprop
    rfl
  | nested | nestedOptional | nestedArray =>
    obtain ⟨inner, -, rfl⟩ := Option.map_eq_some_iff.mp hprop
    rfl

theorem fieldChains_calls (hF : F.Accepted) (s : σ) : fieldChains (F.fields s) = .ok (F.calls s) := by
  have hexpands := hF.expands s
  rw [Family.calls]
  cases hexpand : F.expand s with
  | error e =>
    rw [hexpand] at hexpands
    cases hexpands
  | ok calls =>
    rw [Family.expand] at hexpand
    cases hname : F.pageName s with
    | none =>
      rw [hname] at hexpand
      exact hexpand
    | some name =>
      rw [hname] at hexpand
      rcases name with _ | ⟨c, name⟩
      · cases hexpand
      · cases hchains : fieldChains (F.fields s) with
        | error e =>
          simp only [page, parsePageName, itemChains, hchains] at hexpand
          cases hexpand
        | ok calls' =>
          simp only [page, parsePageName, itemChains, hchains] at hexpand
          cases hexpand
          rfl

/-- A schema has one prop for each field. -/
theorem exposureSchema_props (hF : F.Accepted) {depth : ℕ} {s : σ} {schema : PropsSchema}
    (h : F.exposureSchema (depth + 1) s = some schema) :
    ∃ props, List.Forall₂ (IsProp F s fun ty => (F.clientData s ty).bind (F.exposureSchema depth)) (F.fields s) props ∧
      schema = ⟨OrdMap.ofList props⟩ := by
  obtain ⟨props, hprops, rfl⟩ := runCalls_eq_some.mp h
  refine ⟨props, forall₂_trans (mapM_eq_ok_iff.mp (fieldChains_calls hF s)) hprops ?_, rfl⟩
  intro field hfield call hcall p hmap hprop
  obtain ⟨t, ht⟩ := Option.isSome_iff_exists.mp (hF.typed s field hfield)
  exact ⟨call, t, hmap, ht, fieldCall_of_mapField F s hmap ht (hF.certified s call hcall), hprop⟩

theorem plain_struct_iff {s : σ} {values : List (Value σ)} (hlength : values.length = (F.fields s).length) :
    F.Plain (.struct s values) ↔ ∀ e ∈ (F.fields s).zip values,
      e.1.ident.raw = false ∧ (e.1.readsPrimitive → e.2.isPrimitive) ∧ F.Plain e.2 := by
  simp only [Family.Plain, structsIn, structsInAll_eq, List.forall_mem_cons, List.mem_flatMap]
  constructor
  · rintro ⟨hself, hinner⟩ e he
    exact ⟨(hself e he).1, (hself e he).2, fun o ho => hinner o ⟨e.2, (List.of_mem_zip he).2, ho⟩⟩
  · intro h
    refine ⟨fun e he => ⟨(h e he).1, (h e he).2.1⟩, ?_⟩
    rintro o ⟨v, hv, ho⟩
    rw [← List.map_snd_zip hlength.le, List.mem_map] at hv
    obtain ⟨e, he, rfl⟩ := hv
    exact (h e he).2.2 o ho

theorem get?_serialize_struct (hF : F.Accepted) {s : σ} {values : List (Value σ)}
    (hlength : values.length = (F.fields s).length) {k : Str} {v : Json} :
    (serialize F (.struct s values)).members.get? k = some v ↔
      ∃ e ∈ (F.fields s).zip values, e.1.ident.name = k ∧ serialize F e.2 = v := by
  have hzip : ((F.fields s).map (·.ident.name)).zip (serializeAll F values) =
      ((F.fields s).zip values).map fun e => (e.1.ident.name, serialize F e.2) := by
    rw [serializeAll_eq, List.zip_map]
    rfl
  have hkeys : ((((F.fields s).zip values).map fun e => (e.1.ident.name, serialize F e.2)).map Prod.fst).Nodup := by
    have hdistinct := hF.distinct s
    rw [← List.map_fst_zip hlength.ge, List.map_map] at hdistinct
    rwa [List.map_map]
  rw [serialize, hzip, Json.get?_objectOf_iff hkeys, List.mem_map]
  simp only [Prod.mk.injEq]

theorem eq_of_name_eq (hF : F.Accepted) {s : σ} {f g : Field} (hf : f ∈ F.fields s) (hg : g ∈ F.fields s)
    (h : f.ident.name = g.ident.name) : f = g := List.inj_on_of_nodup_map (hF.distinct s) hf hg h

theorem nodup_texts (hF : F.Accepted) (s : σ) : ((F.fields s).map (·.ident.text)).Nodup := by
  refine List.pairwise_map.mpr ((List.pairwise_map.mp (hF.distinct s)).imp ?_)
  exact fun hne htext => hne (Ident.name_eq_of_text_eq htext)

section props

variable {s : σ} {exposure : SynType → Option PropsSchema} {props : List (Str × PropSchema)}

/-- The props are named as the fields are called. -/
theorem texts_eq (hprops : List.Forall₂ (IsProp F s exposure) (F.fields s) props) :
    (F.fields s).map (·.ident.text) = props.map Prod.fst :=
  map_eq_of_forall₂ (fun _ _ h => IsProp.name h) hprops

/-- No prop is lost to another of its name. -/
theorem mem_entries_props (hF : F.Accepted) (hprops : List.Forall₂ (IsProp F s exposure) (F.fields s) props)
    (p : Str × PropSchema) : p ∈ (OrdMap.ofList props).entries ↔ p ∈ props :=
  OrdMap.mem_ofList_iff (texts_eq hprops ▸ nodup_texts hF s)

theorem mem_keys_props (hF : F.Accepted) (hprops : List.Forall₂ (IsProp F s exposure) (F.fields s) props) (k : Str) :
    k ∈ (OrdMap.ofList props).entries.map Prod.fst ↔ ∃ f ∈ F.fields s, f.ident.text = k := by
  rw [← List.mem_map (f := fun f : Field => f.ident.text), texts_eq hprops]
  simp only [List.mem_map, mem_entries_props hF hprops]

end props

/-- Each field has a value. -/
theorem exists_value {s : σ} {values : List (Value σ)} (hlength : values.length = (F.fields s).length) {f : Field}
    (hf : f ∈ F.fields s) : ∃ w, (f, w) ∈ (F.fields s).zip values := by
  rw [← List.map_fst_zip hlength.ge, List.mem_map] at hf
  obtain ⟨e, he, rfl⟩ := hf
  exact ⟨e.2, he⟩

/-- The value of a struct has the type of its schema exactly if it is plain, given that for the structs
    within it. -/
theorem inhabits_struct (hF : F.Accepted) {s : σ} {exposure : SynType → Option PropsSchema} {values : List (Value σ)}
    {props : List (Str × PropSchema)} (hprops : List.Forall₂ (IsProp F s exposure) (F.fields s) props)
    (hw : F.HasType (.struct s) (.struct s values))
    (hinner : ∀ ty u inner, F.clientData s ty = some u → exposure ty = some inner → ∀ v, F.HasType (.struct u) v →
      (Inhabits (tsType (objectOf inner)) (serialize F v) ↔ F.Plain v)) :
    Inhabits (tsType (.object (OrdMap.ofList props).entries)) (serialize F (.struct s values)) ↔
      F.Plain (.struct s values) := by
  cases hw with
  | struct hlength htyped =>
    have hget := @get?_serialize_struct σ F hF s values hlength
    have hentries := mem_entries_props hF hprops
    have hfield : ∀ e ∈ (F.fields s).zip values, ∀ p, IsProp F s exposure e.1 p →
        (Inhabits (tsType p.2.ty) (serialize F e.2) ↔ (e.1.readsPrimitive → e.2.isPrimitive) ∧ F.Plain e.2) := by
      rintro e he p ⟨call, t, hmap, ht, hcall, hprop⟩
      rw [inhabits_field hcall hprop (htyped e he t ht) hinner, Field.readsPrimitive, hmap]
    have hkeys := mem_keys_props hF hprops
    rw [show serialize F (.struct s values) = .object (serialize F (.struct s values)).members from rfl,
      inhabits_object, plain_struct_iff hlength]
    constructor
    · rintro ⟨hdeclared, -, hall⟩ e he
      have hmem := (List.of_mem_zip he).1
      have hvalue : (serialize F (.struct s values)).members.get? e.1.ident.name = some (serialize F e.2) :=
        hget.mpr ⟨e, he, rfl, rfl⟩
      -- the member is declared, so a field is written as this one is called: that is this one, unraw
      obtain ⟨g, hg, hname⟩ := (hkeys _).mp (hdeclared e.1.ident.name (by rw [hvalue]; rfl))
      have hraw : g.ident.raw = false := by
        cases h : g.ident.raw with
        | false => rfl
        | true => exact absurd hname (Ident.text_ne_name_of_raw h)
      rw [Ident.text_of_not_raw hraw] at hname
      obtain rfl := eq_of_name_eq hF hg hmem hname
      obtain ⟨p, hp, hprop⟩ := exists_right_of_mem hprops hmem
      refine ⟨hraw, (hfield e he p hprop).mp (hall p ((hentries p).mpr hp) _ ?_)⟩
      rw [← hprop.name, Ident.text_of_not_raw hraw]
      exact hvalue
    · intro h
      have htext : ∀ f ∈ F.fields s, f.ident.text = f.ident.name := by
        intro f hf
        obtain ⟨w, hw⟩ := exists_value hlength hf
        exact Ident.text_of_not_raw (h _ hw).1
      refine ⟨fun k hk => ?_, fun p hp _ => ?_, fun p hp v hv => ?_⟩
      · obtain ⟨v, hv⟩ := Option.isSome_iff_exists.mp hk
        obtain ⟨e, he, rfl, -⟩ := hget.mp hv
        exact (hkeys _).mpr ⟨e.1, (List.of_mem_zip he).1, htext _ (List.of_mem_zip he).1⟩
      · obtain ⟨f, hf, hprop⟩ := exists_left_of_mem hprops ((hentries p).mp hp)
        obtain ⟨w, hw⟩ := exists_value hlength hf
        have hvalue := hget.mpr ⟨_, hw, rfl, rfl⟩
        rw [← hprop.name, htext f hf, hvalue]
        rfl
      · obtain ⟨f, hf, hprop⟩ := exists_left_of_mem hprops ((hentries p).mp hp)
        obtain ⟨e, he, hname, rfl⟩ := hget.mp hv
        rw [← hprop.name, htext f hf] at hname
        obtain rfl := eq_of_name_eq hF (List.of_mem_zip he).1 hf hname
        exact (hfield e he p hprop).mpr (h e he).2

/-- The value of a struct has the type of its schema exactly if it is plain. -/
theorem inhabits_iff_plain (hF : F.Accepted) (depth : ℕ) : ∀ {s : σ} {schema : PropsSchema} {w : Value σ},
    F.exposureSchema depth s = some schema → F.HasType (.struct s) w →
      (Inhabits (tsType (objectOf schema)) (serialize F w) ↔ F.Plain w) := by
  induction depth with
  | zero =>
    intro s schema w h
    cases h
  | succ depth ih =>
    intro s schema w h hw
    obtain ⟨props, hprops, rfl⟩ := exposureSchema_props hF h
    cases hw with
    | struct hlength htyped =>
      refine inhabits_struct hF hprops (.struct hlength htyped) ?_
      intro ty u inner hu hinner v hv
      rw [hu] at hinner
      exact ih hinner hv

end

end Arcature.Inertia.Contracts
