import Arcature.Inertia.Contracts

/-! `#[page]` and `#[resource]` (`macros/src/schema.rs`, `macros/src/page.rs`, `macros/src/resource.rs`).

    A struct with named fields becomes a chain of calls on the schema builder, one call for each field.
    What a call is follows from the last segment of the type of the field, and of the type within
    `Option` and `Vec`; what is no primitive there has to be a type with a schema of its own:

        title: String              .required "title" string
        bio: Option<String>        .optional "bio" string
        avatar: Option<Avatar>     .nestedOptional "avatar" Avatar
        tags: Vec<Tag>             .nestedArray "tags" Tag

    The name in a call is the identifier as it is written, `r#` included. -/

namespace Arcature.Inertia.Contracts
open Arcature.Lib

/-! ### Items -/

/-- An identifier; `r#type` is `type`, written raw. -/
structure Ident where
  raw : Bool
  name : Str
  noHash : '#' ∉ name

/-- `Ident::to_string`. -/
def Ident.text (ident : Ident) : Str := if ident.raw then "r#".toList ++ ident.name else ident.name

/-- One argument between angle brackets; lifetimes and constants are other ones. -/
inductive GenericArgument (τ : Type) where
  | type (ty : τ)
  | other

/-- `syn::PathArguments`. -/
inductive PathArguments (τ : Type) where
  | none
  | angleBracketed (args : List (GenericArgument τ))
  | parenthesized

/-- `syn::Type`: a path, by the segments before the last one, the last one and its arguments; or a
    reference, a tuple, a slice and the like. -/
inductive SynType where
  | path (leading : List Str) (ident : Str) (arguments : PathArguments SynType)
  | other

/-- A named field. -/
structure Field where
  ident : Ident
  ty : SynType

/-- What an attribute is written on: a struct with named fields, another struct, or no struct. -/
inductive Item where
  | named (fields : List Field)
  | unnamed
  | notStruct (message : Str)

/-! ### Types to calls -/

/-- The codes of the errors. -/
inductive ErrorCode where
  | arcM001
  | arcM002
  | arcM009
  deriving DecidableEq

/-- `MacroError`. -/
structure Refusal where
  code : ErrorCode
  message : Str
  deriving DecidableEq

/-- A call on the builder; a nested type is named and its schema is looked up where the call runs. -/
inductive BuilderCall where
  | required (name : Str) (ty : ContractType)
  | optional (name : Str) (ty : ContractType)
  | nested (name : Str) (ty : SynType)
  | nestedOptional (name : Str) (ty : SynType)
  | nestedArray (name : Str) (ty : SynType)

/-- The texts of an error about a field. -/
def fieldError (fieldName : Str) (complaint : String) : Refusal :=
  ⟨.arcM002, "#[page]/#[resource] field `".toList ++ fieldName ++ complaint.toList⟩

/-- `single_generic_arg`. -/
def singleGenericArg : PathArguments SynType → Except Refusal SynType
  | .angleBracketed (.type ty :: _) => .ok ty
  | .angleBracketed (.other :: _) =>
    .error ⟨.arcM002, "expected a type argument in #[page]/#[resource] field type".toList⟩
  | .angleBracketed [] =>
    .error ⟨.arcM002, "expected one generic argument in #[page]/#[resource] field type".toList⟩
  | _ => .error ⟨.arcM002, "expected generic arguments in #[page]/#[resource] field type".toList⟩

/-- The names that are written as strings. -/
def stringNames : List Str := ["String", "str", "char", "Url"].map String.toList

/-- The names that are written as numbers. -/
def numberNames : List Str :=
  ["u8", "u16", "u32", "u64", "u128", "usize", "i8", "i16", "i32", "i64", "i128", "isize", "f32",
    "f64"].map String.toList

/-- `primitive_contract_call`, of the last segment of a path. -/
def primitiveContractCall (ident : Str) : Option ContractType :=
  if ident ∈ stringNames then some .string
  else if ident = "bool".toList then some .boolean
  else if ident ∈ numberNames then some .number
  else none

/-- `map_option`. -/
def mapOption (fieldName : Str) (arguments : PathArguments SynType) : Except Refusal BuilderCall := do
  match ← singleGenericArg arguments with
  | .path leading ident inner =>
    match primitiveContractCall ident with
    | some prim => return .optional fieldName prim
    | none => return .nestedOptional fieldName (.path leading ident inner)
  | .other => .error (fieldError fieldName "` has an unsupported Option<T> inner type")

/-- `map_vec`. -/
def mapVec (fieldName : Str) (arguments : PathArguments SynType) : Except Refusal BuilderCall := do
  match ← singleGenericArg arguments with
  | .path leading ident inner =>
    match primitiveContractCall ident with
    | some prim => return .required fieldName (.array prim)
    | none => return .nestedArray fieldName (.path leading ident inner)
  | .other => .error (fieldError fieldName "` has an unsupported Vec<T> inner type")

/-- `map_path`. -/
def mapPath (fieldName : Str) (leading : List Str) (ident : Str) (arguments : PathArguments SynType) : BuilderCall :=
  match primitiveContractCall ident with
  | some prim => .required fieldName prim
  | none => .nested fieldName (.path leading ident arguments)

/-- `map_field`. -/
def mapField (fieldName : Str) : SynType → Except Refusal BuilderCall
  | .path leading ident arguments =>
    if ident = "Option".toList then mapOption fieldName arguments
    else if ident = "Vec".toList then mapVec fieldName arguments
    else .ok (mapPath fieldName leading ident arguments)
  | .other =>
    .error (fieldError fieldName
      "` has an unsupported type; use a named struct, a primitive, Option<T>, or Vec<T>")

/-! ### The attributes -/

/-- The chain of calls of a struct: one for each field. -/
def fieldChains (fields : List Field) : Except Refusal (List BuilderCall) :=
  fields.mapM fun field => mapField field.ident.text field.ty

/-- The calls of an item that is a struct with named fields. -/
def itemChains (needed : String) : Item → Except Refusal (List BuilderCall)
  | .named fields => fieldChains fields
  | .unnamed => .error ⟨.arcM002, needed.toList⟩
  | .notStruct message => .error ⟨.arcM001, message⟩

/-- `parse_page_name`; an argument that is no string literal is `none`. -/
def parsePageName : Option Str → Except Refusal Str
  | none =>
    .error ⟨.arcM002, "#[page] requires a string literal page name, e.g. #[page(\"users/show\")]".toList⟩
  | some name =>
    if name = [] then .error ⟨.arcM002, "#[page(\"...\")] name must not be empty".toList⟩ else .ok name

/-- `page`: the name and the calls. -/
def page (attr : Option Str) (item : Item) : Except Refusal (Str × List BuilderCall) := do
  let name ← parsePageName attr
  let calls ← itemChains "#[page] requires a struct with named fields (e.g. `struct Foo \x7b field: Type \x7d`)" item
  return (name, calls)

/-- `resource`: the calls. -/
def resource (attr : Str) (item : Item) : Except Refusal (List BuilderCall) :=
  if attr ≠ [] then .error ⟨.arcM009, "#[resource] takes no arguments (got: ".toList ++ attr ++ ")".toList⟩
  else itemChains "#[resource] requires a struct with named fields (e.g. `struct Foo \x7b field: Type \x7d`)" item

/-! ### The calls on the builder -/

/-- What a call does to a schema, given the schemas of the types that have one. -/
def BuilderCall.run (exposure : SynType → Option PropsSchema) (schema : PropsSchema) : BuilderCall → Option PropsSchema
  | .required name ty => some (schema.required name ty)
  | .optional name ty => some (schema.optional name ty)
  | .nested name ty => (exposure ty).map (schema.nested name)
  | .nestedOptional name ty => (exposure ty).map (schema.nestedOptional name)
  | .nestedArray name ty => (exposure ty).map (schema.nestedArray name)

/-- `exposure_schema`, from its calls. -/
def runCalls (exposure : SynType → Option PropsSchema) (calls : List BuilderCall) : Option PropsSchema :=
  calls.foldlM (BuilderCall.run exposure) PropsSchema.new

/-- The type that a call needs the schema of. -/
def BuilderCall.inner : BuilderCall → Option SynType
  | .required _ _ | .optional _ _ => none
  | .nested _ ty | .nestedOptional _ ty | .nestedArray _ ty => some ty

end Arcature.Inertia.Contracts
