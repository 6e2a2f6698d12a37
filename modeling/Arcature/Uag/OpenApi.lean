import Arcature.Lib.Percent
import Arcature.Uag.TypeMap
import Arcature.Uag.Validate

/-! The OpenAPI document of an artifact (`uag/codegen/openapi.rs`).

    Routes become operations, by path and method, and the types that they name become components:

        paths        /links   get    links.index   200  $ref  #/components/schemas/Link
                              post   links.store   body $ref  #/components/schemas/NewLink
        components   Link, NewLink

    Each of these tables keeps the first of what is put under one key. -/

namespace Arcature.Uag
open Arcature.Lib
open Arcature.Lib.Json (objectOf)

/-- What the graph of the application does not say. -/
structure OpenApiOptions where
  title : Str
  version : Str
  description : Option Str

/-- `OPENAPI_VERSION`. -/
def openApiVersion : Str := "3.1.0".toList

/-! ### Schemas -/

/-- `trim_end_matches`, and `trim_end` with the white space. -/
def trimEndMatches (p : Char → Bool) (s : Str) : Str := (s.reverse.dropWhile p).reverse

/-- `parse_rule`. -/
def parseRule (rule : Str) : Str × List (Str × Str) :=
  let rule := Str.trim rule
  match Str.splitOnce '(' rule with
  | none => (rule, [])
  | some (name, rest) =>
    let body := trimEndMatches (· = ')') (trimEndMatches Str.isWhiteSpace rest)
    let args := (body.splitOn ',').filterMap (Str.splitOnce '=')
    (Str.trim name, args.map fun arg => (Str.trim arg.1, Str.trim arg.2))

/-- An `i64` as JSON. -/
def ofI64 (n : ℤ) : Json :=
  .number (if n < 0 then .negInt (Int64.ofInt n) else .posInt (UInt64.ofNat n.toNat))

/-- An `f64` as JSON: what is not finite is null. -/
def ofF64 (bits : UInt64) : Json :=
  if bits.toNat / 2 ^ 52 % 2 ^ 11 = 2 ^ 11 - 1 then .null else .number (.float bits)

/-- `number_arg`. -/
def numberArg (args : List (Str × Str)) (key : Str) : Option Json := do
  let raw := (← args.find? (·.1 = key)).2
  match parseI64 raw with
  | some n => return ofI64 n
  | none => (parseF64 raw).map ofF64

/-- Set a member if there is a value. -/
def insertSome (m : Map Str Json) (key : Str) (value : Option Json) : Map Str Json :=
  match value with
  | some v => m.insert key v
  | none => m

/-- One round of the loop of `apply_rules`. -/
def applyRule (shape : TypeShape) (m : Map Str Json) (rule : Str) : Map Str Json :=
  let (name, args) := parseRule rule
  if name = "email".toList then m.insert "format".toList (.string "email".toList)
  else if name = "url".toList then m.insert "format".toList (.string "uri".toList)
  else if name = "length".toList then
    let (minKey, maxKey) := match shape with
      | .array _ => ("minItems".toList, "maxItems".toList)
      | _ => ("minLength".toList, "maxLength".toList)
    let m := insertSome m minKey (numberArg args "min".toList)
    let m := insertSome m maxKey (numberArg args "max".toList)
    let m := insertSome m minKey (numberArg args "equal".toList)
    insertSome m maxKey (numberArg args "equal".toList)
  else if name = "range".toList then
    let m := insertSome m "minimum".toList (numberArg args "min".toList)
    insertSome m "maximum".toList (numberArg args "max".toList)
  else m

/-- `apply_rules`. -/
def applyRules (schema : Json) (shape : TypeShape) (rules : List Str) : Json :=
  match schema with
  | .object m => .object (rules.foldl (applyRule shape) m)
  | other => other

/-- `field_schema`. -/
def fieldSchema (field : UagField) : Json :=
  let shape := parse field.ty
  let inner := shape.unwrapped
  let schema := applyRules (jsonSchema inner) inner field.validates
  if shape.isOptional then nullable schema else schema

/-- `object_schema`. -/
def objectSchema (fields : List UagField) : Json :=
  let properties := objectOf (fields.map fun f => (f.name, fieldSchema f))
  let required := (fields.filter fun f => !(parse f.ty).isOptional).map fun f => Json.string f.name
  objectOf ([("type".toList, .string "object".toList), ("properties".toList, properties)] ++
    if required.isEmpty then [] else [("required".toList, .array required)])

/-- `payload_ref_named`. -/
def payloadRefNamed (typeName : Str) (fields : List UagField) : Json :=
  if typeName = [] then objectSchema fields
  else objectOf [("$ref".toList, .string ("#/components/schemas/".toList ++ typeName))]

/-! ### Operations -/

section Operations

-- `to_lowercase`, with the tables of Unicode
variable (toLowercase : Str → Str)

/-- What an unnamed route is called: its method and its path, with `_` for all but letters and digits. -/
def slugId (route : UagRoute) : Str :=
  toLowercase route.method ++
    route.path.map fun c => if c.isAlphanum then c else '_'

/-- `operation_id`. -/
def operationId (route : UagRoute) : Str := if route.name ≠ [] then route.name else slugId toLowercase route

/-- A response or a body of one media type. -/
def content (mediaType : Str) (value : Json) : Json := objectOf [(mediaType, value)]

/-- `responses`. -/
def responses (route : UagRoute) : Option Json :=
  match route.query with
  | some query =>
    let schema := payloadRefNamed query.typeName query.fields
    let schema := if query.array then
        objectOf [("type".toList, .string "array".toList), ("items".toList, schema)]
      else schema
    some (objectOf [("200".toList, objectOf [("description".toList, .string "The query result.".toList),
      ("content".toList, content "application/json".toList (objectOf [("schema".toList, schema)]))])])
  | none =>
    if route.pages = ∅ then none
    else
      let pages := "`, `".toList.intercalate (route.pages.sort (· ≤ ·))
      some (objectOf [("200".toList, objectOf
        [("description".toList, .string ("The Inertia page `".toList ++ pages ++ "`.".toList)),
          ("content".toList, content "text/html".toList (objectOf []))])])

/-- A parameter in the path. -/
def pathParameter (name : Str) : Json :=
  objectOf [("name".toList, .string name), ("in".toList, .string "path".toList),
    ("required".toList, .bool true), ("schema".toList, typeSchema "string".toList)]

/-- A parameter in the query string. -/
def queryParameter (field : UagField) : Json :=
  objectOf [("name".toList, .string field.name), ("in".toList, .string "query".toList),
    ("required".toList, .bool (!(parse field.ty).isOptional)), ("schema".toList, fieldSchema field)]

/-- The parameters of a route. -/
def parameters (route : UagRoute) : List Json :=
  route.params.map pathParameter ++
    ((route.queryString.map fun qs => qs.fields.map queryParameter).getD [])

/-- The body of a request. -/
def requestBody (action : UagPayload) : Json :=
  objectOf [("required".toList, .bool true),
    ("content".toList, content "application/json".toList
      (objectOf [("schema".toList, payloadRefNamed action.typeName action.fields)]))]

/-- `operation`. -/
def operation (route : UagRoute) : Json :=
  objectOf ([("operationId".toList, .string (operationId toLowercase route))] ++
    (if route.module = [] then [] else [("tags".toList, .array [.string route.module])]) ++
    (if (parameters route).isEmpty then [] else [("parameters".toList, .array (parameters route))]) ++
    (match route.action with
      | some action => [("requestBody".toList, requestBody action)]
      | none => []) ++
    (match responses route with
      | some value => [("responses".toList, value)]
      | none => []))

/-! ### The document -/

/-- `openapi_path`: the mark of a wildcard is taken away. -/
def openapiPath : Str → Str
  | '{' :: '*' :: rest => '{' :: openapiPath rest
  | c :: rest => c :: openapiPath rest
  | [] => []

/-- `insert_named`. -/
def insertNamed (schemas : Map Str Json) (typeName : Str) (fields : List UagField) : Map Str Json :=
  if typeName = [] then schemas else schemas.orInsert typeName (objectSchema fields)

/-- `register_schemas`. -/
def registerSchemas (schemas : Map Str Json) (route : UagRoute) : Map Str Json :=
  let schemas := match route.action with
    | some action => insertNamed schemas action.typeName action.fields
    | none => schemas
  match route.query with
  | some query => insertNamed schemas query.typeName query.fields
  | none => schemas

/-- The operation of a route is put under its path and method. -/
def registerPath (paths : Map Str (Map Str Json)) (route : UagRoute) : Map Str (Map Str Json) :=
  let item := (paths.get? (openapiPath route.path)).getD .empty
  paths.insert (openapiPath route.path)
    (item.orInsert (toLowercase route.method) (operation toLowercase route))

/-- `openapi::generate`. -/
def openapi (artifact : UagArtifact) (options : OpenApiOptions) : Json :=
  let info := objectOf ([("title".toList, .string options.title), ("version".toList, .string options.version)] ++
    match options.description with
    | some description => [("description".toList, .string description)]
    | none => [])
  let paths := artifact.routes.foldl (registerPath toLowercase) .empty
  let schemas := artifact.routes.foldl registerSchemas .empty
  objectOf ([("openapi".toList, .string openApiVersion), ("info".toList, info),
      ("paths".toList, .object (paths.map .object))] ++
    if schemas.keys = ∅ then []
    else [("components".toList, objectOf [("schemas".toList, .object schemas)])])

end Operations

end Arcature.Uag
