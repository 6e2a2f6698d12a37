import Arcature.Uag.OpenApi

/-! What the OpenAPI document says of each route.

    Every route is to have an operation of its own, under an id of its own, and what is referred to
    there is to be the schema of the route's own fields. The tables of the document keep the first of
    what is put under one key, so another route can be in the way in three places:

        path and method    GET /files/{*path}, GET /files/{path}     one operation
        operationId        GET /a-b, GET /a_b, both unnamed          get_a_b twice
        type name          admin::Link, shop::Link                   one component Link

    Nothing else can go wrong (`describesRoutes_iff`). -/

namespace Arcature.Uag
open Arcature.Lib
open Arcature.Lib.Json (objectOf)

/-! ### References in a document -/

/-- What a `$ref` refers to: a JSON pointer in the fragment of a URI. -/
def resolve (document : Json) : Str → Option Json
  | '#' :: fragment => do
    let text ← Str.ofBytes? (percentDecode (Str.bytes fragment))
    document.pointer (← Json.pointerTokens text)
  | _ => none

/-- What the reference to a type names below the components. It is the name of the type, as long as
    that has no `/`, `~` or `%`. -/
def refTokens (typeName : Str) : Option (List Str) := do
  let text ← Str.ofBytes? (percentDecode (Str.bytes typeName))
  (text.splitOn '/').mapM Json.unescapeToken

theorem refTokens_eq_self {typeName : Str} (hpercent : '%' ∉ typeName) (hslash : '/' ∉ typeName)
    (htilde : '~' ∉ typeName) : refTokens typeName = some [typeName] := by
  have hunescape : ∀ s : Str, '~' ∉ s → Json.unescapeToken s = some s := by
    intro s hs
    fun_induction Json.unescapeToken s with
    | case1 => rfl
    | case2 s ih => exact absurd List.mem_cons_self hs
    | case3 s ih => exact absurd List.mem_cons_self hs
    | case4 s => exact absurd List.mem_cons_self hs
    | case5 c s _ _ _ ih => rw [ih fun h => hs (List.mem_cons_of_mem c h), Option.map_some]
  rw [refTokens, percentDecode_bytes hpercent, Str.ofBytes?_bytes, Option.bind_eq_bind, Option.bind_some,
    List.splitOn_eq_singleton hslash, List.mapM_cons, hunescape typeName htilde]
  rfl

theorem pointerTokens_ref (text : Str) :
    Json.pointerTokens ("/components/schemas/".toList ++ text) =
      ((text.splitOn '/').mapM Json.unescapeToken).map ("components".toList :: "schemas".toList :: ·) := by
  have hsplit : ("components".toList ++ '/' :: ("schemas".toList ++ '/' :: text)).splitOn '/' =
      "components".toList :: "schemas".toList :: text.splitOn '/' := by
    rw [List.splitOn_append_cons_self, List.splitOn_append_cons_self, List.splitOn_eq_singleton (by decide),
      List.splitOn_eq_singleton (by decide)]
    rfl
  change (("components".toList ++ '/' :: ("schemas".toList ++ '/' :: text)).splitOn '/').mapM
    Json.unescapeToken = _
  have hcomponents : Json.unescapeToken "components".toList = some "components".toList := by decide
  have hschemas : Json.unescapeToken "schemas".toList = some "schemas".toList := by decide
  rw [hsplit, List.mapM_cons, List.mapM_cons, hcomponents, hschemas]
  cases (text.splitOn '/').mapM Json.unescapeToken <;> rfl

theorem resolve_ref (document : Json) (typeName : Str) :
    resolve document ("#/components/schemas/".toList ++ typeName) =
      (refTokens typeName).bind fun tokens =>
        document.pointer ("components".toList :: "schemas".toList :: tokens) := by
  have hopening := @ofBytes?_percentDecode_append "/components/schemas/".toList (by decide) typeName
  change ((Str.ofBytes? (percentDecode (Str.bytes ("/components/schemas/".toList ++ typeName)))).bind fun text =>
    (Json.pointerTokens text).bind document.pointer) = _
  rw [hopening, Option.bind_map, refTokens, Option.bind_eq_bind, Option.bind_assoc]
  refine Option.bind_congr fun text _ => ?_
  rw [Function.comp_apply, pointerTokens_ref, Option.bind_map]
  rfl

/-! ### What lies below a schema -/

/-- Nothing below a value has properties. -/
def NoProperties (v : Json) : Prop :=
  ∀ path w, v.pointer path = some w → w.members.get? "properties".toList = none

theorem noProperties_leaf {v : Json} (hobject : ∀ m, v ≠ .object m) (harray : ∀ items, v ≠ .array items) :
    NoProperties v := by
  intro path w h
  cases path with
  | nil =>
    obtain rfl : v = w := by simpa [Json.pointer] using h
    cases v with
    | object m => exact absurd rfl (hobject m)
    | _ => simp [Json.members]
  | cons token rest =>
    cases v with
    | object m => exact absurd rfl (hobject m)
    | array items => exact absurd rfl (harray items)
    | _ => simp [Json.pointer] at h

theorem noProperties_array {items : List Json} (h : ∀ v ∈ items, NoProperties v) : NoProperties (.array items) := by
  intro path w hw
  cases path with
  | nil =>
    obtain rfl : Json.array items = w := by simpa [Json.pointer] using hw
    simp [Json.members]
  | cons token rest =>
    rw [Json.pointer, Option.bind_eq_some_iff] at hw
    obtain ⟨v, hv, hw⟩ := hw
    obtain ⟨i, -, hi⟩ := Option.bind_eq_some_iff.mp hv
    exact h v (List.mem_of_getElem? hi) rest w hw

theorem noProperties_object {m : Map Str Json} (hm : m.get? "properties".toList = none)
    (h : ∀ k v, m.get? k = some v → NoProperties v) : NoProperties (.object m) := by
  intro path w hw
  cases path with
  | nil =>
    obtain rfl : Json.object m = w := by simpa [Json.pointer] using hw
    exact hm
  | cons token rest =>
    rw [Json.pointer, Option.bind_eq_some_iff] at hw
    obtain ⟨v, hv, hw⟩ := hw
    exact h token v hv rest w hw

theorem noProperties_insert {m : Map Str Json} (h : NoProperties (.object m)) {k : Str}
    (hk : k ≠ "properties".toList) {v : Json} (hv : NoProperties v) : NoProperties (.object (m.insert k v)) := by
  refine noProperties_object ?_ fun x w hx => ?_
  · rw [Map.get?_insert, if_neg (Ne.symm hk)]
    exact h [] (.object m) (by simp [Json.pointer])
  · rw [Map.get?_insert] at hx
    split at hx
    · rwa [← Option.some_inj.mp hx]
    · intro path u hu
      refine h (x :: path) u ?_
      rw [Json.pointer, hx]
      exact hu

theorem noProperties_empty : NoProperties (.object .empty) :=
  noProperties_object (Map.get?_empty _) fun k v h => by simp at h

theorem noProperties_string (s : Str) : NoProperties (.string s) :=
  noProperties_leaf (fun _ h => by cases h) fun _ h => by cases h

theorem noProperties_typeSchema (name : Str) : NoProperties (typeSchema name) :=
  noProperties_insert noProperties_empty (by decide) (noProperties_string name)

theorem noProperties_nullable {schema : Json} (h : NoProperties schema) : NoProperties (nullable schema) := by
  refine noProperties_insert noProperties_empty (by decide) (noProperties_array ?_)
  rintro v hv
  rcases List.mem_pair.mp hv with rfl | rfl
  · exact h
  · exact noProperties_typeSchema _

theorem noProperties_jsonSchema (shape : TypeShape) : NoProperties (jsonSchema shape) := by
  induction shape with
  | string => exact noProperties_typeSchema _
  | number => exact noProperties_typeSchema _
  | boolean => exact noProperties_typeSchema _
  | unknown => exact noProperties_empty
  | optional inner ih => exact noProperties_nullable ih
  | array inner ih =>
    exact noProperties_insert (noProperties_typeSchema _) (by decide) ih

theorem noProperties_ofF64 (bits : UInt64) : NoProperties (ofF64 bits) := by
  rw [ofF64]
  split
  · exact noProperties_leaf (fun _ h => by cases h) fun _ h => by cases h
  · exact noProperties_leaf (fun _ h => by cases h) fun _ h => by cases h

theorem noProperties_numberArg {args : List (Str × Str)} {key : Str} {v : Json}
    (h : numberArg args key = some v) : NoProperties v := by
  rw [numberArg] at h
  obtain ⟨raw, -, h⟩ := Option.bind_eq_some_iff.mp h
  cases hint : parseI64 raw.2 with
  | some n =>
    simp only [hint] at h
    obtain rfl : ofI64 n = v := Option.some_inj.mp h
    exact noProperties_leaf (fun _ h => by cases h) fun _ h => by cases h
  | none =>
    simp only [hint] at h
    obtain ⟨bits, -, rfl⟩ := Option.map_eq_some_iff.mp h
    exact noProperties_ofF64 bits

theorem noProperties_insertSome {m : Map Str Json} (h : NoProperties (.object m)) {k : Str}
    (hk : k ≠ "properties".toList) (args : List (Str × Str)) (key : Str) :
    NoProperties (.object (insertSome m k (numberArg args key))) := by
  cases hv : numberArg args key with
  | none => exact h
  | some v => exact noProperties_insert h hk (noProperties_numberArg hv)

theorem noProperties_applyRule {shape : TypeShape} {m : Map Str Json} (h : NoProperties (.object m)) (rule : Str) :
    NoProperties (.object (applyRule shape m rule)) := by
  unfold applyRule
  obtain ⟨name, args⟩ := parseRule rule
  dsimp only
  split_ifs
  · exact noProperties_insert h (by decide) (noProperties_string _)
  · exact noProperties_insert h (by decide) (noProperties_string _)
  · -- the keys of a length are those of lists or those of texts
    have hkeys : ∀ minKey maxKey : Str, minKey ≠ "properties".toList → maxKey ≠ "properties".toList →
        NoProperties (.object (insertSome (insertSome (insertSome (insertSome m
          minKey (numberArg args "min".toList)) maxKey (numberArg args "max".toList))
          minKey (numberArg args "equal".toList)) maxKey (numberArg args "equal".toList))) := by
      intro minKey maxKey hmin hmax
      have hbounds := noProperties_insertSome (noProperties_insertSome h hmin args "min".toList) hmax args "max".toList
      exact noProperties_insertSome (noProperties_insertSome hbounds hmin args _) hmax args _
    cases shape with
    | array inner => exact hkeys "minItems".toList "maxItems".toList (by decide) (by decide)
    | _ => exact hkeys "minLength".toList "maxLength".toList (by decide) (by decide)
  · exact noProperties_insertSome (noProperties_insertSome h (by decide) _ _) (by decide) _ _
  · exact h

theorem noProperties_applyRules {schema : Json} (h : NoProperties schema) (shape : TypeShape) (rules : List Str) :
    NoProperties (applyRules schema shape rules) := by
  cases schema with
  | object m =>
    rw [applyRules]
    induction rules generalizing m with
    | nil => exact h
    | cons rule rules ih => exact ih _ (noProperties_applyRule h rule)
  | _ => exact h

theorem noProperties_fieldSchema (field : UagField) : NoProperties (fieldSchema field) := by
  have hinner := noProperties_applyRules (noProperties_jsonSchema (parse field.ty).unwrapped)
    (parse field.ty).unwrapped field.validates
  rw [fieldSchema]
  split
  · exact noProperties_nullable hinner
  · exact hinner

theorem exists_fieldSchema_eq_object (field : UagField) : ∃ m, fieldSchema field = .object m := by
  have hrules : ∀ shape : TypeShape, ∃ m, applyRules (jsonSchema shape) shape field.validates = .object m := by
    intro shape
    cases shape <;> exact ⟨_, rfl⟩
  rw [fieldSchema]
  split
  · exact ⟨_, rfl⟩
  · exact hrules _

/-! ### Components -/

/-- The properties of an object schema. -/
def properties (fields : List UagField) : Json := objectOf (fields.map fun f => (f.name, fieldSchema f))

theorem get?_objectSchema_type (fields : List UagField) :
    (objectSchema fields).members.get? "type".toList = some (.string "object".toList) := by
  rw [objectSchema, Json.get?_objectOf_append]
  split <;> simp

theorem get?_objectSchema_properties (fields : List UagField) :
    (objectSchema fields).members.get? "properties".toList = some (properties fields) := by
  rw [objectSchema, Json.get?_objectOf_append]
  split <;> simp [properties]

theorem objectSchema_ne_of_noProperties {v : Json} (h : NoProperties v) {path : List Str} (fields : List UagField) :
    v.pointer path ≠ some (objectSchema fields) := by
  intro hv
  have hnone := h path _ hv
  rw [get?_objectSchema_properties] at hnone
  cases hnone

theorem pointer_objectOf_cons (l : List (Str × Json)) (token : Str) (rest : List Str) :
    (objectOf l).pointer (token :: rest) = ((objectOf l).members.get? token).bind (·.pointer rest) := rfl

theorem get?_objectOf_self (key : Str) (value : Json) : (objectOf [(key, value)]).members.get? key = some value := by
  simp

/-- What lies below the properties is not the schema of a type. -/
theorem pointer_properties_ne (fields fields' : List UagField) (path : List Str) :
    (properties fields).pointer path ≠ some (objectSchema fields') := by
  intro h
  cases path with
  | nil =>
    have hself : properties fields = objectSchema fields' := by simpa [Json.pointer] using h
    have htype := get?_objectSchema_type fields'
    rw [← hself] at htype
    obtain ⟨f, -, hf⟩ := List.mem_map.mp (Json.mem_of_get?_objectOf htype)
    obtain ⟨m, hm⟩ := exists_fieldSchema_eq_object f
    rw [hm] at hf
    cases (Prod.mk.inj hf).2
  | cons token rest =>
    rw [properties, pointer_objectOf_cons, Option.bind_eq_some_iff] at h
    obtain ⟨v, hv, h⟩ := h
    obtain ⟨f, -, hf⟩ := List.mem_map.mp (Json.mem_of_get?_objectOf hv)
    obtain ⟨rfl, rfl⟩ := Prod.mk.inj hf
    exact objectSchema_ne_of_noProperties (noProperties_fieldSchema f) fields' h

/-- A pointer from one type's schema to another's is empty. -/
theorem pointer_objectSchema {fields fields' : List UagField} {path : List Str}
    (h : (objectSchema fields).pointer path = some (objectSchema fields')) : path = [] := by
  cases path with
  | nil => rfl
  | cons token rest =>
    rw [objectSchema, pointer_objectOf_cons, Option.bind_eq_some_iff] at h
    obtain ⟨v, hv, h⟩ := h
    rcases List.mem_append.mp (Json.mem_of_get?_objectOf hv) with hmem | hmem
    · rcases List.mem_pair.mp hmem with hmem | hmem
      · obtain ⟨-, rfl⟩ := Prod.mk.inj hmem
        exact absurd h (objectSchema_ne_of_noProperties (noProperties_string _) fields')
      · obtain ⟨-, rfl⟩ := Prod.mk.inj hmem
        exact absurd h (pointer_properties_ne fields fields' rest)
    · split at hmem
      · cases hmem
      · obtain ⟨-, rfl⟩ := Prod.mk.inj (List.mem_singleton.mp hmem)
        refine absurd h (objectSchema_ne_of_noProperties (noProperties_array ?_) fields')
        intro v hv
        obtain ⟨f, -, rfl⟩ := List.mem_map.mp hv
        exact noProperties_string _

/-- A type with its fields, if it has a name. -/
def named (typeName : Str) (fields : List UagField) : List (Str × List UagField) :=
  if typeName = [] then [] else [(typeName, fields)]

/-- The types that a route names. -/
def payloads (route : UagRoute) : List (Str × List UagField) :=
  (route.action.elim [] fun a => named a.typeName a.fields) ++
    route.query.elim [] fun q => named q.typeName q.fields

theorem get?_insertNamed (schemas : Map Str Json) (typeName : Str) (fields : List UagField) (k : Str) :
    (insertNamed schemas typeName fields).get? k =
      (schemas.get? k).or (((named typeName fields).find? (·.1 = k)).map fun p => objectSchema p.2) := by
  rw [insertNamed, named]
  by_cases htype : typeName = []
  · simp [htype]
  · by_cases hk : k = typeName
    · simp [htype, hk]
    · simp [htype, hk, Ne.symm hk]

theorem get?_registerSchemas (schemas : Map Str Json) (route : UagRoute) (k : Str) :
    (registerSchemas schemas route).get? k =
      (schemas.get? k).or (((payloads route).find? (·.1 = k)).map fun p => objectSchema p.2) := by
  rw [registerSchemas, payloads, List.find?_append, Option.map_or, ← Option.or_assoc]
  cases route.action <;> cases route.query <;> simp [get?_insertNamed]

theorem get?_schemas (routes : List UagRoute) (schemas : Map Str Json) (k : Str) :
    (routes.foldl registerSchemas schemas).get? k =
      (schemas.get? k).or (((routes.flatMap payloads).find? (·.1 = k)).map fun p => objectSchema p.2) := by
  induction routes generalizing schemas with
  | nil => simp
  | cons r routes ih =>
    rw [List.foldl_cons, ih, get?_registerSchemas, List.flatMap_cons, List.find?_append, Option.map_or,
      Option.or_assoc]

theorem refTokens_ne_nil {typeName : Str} {tokens : List Str} (h : refTokens typeName = some tokens) : tokens ≠ [] := by
  rw [refTokens] at h
  obtain ⟨text, -, h⟩ := Option.bind_eq_some_iff.mp h
  obtain ⟨first, rest, hsplit⟩ := List.exists_cons_of_ne_nil (List.splitOn_ne_nil '/' text)
  rw [hsplit, List.mapM_cons] at h
  obtain ⟨token, -, h⟩ := Option.bind_eq_some_iff.mp h
  obtain ⟨tokens', -, h⟩ := Option.bind_eq_some_iff.mp h
  obtain rfl : token :: tokens' = tokens := Option.some_inj.mp h
  exact List.cons_ne_nil token tokens'

section Document

variable (toLowercase : Str → Str) (artifact : UagArtifact) (options : OpenApiOptions)

theorem pointer_component (token : Str) (rest : List Str) :
    (openapi toLowercase artifact options).pointer ("components".toList :: "schemas".toList :: token :: rest) =
      ((artifact.routes.flatMap payloads).find? (·.1 = token)).bind fun p => (objectSchema p.2).pointer rest := by
  have hschemas := get?_schemas artifact.routes .empty token
  rw [Map.get?_empty, Option.none_or] at hschemas
  rw [openapi, pointer_objectOf_cons, Json.get?_objectOf_append]
  split
  · -- a document without components has no types
    rename_i hempty
    rw [Map.get?_eq_none_of_keys_eq_empty hempty, eq_comm, Option.map_eq_none_iff] at hschemas
    have hnone : ∀ version info paths : Json, (objectOf [("openapi".toList, version), ("info".toList, info),
        ("paths".toList, paths)]).members.get? "components".toList = none := by simp
    rw [Json.get?_objectOf_nil, Option.none_or, hnone, Option.bind_none, hschemas, Option.bind_none]
  · rw [get?_objectOf_self, Option.some_or, Option.bind_some, pointer_objectOf_cons, get?_objectOf_self,
      Option.bind_some, Json.pointer, hschemas, Option.bind_map]
    rfl

/-- A reference to a type is one to the schema of certain fields exactly if the type that it names was
    first put under its name with such fields. -/
theorem resolve_ref_iff (typeName : Str) (fields : List UagField) :
    resolve (openapi toLowercase artifact options) ("#/components/schemas/".toList ++ typeName) =
        some (objectSchema fields) ↔
      ∃ token first, refTokens typeName = some [token] ∧
        (artifact.routes.flatMap payloads).find? (·.1 = token) = some (token, first) ∧
        objectSchema first = objectSchema fields := by
  rw [resolve_ref, Option.bind_eq_some_iff]
  constructor
  · rintro ⟨tokens, htokens, h⟩
    obtain ⟨token, rest, rfl⟩ := List.exists_cons_of_ne_nil (refTokens_ne_nil htokens)
    rw [pointer_component, Option.bind_eq_some_iff] at h
    obtain ⟨⟨name, first⟩, hfirst, h⟩ := h
    obtain rfl : name = token := by simpa using List.find?_some hfirst
    obtain rfl := pointer_objectSchema h
    exact ⟨name, first, htokens, hfirst, by simpa [Json.pointer] using h⟩
  · rintro ⟨token, first, htokens, hfirst, h⟩
    refine ⟨[token], htokens, ?_⟩
    rw [pointer_component, hfirst, Option.bind_some, ← h]
    simp [Json.pointer]

/-! ### Operations -/

/-- The operation at a path and a method. -/
def operationAt (document : Json) (path method : Str) : Option Json :=
  document.follow ["paths".toList, path, method]

theorem get?_paths (routes : List UagRoute) (paths : Map Str (Map Str Json)) (path method : Str) :
    ((routes.foldl (registerPath toLowercase) paths).get? path).bind (·.get? method) =
      ((paths.get? path).bind (·.get? method)).or
        ((routes.find? fun r => openapiPath r.path = path ∧ toLowercase r.method = method).map
          (operation toLowercase)) := by
  induction routes generalizing paths with
  | nil => simp
  | cons r routes ih =>
    rw [List.foldl_cons, ih, registerPath, Map.get?_insert]
    by_cases hpath : path = openapiPath r.path
    · subst hpath
      by_cases hmethod : method = toLowercase r.method
      · subst hmethod
        cases paths.get? (openapiPath r.path) with
        | none => simp
        | some item => cases hop : item.get? (toLowercase r.method) <;> simp [hop]
      · cases paths.get? (openapiPath r.path) with
        | none => simp [hmethod, Ne.symm hmethod]
        | some item => cases hop : item.get? method <;> simp [hop, hmethod, Ne.symm hmethod]
    · simp [hpath, Ne.symm hpath]

theorem operationAt_openapi (path method : Str) :
    operationAt (openapi toLowercase artifact options) path method =
      (artifact.routes.find? fun r => openapiPath r.path = path ∧ toLowercase r.method = method).map
        (operation toLowercase) := by
  have hpaths := get?_paths toLowercase artifact.routes .empty path method
  rw [Map.get?_empty, Option.bind_none, Option.none_or] at hpaths
  have hdocument : (openapi toLowercase artifact options).members.get? "paths".toList =
      some (.object ((artifact.routes.foldl (registerPath toLowercase) .empty).map .object)) := by
    rw [openapi, Json.get?_objectOf_append]
    split <;> simp
  rw [operationAt, Json.follow_cons, hdocument, Option.bind_some, Json.follow_cons, ← hpaths]
  simp only [Json.members, Map.get?_map, Option.bind_map]
  refine Option.bind_congr fun item _ => ?_
  rw [Function.comp_apply, Json.follow_cons]
  simp [Json.members]

end Document

/-- The reference of a schema. -/
def refOf (schema : Json) : Option Str :=
  match schema.members.get? "$ref".toList with
  | some (.string ref) => some ref
  | _ => none

/-- The id of an operation. -/
def idOf (op : Json) : Option Str :=
  match op.members.get? "operationId".toList with
  | some (.string id) => some id
  | _ => none

/-- The schema of what an operation takes, or of what it answers. -/
def jsonContent (v : Json) : Option Json := v.follow ["content".toList, "application/json".toList, "schema".toList]

/-- The reference that an operation uses for the body of its request. -/
def bodyRef (op : Json) : Option Str :=
  ((op.members.get? "requestBody".toList).bind jsonContent).bind refOf

/-- The reference that an operation uses for its response, or for the items of it. -/
def responseRef (op : Json) : Option Str :=
  ((op.follow ["responses".toList, "200".toList]).bind jsonContent).bind fun schema =>
    (refOf schema).or ((schema.members.get? "items".toList).bind refOf)

theorem get?_objectSchema_ref (fields : List UagField) : (objectSchema fields).members.get? "$ref".toList = none := by
  rw [objectSchema, Json.get?_objectOf_append]
  split <;> simp

theorem get?_objectSchema_items (fields : List UagField) : (objectSchema fields).members.get? "items".toList = none := by
  rw [objectSchema, Json.get?_objectOf_append]
  split <;> simp

theorem refOf_payloadRefNamed (typeName : Str) (fields : List UagField) :
    refOf (payloadRefNamed typeName fields) =
      if typeName = [] then none else some ("#/components/schemas/".toList ++ typeName) := by
  rw [refOf, payloadRefNamed]
  by_cases htype : typeName = []
  · rw [if_pos htype, if_pos htype, get?_objectSchema_ref]
  · rw [if_neg htype, if_neg htype, get?_objectOf_self]

theorem get?_payloadRefNamed_items (typeName : Str) (fields : List UagField) :
    (payloadRefNamed typeName fields).members.get? "items".toList = none := by
  rw [payloadRefNamed]
  split
  · exact get?_objectSchema_items fields
  · simp

section Operation

variable (toLowercase : Str → Str) (r : UagRoute)

theorem idOf_operation : idOf (operation toLowercase r) = some (operationId toLowercase r) := by
  have hid : (operation toLowercase r).members.get? "operationId".toList =
      some (.string (operationId toLowercase r)) := by
    rw [operation]
    simp only [Json.get?_objectOf_append]
    cases r.action <;> cases responses r <;> split_ifs <;> simp
  rw [idOf, hid]

theorem get?_operation_requestBody :
    (operation toLowercase r).members.get? "requestBody".toList = r.action.map requestBody := by
  rw [operation]
  simp only [Json.get?_objectOf_append]
  cases r.action <;> cases responses r <;> split_ifs <;> simp

theorem get?_operation_responses :
    (operation toLowercase r).members.get? "responses".toList = responses r := by
  rw [operation]
  simp only [Json.get?_objectOf_append]
  cases r.action <;> cases responses r <;> split_ifs <;> simp

theorem jsonContent_content (key : Str) (value schema : Json) :
    jsonContent (objectOf [(key, value), ("content".toList, content "application/json".toList
      (objectOf [("schema".toList, schema)]))]) = some schema := by
  rw [jsonContent, Json.follow_cons, Json.get?_objectOf_cons, get?_objectOf_self, Option.some_or, Option.bind_some,
    content, Json.follow_cons, get?_objectOf_self, Option.bind_some, Json.follow_cons, get?_objectOf_self,
    Option.bind_some, Json.follow_nil]

theorem jsonContent_html (key : Str) (value page : Json) :
    jsonContent (objectOf [(key, value), ("content".toList, content "text/html".toList page)]) = none := by
  have hother : (objectOf [("text/html".toList, page)]).members.get? "application/json".toList = none := by simp
  rw [jsonContent, Json.follow_cons, Json.get?_objectOf_cons, get?_objectOf_self, Option.some_or, Option.bind_some,
    content, Json.follow_cons, hother, Option.bind_none]

theorem bodyRef_operation :
    bodyRef (operation toLowercase r) = r.action.bind fun a => refOf (payloadRefNamed a.typeName a.fields) := by
  rw [bodyRef, get?_operation_requestBody]
  cases r.action with
  | none => rfl
  | some a =>
    rw [Option.map_some, Option.bind_some, requestBody, jsonContent_content, Option.bind_some, Option.bind_some]

/-- The items of a list have its reference. -/
theorem refOf_items (schema : Json) :
    (refOf (objectOf [("type".toList, .string "array".toList), ("items".toList, schema)])).or
      (((objectOf [("type".toList, .string "array".toList), ("items".toList, schema)]).members.get?
        "items".toList).bind refOf) = refOf schema := by
  have href : (objectOf [("type".toList, .string "array".toList), ("items".toList, schema)]).members.get?
      "$ref".toList = none := by simp
  rw [refOf, href, Option.none_or, Json.get?_objectOf_cons, get?_objectOf_self, Option.some_or, Option.bind_some]

theorem responseRef_operation :
    responseRef (operation toLowercase r) = r.query.bind fun q => refOf (payloadRefNamed q.typeName q.fields) := by
  rw [responseRef, Json.follow_cons, get?_operation_responses, responses]
  cases r.query with
  | none =>
    by_cases hpages : r.pages = ∅
    · rw [if_pos hpages]
      rfl
    · dsimp only
      generalize _ ++ _ ++ "`.".toList = description
      rw [if_neg hpages, Option.bind_some, Json.follow_cons, get?_objectOf_self, Option.bind_some, Json.follow_nil,
        Option.bind_some, jsonContent_html]
      rfl
  | some q =>
    dsimp only
    generalize "The query result.".toList = description
    rw [Option.bind_some, Json.follow_cons, get?_objectOf_self, Option.bind_some, Json.follow_nil, Option.bind_some,
      jsonContent_content, Option.bind_some, Option.bind_some]
    split
    · exact refOf_items _
    · rw [get?_payloadRefNamed_items, Option.bind_none, Option.or_none]

end Operation

/-! ### Every route with its own payloads -/

section Routes

variable (toLowercase : Str → Str)

/-- The operation at the path and the method of a route. -/
def routeOperation (document : Json) (r : UagRoute) : Option Json :=
  operationAt document (openapiPath r.path) (toLowercase r.method)

/-- The document describes every route: there is its operation, under an id that no other route has,
    and the references used there are to the schemas of its own fields. -/
structure DescribesRoutes (artifact : UagArtifact) (options : OpenApiOptions) : Prop where
  own : ∀ r ∈ artifact.routes,
    routeOperation toLowercase (openapi toLowercase artifact options) r = some (operation toLowercase r)
  ids : artifact.routes.Pairwise fun r r' =>
    (routeOperation toLowercase (openapi toLowercase artifact options) r).bind idOf ≠
      (routeOperation toLowercase (openapi toLowercase artifact options) r').bind idOf
  body : ∀ r ∈ artifact.routes, ∀ op ref,
    routeOperation toLowercase (openapi toLowercase artifact options) r = some op → bodyRef op = some ref →
      ∃ action, r.action = some action ∧
        resolve (openapi toLowercase artifact options) ref = some (objectSchema action.fields)
  response : ∀ r ∈ artifact.routes, ∀ op ref,
    routeOperation toLowercase (openapi toLowercase artifact options) r = some op → responseRef op = some ref →
      ∃ query, r.query = some query ∧
        resolve (openapi toLowercase artifact options) ref = some (objectSchema query.fields)

/-- No route is in the way of another: routes differ in path or method, the texts that stand for
    unnamed routes are no one else's, and the first type of the name that a reference reads as has the
    schema of the type referred to. -/
structure Apart (routes : List UagRoute) : Prop where
  keys : routes.Pairwise fun r r' => ¬ (openapiPath r.path = openapiPath r'.path ∧
    toLowercase r.method = toLowercase r'.method)
  slugs : routes.Pairwise fun r r' =>
    (r.name = [] → r'.name = [] → slugId toLowercase r ≠ slugId toLowercase r') ∧
    (r.name = [] → r'.name ≠ [] → slugId toLowercase r ≠ r'.name) ∧
    (r.name ≠ [] → r'.name = [] → r.name ≠ slugId toLowercase r')
  types : ∀ r ∈ routes, ∀ p ∈ payloads r, ∃ token first, refTokens p.1 = some [token] ∧
    (routes.flatMap payloads).find? (·.1 = token) = some (token, first) ∧ objectSchema first = objectSchema p.2

variable {toLowercase} {artifact : UagArtifact} {options : OpenApiOptions}

theorem mem_payloads {r : UagRoute} {p : Str × List UagField} :
    p ∈ payloads r ↔ p.1 ≠ [] ∧ ((∃ a, r.action = some a ∧ p = (a.typeName, a.fields)) ∨
      ∃ q, r.query = some q ∧ p = (q.typeName, q.fields)) := by
  have hnamed : ∀ typeName fields, p ∈ named typeName fields ↔ p.1 ≠ [] ∧ p = (typeName, fields) := by
    intro typeName fields
    rw [named]
    split
    · rename_i htype
      simp only [List.not_mem_nil, false_iff, not_and]
      rintro hp rfl
      exact hp htype
    · rename_i htype
      rw [List.mem_singleton]
      constructor
      · rintro rfl
        exact ⟨htype, rfl⟩
      · exact And.right
  rw [payloads, List.mem_append]
  cases r.action <;> cases r.query <;> simp [hnamed, and_or_left]

theorem find?_eq_some_of_pairwise {α : Type} {R : α → α → Prop} {l : List α} (hl : l.Pairwise R) {p : α → Bool}
    {a : α} (ha : a ∈ l) (hp : p a) (hR : ∀ b, p b → ¬ R b a) : l.find? p = some a := by
  cases hfind : l.find? p with
  | none => exact absurd hp (List.find?_eq_none.mp hfind a ha)
  | some b =>
    obtain ⟨hb, front, back, rfl, hfront⟩ := List.find?_eq_some_iff_append.mp hfind
    rcases List.mem_append.mp ha with ha | ha
    · exact absurd hp (by simpa using hfront a ha)
    · rcases List.mem_cons.mp ha with rfl | ha
      · rfl
      · exact absurd ((List.pairwise_cons.mp (List.pairwise_append.mp hl).2.1).1 a ha) (hR b hb)

/-- Routes that differ in path or method have their own operations. -/
theorem routeOperation_of_keys (hkeys : artifact.routes.Pairwise fun r r' =>
    ¬ (openapiPath r.path = openapiPath r'.path ∧ toLowercase r.method = toLowercase r'.method))
    {r : UagRoute} (hr : r ∈ artifact.routes) :
    routeOperation toLowercase (openapi toLowercase artifact options) r = some (operation toLowercase r) := by
  rw [routeOperation, operationAt_openapi, Option.map_eq_some_iff]
  refine ⟨r, find?_eq_some_of_pairwise hkeys hr (by simp) fun b hb hne => hne ?_, rfl⟩
  simpa using hb

/-- The reference to a payload is to its own schema exactly if it is so for the type it names. -/
theorem payload_resolves_iff {typeName : Str} {fields : List UagField} :
    (∀ ref, refOf (payloadRefNamed typeName fields) = some ref →
      resolve (openapi toLowercase artifact options) ref = some (objectSchema fields)) ↔
    (typeName ≠ [] → ∃ token first, refTokens typeName = some [token] ∧
      (artifact.routes.flatMap payloads).find? (·.1 = token) = some (token, first) ∧
        objectSchema first = objectSchema fields) := by
  rw [refOf_payloadRefNamed, ← resolve_ref_iff toLowercase artifact options]
  by_cases htype : typeName = []
  · simp [htype]
  · simp [htype]

/-- Two routes have the same id if they have the same name, or if one has no name and the text that
    stands for it is what the other is called. -/
theorem operationId_ne_iff {r r' : UagRoute} (hnames : r.name ≠ [] → r'.name ≠ r.name) :
    operationId toLowercase r ≠ operationId toLowercase r' ↔
      (r.name = [] → r'.name = [] → slugId toLowercase r ≠ slugId toLowercase r') ∧
      (r.name = [] → r'.name ≠ [] → slugId toLowercase r ≠ r'.name) ∧
      (r.name ≠ [] → r'.name = [] → r.name ≠ slugId toLowercase r') := by
  rw [operationId, operationId]
  by_cases hr : r.name = [] <;> by_cases hr' : r'.name = []
  · simp [hr, hr']
  · simp [hr, hr']
  · simp [hr, hr']
  · simp [hr, hr', Ne.symm (hnames hr)]

/-- The document describes every route with its own payloads exactly if no route is in the way of
    another. -/
theorem describesRoutes_iff (hnames : artifact.routes.Pairwise fun r r' => r.name ≠ [] → r'.name ≠ r.name) :
    DescribesRoutes toLowercase artifact options ↔ Apart toLowercase artifact.routes := by
  have hids : (∀ r ∈ artifact.routes,
      routeOperation toLowercase (openapi toLowercase artifact options) r = some (operation toLowercase r)) →
      ∀ r ∈ artifact.routes, (routeOperation toLowercase (openapi toLowercase artifact options) r).bind idOf =
        some (operationId toLowercase r) := by
    intro hown r hr
    rw [hown r hr, Option.bind_some, idOf_operation]
  constructor
  · intro h
    refine ⟨?_, ?_, ?_⟩
    · -- routes of one path and method have one operation, and so one id
      refine h.ids.imp fun {r r'} hne hkey => hne ?_
      rw [routeOperation, routeOperation, hkey.1, hkey.2]
    · refine (hnames.and h.ids).imp_of_mem fun {r r'} hr hr' ⟨hname, hne⟩ => ?_
      rw [hids h.own r hr, hids h.own r' hr', ne_eq, Option.some_inj] at hne
      exact (operationId_ne_iff hname).mp hne
    · intro r hr p hp
      obtain ⟨hnamed, ⟨a, ha, rfl⟩ | ⟨q, hq, rfl⟩⟩ := mem_payloads.mp hp
      · have hresolves : ∀ ref, refOf (payloadRefNamed a.typeName a.fields) = some ref →
            resolve (openapi toLowercase artifact options) ref = some (objectSchema a.fields) := by
          intro ref href
          have hbody : bodyRef (operation toLowercase r) = some ref := by
            rw [bodyRef_operation, ha, Option.bind_some, href]
          obtain ⟨a', ha', hresolve⟩ := h.body r hr _ ref (h.own r hr) hbody
          obtain rfl : a = a' := Option.some_inj.mp (ha.symm.trans ha')
          exact hresolve
        exact payload_resolves_iff.mp hresolves hnamed
      · have hresolves : ∀ ref, refOf (payloadRefNamed q.typeName q.fields) = some ref →
            resolve (openapi toLowercase artifact options) ref = some (objectSchema q.fields) := by
          intro ref href
          have hresponse : responseRef (operation toLowercase r) = some ref := by
            rw [responseRef_operation, hq, Option.bind_some, href]
          obtain ⟨q', hq', hresolve⟩ := h.response r hr _ ref (h.own r hr) hresponse
          obtain rfl : q = q' := Option.some_inj.mp (hq.symm.trans hq')
          exact hresolve
        exact payload_resolves_iff.mp hresolves hnamed
  · intro h
    have hown := fun r hr => @routeOperation_of_keys toLowercase artifact options h.keys r hr
    refine ⟨hown, ?_, ?_, ?_⟩
    · refine (hnames.and h.slugs).imp_of_mem fun {r r'} hr hr' ⟨hname, hslugs⟩ => ?_
      rw [hids hown r hr, hids hown r' hr', ne_eq, Option.some_inj]
      exact (operationId_ne_iff hname).mpr hslugs
    · intro r hr op ref hop href
      obtain rfl : operation toLowercase r = op := Option.some_inj.mp ((hown r hr).symm.trans hop)
      rw [bodyRef_operation] at href
      obtain ⟨a, ha, href⟩ := Option.bind_eq_some_iff.mp href
      refine ⟨a, ha, payload_resolves_iff.mpr (fun hnamed => ?_) ref href⟩
      exact h.types r hr (a.typeName, a.fields) (mem_payloads.mpr ⟨hnamed, .inl ⟨a, ha, rfl⟩⟩)
    · intro r hr op ref hop href
      obtain rfl : operation toLowercase r = op := Option.some_inj.mp ((hown r hr).symm.trans hop)
      rw [responseRef_operation] at href
      obtain ⟨q, hq, href⟩ := Option.bind_eq_some_iff.mp href
      refine ⟨q, hq, payload_resolves_iff.mpr (fun hnamed => ?_) ref href⟩
      exact h.types r hr (q.typeName, q.fields) (mem_payloads.mpr ⟨hnamed, .inr ⟨q, hq, rfl⟩⟩)

end Routes

/-- A route of the links. -/
def linkRoute (method path name : Str) (action : Option UagPayload) : UagRoute :=
  { module := "Links".toList, method, path, name, handler := "LinksController::index".toList, params := [],
    pages := ∅, action, query := none, queryString := none, policies := ∅ }

/-- Two routes with names, one of which takes a payload. -/
def namedLinks : UagArtifact :=
  .new .empty
    [linkRoute "GET".toList "/links".toList "links.index".toList none,
      linkRoute "POST".toList "/links".toList "links.store".toList (some ⟨"NewLink".toList, []⟩)] .empty

/-- A title and a version. -/
def linkOptions : OpenApiOptions := ⟨"Links".toList, "1.0.0".toList, none⟩

/-- Both are described. -/
theorem describesRoutes_namedLinks :
    DescribesRoutes (List.map Char.toLower) namedLinks linkOptions := by
  have hroutes : namedLinks.routes =
      [linkRoute "GET".toList "/links".toList "links.index".toList none,
        linkRoute "POST".toList "/links".toList "links.store".toList (some ⟨"NewLink".toList, []⟩)] := by
    rw [namedLinks, UagArtifact.new_routes, sortByKey_pair (by decide)]
  refine (describesRoutes_iff (by rw [hroutes]; decide)).mpr ⟨?_, ?_, ?_⟩
  · rw [hroutes]
    decide
  · rw [hroutes]
    decide
  · rw [hroutes]
    intro r hr p hp
    have hp' : p = ("NewLink".toList, []) := by
      rcases List.mem_pair.mp hr with rfl | rfl
      · cases hp
      · exact List.mem_singleton.mp hp
    subst hp'
    refine ⟨"NewLink".toList, [], refTokens_eq_self (by decide) (by decide) (by decide), ?_, rfl⟩
    decide

/-- Two routes without names, whose paths differ in a character that is neither a letter nor a digit. -/
def unnamedLinks : UagArtifact :=
  .new .empty [linkRoute "GET".toList "/a-b".toList [] none, linkRoute "GET".toList "/a_b".toList [] none] .empty

/-- Nothing is found wrong with them, and both are called `get_a_b`. -/
theorem one_id_for_two_routes :
    validate unnamedLinks none = .ok () ∧
    unnamedLinks.routes.Pairwise (fun r r' => r.name ≠ [] → r'.name ≠ r.name) ∧
    ¬ DescribesRoutes (List.map Char.toLower) unnamedLinks linkOptions := by
  have hroutes : unnamedLinks.routes =
      [linkRoute "GET".toList "/a-b".toList [] none, linkRoute "GET".toList "/a_b".toList [] none] := by
    rw [unnamedLinks, UagArtifact.new_routes, sortByKey_pair (by decide)]
  refine ⟨validate_eq_ok_iff.mpr ?_, by rw [hroutes]; decide, fun h => ?_⟩
  · rw [hroutes]
    refine ⟨by decide, by decide, fun _ h => (nomatch h), by decide, fun name module h => ?_⟩
    simp [unnamedLinks, UagArtifact.new] at h
  have hids := h.ids
  have hown := h.own
  rw [hroutes] at hids hown
  have hne := (List.pairwise_cons.mp hids).1 _ (List.mem_singleton_self _)
  rw [hown _ (by simp), hown _ (by simp), Option.bind_some, Option.bind_some, idOf_operation, idOf_operation] at hne
  exact hne (by decide)

end Arcature.Uag
