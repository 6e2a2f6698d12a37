import Arcature.Lib.Json

/-! What becomes of a Rust type in the generated files (`uag/codegen/type_map.rs`).

    A type is text. It is reduced to its wire shape once, and the shape is then written as TypeScript
    or as a JSON schema:

        &'a std::string::String     string             {"type": "string"}
        Option<Vec<i64>>            number[] | undefined
        HashMap<String, Value>      unknown            {} -/

namespace Arcature.Uag
open Arcature.Lib

/-- A Rust type reduced to what crosses the wire. -/
inductive TypeShape where
  | string
  | number
  | boolean
  | optional (inner : TypeShape)
  | array (inner : TypeShape)
  | unknown
  deriving DecidableEq

namespace TypeShape

/-- `is_optional`. -/
def isOptional : TypeShape → Bool
  | optional _ => true
  | _ => false

/-- `unwrapped`. -/
def unwrapped : TypeShape → TypeShape
  | optional inner => inner
  | other => other

end TypeShape

/-- `trim_start`. -/
def trimStart (s : Str) : Str := s.dropWhile Str.isWhiteSpace

/-- The references at the front of a type, with their lifetimes, taken away: as many rounds as there
    are characters are enough. -/
def stripReferences : ℕ → Str → Str
  | 0, ty => ty
  | rounds + 1, '&' :: rest =>
    match trimStart rest with
    | '\'' :: rest => stripReferences rounds (trimStart (rest.dropWhile (!Str.isWhiteSpace ·)))
    | rest => stripReferences rounds rest
  | _ + 1, ty => ty

/-- What follows the last `::`, if there is one. -/
def afterLastColons : Str → Option Str
  | [] => none
  | c :: s =>
    match afterLastColons s with
    | some rest => some rest
    | none => if c = ':' ∧ s.head? = some ':' then some s.tail else none

/-- `normalize`. -/
def normalize (rustType : Str) : Str :=
  let ty := Str.trim rustType
  let ty := stripReferences ty.length ty
  let head := ty.takeWhile (· ≠ '<')
  let tail := ty.dropWhile (· ≠ '<')
  Str.trim ((afterLastColons head).getD head) ++ tail

/-- `strip_suffix`, of one character. -/
def stripLast (c : Char) (s : Str) : Option Str := if s.getLast? = some c then some s.dropLast else none

/-- `generic_argument`. -/
def genericArgument (ty name : Str) : Option Str := do
  let rest ← Str.stripPrefix (name ++ ['<']) ty
  let inner ← stripLast '>' rest
  return Str.trim inner

/-- The types that are numbers. -/
def numberTypes : List Str :=
  ["i8", "i16", "i32", "i64", "i128", "isize", "u8", "u16", "u32", "u64", "u128", "usize", "f32",
    "f64"].map String.toList

/-- A type without an argument. -/
def parseName (ty : Str) : TypeShape :=
  if ty = "String".toList ∨ ty = "str".toList ∨ ty = "char".toList then .string
  else if ty ∈ numberTypes then .number
  else if ty = "bool".toList then .boolean
  else .unknown

theorem length_trim_le (s : Str) : (Str.trim s).length ≤ s.length := by
  have hfront := (List.dropWhile_suffix (l := s) Str.isWhiteSpace).length_le
  have hback := (List.dropWhile_suffix (l := (s.dropWhile Str.isWhiteSpace).reverse) Str.isWhiteSpace).length_le
  rw [List.length_reverse] at hback
  rw [Str.trim, List.length_reverse]
  exact hback.trans hfront

theorem length_trimStart_le (s : Str) : (trimStart s).length ≤ s.length :=
  (List.dropWhile_suffix Str.isWhiteSpace).length_le

theorem length_stripReferences_le (rounds : ℕ) (ty : Str) : (stripReferences rounds ty).length ≤ ty.length := by
  fun_induction stripReferences rounds ty with
  | case1 ty => exact le_rfl
  | case2 rounds rest lifetime hlifetime ih =>
    have htrim := length_trimStart_le rest
    have hskip := (List.dropWhile_suffix (l := lifetime) (!Str.isWhiteSpace ·)).length_le
    have hskip' := length_trimStart_le (lifetime.dropWhile (!Str.isWhiteSpace ·))
    rw [hlifetime] at htrim
    rw [List.length_cons] at htrim ⊢
    omega
  | case3 rounds rest _ ih =>
    have htrim := length_trimStart_le rest
    rw [List.length_cons]
    omega
  | case4 rounds ty => exact le_rfl

theorem length_afterLastColons_le (s : Str) : ((afterLastColons s).getD s).length ≤ s.length := by
  induction s with
  | nil => exact le_rfl
  | cons c s ih =>
    rw [afterLastColons]
    cases hrest : afterLastColons s with
    | some rest =>
      rw [hrest] at ih
      simp only [Option.getD_some, List.length_cons] at ih ⊢
      omega
    | none =>
      by_cases hcolons : c = ':' ∧ s.head? = some ':'
      · simp only [if_pos hcolons, Option.getD_some, List.length_tail, List.length_cons]
        omega
      · simp [if_neg hcolons]

theorem length_normalize_le (ty : Str) : (normalize ty).length ≤ ty.length := by
  simp only [normalize]
  generalize hstripped : stripReferences _ _ = stripped
  have hlen : stripped.length ≤ ty.length := by
    rw [← hstripped]
    exact (length_stripReferences_le _ _).trans (length_trim_le ty)
  have hparts := congrArg List.length (List.takeWhile_append_dropWhile (p := (· ≠ '<')) (l := stripped))
  have hhead := (length_trim_le _).trans (length_afterLastColons_le (stripped.takeWhile (· ≠ '<')))
  rw [List.length_append] at hparts ⊢
  omega

theorem length_genericArgument_lt {ty name inner : Str} (h : genericArgument ty name = some inner) :
    inner.length < ty.length := by
  rw [genericArgument] at h
  obtain ⟨rest, hrest, h⟩ := Option.bind_eq_some_iff.mp h
  obtain ⟨body, hbody, h⟩ := Option.bind_eq_some_iff.mp h
  have hty := Str.stripPrefix_eq_some.mp hrest
  have hinner : Str.trim body = inner := Option.some_inj.mp h
  have hle := length_trim_le body
  rw [stripLast] at hbody
  split at hbody
  · rw [Option.some_inj] at hbody
    rw [hinner, ← hbody, List.length_dropLast] at hle
    rw [hty, List.length_append, List.length_append, List.length_cons]
    omega
  · cases hbody

/-- `parse`. -/
def parse (rustType : Str) : TypeShape :=
  let ty := normalize rustType
  match _hoption : genericArgument ty "Option".toList with
  | some inner => .optional (parse inner)
  | none =>
    match _hvec : genericArgument ty "Vec".toList with
    | some inner => .array (parse inner)
    | none => parseName ty
termination_by rustType.length
decreasing_by
  · exact (length_genericArgument_lt _hoption).trans_le (length_normalize_le _)
  · exact (length_genericArgument_lt _hvec).trans_le (length_normalize_le _)

/-- `typescript`. -/
def typescript : TypeShape → Str
  | .string => "string".toList
  | .number => "number".toList
  | .boolean => "boolean".toList
  | .unknown => "unknown".toList
  | .optional inner => typescript inner ++ " | undefined".toList
  | .array inner =>
    match inner with
    | .optional _ => '(' :: (typescript inner ++ ")[]".toList)
    | _ => typescript inner ++ "[]".toList

/-- An object with one member. -/
def single (key : Str) (value : Json) : Map Str Json := Map.empty.insert key value

/-- `{"type": name}`. -/
def typeSchema (name : Str) : Json := .object (single "type".toList (.string name))

/-- `{"anyOf": [schema, {"type": "null"}]}`. -/
def nullable (schema : Json) : Json :=
  .object (single "anyOf".toList (.array [schema, typeSchema "null".toList]))

/-- `json_schema`. -/
def jsonSchema : TypeShape → Json
  | .string => typeSchema "string".toList
  | .number => typeSchema "number".toList
  | .boolean => typeSchema "boolean".toList
  | .unknown => .object .empty
  | .optional inner => nullable (jsonSchema inner)
  | .array inner =>
    .object ((single "type".toList (.string "array".toList)).insert "items".toList (jsonSchema inner))

end Arcature.Uag
