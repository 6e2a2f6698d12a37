import Arcature.Lib.TypeScript
import Arcature.Uag.TypeMap

/-! What the TypeScript of a shape denotes.

    Brackets belong to what stands right before them, and bars join what is between them:

        string | undefined[]        union string (array undefined)
        (string | undefined)[]      array (union string undefined)

    An array of options is written with parentheses and any other array without. Read in this way, what is
    written of a shape denotes it, with repeated options as one (`readTypescript_typescript`). -/

namespace Arcature.Uag
open Arcature.Lib

/-! ### Reading a type -/

/-- A type as it is read: words, pairs of brackets, and bars. -/
inductive Ts where
  | word (w : Str)
  | array (item : Ts)
  | union (left right : Ts)

/-- What stands before a bar is joined to what follows it. -/
def Ts.join : Option Ts → Ts → Ts
  | none, t => t
  | some left, t => .union left t

/-- The tokens of a type: brackets belong to what stands right before them, and bars join what is between
    them. Kept are what the bars have joined, for each parenthesis that is open, and what stands last. -/
def readTokens : Option Ts → List (Option Ts) → Option Ts → List TypeScript.Token → Option Ts
  | joined, [], some t, [] => some (Ts.join joined t)
  | joined, outer, none, .word w :: ts => readTokens joined outer (some (.word w)) ts
  | joined, outer, none, .punct '(' :: ts => readTokens none (joined :: outer) none ts
  | joined, joined' :: outer, some t, .punct ')' :: ts => readTokens joined' outer (some (Ts.join joined t)) ts
  | joined, outer, some t, .punct '[' :: .punct ']' :: ts => readTokens joined outer (some (.array t)) ts
  | joined, outer, some t, .punct '|' :: ts => readTokens (some (Ts.join joined t)) outer none ts
  | _, _, _, _ => none

/-- `T | undefined`, which is `T` if that may be undefined. -/
def orUndefined : TypeShape → TypeShape
  | .optional shape => .optional shape
  | shape => .optional shape

/-- The shape that a type denotes. -/
def Ts.shape? : Ts → Option TypeShape
  | .word w =>
    if w = "string".toList then some .string
    else if w = "number".toList then some .number
    else if w = "boolean".toList then some .boolean
    else if w = "unknown".toList then some .unknown
    else none
  | .array item => item.shape?.map .array
  | .union left (.word w) => if w = "undefined".toList then left.shape?.map orUndefined else none
  | .union _ _ => none

/-- The shape that a text denotes. -/
def readTypescript (s : Str) : Option TypeShape := do
  let ts ← TypeScript.lex s
  let t ← readTokens none [] none ts
  t.shape?

/-- A shape with repeated options as one. -/
def TypeShape.flat : TypeShape → TypeShape
  | .optional inner => orUndefined inner.flat
  | .array inner => .array inner.flat
  | shape => shape

/-! ### What is written is read back -/

/-- The tokens of a shape. -/
def shapeTokens : TypeShape → List TypeScript.Token
  | .string => [.word "string".toList]
  | .number => [.word "number".toList]
  | .boolean => [.word "boolean".toList]
  | .unknown => [.word "unknown".toList]
  | .optional inner => shapeTokens inner ++ [.punct '|', .word "undefined".toList]
  | .array (.optional inner) => .punct '(' :: (shapeTokens (.optional inner) ++ [.punct ')', .punct '[', .punct ']'])
  | .array inner => shapeTokens inner ++ [.punct '[', .punct ']']

/-- The type of a shape. -/
def toTs : TypeShape → Ts
  | .string => .word "string".toList
  | .number => .word "number".toList
  | .boolean => .word "boolean".toList
  | .unknown => .word "unknown".toList
  | .optional inner => .union (toTs inner) (.word "undefined".toList)
  | .array inner => .array (toTs inner)

open TypeScript in
/-- The text of a shape has its tokens. -/
theorem lexed_typescript (shape : TypeShape) : Lexed (typescript shape) (shapeTokens shape) := by
  have hbrackets : Closed "[]".toList [.punct '[', .punct ']'] := rfl
  have hclose : Closed ")[]".toList [.punct ')', .punct '[', .punct ']'] := rfl
  have hopen : Closed ['('] [.punct '('] := rfl
  fun_induction shapeTokens shape with
  | case1 => exact .inr ⟨[], _, rfl, rfl⟩
  | case2 => exact .inr ⟨[], _, rfl, rfl⟩
  | case3 => exact .inr ⟨[], _, rfl, rfl⟩
  | case4 => exact .inr ⟨[], _, rfl, rfl⟩
  | case5 inner ih => exact ih.append (.inr ⟨[.punct '|'], _, rfl, rfl⟩) rfl
  | case6 inner ih => exact .inl (hopen.append (ih.append_closed hclose rfl))
  | case7 inner hinner ih =>
    have htext : typescript (.array inner) = typescript inner ++ "[]".toList := by
      cases inner with
      | optional inner => exact absurd rfl (hinner inner)
      | _ => rfl
    rw [htext]
    exact .inl (ih.append_closed hbrackets rfl)

section ReadTokens
variable (joined : Option Ts) (outer : List (Option Ts)) (ts : List TypeScript.Token)

theorem readTokens_word (w : Str) :
    readTokens joined outer none (.word w :: ts) = readTokens joined outer (some (.word w)) ts := by
  cases outer <;> rfl

theorem readTokens_brackets (t : Ts) :
    readTokens joined outer (some t) (.punct '[' :: .punct ']' :: ts) =
      readTokens joined outer (some (.array t)) ts := by
  cases outer <;> rfl

theorem readTokens_bar (t : Ts) :
    readTokens joined outer (some t) (.punct '|' :: ts) = readTokens (some (Ts.join joined t)) outer none ts := by
  cases outer <;> rfl

theorem readTokens_open :
    readTokens joined outer none (.punct '(' :: ts) = readTokens none (joined :: outer) none ts := by
  cases outer <;> rfl

theorem readTokens_close (joined' : Option Ts) (t : Ts) :
    readTokens joined (joined' :: outer) (some t) (.punct ')' :: ts) =
      readTokens joined' outer (some (Ts.join joined t)) ts := rfl

end ReadTokens

/-- A shape that is no option is read without what the bars have joined before it; any shape is read where
    they have joined nothing. -/
theorem readTokens_shapeTokens (shape : TypeShape) :
    (∀ joined outer rest, shape.isOptional = false →
      readTokens joined outer none (shapeTokens shape ++ rest) = readTokens joined outer (some (toTs shape)) rest) ∧
    ∀ outer rest, ∃ joined t, Ts.join joined t = toTs shape ∧
      readTokens none outer none (shapeTokens shape ++ rest) = readTokens joined outer (some t) rest := by
  have hplain : ∀ {shape : TypeShape}, (∀ joined outer rest,
      readTokens joined outer none (shapeTokens shape ++ rest) = readTokens joined outer (some (toTs shape)) rest) →
      ∀ outer rest, ∃ joined t, Ts.join joined t = toTs shape ∧
        readTokens none outer none (shapeTokens shape ++ rest) = readTokens joined outer (some t) rest :=
    fun h outer rest => ⟨none, _, rfl, h none outer rest⟩
  fun_induction shapeTokens shape with
  | case1 => exact ⟨fun _ _ _ _ => readTokens_word .., hplain fun _ _ _ => readTokens_word ..⟩
  | case2 => exact ⟨fun _ _ _ _ => readTokens_word .., hplain fun _ _ _ => readTokens_word ..⟩
  | case3 => exact ⟨fun _ _ _ _ => readTokens_word .., hplain fun _ _ _ => readTokens_word ..⟩
  | case4 => exact ⟨fun _ _ _ _ => readTokens_word .., hplain fun _ _ _ => readTokens_word ..⟩
  | case5 inner ih =>
    refine ⟨nofun, fun outer rest => ?_⟩
    obtain ⟨joined, t, hjoin, hread⟩ := ih.2 outer (.punct '|' :: .word "undefined".toList :: rest)
    refine ⟨some (toTs inner), .word "undefined".toList, rfl, ?_⟩
    rw [List.append_assoc]
    refine hread.trans ?_
    rw [readTokens_bar, hjoin, readTokens_word]
  | case6 inner ih =>
    have hread : ∀ joined outer rest, readTokens joined outer none (shapeTokens (.array (.optional inner)) ++ rest) =
        readTokens joined outer (some (toTs (.array (.optional inner)))) rest := by
      intro joined outer rest
      obtain ⟨joined', t, hjoin, hread⟩ := ih.2 (joined :: outer) (.punct ')' :: .punct '[' :: .punct ']' :: rest)
      rw [shapeTokens, List.cons_append, List.append_assoc, readTokens_open]
      refine hread.trans ?_
      rw [readTokens_close, readTokens_brackets, hjoin]
      rfl
    exact ⟨fun joined outer rest _ => hread joined outer rest, hplain hread⟩
  | case7 inner hinner ih =>
    have hfalse : inner.isOptional = false := by
      cases inner with
      | optional inner => exact absurd rfl (hinner inner)
      | _ => rfl
    have htokens : shapeTokens (.array inner) = shapeTokens inner ++ [.punct '[', .punct ']'] := by
      cases inner with
      | optional inner => exact absurd rfl (hinner inner)
      | _ => rfl
    have hread : ∀ joined outer rest, readTokens joined outer none (shapeTokens (.array inner) ++ rest) =
        readTokens joined outer (some (toTs (.array inner))) rest := by
      intro joined outer rest
      rw [htokens, List.append_assoc, ih.1 joined outer _ hfalse]
      exact readTokens_brackets ..
    rw [← htokens]
    exact ⟨fun joined outer rest _ => hread joined outer rest, hplain hread⟩

theorem shape?_toTs (shape : TypeShape) : (toTs shape).shape? = some shape.flat := by
  induction shape with
  | string => rfl
  | number => rfl
  | boolean => rfl
  | unknown => rfl
  | optional inner ih => rw [toTs, Ts.shape?, if_pos rfl, ih]; rfl
  | array inner ih => rw [toTs, Ts.shape?, ih]; rfl

/-- What is written of a shape denotes it, with repeated options as one. -/
theorem readTypescript_typescript (shape : TypeShape) : readTypescript (typescript shape) = some shape.flat := by
  obtain ⟨joined, t, hjoin, hread⟩ := (readTokens_shapeTokens shape).2 [] []
  rw [List.append_nil] at hread
  have htype : readTokens none [] none (shapeTokens shape) = some (toTs shape) := by
    rw [hread, readTokens, hjoin]
  rw [readTypescript, (lexed_typescript shape).lex]
  simp only [Option.bind_eq_bind, Option.bind_some, htype, shape?_toTs]

end Arcature.Uag
