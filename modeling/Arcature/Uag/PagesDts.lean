import Arcature.Inertia.Contracts
import Arcature.Lib.TypeScript
import Arcature.Uag.Codegen

/-! The prop types of the pages (`uag/codegen/pages_dts.rs`).

    One mapped type is keyed by the identities of the pages; what stands behind a key is written from
    the schema of the page:

        title, required string          "title": string;
        bio, optional nullable string   "bio"?: string | null;
        notes, array of nullables       "notes": (string | null)[];
        no fields at all                Record<string, never>

    Read as TypeScript, the file declares for every page the type that its schema describes
    (`pageType_pagesDts`). -/

namespace Arcature.Uag
open Arcature.Lib Arcature.Lib.TypeScript
open Arcature.Inertia.Contracts (ContractType PropOf PropSchema PropsSchema Pages)

/-- `"  ".repeat(depth)`. -/
def indent (depth : ℕ) : Str := List.replicate (2 * depth) ' '

/-- A type that is one word. -/
def word (w : String) : Str := w.toList

/-- Whether a type is `ContractType::Nullable`. -/
def isNullable : ContractType → Bool
  | .nullable _ => true
  | _ => false

mutual

/-- `contract_type`. -/
def contractType : ContractType → ℕ → Str
  | .boolean, _ => word "boolean"
  | .number, _ => word "number"
  | .string, _ => word "string"
  | .array item, depth =>
    if isNullable item then "(".toList ++ contractType item depth ++ ")[]".toList
    else contractType item depth ++ "[]".toList
  | .object fields, depth =>
    -- `object`
    if fields.isEmpty then "Record<string, never>".toList
    else "\x7b\n".toList ++ propLines fields depth ++ indent depth ++ "\x7d".toList
  | .nullable item, depth => contractType item depth ++ " | null".toList

/-- The lines of the props. -/
def propLines : List (Str × PropSchema) → ℕ → Str
  | [], _ => []
  | (name, ⟨required, ty⟩) :: fields, depth =>
    indent (depth + 1) ++ tsString name ++ (if required then "" else "?").toList ++ ": ".toList ++
      contractType ty (depth + 1) ++ ";\n".toList ++ propLines fields depth

end

/-- `object`, of the props of a page. -/
def object (schema : PropsSchema) (depth : ℕ) : Str := contractType (.object schema.fields.entries) depth

/-- The line of a page. -/
def pageLine (page : Str × PropsSchema) : Str :=
  "  ".toList ++ tsString page.1 ++ ": ".toList ++ object page.2 1 ++ ";\n".toList

/-- `pages_dts::generate`. -/
def pagesDts (pages : Pages) : Str :=
  generatedHeader ++ "\nexport type PageProps = \x7b\n".toList ++ pages.entries.flatMap pageLine ++
    "\x7d;\n\n".toList ++ "export type PageName = keyof PageProps;\n\n".toList ++
    "export type PropsOf<N extends PageName> = PageProps[N];\n".toList

/-! ### What it declares -/

/-- The members of the type that a file exports under a name. -/
def exported (name : String) (file : Str) : Option (List (Member TsType)) :=
  (lex file).bind fun ts =>
    if ts.take 4 = [.word "export".toList, .word "type".toList, .word name.toList, .punct '='] then
      match TypeScript.parse (ts.drop 4) with
      | some (.object members, _) => some members
      | _ => none
    else none

/-- The type that `pages.d.ts` declares for a page: `PageProps["name"]`. -/
def pageType (file name : Str) : Option TsType :=
  (exported "PageProps" file).bind fun members =>
    (members.find? (·.name = name)).map Member.ty

mutual

/-- The type that a contract describes. -/
def tsType : ContractType → TsType
  | .boolean => .boolean
  | .number => .number
  | .string => .string
  | .array item => .array (tsType item)
  | .object fields => if fields.isEmpty then .record .string .never else .object (tsMembers fields)
  | .nullable item => .union (tsType item) .null

/-- The members that the props of a schema describe. -/
def tsMembers : List (Str × PropSchema) → List (Member TsType)
  | [] => []
  | (name, ⟨required, ty⟩) :: fields => ⟨name, !required, tsType ty⟩ :: tsMembers fields

end

theorem tsMembers_eq_map : ∀ fields : List (Str × PropSchema),
    tsMembers fields = fields.map fun e => ⟨e.1, !e.2.required, tsType e.2.ty⟩
  | [] => rfl
  | (name, ⟨required, ty⟩) :: fields => by
    rw [tsMembers, tsMembers_eq_map fields]
    rfl

/-- The objects of a schema: their members have props, the required props are there, and what is
    there has the type of its prop. -/
theorem inhabits_object {fields : List (Str × PropSchema)} {m : Map Str Json} :
    Inhabits (tsType (.object fields)) (.object m) ↔
      (∀ k, (m.get? k).isSome → k ∈ fields.map Prod.fst) ∧ (∀ e ∈ fields, e.2.required → (m.get? e.1).isSome) ∧
        ∀ e ∈ fields, ∀ v, m.get? e.1 = some v → Inhabits (tsType e.2.ty) v := by
  rw [tsType]
  cases fields with
  | nil =>
    rw [if_pos List.isEmpty_nil, inhabits_record_never_iff]
    simp
  | cons e fields =>
    rw [List.isEmpty_cons, if_neg Bool.false_ne_true, inhabits_object_iff, tsMembers_eq_map]
    simp only [List.map_map, List.forall_mem_map, Function.comp_def, Bool.not_eq_false']

theorem isUnion_tsType (ty : ContractType) : (tsType ty).isUnion = isNullable ty := by
  cases ty with
  | object fields =>
    rw [tsType]
    split <;> rfl
  | _ => rfl

/-! ### The file as tokens -/

theorem closed_indent (depth : ℕ) : Closed (indent depth) [] :=
  closed_spaces fun _ hc => List.eq_of_mem_replicate hc

/-- A character of a string literal is read back, escaped or not. -/
theorem lexFrom_tsChar (s : Str) (c : Char) : lexFrom (.literal s) (tsChar c) = some ([], .literal (s ++ [c])) := by
  rw [tsChar]
  split_ifs with hquote hbackslash hnewline hreturn htab hcontrol
  · subst hquote
    rfl
  · subst hbackslash
    rfl
  · subst hnewline
    rfl
  · subst hreturn
    rfl
  · subst htab
    rfl
  · have hdigits : ∀ n < 0x20, hexValue (Nat.digitChar (n / 16)) = some (n / 16) ∧
        hexValue (Nat.digitChar (n % 16)) = some (n % 16) ∧ n.isValidChar := by decide
    obtain ⟨hhigh, hlow, hvalid⟩ := hdigits c.toNat hcontrol
    have hvalue : 16 * (c.toNat / 16) + c.toNat % 16 = c.toNat := Nat.div_add_mod _ _
    have hzero : hexValue '0' = some 0 := rfl
    simp [lexFrom, lexChar, hhigh, hlow, hvalue, hvalid, hzero]
  · simp [lexFrom, lexChar, hquote, hbackslash, hnewline, hreturn]

theorem lexFrom_tsChars (s t : Str) : lexFrom (.literal s) (t.flatMap tsChar) = some ([], .literal (s ++ t)) := by
  induction t generalizing s with
  | nil => rw [List.flatMap_nil, lexFrom_nil, List.append_nil]
  | cons c t ih =>
    rw [List.flatMap_cons, lexFrom_append (lexFrom_tsChar s c), ih, Option.map_some, List.append_assoc]
    rfl

theorem closed_tsString (s : Str) : Closed (tsString s) [.literal s] := by
  have hopen : lexFrom .start "\"".toList = some ([], .literal []) := rfl
  rw [Closed, tsString, List.append_assoc, lexFrom_append hopen, lexFrom_append (lexFrom_tsChars [] s)]
  rfl

mutual

theorem lexed_contractType : ∀ (ty : ContractType) (depth : ℕ), Lexed (contractType ty depth) (print (tsType ty))
  | .boolean, depth => by
    rw [contractType]
    exact .inr ⟨[], _, rfl, rfl⟩
  | .number, depth => by
    rw [contractType]
    exact .inr ⟨[], _, rfl, rfl⟩
  | .string, depth => by
    rw [contractType]
    exact .inr ⟨[], _, rfl, rfl⟩
  | .array item, depth => by
    have hitem := lexed_contractType item depth
    have hbrackets : Closed "[]".toList [.punct '[', .punct ']'] := rfl
    rw [contractType, tsType, print, isUnion_tsType]
    cases hnullable : isNullable item with
    | false => exact .inl (hitem.append_closed hbrackets rfl)
    | true =>
      have hopen : Closed "(".toList [.punct '('] := rfl
      have hclose : Closed ")[]".toList ([.punct ')'] ++ [.punct '[', .punct ']']) := rfl
      have hparens := (hopen.append_lexed hitem).append_closed hclose rfl
      rw [← List.append_assoc] at hparens
      exact .inl hparens
  | .object fields, depth => by
    rw [contractType, tsType]
    cases hempty : fields.isEmpty with
    | true => exact .inl rfl
    | false =>
      have hopen : Closed "\x7b\n".toList [.punct '\x7b'] := rfl
      have hclose : Closed "\x7d".toList [.punct '\x7d'] := rfl
      have hobject := ((hopen.append (closed_propLines fields depth)).append (closed_indent depth)).append hclose
      rw [List.append_nil] at hobject
      rw [if_neg nofun, if_neg nofun]
      exact .inl hobject
  | .nullable item, depth => by
    have hitem := lexed_contractType item depth
    have hnull : Lexed " | null".toList [.punct '|', .word "null".toList] := .inr ⟨[.punct '|'], _, rfl, rfl⟩
    exact hitem.append hnull rfl

theorem closed_propLines : ∀ (fields : List (Str × PropSchema)) (depth : ℕ),
    Closed (propLines fields depth) (printMembers (tsMembers fields))
  | [], _ => .nil
  | (name, ⟨required, ty⟩) :: fields, depth => by
    have hty := lexed_contractType ty (depth + 1)
    have hfields := closed_propLines fields depth
    have hquestion : Closed (if required then "" else "?").toList (if !required then [.punct '?'] else []) := by
      cases required <;> rfl
    have hcolon : Closed ": ".toList [.punct ':'] := rfl
    have hend : Closed ";\n".toList [.punct ';'] := rfl
    have hname := ((closed_indent (depth + 1)).append (closed_tsString name)).append hquestion
    have hline := ((hname.append hcolon).append_lexed hty).append_closed hend rfl
    rw [propLines, tsMembers, printMembers]
    simpa only [List.append_assoc, List.nil_append, List.cons_append] using hline.append hfields

end

theorem closed_generatedHeader : Closed generatedHeader [] := by
  have hlines : ∀ line ∈ ["// Generated by `arc typegen` from the Arcature application graph.".toList,
      "// Do not edit -- this file is overwritten on the next run.".toList],
      line.take 2 = ['/', '/'] ∧ '\n' ∉ line := by decide +kernel
  have hfirst := hlines _ List.mem_cons_self
  have hsecond := hlines _ (List.mem_cons_of_mem _ List.mem_cons_self)
  rw [generatedHeader, unlines, List.flatMap_cons, List.flatMap_singleton]
  exact (closed_comment hfirst.1 hfirst.2).append (closed_comment hsecond.1 hsecond.2)

/-- The member of a page. -/
def pageMember (page : Str × PropsSchema) : Member TsType :=
  ⟨page.1, false, tsType (.object page.2.fields.entries)⟩

theorem closed_pageLines : ∀ entries : List (Str × PropsSchema),
    Closed (entries.flatMap pageLine) (printMembers (entries.map pageMember))
  | [] => .nil
  | page :: entries => by
    have hobject := lexed_contractType (.object page.2.fields.entries) 1
    have hspaces : Closed "  ".toList [] := rfl
    have hcolon : Closed ": ".toList [.punct ':'] := rfl
    have hend : Closed ";\n".toList [.punct ';'] := rfl
    have hname := (hspaces.append (closed_tsString page.1)).append hcolon
    have hline := (hname.append_lexed hobject).append_closed hend rfl
    rw [List.flatMap_cons, List.map_cons, pageLine, object, pageMember, printMembers, if_neg nofun]
    simpa only [List.append_assoc, List.nil_append, List.cons_append] using hline.append (closed_pageLines entries)

/-- The tokens of the file are those of the type of all pages and of two exports more. -/
theorem lex_pagesDts (pages : Pages) : ∃ rest,
    lex (pagesDts pages) = some (.word "export".toList :: .word "type".toList :: .word "PageProps".toList ::
      .punct '=' :: (print (.object (pages.entries.map pageMember)) ++ .punct ';' :: rest)) := by
  have hopen : Closed "\nexport type PageProps = \x7b\n".toList [.word "export".toList, .word "type".toList,
    .word "PageProps".toList, .punct '=', .punct '\x7b'] := rfl
  have hclose : Closed "\x7d;\n\n".toList [.punct '\x7d', .punct ';'] := rfl
  obtain ⟨ts, hname⟩ : ∃ ts, Closed "export type PageName = keyof PageProps;\n\n".toList ts := ⟨_, rfl⟩
  obtain ⟨us, hprops⟩ : ∃ us, Closed "export type PropsOf<N extends PageName> = PageProps[N];\n".toList us :=
    ⟨_, rfl⟩
  have hpages := ((closed_generatedHeader.append hopen).append (closed_pageLines pages.entries)).append hclose
  refine ⟨ts ++ us, ?_⟩
  rw [pagesDts, Lexed.lex (.inl ((hpages.append hname).append hprops)), print]
  simp only [List.nil_append, List.cons_append, List.append_assoc]

theorem exported_pagesDts (pages : Pages) :
    exported "PageProps" (pagesDts pages) = some (pages.entries.map pageMember) := by
  obtain ⟨rest, hlex⟩ := lex_pagesDts pages
  have hparse := @parse_print (.object (pages.entries.map pageMember)) (.punct ';' :: rest) nofun nofun
  rw [exported, hlex, Option.bind_some, if_pos (by rfl)]
  simp only [List.drop_succ_cons, List.drop_zero, hparse]

/-- The file declares for a page the type that its schema describes, and none for a page it does not
    have. -/
theorem pageType_pagesDts (pages : Pages) (name : Str) :
    pageType (pagesDts pages) name =
      (pages.get? name).map fun schema => tsType (.object schema.fields.entries) := by
  rw [pageType, exported_pagesDts, Option.bind_some, List.find?_map, OrdMap.get?, OrdMap.lookup, Option.map_map,
    Option.map_map]
  refine congrArg (Option.map _) (congrArg (List.find? · pages.entries) (funext fun page => ?_))
  exact decide_eq_decide.mpr Iff.rfl

end Arcature.Uag
