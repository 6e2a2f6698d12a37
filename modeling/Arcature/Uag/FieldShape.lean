import Arcature.Lib.Text

/-! The validation rules of a field as text (`macros/field_shape.rs`).

    The macro sees an attribute as a tree of tokens. It writes them one behind the other, with a space
    between two words and behind a comma:

        #[validate(length(min = 1, max = 120))]      length(min=1, max=120)
        #[validate(length(min = 1), email)]          length(min=1), email

    An attribute is one text, whatever number of rules it holds. -/

namespace Arcature.Uag
open Arcature.Lib

/-- The delimiter of a group. -/
inductive Delimiter where
  | parenthesis
  | brace
  | bracket
  | none
  deriving DecidableEq

/-- What stands before a group. -/
def Delimiter.opening : Delimiter → Str
  | .parenthesis => ['(']
  | .brace => ['\x7b']
  | .bracket => ['[']
  | .none => []

/-- What stands behind a group. -/
def Delimiter.closing : Delimiter → Str
  | .parenthesis => [')']
  | .brace => ['\x7d']
  | .bracket => [']']
  | .none => []

/-- `TokenTree`: words and literals as they are written. -/
inductive TokenTree where
  | group (delimiter : Delimiter) (stream : List TokenTree)
  | ident (text : Str)
  | punct (c : Char)
  | literal (text : Str)

/-- `Attribute`: its path, and the tokens of a list. -/
structure Attribute where
  path : Str
  list : Option (List TokenTree)

section Clean

-- `is_alphanumeric` beyond ASCII, a table of Unicode
variable (table : Char → Bool)

/-- `is_alphanumeric`, or an underscore. -/
def isWordStart (c : Char) : Bool := (if c.toNat < 128 then c.isAlphanum else table c) || c = '_'

/-- A token that begins with a letter, a digit or an underscore. -/
def startsWord (s : Str) : Bool := (s.head?.map (isWordStart table)).getD false

/-- A token that begins with a closing delimiter. -/
def startsClose (s : Str) : Bool := s.head? = some ')' || s.head? = some ']' || s.head? = some '\x7d'

/-- A token that ends with a comma. -/
def endsComma (s : Str) : Bool := s.getLast? = some ','

mutual

/-- A token as it is written. -/
def TokenTree.text : TokenTree → Str
  | .group delimiter stream => delimiter.opening ++ cleanFrom false false stream ++ delimiter.closing
  | .ident text => text
  | .punct c => [c]
  | .literal text => text

/-- The loop of `clean_token_stream`, behind a word or a comma. -/
def cleanFrom : Bool → Bool → List TokenTree → Str
  | _, _, [] => []
  | prevIdent, prevComma, token :: stream =>
    let s := token.text
    (if startsWord table s && prevIdent then [' '] else []) ++
      (if prevComma && !startsClose s then [' '] else []) ++ s ++
      cleanFrom (startsWord table s) (endsComma s) stream

end

/-- `clean_token_stream`. -/
def cleanTokenStream (stream : List TokenTree) : Str := cleanFrom table false false stream

/-- `extract_validate_rules`. -/
def extractValidateRules (attrs : List Attribute) : List Str :=
  ((attrs.filter (·.path = "validate".toList)).filterMap fun attr => attr.list.map (cleanTokenStream table)).filter
    (· ≠ [])

end Clean

/-! ### Streams with commas -/

/-- Items with commas between them, and perhaps behind the last. -/
def punctuated (trailing : Bool) : List (List TokenTree) → List TokenTree
  | [] => if trailing then [.punct ','] else []
  | [item] => item ++ if trailing then [.punct ','] else []
  | item :: items => item ++ .punct ',' :: punctuated trailing items

/-- Texts with a comma and a space between them, and perhaps a comma behind the last. -/
def joined (trailing : Bool) : List Str → Str
  | [] => if trailing then [','] else []
  | [item] => item ++ if trailing then [','] else []
  | item :: items => item ++ ',' :: ' ' :: joined trailing items

variable {table : Char → Bool}

/-- A token that is neither a comma nor begins or ends with what a comma stands next to. -/
def TokenTree.IsSolid : TokenTree → Prop
  | .group delimiter _ => delimiter ≠ .none
  | .ident text => startsClose text = false ∧ endsComma text = false
  | .punct c => startsClose [c] = false ∧ c ≠ ','
  | .literal text => startsClose text = false ∧ endsComma text = false

theorem TokenTree.IsSolid.text {token : TokenTree} (h : token.IsSolid) (table : Char → Bool) :
    startsClose (token.text table) = false ∧ endsComma (token.text table) = false := by
  cases token with
  | group delimiter stream =>
    rw [TokenTree.text]
    cases delimiter with
    | none => exact absurd rfl h
    | parenthesis => exact ⟨rfl, by simp [endsComma, Delimiter.closing]⟩
    | brace => exact ⟨rfl, by simp [endsComma, Delimiter.closing]⟩
    | bracket => exact ⟨rfl, by simp [endsComma, Delimiter.closing]⟩
  | ident text => exact h
  | punct c => exact ⟨h.1, by simpa [endsComma, TokenTree.text] using h.2⟩
  | literal text => exact h

/-- Tokens between two commas. -/
structure IsItem (item : List TokenTree) : Prop where
  ne : item ≠ []
  solid : ∀ token ∈ item, token.IsSolid

/-- Behind a comma an item is the same, with a space. -/
theorem cleanFrom_item {item : List TokenTree} (h : IsItem item) (rest : List TokenTree) :
    cleanFrom table false true (item ++ rest) = ' ' :: cleanFrom table false false (item ++ rest) := by
  obtain ⟨token, item, rfl⟩ := List.exists_cons_of_ne_nil h.ne
  have hclose := ((h.solid token List.mem_cons_self).text table).1
  rw [List.cons_append, cleanFrom, cleanFrom]
  simp [hclose]

/-- Up to a comma. -/
theorem cleanFrom_comma {item : List TokenTree} (h : ∀ token ∈ item, token.IsSolid) (prev : Bool)
    (rest : List TokenTree) : cleanFrom table prev false (item ++ .punct ',' :: rest) =
      cleanFrom table prev false item ++ ',' :: cleanFrom table false true rest := by
  induction item generalizing prev with
  | nil => rfl
  | cons token item ih =>
    have hcomma := ((h token List.mem_cons_self).text table).2
    rw [List.cons_append, cleanFrom, cleanFrom, hcomma, ih fun t ht => h t (List.mem_cons_of_mem _ ht)]
    simp only [List.append_assoc]

/-- Items are written with commas and spaces between them. -/
theorem clean_punctuated {items : List (List TokenTree)} (h : ∀ item ∈ items, IsItem item) (trailing : Bool) :
    cleanTokenStream table (punctuated trailing items) = joined trailing (items.map (cleanTokenStream table)) := by
  have hlast : ∀ item : List TokenTree, (∀ token ∈ item, token.IsSolid) →
      cleanTokenStream table (item ++ if trailing then [.punct ','] else []) =
        cleanTokenStream table item ++ if trailing then [','] else [] := by
    intro item hsolid
    cases trailing with
    | false => simp
    | true => exact cleanFrom_comma hsolid false []
  induction items with
  | nil => exact hlast [] (by simp)
  | cons item items ih =>
    cases items with
    | nil => exact hlast item (h item List.mem_cons_self).solid
    | cons next items =>
      have hnext : IsItem next := h next (by simp)
      have hspace : cleanFrom table false true (punctuated trailing (next :: items)) =
          ' ' :: cleanTokenStream table (punctuated trailing (next :: items)) := by
        cases items with
        | nil => exact cleanFrom_item hnext _
        | cons _ _ => exact cleanFrom_item hnext _
      rw [punctuated, cleanTokenStream, cleanFrom_comma (h item List.mem_cons_self).solid, hspace,
        ih fun i hi => h i (List.mem_cons_of_mem _ hi)]
      · rfl
      · simp

end Arcature.Uag
