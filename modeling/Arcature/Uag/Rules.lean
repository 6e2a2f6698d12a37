import Mathlib.Data.List.DropRight
import Mathlib.Data.List.TakeWhile
import Arcature.Lib.Lines
import Arcature.Uag.FieldShape
import Arcature.Uag.OpenApi

/-! The rules of an attribute, as they are written and as they are read again.

    The rules of an attribute come to the document as one text, which is taken apart at its first
    parenthesis, at each comma, and at the first `=` between two commas:

        length(min=1, max=120)                 length     min 1    max 120
        length(min=1), email                   length     min 1)
        length(message="a, max=5, b")          length     message "a    max 5

    Of a single rule the name is read, and behind the name of an argument what its value has before a
    comma. Of several the name that is read is that of the first, or none at all (`name_parseRule`). -/

namespace Arcature.Uag.Constraints
open Arcature.Lib

/-! ### Rules -/

/-- The characters of a name: no white space, and none of the marks between names. -/
def IsIdentChar (c : Char) : Prop :=
  Str.isWhiteSpace c = false ∧ c ∉ ['(', ')', '[', ']', '\x7b', '\x7d', ',', '=']

instance : DecidablePred IsIdentChar := fun _ => inferInstanceAs (Decidable (_ ∧ _))

/-- A name. -/
structure Ident where
  text : Str
  ne : text ≠ []
  chars : ∀ c ∈ text, IsIdentChar c

/-- A value: tokens without a comma. -/
structure Value where
  tokens : List TokenTree
  isItem : IsItem tokens

/-- An argument of a rule. -/
inductive Argument where
  | named (name : Ident) (value : Value)
  | bare (value : Value)

/-- A rule, with the arguments of its list; a comma may stand behind the last. -/
structure Rule where
  name : Ident
  args : Option (List Argument × Bool)

/-- What stands in `#[validate(...)]`: rules, and perhaps a comma behind the last. -/
structure Validate where
  rules : List Rule
  trailing : Bool

/-- The tokens of an argument. -/
def Argument.tokens : Argument → List TokenTree
  | named name value => .ident name.text :: .punct '=' :: value.tokens
  | bare value => value.tokens

namespace Rule

/-- The arguments of a rule. -/
def arguments (r : Rule) : List Argument := (r.args.map Prod.fst).getD []

/-- The tokens of a rule. -/
def tokens (r : Rule) : List TokenTree :=
  .ident r.name.text :: match r.args with
    | none => []
    | some (args, trailing) => [.group .parenthesis (punctuated trailing (args.map Argument.tokens))]

end Rule

/-- The attribute. -/
def Validate.attribute (a : Validate) : Attribute :=
  ⟨"validate".toList, some (punctuated a.trailing (a.rules.map Rule.tokens))⟩

/-! ### The text between commas -/

/-- The arguments that a text is taken apart into. -/
def pairs (s : Str) : List (Str × Str) :=
  ((s.splitOn ',').filterMap (Str.splitOnce '=')).map fun arg => (Str.trim arg.1, Str.trim arg.2)

/-- The names of these arguments. -/
def names (s : Str) : List Str := (pairs s).map Prod.fst

/-- The text up to its first comma. -/
def firstPiece (s : Str) : Str := s.takeWhile (· ≠ ',')

/-- The text behind its first comma. -/
def afterComma (s : Str) : Str := ((Str.splitOnce ',' s).map Prod.snd).getD []

/-- A text without the parentheses that close at its end. -/
def strip (s : Str) : Str := trimEndMatches (· = ')') s

/-- A number as it is read from text. -/
def readNumber (raw : Str) : Option Json :=
  match parseI64 raw with
  | some n => some (ofI64 n)
  | none => (parseF64 raw).map ofF64

theorem numberArg_eq (args : List (Str × Str)) (key : Str) :
    numberArg args key = (args.find? (·.1 = key)).bind fun arg => readNumber arg.2 := by
  rw [numberArg]
  cases args.find? (·.1 = key) with
  | none => rfl
  | some arg =>
    simp only [Option.bind_eq_bind, Option.bind_some, readNumber]
    cases parseI64 arg.2 <;> rfl

theorem pairs_append (x y : Str) : pairs (x ++ ',' :: y) = pairs x ++ pairs y := by
  rw [pairs, List.splitOn_append_cons_self, List.filterMap_append, List.map_append]
  rfl

theorem pairs_nil : pairs [] = [] := by simp [pairs, Str.splitOnce]

theorem pairs_eq {s : Str} (h : ',' ∉ s) :
    pairs s = ((Str.splitOnce '=' s).map fun arg => (Str.trim arg.1, Str.trim arg.2)).toList := by
  rw [pairs, List.splitOn_eq_singleton h]
  cases hcut : Str.splitOnce '=' s with
  | none => simp [hcut]
  | some arg => simp [hcut]

/-- The first comma of a text, if there is one. -/
theorem comma_cases (s : Str) : ',' ∉ s ∧ firstPiece s = s ∧ afterComma s = [] ∨
    ∃ y, s = firstPiece s ++ ',' :: y ∧ ',' ∉ firstPiece s ∧ afterComma s = y := by
  have hfree : ∀ {x : Str}, ',' ∉ x → ∀ c ∈ x, decide (c ≠ ',') = true :=
    fun h c hc => decide_eq_true fun heq => h (heq ▸ hc)
  cases hcut : Str.splitOnce ',' s with
  | none =>
    have h := Str.splitOnce_eq_none.mp hcut
    exact .inl ⟨h, List.takeWhile_eq_self_iff.mpr (hfree h), by rw [afterComma, hcut]; rfl⟩
  | some cut =>
    obtain ⟨x, y⟩ := cut
    obtain ⟨rfl, hx⟩ := Str.splitOnce_eq_some.mp hcut
    have hfirst : firstPiece (x ++ ',' :: y) = x := by
      rw [firstPiece, List.takeWhile_append_of_pos (hfree hx)]
      simp
    exact .inr ⟨y, by rw [hfirst], by rw [hfirst]; exact hx, by rw [afterComma, hcut]; rfl⟩

/-- A space in front is no part of a name. -/
theorem pairs_space (s : Str) : pairs (' ' :: s) = pairs s := by
  have hplain : ∀ {s : Str}, ',' ∉ s → pairs (' ' :: s) = pairs s := by
    intro s h
    rw [pairs_eq (by simpa using h), pairs_eq h, Str.splitOnce, if_neg (by decide)]
    cases Str.splitOnce '=' s with
    | none => rfl
    | some arg =>
      have hspace : ∀ c ∈ [' '], Str.isWhiteSpace c = true := by decide
      have htrim : Str.trim (' ' :: arg.1) = Str.trim arg.1 := Str.trim_append_of_space hspace arg.1
      simp [htrim]
  obtain ⟨h, -, -⟩ | ⟨y, hs, hfirst, -⟩ := comma_cases s
  · exact hplain h
  · rw [hs, ← List.cons_append, pairs_append, pairs_append, hplain hfirst]

/-- A named argument comes first, and then what its value is taken apart into. -/
theorem pairs_named (name : Ident) (v : Str) :
    pairs (name.text ++ '=' :: v) = (name.text, Str.trim (firstPiece v)) :: pairs (afterComma v) := by
  have hfree : ∀ {c : Char}, c ∈ ['(', ')', '[', ']', '\x7b', '\x7d', ',', '='] → c ∉ name.text :=
    fun hmark hmem => (name.chars _ hmem).2 hmark
  have htrim : Str.trim name.text = name.text :=
    Str.trim_eq_self (List.head?_eq_some_head name.ne) (List.getLast?_eq_some_getLast name.ne)
      (name.chars _ (List.head_mem name.ne)).1 (name.chars _ (List.getLast_mem name.ne)).1
  have hplain : ∀ {v : Str}, ',' ∉ v → pairs (name.text ++ '=' :: v) = [(name.text, Str.trim v)] := by
    intro v h
    have hcomma : ',' ∉ name.text ++ '=' :: v := by
      simp only [List.mem_append, List.mem_cons, not_or]
      exact ⟨hfree (by simp), by decide, h⟩
    rw [pairs_eq hcomma, Str.splitOnce_append (hfree (by simp)), Option.map_some, htrim]
    rfl
  obtain ⟨h, hfirst, hafter⟩ | ⟨y, hv, hfirst, hafter⟩ := comma_cases v
  · rw [hfirst, hafter, pairs_nil, hplain h]
  · rw [hafter]
    conv_lhs => rw [hv]
    rw [← List.cons_append, ← List.append_assoc, pairs_append, hplain hfirst]
    rfl

/-! ### Without the closing parentheses -/

theorem trimEndMatches_append_cons {p : Char → Bool} {c : Char} (hc : p c = false) (x y : Str) :
    trimEndMatches p (x ++ c :: y) = x ++ c :: trimEndMatches p y := by
  have hdrop : ∀ l r : Str, (l ++ c :: r).dropWhile p = l.dropWhile p ++ c :: r := by
    intro l r
    induction l with
    | nil => exact List.dropWhile_cons_of_neg (by simp [hc])
    | cons d l ih =>
      rw [List.cons_append, List.dropWhile_cons, List.dropWhile_cons, ih]
      split <;> rfl
  have hreverse : (x ++ c :: y).reverse = y.reverse ++ c :: x.reverse := by simp
  rw [trimEndMatches, hreverse, hdrop, List.reverse_append, List.reverse_cons, List.reverse_reverse, List.append_assoc]
  rfl

theorem strip_append_cons {c : Char} (hc : c ≠ ')') (x y : Str) : strip (x ++ c :: y) = x ++ c :: strip y :=
  trimEndMatches_append_cons (by simpa using hc) x y

theorem strip_prefix (s : Str) : ∃ closing, s = strip s ++ closing ∧ ∀ c ∈ closing, c = ')' := by
  refine ⟨s.rtakeWhile (· = ')'), List.rdropWhile_append_rtakeWhile.symm, fun c hc => ?_⟩
  simpa using List.mem_rtakeWhile_imp hc

/-- The names do not change. -/
theorem names_strip (s : Str) : names (strip s) = names s := by
  have hsubset : ∀ {c : Char} {s : Str}, c ∉ s → c ∉ strip s := by
    intro c s h hmem
    obtain ⟨closing, hs, -⟩ := strip_prefix s
    rw [hs] at h
    exact h (List.mem_append_left _ hmem)
  have hplain : ∀ {s : Str}, ',' ∉ s → names (strip s) = names s := by
    intro s h
    rw [names, names, pairs_eq h, pairs_eq (hsubset h)]
    cases hcut : Str.splitOnce '=' s with
    | none => rw [Str.splitOnce_eq_none.mpr (hsubset (Str.splitOnce_eq_none.mp hcut))]
    | some cut =>
      obtain ⟨k, v⟩ := cut
      obtain ⟨rfl, hk⟩ := Str.splitOnce_eq_some.mp hcut
      rw [strip_append_cons (by decide), Str.splitOnce_append hk]
      rfl
  induction hlen : s.length using Nat.strong_induction_on generalizing s with
  | _ n ih =>
    obtain ⟨h, -, -⟩ | ⟨y, hs, hfirst, -⟩ := comma_cases s
    · exact hplain h
    · have hshort : y.length < n := by
        rw [← hlen, hs, List.length_append, List.length_cons]
        omega
      have hy := ih y.length hshort y rfl
      rw [names, names] at hy ⊢
      rw [hs, strip_append_cons (by decide), pairs_append, pairs_append, List.map_append, List.map_append, hy]

/-- The first piece is the same, or is stripped. -/
theorem firstPiece_strip (s : Str) :
    firstPiece (strip s) = firstPiece s ∨ firstPiece (strip s) = strip (firstPiece s) := by
  obtain ⟨h, hfirst, -⟩ | ⟨y, hs, hfirst, -⟩ := comma_cases s
  · obtain ⟨closing, hstrip, -⟩ := strip_prefix s
    have hfree : ',' ∉ strip s := fun hmem => h (by rw [hstrip]; exact List.mem_append_left _ hmem)
    right
    rw [hfirst]
    exact List.takeWhile_eq_self_iff.mpr fun c hc => decide_eq_true fun heq => hfree (heq ▸ hc)
  · left
    have hfree : ∀ c ∈ firstPiece s, decide (c ≠ ',') = true := fun c hc => decide_eq_true fun heq => hfirst (heq ▸ hc)
    conv_lhs => rw [hs]
    rw [strip_append_cons (by decide), firstPiece, List.takeWhile_append_of_pos hfree]
    simp

/-! ### How rules are written -/

section Written
variable (table : Char → Bool)

/-- A value as it is written. -/
def Value.text (v : Value) : Str := cleanTokenStream table v.tokens

/-- An argument as it is written. -/
def Argument.text : Argument → Str
  | named name value => name.text ++ '=' :: value.text table
  | bare value => value.text table

/-- A rule as it is written. -/
def Rule.text (r : Rule) : Str :=
  r.name.text ++ match r.args with
    | none => []
    | some (args, trailing) => '(' :: (joined trailing (args.map (Argument.text table)) ++ [')'])

/-- The rules of an attribute as they are written. -/
def Validate.text (a : Validate) : Str := joined a.trailing (a.rules.map (Rule.text table))

variable {table}

theorem Ident.notMem (name : Ident) {c : Char} (h : c ∈ ['(', ')', '[', ']', '\x7b', '\x7d', ',', '=']) :
    c ∉ name.text :=
  fun hmem => (name.chars _ hmem).2 h

theorem Ident.isSolid (name : Ident) : (TokenTree.ident name.text).IsSolid := by
  have hhead : ∀ c, name.text.head? = some c → IsIdentChar c := fun c hc => name.chars c (List.mem_of_mem_head? hc)
  refine ⟨?_, ?_⟩
  · obtain ⟨c, rest, hc⟩ := List.exists_cons_of_ne_nil name.ne
    have hmark := (hhead c (by rw [hc]; rfl)).2
    rw [startsClose, hc]
    simp only [List.mem_cons, not_or] at hmark
    simp [hmark]
  · simp only [endsComma, decide_eq_false_iff_not]
    exact fun hlast => name.notMem (by simp) (List.mem_of_getLast? hlast)

theorem Argument.isItem (a : Argument) : IsItem a.tokens := by
  cases a with
  | named name value =>
    refine ⟨by simp [tokens], fun token htoken => ?_⟩
    rcases List.mem_cons.mp htoken with rfl | htoken
    · exact name.isSolid
    · rcases List.mem_cons.mp htoken with rfl | htoken
      · exact ⟨rfl, by decide⟩
      · exact value.isItem.solid token htoken
  | bare value => exact value.isItem

theorem Rule.isItem (r : Rule) : IsItem r.tokens := by
  refine ⟨by simp [tokens], fun token htoken => ?_⟩
  rcases List.mem_cons.mp htoken with rfl | htoken
  · exact r.name.isSolid
  · cases hargs : r.args with
    | none => simp [hargs] at htoken
    | some args =>
      simp only [hargs, List.mem_singleton] at htoken
      rw [htoken]
      exact Delimiter.noConfusion

theorem clean_argument (a : Argument) : cleanTokenStream table a.tokens = a.text table := by
  cases a with
  | named name value =>
    have hcomma : endsComma name.text = false := name.isSolid.2
    rw [Argument.tokens, cleanTokenStream, cleanFrom, cleanFrom]
    simp only [TokenTree.text, hcomma, Bool.and_false, Bool.false_and, Bool.false_eq_true, if_false, List.nil_append]
    rfl
  | bare value => rfl

theorem clean_rule (r : Rule) : cleanTokenStream table r.tokens = r.text table := by
  obtain ⟨name, args⟩ := r
  have hcomma : endsComma name.text = false := name.isSolid.2
  cases args with
  | none =>
    rw [Rule.tokens, cleanTokenStream, cleanFrom]
    simp [TokenTree.text, cleanFrom, Rule.text]
  | some args =>
    obtain ⟨args, trailing⟩ := args
    have hitems : ∀ item ∈ args.map Argument.tokens, IsItem item := by
      intro item hitem
      obtain ⟨a, -, rfl⟩ := List.mem_map.mp hitem
      exact a.isItem
    have hargs : cleanFrom table false false (punctuated trailing (args.map Argument.tokens)) =
        joined trailing (args.map (Argument.text table)) := by
      refine (clean_punctuated hitems trailing).trans ?_
      rw [List.map_map]
      exact congrArg _ (List.map_congr_left fun a _ => clean_argument a)
    have hopen : ∀ inner : Str, startsWord table ('(' :: inner) = false := fun _ => rfl
    rw [Rule.tokens, cleanTokenStream, cleanFrom, cleanFrom, cleanFrom]
    simp only [TokenTree.text, Delimiter.opening, Delimiter.closing, hargs, hcomma, List.cons_append, List.nil_append,
      hopen, Bool.and_false, Bool.false_and, Bool.false_eq_true, if_false, List.append_nil, Rule.text]

/-- What the macro makes of the attributes: the texts that are not empty. -/
theorem extractValidateRules_attributes (attrs : List Validate) :
    extractValidateRules table (attrs.map Validate.attribute) =
      (attrs.map (Validate.text table)).filter (· ≠ []) := by
  have hclean : ∀ a : Validate, cleanTokenStream table (punctuated a.trailing (a.rules.map Rule.tokens)) =
      a.text table := by
    intro a
    have hitems : ∀ item ∈ a.rules.map Rule.tokens, IsItem item := by
      intro item hitem
      obtain ⟨r, -, rfl⟩ := List.mem_map.mp hitem
      exact r.isItem
    rw [clean_punctuated hitems, List.map_map]
    exact congrArg _ (List.map_congr_left fun r _ => clean_rule r)
  have hpath : (attrs.map Validate.attribute).filter (·.path = "validate".toList) = attrs.map Validate.attribute := by
    refine List.filter_eq_self.mpr fun attr hattr => ?_
    obtain ⟨a, -, rfl⟩ := List.mem_map.mp hattr
    exact decide_eq_true rfl
  rw [extractValidateRules, hpath, List.filterMap_map]
  congr 1
  rw [← List.filterMap_eq_map]
  exact List.filterMap_congr fun a _ => congrArg some (hclean a)

/-! ### What is read of them -/

theorem Ident.trim (name : Ident) : Str.trim name.text = name.text :=
  Str.trim_eq_self (List.head?_eq_some_head name.ne) (List.getLast?_eq_some_getLast name.ne)
    (name.chars _ (List.head_mem name.ne)).1 (name.chars _ (List.getLast_mem name.ne)).1

theorem Ident.trim_append_cons (name : Ident) {c : Char} (hc : Str.isWhiteSpace c = false) (rest : Str) :
    Str.trim (name.text ++ c :: rest) = name.text ++ c :: trimEndMatches Str.isWhiteSpace rest := by
  obtain ⟨d, tail, hd⟩ := List.exists_cons_of_ne_nil name.ne
  have hchar := name.chars d (by rw [hd]; exact List.mem_cons_self)
  have hhead : (name.text ++ c :: rest).dropWhile Str.isWhiteSpace = name.text ++ c :: rest := by
    rw [hd]
    exact List.dropWhile_cons_of_neg (by simp [hchar.1])
  rw [Str.trim, hhead]
  exact trimEndMatches_append_cons hc _ _

/-- A single rule is read as its name, and as what its arguments are taken apart into. -/
theorem parseRule_text (r : Rule) : parseRule (r.text table) = (r.name.text, match r.args with
    | none => []
    | some (args, trailing) => pairs (strip (joined trailing (args.map (Argument.text table))))) := by
  obtain ⟨name, args⟩ := r
  cases args with
  | none =>
    rw [Rule.text, List.append_nil, parseRule]
    simp only [name.trim, Str.splitOnce_eq_none.mpr (name.notMem (show '(' ∈ _ by simp))]
  | some args =>
    obtain ⟨args, trailing⟩ := args
    simp only [Rule.text]
    generalize joined trailing (args.map (Argument.text table)) = body
    obtain ⟨c, rest, hc⟩ := List.exists_cons_of_ne_nil name.ne
    have hchar := name.chars c (by rw [hc]; exact List.mem_cons_self)
    have hlast : (name.text ++ '(' :: (body ++ [')'])).getLast? = some ')' := by
      rw [← List.cons_append, ← List.append_assoc, List.getLast?_concat]
    have htrim : Str.trim (name.text ++ '(' :: (body ++ [')'])) = name.text ++ '(' :: (body ++ [')']) :=
      Str.trim_eq_self (by rw [hc]; rfl) hlast hchar.1 (by decide)
    have hend : trimEndMatches Str.isWhiteSpace (body ++ [')']) = body ++ [')'] :=
      List.rdropWhile_concat_neg _ _ _ (by decide)
    have hstrip : trimEndMatches (· = ')') (body ++ [')']) = strip body :=
      List.rdropWhile_concat_pos _ _ _ (decide_eq_true rfl)
    rw [parseRule]
    simp only [htrim, Str.splitOnce_append (name.notMem (show '(' ∈ _ by simp)), hend, hstrip, name.trim]
    rfl

/-- Behind a name without arguments a comma is read as part of the name. -/
theorem comma_mem_name (name : Ident) (rest : Str) : ',' ∈ (parseRule (name.text ++ ',' :: rest)).1 := by
  rw [parseRule]
  simp only [name.trim_append_cons (show Str.isWhiteSpace ',' = false by decide)]
  generalize trimEndMatches Str.isWhiteSpace rest = rest'
  cases hcut : Str.splitOnce '(' (name.text ++ ',' :: rest') with
  | none => simp
  | some cut =>
    obtain ⟨front, rest''⟩ := cut
    obtain ⟨heq, -⟩ := Str.splitOnce_eq_some.mp hcut
    -- The parenthesis stands behind the comma.
    have hcomma : ∃ front', front = name.text ++ ',' :: front' := by
      rcases List.append_eq_append_iff.mp heq with ⟨_ | ⟨c, front'⟩, hfront, hrest⟩ | ⟨_ | ⟨c, bs⟩, hname, hrest⟩
      · exact absurd (List.cons.inj hrest).1 (by decide)
      · exact ⟨front', by rw [hfront, (List.cons.inj hrest).1]⟩
      · exact absurd (List.cons.inj hrest).1 (by decide)
      · rw [List.cons_append, List.cons.injEq] at hrest
        refine absurd ?_ (name.notMem (show '(' ∈ _ by simp))
        rw [hname, hrest.1]
        simp
    obtain ⟨front', rfl⟩ := hcomma
    simp only [name.trim_append_cons (show Str.isWhiteSpace ',' = false by decide)]
    simp

variable (table) in
/-- The text of rules begins with the first, and goes on with a comma if there is more. -/
theorem text_cons (r : Rule) (rules : List Rule) (trailing : Bool) :
    ∃ rest, Validate.text table ⟨r :: rules, trailing⟩ = r.text table ++ rest ∧
      (rest = [] ∨ ∃ rest', rest = ',' :: rest') ∧ (rest = [] → rules = [] ∧ trailing = false) := by
  cases rules with
  | nil => cases trailing with
    | false => exact ⟨[], rfl, .inl rfl, fun _ => ⟨rfl, rfl⟩⟩
    | true => exact ⟨[','], rfl, .inr ⟨[], rfl⟩, nofun⟩
  | cons next rules => exact ⟨_, rfl, .inr ⟨_, rfl⟩, nofun⟩

variable (table) in
/-- No name is read but that of the first rule, or something with a comma. -/
theorem name_parseRule (a : Validate) : a.text table = [] ∨ ',' ∈ (parseRule (a.text table)).1 ∨
    ∃ r ∈ a.rules, (parseRule (a.text table)).1 = r.name.text := by
  obtain ⟨rules, trailing⟩ := a
  cases rules with
  | nil =>
    cases trailing with
    | false => exact .inl rfl
    | true =>
      have htext : Validate.text table ⟨[], true⟩ = [','] := rfl
      rw [htext]
      exact .inr (.inl (by decide +kernel))
  | cons r rules =>
    right
    obtain ⟨rest, htext, hrest, -⟩ := text_cons table r rules trailing
    rw [htext]
    rcases hrest with rfl | ⟨rest, rfl⟩
    · rw [List.append_nil, parseRule_text]
      exact .inr ⟨r, List.mem_cons_self, rfl⟩
    · obtain ⟨name, args⟩ := r
      cases args with
      | none =>
        rw [Rule.text, List.append_nil]
        exact .inl (comma_mem_name name rest)
      | some args =>
        obtain ⟨args, args_trailing⟩ := args
        refine .inr ⟨⟨name, some (args, args_trailing)⟩, List.mem_cons_self, ?_⟩
        rw [Rule.text, List.append_assoc, List.cons_append, parseRule]
        simp only [name.trim_append_cons (show Str.isWhiteSpace '(' = false by decide),
          Str.splitOnce_append (name.notMem (show '(' ∈ _ by simp)), name.trim]

end Written

end Arcature.Uag.Constraints
