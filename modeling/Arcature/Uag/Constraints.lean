import Arcature.Uag.Rules
import Arcature.Uag.TypeText

/-! Which constraints a field's schema carries.

    A rule declares the format of an address, or numbers as bounds. A field should carry what some rule of
    it declares, and nothing else:

        length(min = 1, max = 120)             minLength 1, maxLength 120
        length(min = 1), email                 nothing, though both rules declare something
        length(message = "a, max=5, b")        maxLength 5, which no rule declares

    Where an attribute is a single rule, of which no string looks like a bound and every number is
    written plainly, the schema carries exactly what is declared (`constraints_declared`). -/

namespace Arcature.Uag.Constraints
open Arcature.Lib

/-! ### What rules declare -/

/-- The digits of a literal, without underscores, and without the suffix that begins at one of these
    letters. -/
def literalDigits (suffixes : List Char) (text : Str) : Str :=
  (text.takeWhile (· ∉ suffixes)).filter (· ≠ '_')

/-- The value of digits of a base. -/
def radixValue (base : ℕ) (s : Str) : ℕ :=
  s.foldl (fun n c => base * n + if c.isDigit then c.toNat - '0'.toNat else c.toLower.toNat - 'a'.toNat + 10) 0

/-- The value of an integer literal. -/
def integerLiteral : Str → Option ℕ
  | '0' :: 'x' :: text => some (radixValue 16 (literalDigits ['u', 'i'] text))
  | '0' :: 'o' :: text => some (radixValue 8 (literalDigits ['u', 'i'] text))
  | '0' :: 'b' :: text => some (radixValue 2 (literalDigits ['u', 'i'] text))
  | text =>
    let digits := literalDigits ['u', 'i', 'f'] text
    if digits.all Char.isDigit then some (digitsValue digits) else none

/-- An integer as JSON: a double only beyond 64 bits. -/
def ofInteger (n : ℤ) : Json :=
  if -2 ^ 63 ≤ n ∧ n < 2 ^ 63 then ofI64 n
  else if 0 ≤ n ∧ n < 2 ^ 64 then .number (.posInt (UInt64.ofNat n.toNat))
  else ofF64 (UInt64.ofNat (nearestDouble n.natAbs 1 + if n < 0 then 2 ^ 63 else 0))

/-- The value of a number literal, behind a minus or not. -/
def numberLiteral (negative : Bool) (text : Str) : Option Json :=
  if (text.head?.map Char.isDigit).getD false then
    match integerLiteral text with
    | some n => some (ofInteger (if negative then -n else n))
    | none => (parseF64 ((if negative then ['-'] else []) ++ literalDigits ['u', 'i', 'f'] text)).map ofF64
  else none

/-- The number that a value is, if it is one. -/
def Value.number? (v : Value) : Option Json :=
  match v.tokens with
  | [.literal text] => numberLiteral false text
  | [.punct '-', .literal text] => numberLiteral true text
  | _ => none

namespace Rule

/-- The format that a rule declares. -/
def format? (r : Rule) : Option Str :=
  if r.name.text = "email".toList then some "email".toList
  else if r.name.text = "url".toList then some "uri".toList
  else none

/-- The bounds of a rule: the name of an argument, and the constraint that it stands for. -/
def bounds (shape : TypeShape) (r : Rule) : List (Str × Str) :=
  if r.name.text = "length".toList then
    let (minKey, maxKey) := match shape with
      | .array _ => ("minItems".toList, "maxItems".toList)
      | _ => ("minLength".toList, "maxLength".toList)
    [("min".toList, minKey), ("max".toList, maxKey), ("equal".toList, minKey), ("equal".toList, maxKey)]
  else if r.name.text = "range".toList then [("min".toList, "minimum".toList), ("max".toList, "maximum".toList)]
  else []

/-- A rule declares a constraint: the format of an address, or a number as a bound. -/
def Declares (shape : TypeShape) (r : Rule) (key : Str) (value : Json) : Prop :=
  (key = "format".toList ∧ ∃ format, r.format? = some format ∧ value = .string format) ∨
    ∃ arg, (arg, key) ∈ r.bounds shape ∧ ∃ name v, .named name v ∈ r.arguments ∧ name.text = arg ∧
      v.number? = some value

end Rule

/-- Some rule of some attribute declares a constraint. -/
def Declares (shape : TypeShape) (attrs : List Validate) (key : Str) (value : Json) : Prop :=
  ∃ a ∈ attrs, ∃ r ∈ a.rules, r.Declares shape key value

/-- The constraints. -/
def constraintKeys : List Str :=
  ["minLength", "maxLength", "minItems", "maxItems", "minimum", "maximum", "format"].map String.toList

section
variable (table : Char → Bool)

/-- The field of a type with these attributes. -/
def field (name ty : Str) (attrs : List Validate) : UagField :=
  ⟨name, ty, extractValidateRules table (attrs.map Validate.attribute)⟩

/-- A member of an object. -/
def member (key : Str) : Json → Option Json
  | .object m => m.get? key
  | _ => none

/-- The schema of what is not null. -/
def nonNull (schema : Json) : Json :=
  match member "anyOf".toList schema with
  | some (.array (schema :: _)) => schema
  | _ => schema

/-- What a field's schema carries as a constraint: that of an optional field in the branch that is not
    null. -/
def carried (field : UagField) (key : Str) : Option Json :=
  member key (if (parse field.ty).isOptional then nonNull (fieldSchema field) else fieldSchema field)

/-- What is carried is declared, and where something is declared, something is carried. -/
def Exact (declares : Str → Json → Prop) (carried : Str → Option Json) : Prop :=
  ∀ key ∈ constraintKeys, (∀ value, carried key = some value → declares key value) ∧
    ((∃ value, declares key value) → (carried key).isSome)

end

/-! ### Bounds as they are read -/

section Written
variable {table : Char → Bool}

/-- The first value of a name. -/
def firstNamed (arg : Str) (args : List Argument) : Option Value :=
  args.findSome? fun
    | .named name value => if name.text = arg then some value else none
    | .bare _ => none

variable (table) in
/-- The names that an argument is taken apart into besides its own. -/
def Argument.strays : Argument → List Str
  | named _ value => names (afterComma (value.text table))
  | bare value => names (value.text table)

/-- The arguments of a rule that are bounds. -/
def Rule.boundNames (r : Rule) : List Str :=
  if r.name.text = "length".toList then ["min".toList, "max".toList, "equal".toList]
  else if r.name.text = "range".toList then ["min".toList, "max".toList]
  else []

variable (table) in
/-- A rule whose bounds are read as they are declared: the first of a name is a number if one of that name
    is; a value is read as the number that it is, also without parentheses that close at its end; and
    nothing between two commas of a value, or of a string in it, looks like a bound. -/
structure Rule.Plain (r : Rule) : Prop where
  first : ∀ name v, .named name v ∈ r.arguments → name.text ∈ r.boundNames → v.number?.isSome →
    ((firstNamed name.text r.arguments).bind Value.number?).isSome
  reads : ∀ name v, .named name v ∈ r.arguments → name.text ∈ r.boundNames →
    ∀ s closing, firstPiece (v.text table) = s ++ closing → (∀ c ∈ closing, c = ')') →
      readNumber (Str.trim s) = v.number?
  stray : ∀ a ∈ r.arguments, ∀ arg ∈ a.strays table, arg ∉ r.boundNames

/-- What is read of a name. -/
def reading (arg : Str) (args : List (Str × Str)) : Option Json :=
  (args.find? (·.1 = arg)).bind fun arg => readNumber arg.2

theorem reading_append_of_notMem {arg : Str} {front : List (Str × Str)} (h : arg ∉ front.map Prod.fst)
    (rest : List (Str × Str)) : reading arg (front ++ rest) = reading arg rest := by
  have hnone : front.find? (·.1 = arg) = none := by
    refine List.find?_eq_none.mpr fun p hp heq => h ?_
    rw [← of_decide_eq_true heq]
    exact List.mem_map_of_mem hp
  rw [reading, List.find?_append, hnone, Option.none_or, reading]

theorem reading_cons (arg raw : Str) (rest : List (Str × Str)) : reading arg ((arg, raw) :: rest) = readNumber raw := by
  rw [reading, List.find?_cons_of_pos (by simp)]
  rfl

section Reading
variable {arg : Str} {args : List Argument}

/-- The arguments as far as one name is concerned: values are read as the numbers they are, and nothing else
    looks like this name. -/
structure ReadsAs (table : Char → Bool) (arg : Str) (args : List Argument) : Prop where
  reads : ∀ name v, .named name v ∈ args → name.text = arg → ∀ s closing, firstPiece (v.text table) = s ++ closing →
    (∀ c ∈ closing, c = ')') → readNumber (Str.trim s) = v.number?
  stray : ∀ a ∈ args, arg ∉ a.strays table

/-- One argument, whether or not it is stripped. -/
theorem reading_argument {a : Argument} (h : ReadsAs table arg [a]) {s : Str}
    (hs : s = a.text table ∨ s = strip (a.text table)) (rest : List (Str × Str)) :
    reading arg (pairs s ++ rest) =
      match firstNamed arg [a] with
      | some v => v.number?
      | none => reading arg rest := by
  have hnames : names s = names (a.text table) := by
    rcases hs with rfl | rfl
    · rfl
    · exact names_strip _
  have hstray := h.stray a (List.mem_singleton_self a)
  cases a with
  | bare value =>
    refine reading_append_of_notMem ?_ rest
    rw [← names, hnames]
    exact hstray
  | named name value =>
    by_cases hname : name.text = arg
    · have hfirst : firstNamed arg [.named name value] = some value := by simp [firstNamed, hname]
      have hpiece : ∃ v closing, s = name.text ++ '=' :: v ∧ firstPiece (value.text table) = firstPiece v ++ closing ∧
          ∀ c ∈ closing, c = ')' := by
        rcases hs with rfl | rfl
        · exact ⟨value.text table, [], rfl, (List.append_nil _).symm, by simp⟩
        · rw [Argument.text, strip_append_cons (by decide)]
          refine ⟨strip (value.text table), ?_⟩
          rcases firstPiece_strip (value.text table) with hsame | hstrip
          · exact ⟨[], rfl, by rw [hsame, List.append_nil], by simp⟩
          · obtain ⟨closing, hclosing, hall⟩ := strip_prefix (firstPiece (value.text table))
            exact ⟨closing, rfl, by rw [hstrip, ← hclosing], hall⟩
      obtain ⟨v, closing, rfl, hclosing, hall⟩ := hpiece
      have hread := h.reads name value (List.mem_singleton_self _) hname _ closing hclosing hall
      rw [hfirst, pairs_named, hname, List.cons_append, reading_cons, hread]
    · have hfirst : firstNamed arg [.named name value] = none := by simp [firstNamed, hname]
      rw [hfirst]
      refine reading_append_of_notMem ?_ rest
      rw [← names, hnames, names, Argument.text, pairs_named, List.map_cons, List.mem_cons, not_or]
      exact ⟨Ne.symm hname, hstray⟩

theorem firstNamed_cons (a : Argument) (args : List Argument) :
    firstNamed arg (a :: args) = (firstNamed arg [a]).or (firstNamed arg args) := by
  rw [firstNamed, firstNamed, firstNamed, List.findSome?_cons, List.findSome?_cons, List.findSome?_nil]
  split <;> simp_all

/-- What is read of a name among arguments is the number that its first value is. -/
theorem reading_joined (h : ReadsAs table arg args) (trailing : Bool) :
    reading arg (pairs (strip (joined trailing (args.map (Argument.text table))))) =
      (firstNamed arg args).bind Value.number? := by
  have hlast : ∀ s, s = [] ∨ s = [','] → reading arg (pairs s) = none := by
    rintro s (rfl | rfl)
    · rw [pairs_nil]
      rfl
    · have hcomma : pairs ([] ++ ',' :: []) = [] := by rw [pairs_append, pairs_nil]; rfl
      rw [← List.nil_append [','], hcomma]
      rfl
  induction args with
  | nil =>
    have hstrip : strip (joined trailing []) = joined trailing [] := by cases trailing <;> rfl
    rw [List.map_nil, hstrip, hlast _ (by cases trailing <;> simp [joined])]
    rfl
  | cons a args ih =>
    have ha : ReadsAs table arg [a] :=
      ⟨fun name v hv => h.reads name v (List.mem_cons.mpr (.inl (List.mem_singleton.mp hv))),
        fun b hb => h.stray b (List.mem_cons.mpr (.inl (List.mem_singleton.mp hb)))⟩
    have hrest : ReadsAs table arg args :=
      ⟨fun name v hv => h.reads name v (List.mem_cons_of_mem _ hv), fun b hb => h.stray b (List.mem_cons_of_mem _ hb)⟩
    -- The first argument, and what is read of the others.
    have hcons : ∀ s rest, (s = a.text table ∨ s = strip (a.text table)) →
        reading arg rest = (firstNamed arg args).bind Value.number? →
        reading arg (pairs s ++ rest) = (firstNamed arg (a :: args)).bind Value.number? := by
      intro s rest hs hread
      rw [reading_argument ha hs, firstNamed_cons a args]
      cases firstNamed arg [a] with
      | some v => rfl
      | none => exact hread
    cases args with
    | nil =>
      cases trailing with
      | false =>
        rw [← List.append_nil (pairs _)]
        refine hcons _ [] ?_ rfl
        simp [joined]
      | true =>
        have hjoined : joined true ([a].map (Argument.text table)) = a.text table ++ ',' :: [] := rfl
        rw [hjoined, strip_append_cons (by decide), pairs_append]
        exact hcons _ _ (.inl rfl) (hlast _ (.inl rfl))
    | cons b args =>
      have hjoined : joined trailing ((a :: b :: args).map (Argument.text table)) =
          a.text table ++ ',' :: ([] ++ ' ' :: joined trailing ((b :: args).map (Argument.text table))) := rfl
      rw [hjoined, strip_append_cons (by decide), strip_append_cons (by decide), pairs_append, List.nil_append,
        pairs_space]
      exact hcons _ _ (.inl rfl) (ih hrest)

end Reading

/-! ### What the rules do to a schema -/

/-- Bounds are set one after the other. -/
def setBounds (read : Str → Option Json) (bounds : List (Str × Str)) (m : Map Str Json) : Map Str Json :=
  bounds.foldl (fun m bound => insertSome m bound.2 (read bound.1)) m

theorem get?_insertSome (m : Map Str Json) (key : Str) (value : Option Json) (k : Str) :
    (insertSome m key value).get? k = if k = key then value.or (m.get? k) else m.get? k := by
  cases value with
  | none => simp [insertSome]
  | some v => simp [insertSome]

/-- A constraint is then the number read for one of its bounds, or as before if there is none for any. -/
theorem get?_setBounds (read : Str → Option Json) (bounds : List (Str × Str)) (m : Map Str Json) (key : Str) :
    (∃ arg v, (arg, key) ∈ bounds ∧ read arg = some v ∧ (setBounds read bounds m).get? key = some v) ∨
      ((∀ arg, (arg, key) ∈ bounds → read arg = none) ∧ (setBounds read bounds m).get? key = m.get? key) := by
  induction bounds generalizing m with
  | nil => exact .inr ⟨by simp, rfl⟩
  | cons bound bounds ih =>
    obtain ⟨arg, target⟩ := bound
    have hstep : setBounds read ((arg, target) :: bounds) m =
        setBounds read bounds (insertSome m target (read arg)) := rfl
    rw [hstep]
    rcases ih (insertSome m target (read arg)) with ⟨arg', v, hmem, hread, hget⟩ | ⟨hnone, hget⟩
    · exact .inl ⟨arg', v, List.mem_cons_of_mem _ hmem, hread, hget⟩
    · rw [hget, get?_insertSome]
      by_cases hkey : key = target
      · subst hkey
        rw [if_pos rfl]
        cases hread : read arg with
        | some v => exact .inl ⟨arg, v, List.mem_cons_self, hread, rfl⟩
        | none =>
          refine .inr ⟨fun arg' hmem => ?_, rfl⟩
          rcases List.mem_cons.mp hmem with heq | hmem
          · rw [(Prod.mk.inj heq).1, hread]
          · exact hnone arg' hmem
      · rw [if_neg hkey]
        refine .inr ⟨fun arg' hmem => ?_, rfl⟩
        rcases List.mem_cons.mp hmem with heq | hmem
        · exact absurd (Prod.mk.inj heq).2 hkey
        · exact hnone arg' hmem

/-- The names of the rules that declare constraints. -/
def constraining : List Str := ["email", "url", "length", "range"].map String.toList

/-- A round of the loop, by what is read of the rule. -/
theorem applyRule_of_notMem {shape : TypeShape} {text : Str} (h : (parseRule text).1 ∉ constraining)
    (m : Map Str Json) : applyRule shape m text = m := by
  simp only [constraining, List.map_cons, List.map_nil, List.mem_cons, List.not_mem_nil, or_false, not_or] at h
  obtain ⟨hemail, hurl, hlength, hrange⟩ := h
  unfold applyRule
  simp only [if_neg hemail, if_neg hurl, if_neg hlength, if_neg hrange]

theorem applyRule_of_mem (shape : TypeShape) {text : Str} {args : List (Str × Str)} {r : Rule}
    (h : parseRule text = (r.name.text, args)) (m : Map Str Json) : applyRule shape m text =
      setBounds (fun arg => reading arg args) (r.bounds shape)
        (insertSome m "format".toList (r.format?.map .string)) := by
  have hread : ∀ arg, numberArg args arg = reading arg args := numberArg_eq args
  unfold applyRule Rule.bounds Rule.format?
  simp only [h, hread]
  by_cases hemail : r.name.text = "email".toList
  · rw [if_pos hemail, if_neg (by rw [hemail]; decide), if_neg (by rw [hemail]; decide), if_pos hemail]
    rfl
  by_cases hurl : r.name.text = "url".toList
  · rw [if_neg hemail, if_pos hurl, if_neg (by rw [hurl]; decide), if_neg (by rw [hurl]; decide), if_neg hemail,
      if_pos hurl]
    rfl
  by_cases hlength : r.name.text = "length".toList
  · rw [if_neg hemail, if_neg hurl, if_pos hlength, if_pos hlength, if_neg hemail, if_neg hurl]
    cases shape <;> rfl
  by_cases hrange : r.name.text = "range".toList
  · rw [if_neg hemail, if_neg hurl, if_neg hlength, if_pos hrange, if_neg hlength, if_pos hrange, if_neg hemail,
      if_neg hurl]
    rfl
  · rw [if_neg hemail, if_neg hurl, if_neg hlength, if_neg hrange, if_neg hlength, if_neg hrange, if_neg hemail,
      if_neg hurl]
    rfl

/-- What is declared has been set, and what is not declared is as before. -/
def Settled (declares : Str → Json → Prop) (before after : Map Str Json) : Prop :=
  ∀ key ∈ constraintKeys, (∃ v, declares key v ∧ after.get? key = some v) ∨
    ((∀ v, ¬ declares key v) ∧ after.get? key = before.get? key)

variable (table) in
/-- An attribute of one rule without a comma behind it, which is plain; or of rules that declare no
    constraints. -/
def Validate.Plain (a : Validate) : Prop :=
  (∃ r : Rule, a.rules = [r] ∧ a.trailing = false ∧ r.Plain table) ∨ ∀ r ∈ a.rules, r.name.text ∉ constraining

variable {shape : TypeShape}

theorem mem_boundNames {r : Rule} {arg key : Str} (h : (arg, key) ∈ r.bounds shape) : arg ∈ r.boundNames := by
  unfold Rule.bounds at h
  unfold Rule.boundNames
  split_ifs at h ⊢
  · have hmem := List.mem_map_of_mem (f := Prod.fst) h
    cases shape <;> simpa [or_comm, or_left_comm] using hmem
  · simpa using List.mem_map_of_mem (f := Prod.fst) h
  · cases h

theorem exists_of_firstNamed {arg : Str} {args : List Argument} {v : Value} (h : firstNamed arg args = some v) :
    ∃ name, .named name v ∈ args ∧ name.text = arg := by
  obtain ⟨a, ha, hsome⟩ := List.exists_of_findSome?_eq_some h
  cases a with
  | named name value =>
    simp only at hsome
    by_cases hname : name.text = arg
    · rw [if_pos hname, Option.some_inj] at hsome
      exact ⟨name, hsome ▸ ha, hname⟩
    · rw [if_neg hname] at hsome
      cases hsome
  | bare value => cases hsome

/-- What is read of a bound of a plain rule is declared, and what is declared is read. -/
theorem reading_bound {r : Rule} (h : r.Plain table) {arg : Str} (harg : arg ∈ r.boundNames) :
    (∀ n, reading arg (parseRule (r.text table)).2 = some n → ∃ name v, .named name v ∈ r.arguments ∧
      name.text = arg ∧ v.number? = some n) ∧
    (∀ name v n, .named name v ∈ r.arguments → name.text = arg → v.number? = some n →
      (reading arg (parseRule (r.text table)).2).isSome) := by
  have hread : reading arg (parseRule (r.text table)).2 = (firstNamed arg r.arguments).bind Value.number? := by
    rw [parseRule_text, Rule.arguments]
    cases hargs : r.args with
    | none => rfl
    | some args =>
      have hall : r.arguments = args.1 := by rw [Rule.arguments, hargs]; rfl
      refine reading_joined ⟨fun name v hv hname => ?_, fun a ha hstray => ?_⟩ args.2
      · exact h.reads name v (hall ▸ hv) (hname ▸ harg)
      · exact h.stray a (hall ▸ ha) arg hstray harg
  rw [hread]
  constructor
  · intro n hn
    obtain ⟨v, hv, hnumber⟩ := Option.bind_eq_some_iff.mp hn
    obtain ⟨name, hmem, hname⟩ := exists_of_firstNamed hv
    exact ⟨name, v, hmem, hname, hnumber⟩
  · rintro name v n hmem rfl hnumber
    exact h.first name v hmem harg (by rw [hnumber]; rfl)

theorem settled_rule (shape : TypeShape) {r : Rule} (h : r.Plain table) (m : Map Str Json) :
    Settled (r.Declares shape) m (applyRule shape m (r.text table)) := by
  intro key _
  have hname : parseRule (r.text table) = (r.name.text, (parseRule (r.text table)).2) := by rw [parseRule_text]
  rw [applyRule_of_mem shape hname]
  rcases get?_setBounds (fun arg => reading arg (parseRule (r.text table)).2) (r.bounds shape)
    (insertSome m "format".toList (r.format?.map .string)) key with ⟨arg, v, hmem, hread, hget⟩ | ⟨hnone, hget⟩
  · obtain ⟨name, value, hvalue, hname, hnumber⟩ := (reading_bound h (mem_boundNames hmem)).1 v hread
    exact .inl ⟨v, .inr ⟨arg, hmem, name, value, hvalue, hname, hnumber⟩, hget⟩
  · have hbound : ∀ v, ¬ ∃ arg, (arg, key) ∈ r.bounds shape ∧ ∃ name value, .named name value ∈ r.arguments ∧
        name.text = arg ∧ value.number? = some v := by
      rintro v ⟨arg, hmem, name, value, hvalue, hname, hnumber⟩
      have hsome := (reading_bound h (mem_boundNames hmem)).2 name value v hvalue hname hnumber
      rw [hnone arg hmem] at hsome
      cases hsome
    rw [hget, get?_insertSome]
    by_cases hkey : key = "format".toList
    · rw [if_pos hkey]
      cases hformat : r.format? with
      | some format => exact .inl ⟨.string format, .inl ⟨hkey, format, hformat, rfl⟩, rfl⟩
      | none =>
        refine .inr ⟨fun v hv => ?_, rfl⟩
        rcases hv with ⟨-, format, hsome, -⟩ | hv
        · rw [hformat] at hsome
          cases hsome
        · exact hbound v hv
    · rw [if_neg hkey]
      exact .inr ⟨fun v hv => hv.elim (fun hv => hkey hv.1) (hbound v), rfl⟩

/-- A rule that is none of the constraining ones declares nothing. -/
theorem not_declares {r : Rule} (h : r.name.text ∉ constraining) (key : Str) (v : Json) : ¬ r.Declares shape key v := by
  simp only [constraining, List.map_cons, List.map_nil, List.mem_cons, List.not_mem_nil, or_false, not_or] at h
  obtain ⟨hemail, hurl, hlength, hrange⟩ := h
  unfold Rule.Declares Rule.format? Rule.bounds
  rw [if_neg hemail, if_neg hurl, if_neg hlength, if_neg hrange]
  simp

theorem settled_attribute {a : Validate} (h : a.Plain table) (hne : a.text table ≠ []) (m : Map Str Json) :
    Settled (fun key v => ∃ r ∈ a.rules, r.Declares shape key v) m (applyRule shape m (a.text table)) := by
  rcases h with ⟨r, hrules, htrailing, hplain⟩ | h
  · have htext : a.text table = r.text table := by
      rw [Validate.text, hrules, htrailing]
      exact List.append_nil _
    intro key hkey
    rw [htext, hrules]
    rcases settled_rule shape hplain m key hkey with ⟨v, hdeclares, hget⟩ | ⟨hnone, hget⟩
    · exact .inl ⟨v, ⟨r, List.mem_singleton_self r, hdeclares⟩, hget⟩
    · refine .inr ⟨?_, hget⟩
      rintro v ⟨r', hr', hdeclares⟩
      rw [List.mem_singleton.mp hr'] at hdeclares
      exact hnone v hdeclares
  · have hname : (parseRule (a.text table)).1 ∉ constraining := by
      rcases name_parseRule table a with htext | hcomma | ⟨r, hr, hname⟩
      · exact absurd htext hne
      · have hwords : ∀ word ∈ constraining, ',' ∉ word := by decide +kernel
        exact fun hmem => hwords _ hmem hcomma
      · rw [hname]
        exact h r hr
    intro key _
    rw [applyRule_of_notMem hname]
    exact .inr ⟨fun v ⟨r, hr, hdeclares⟩ => not_declares (h r hr) key v hdeclares, rfl⟩

/-- An attribute without text has no rules. -/
theorem rules_eq_nil {a : Validate} (h : a.text table = []) : a.rules = [] := by
  obtain ⟨rules, trailing⟩ := a
  cases rules with
  | nil => rfl
  | cons r rules =>
    obtain ⟨rest, htext, -⟩ := text_cons table r rules trailing
    rw [htext, Rule.text, List.append_eq_nil_iff, List.append_eq_nil_iff] at h
    exact absurd h.1.1 r.name.ne

/-- The loop over the attributes. -/
theorem settled_attributes {attrs : List Validate} (h : ∀ a ∈ attrs, a.Plain table) (m : Map Str Json) :
    Settled (Declares shape attrs) m
      (((attrs.map (Validate.text table)).filter (· ≠ [])).foldl (applyRule shape) m) := by
  induction attrs generalizing m with
  | nil =>
    intro key _
    exact .inr ⟨by simp [Declares], rfl⟩
  | cons a attrs ih =>
    have hrest := ih fun b hb => h b (List.mem_cons_of_mem a hb)
    -- What the first attribute settles, and what the others settle after it.
    have hstep : ∃ m', Settled (fun key v => ∃ r ∈ a.rules, r.Declares shape key v) m m' ∧
        (((a :: attrs).map (Validate.text table)).filter (· ≠ [])).foldl (applyRule shape) m =
          ((attrs.map (Validate.text table)).filter (· ≠ [])).foldl (applyRule shape) m' := by
      by_cases hne : a.text table = []
      · refine ⟨m, fun key _ => .inr ⟨?_, rfl⟩, ?_⟩
        · simp [rules_eq_nil hne]
        · rw [List.map_cons, List.filter_cons_of_neg (by simpa using hne)]
      · refine ⟨_, settled_attribute (h a List.mem_cons_self) hne m, ?_⟩
        rw [List.map_cons, List.filter_cons_of_pos (by simpa using hne), List.foldl_cons]
    obtain ⟨m', hfirst, hfold⟩ := hstep
    intro key hkey
    rw [hfold]
    rcases hrest m' key hkey with ⟨v, ⟨b, hb, hdeclares⟩, hget⟩ | ⟨hnone, hget⟩
    · exact .inl ⟨v, ⟨b, List.mem_cons_of_mem a hb, hdeclares⟩, hget⟩
    · rw [hget]
      rcases hfirst key hkey with ⟨v, hdeclares, hget'⟩ | ⟨hnone', hget'⟩
      · exact .inl ⟨v, ⟨a, List.mem_cons_self, hdeclares⟩, hget'⟩
      · refine .inr ⟨?_, hget'⟩
        rintro v ⟨b, hb, hdeclares⟩
        rcases List.mem_cons.mp hb with rfl | hb
        · exact hnone' v hdeclares
        · exact hnone v ⟨b, hb, hdeclares⟩

/-- The schema of a shape is an object, without constraints. -/
theorem jsonSchema_object (shape : TypeShape) : ∃ m, jsonSchema shape = .object m ∧
    ∀ key ∈ constraintKeys, m.get? key = none := by
  have hkeys : ∀ key ∈ constraintKeys, key ≠ "type".toList ∧ key ≠ "anyOf".toList ∧ key ≠ "items".toList := by
    decide +kernel
  have hsingle : ∀ key ∈ constraintKeys, ∀ k v, key ≠ k → (single k v).get? key = none := by
    intro key _ k v hne
    rw [single, Map.get?_insert, if_neg hne, Map.get?_empty]
  cases shape with
  | string => exact ⟨_, rfl, fun key hkey => hsingle key hkey _ _ (hkeys key hkey).1⟩
  | number => exact ⟨_, rfl, fun key hkey => hsingle key hkey _ _ (hkeys key hkey).1⟩
  | boolean => exact ⟨_, rfl, fun key hkey => hsingle key hkey _ _ (hkeys key hkey).1⟩
  | optional inner => exact ⟨_, rfl, fun key hkey => hsingle key hkey _ _ (hkeys key hkey).2.1⟩
  | array inner =>
    refine ⟨_, rfl, fun key hkey => ?_⟩
    rw [Map.get?_insert, if_neg (hkeys key hkey).2.2]
    exact hsingle key hkey _ _ (hkeys key hkey).1
  | unknown => exact ⟨_, rfl, fun key _ => Map.get?_empty key⟩

variable (table) in
/-- What a field carries is what the loop has set on the schema of what is not null. -/
theorem carried_field (name ty : Str) (attrs : List Validate) : ∃ m, (∀ key ∈ constraintKeys, m.get? key = none) ∧
    ∀ key, carried (field table name ty attrs) key =
      (((attrs.map (Validate.text table)).filter (· ≠ [])).foldl (applyRule (parse ty).unwrapped) m).get? key := by
  obtain ⟨m, hobject, hnone⟩ := jsonSchema_object (parse ty).unwrapped
  refine ⟨m, hnone, fun key => ?_⟩
  rw [carried, field, fieldSchema]
  simp only [hobject, applyRules, extractValidateRules_attributes]
  split
  · rfl
  · rfl

/-- What is settled on a schema without constraints is carried exactly. -/
theorem exact_of_settled {declares : Str → Json → Prop} {m m' : Map Str Json} {carried : Str → Option Json}
    (h : Settled declares m m') (hnone : ∀ key ∈ constraintKeys, m.get? key = none)
    (hcarried : ∀ key, carried key = m'.get? key) : Exact declares carried := by
  intro key hkey
  rw [hcarried]
  rcases h key hkey with ⟨v, hdeclares, hget⟩ | ⟨hno, hget⟩
  · rw [hget]
    refine ⟨fun value hvalue => ?_, fun _ => rfl⟩
    rwa [← Option.some.inj hvalue]
  · rw [hget, hnone key hkey]
    exact ⟨nofun, fun ⟨v, hv⟩ => absurd hv (hno v)⟩

/-- Of rules behind one without arguments, and of that rule, nothing is left. -/
theorem applyRule_bare {r : Rule} (hr : r.args = none) {rules : List Rule} {trailing : Bool}
    (hmore : rules ≠ [] ∨ trailing = true) (m : Map Str Json) :
    applyRule shape m (Validate.text table ⟨r :: rules, trailing⟩) = m := by
  obtain ⟨rest, htext, hrest, hend⟩ := text_cons table r rules trailing
  rcases hrest with rfl | ⟨rest, rfl⟩
  · obtain ⟨hrules, htrailing⟩ := hend rfl
    exact absurd hmore (by simp [hrules, htrailing])
  · have hname : r.text table = r.name.text := by
      rw [Rule.text, hr]
      exact List.append_nil _
    have hwords : ∀ word ∈ constraining, ',' ∉ word := by decide +kernel
    rw [htext, hname]
    exact applyRule_of_notMem (fun hmem => hwords _ hmem (comma_mem_name r.name rest)) m

end Written

/-! ### Plain rules -/

/-- A rule that has no bounds is plain. -/
theorem plain_of_boundNames {table : Char → Bool} {r : Rule} (h : r.boundNames = []) : r.Plain table where
  first name v _ hname := by simp [h] at hname
  reads name v _ hname := by simp [h] at hname
  stray a _ arg _ := by simp [h]

/-- A value that no parenthesis closes is read as it stands. -/
theorem reads_of_notMem {table : Char → Bool} {v : Value} (hclose : ')' ∉ firstPiece (v.text table))
    (hread : readNumber (Str.trim (firstPiece (v.text table))) = v.number?) (s closing : Str)
    (hs : firstPiece (v.text table) = s ++ closing) (hall : ∀ c ∈ closing, c = ')') :
    readNumber (Str.trim s) = v.number? := by
  have hnil : closing = [] := List.eq_nil_iff_forall_not_mem.mpr fun c hc => hclose (by
    rw [hs, ← hall c hc]
    exact List.mem_append_right _ hc)
  rwa [hs, hnil, List.append_nil] at hread

/-- A literal as a value. -/
def literal (text : Str) (h : startsClose text = false ∧ endsComma text = false) : Value :=
  ⟨[.literal text], by simp, fun token htoken => by rw [List.mem_singleton.mp htoken]; exact h⟩

/-- `length(min = 1, max = 120)`. -/
def titleLength : Rule :=
  ⟨⟨"length".toList, by decide, by decide +kernel⟩,
    some ([.named ⟨"min".toList, by decide, by decide +kernel⟩ (literal "1".toList (by decide)),
      .named ⟨"max".toList, by decide, by decide +kernel⟩ (literal "120".toList (by decide))], false)⟩

/-- `email`. -/
def emailRule : Rule := ⟨⟨"email".toList, by decide, by decide +kernel⟩, none⟩

/-! ### Exactly what is declared -/

/-- Where each attribute is a single plain rule, or has no rules that declare constraints, a field carries
    exactly the constraints that are declared. Where an attribute has more than one rule, or a comma at its
    end, and the first rule has no arguments, nothing of it is carried. -/
theorem constraints_declared (table : Char → Bool) (name ty : Str) :
    (∀ attrs : List Validate, (∀ a ∈ attrs, a.Plain table) →
      Exact (Declares (parse ty).unwrapped attrs) (carried (field table name ty attrs))) ∧
    ∀ (r : Rule) (rules : List Rule) (trailing : Bool), r.args = none → rules ≠ [] ∨ trailing = true →
      (Exact (Declares (parse ty).unwrapped [⟨r :: rules, trailing⟩])
          (carried (field table name ty [⟨r :: rules, trailing⟩])) ↔
        ∀ key ∈ constraintKeys, ∀ v, ¬ Declares (parse ty).unwrapped [⟨r :: rules, trailing⟩] key v) := by
  refine ⟨fun attrs h => ?_, fun r rules trailing hr hmore => ?_⟩
  · obtain ⟨m, hnone, hcarried⟩ := carried_field table name ty attrs
    exact exact_of_settled (settled_attributes h m) hnone hcarried
  · obtain ⟨m, hnone, hcarried⟩ := carried_field table name ty [⟨r :: rules, trailing⟩]
    have hcarries : ∀ key ∈ constraintKeys, carried (field table name ty [⟨r :: rules, trailing⟩]) key = none := by
      intro key hkey
      rw [hcarried, ← hnone key hkey, List.map_singleton]
      by_cases hne : Validate.text table ⟨r :: rules, trailing⟩ = []
      · rw [List.filter_cons_of_neg (by simpa using hne)]
        rfl
      · rw [List.filter_cons_of_pos (by simpa using hne), List.filter_nil, List.foldl_cons, List.foldl_nil,
          applyRule_bare hr hmore]
    constructor
    · intro h key hkey v hv
      have hsome := (h key hkey).2 ⟨v, hv⟩
      rw [hcarries key hkey] at hsome
      cases hsome
    · intro h key hkey
      rw [hcarries key hkey]
      exact ⟨nofun, fun ⟨v, hv⟩ => absurd hv (h key hkey v)⟩

/-- The attributes `length(min = 1, max = 120)` and `email` of an optional text. -/
theorem title_declared : Exact
    (Declares (parse "Option<String>".toList).unwrapped [⟨[titleLength], false⟩, ⟨[emailRule], false⟩])
    (carried (field (fun _ => false) "title".toList "Option<String>".toList
      [⟨[titleLength], false⟩, ⟨[emailRule], false⟩])) := by
  have hlength : titleLength.Plain fun _ => false := by
    have hmin : parseI64 "1".toList = some 1 := by decide +kernel
    have hmax : parseI64 "120".toList = some 120 := by decide +kernel
    refine ⟨?_, ?_, ?_⟩
    · intro name v hmem _ _
      rcases List.mem_cons.mp hmem with heq | hmem
      · obtain ⟨rfl, rfl⟩ := Argument.named.inj heq
        rfl
      · obtain ⟨rfl, rfl⟩ := Argument.named.inj (List.mem_singleton.mp hmem)
        rfl
    · intro name v hmem _
      rcases List.mem_cons.mp hmem with heq | hmem
      · obtain ⟨rfl, rfl⟩ := Argument.named.inj heq
        refine reads_of_notMem (by decide +kernel) ?_
        have hread : readNumber "1".toList = some (ofI64 1) := by rw [readNumber, hmin]
        exact hread.trans (congrArg some (if_pos (by decide))).symm
      · obtain ⟨rfl, rfl⟩ := Argument.named.inj (List.mem_singleton.mp hmem)
        refine reads_of_notMem (by decide +kernel) ?_
        have hread : readNumber "120".toList = some (ofI64 120) := by rw [readNumber, hmax]
        exact hread.trans (congrArg some (if_pos (by decide))).symm
    · intro a hmem arg harg
      have hstrays : ∀ a ∈ titleLength.arguments, a.strays (fun _ => false) = [] := by
        intro a ha
        rcases List.mem_pair.mp ha with rfl | rfl
        · decide +kernel
        · decide +kernel
      rw [hstrays a hmem] at harg
      cases harg
  refine (constraints_declared _ _ _).1 _ fun a ha => .inl ?_
  rcases List.mem_pair.mp ha with rfl | rfl
  · exact ⟨titleLength, rfl, rfl, hlength⟩
  · exact ⟨emailRule, rfl, rfl, plain_of_boundNames (by decide +kernel)⟩

/-- `length(min = 1)`. -/
def lengthMin : Rule :=
  ⟨⟨"length".toList, by decide, by decide +kernel⟩,
    some ([.named ⟨"min".toList, by decide, by decide +kernel⟩ (literal "1".toList (by decide))], false)⟩

/-- `length(message = "a, max = 5, b")`. -/
def lengthMessage : Rule :=
  ⟨⟨"length".toList, by decide, by decide +kernel⟩,
    some ([.named ⟨"message".toList, by decide, by decide +kernel⟩
      (literal "\x22a, max = 5, b\x22".toList (by decide))], false)⟩

/-- Two rules in one attribute: neither is carried, though both are declared. And a bound that no rule
    declares is carried from within a message. -/
theorem several_rules_lost :
    Validate.text (fun _ => false) ⟨[lengthMin, emailRule], false⟩ = "length(min=1), email".toList ∧
      Declares .string [⟨[lengthMin, emailRule], false⟩] "minLength".toList (ofI64 1) ∧
      Declares .string [⟨[lengthMin, emailRule], false⟩] "format".toList (.string "email".toList) ∧
      carried (field (fun _ => false) "title".toList "String".toList [⟨[lengthMin, emailRule], false⟩])
        "minLength".toList = none ∧
      carried (field (fun _ => false) "title".toList "String".toList [⟨[lengthMin, emailRule], false⟩])
        "format".toList = none ∧
      (∀ v, ¬ Declares .string [⟨[lengthMessage], false⟩] "maxLength".toList v) ∧
      carried (field (fun _ => false) "title".toList "String".toList [⟨[lengthMessage], false⟩])
        "maxLength".toList = some (ofI64 5) := by
  have hnormal : normalize "String".toList = "String".toList := by decide +kernel
  have hparse : parse "String".toList = .string := by
    rw [parse_name hnormal (by decide)]
    decide +kernel
  -- What is carried, with the rules of the attribute as text.
  have hcarried : ∀ attrs key, carried (field (fun _ => false) "title".toList "String".toList attrs) key =
      member key (applyRules (jsonSchema .string) .string
        (extractValidateRules (fun _ => false) (attrs.map Validate.attribute))) := by
    intro attrs key
    simp only [carried, field, fieldSchema, hparse]
    rfl
  have hone : (literal "1".toList (by decide)).number? = some (ofI64 1) := congrArg some (if_pos (by decide))
  have hmessage : (literal "\x22a, max = 5, b\x22".toList (by decide)).number? = none := rfl
  rw [hcarried, hcarried, hcarried]
  refine ⟨by decide +kernel, ?_, ?_, rfl, rfl, ?_, rfl⟩
  · exact ⟨_, List.mem_singleton_self _, lengthMin, List.mem_cons_self, .inr ⟨"min".toList, by decide +kernel, _, _,
      List.mem_cons_self, rfl, hone⟩⟩
  · exact ⟨_, List.mem_singleton_self _, emailRule, by simp, .inl ⟨rfl, _, rfl, rfl⟩⟩
  · rintro v ⟨a, ha, r, hr, hdeclares⟩
    rw [List.mem_singleton.mp ha] at hr
    rw [List.mem_singleton.mp hr] at hdeclares
    rcases hdeclares with ⟨hkey, -⟩ | ⟨arg, -, name, value, hvalue, -, hnumber⟩
    · exact absurd hkey (by decide)
    · have hvalue : Argument.named name value = .named _ _ := List.mem_singleton.mp hvalue
      rw [(Argument.named.inj hvalue).2, hmessage] at hnumber
      cases hnumber

end Arcature.Uag.Constraints
