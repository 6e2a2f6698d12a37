import Arcature.Lib.Text

/-! A reader of HTML elements, as far as the head of a document needs one.

    A text holds elements with a line break and two spaces between them. An element has attributes in
    double quotes, and is closed at once or holds text up to its end tag:

        <title>Tea &amp; Sympathy</title>
          <meta name="description" content="&quot;No&quot;" />

    The five references of markup characters stand for those characters, in text and in attributes. What
    is written element by element is read element by element, whatever the values are, as long as no
    quote stands in an attribute and no `<` in a text (`read_document`). -/

namespace Arcature.Lib.Html
open Arcature.Lib

/-- An element: its name, its attributes, and its text if it has an end tag. -/
structure Element where
  name : Str
  attrs : List (Str × Str)
  text : Option Str
  deriving DecidableEq

/-- References are read as the characters that they stand for. -/
def decode : Str → Str
  | '&' :: 'a' :: 'm' :: 'p' :: ';' :: rest => '&' :: decode rest
  | '&' :: 'l' :: 't' :: ';' :: rest => '<' :: decode rest
  | '&' :: 'g' :: 't' :: ';' :: rest => '>' :: decode rest
  | '&' :: 'q' :: 'u' :: 'o' :: 't' :: ';' :: rest => '"' :: decode rest
  | '&' :: '#' :: 'x' :: '2' :: '7' :: ';' :: rest => '\'' :: decode rest
  | c :: rest => c :: decode rest
  | [] => []

/-- A character of a name. -/
def isNameChar (c : Char) : Bool := c.isAlphanum || c = ':' || c = '-' || c = '_'

/-- The rest of a start tag: its attributes, whether the element is closed at once, and what follows. -/
def readTag : ℕ → Str → Option (List (Str × Str) × Bool × Str)
  | 0, _ => none
  | _ + 1, '>' :: rest => some ([], false, rest)
  | _ + 1, ' ' :: '/' :: '>' :: rest => some ([], true, rest)
  | fuel + 1, ' ' :: rest =>
    match rest.takeWhile isNameChar, rest.dropWhile isNameChar with
    | c :: name, '=' :: '"' :: rest =>
      match rest.dropWhile (· ≠ '"') with
      | _ :: behind =>
        (readTag fuel behind).map fun (attrs, closed, behind) =>
          ((c :: name, decode (rest.takeWhile (· ≠ '"'))) :: attrs, closed, behind)
      | [] => none
    | _, _ => none
  | _ + 1, _ => none

/-- One element, and what follows it. -/
def readElement (s : Str) : Option (Element × Str) :=
  (Str.stripPrefix ['<'] s).bind fun s =>
    let name := s.takeWhile isNameChar
    (readTag s.length (s.dropWhile isNameChar)).bind fun (attrs, closed, rest) =>
      if closed then some (⟨name, attrs, none⟩, rest)
      else
        (Str.stripPrefix ("</".toList ++ name ++ ['>']) (rest.dropWhile (· ≠ '<'))).map fun behind =>
          (⟨name, attrs, some (decode (rest.takeWhile (· ≠ '<')))⟩, behind)

/-- What stands between two elements. -/
def separator : Str := "\n  ".toList

/-- Elements up to the end. -/
def readElements : ℕ → Str → Option (List Element)
  | 0, _ => none
  | fuel + 1, s =>
    (readElement s).bind fun (element, rest) =>
      if rest = [] then some [element]
      else (Str.stripPrefix separator rest).bind fun rest => (readElements fuel rest).map (element :: ·)

/-- The elements of a text. -/
def read (s : Str) : Option (List Element) := if s = [] then some [] else readElements s.length s

/-! ### Elements as they are written -/

/-- An attribute as it is written. -/
def writeAttr (attr : Str × Str) : Str := ' ' :: attr.1 ++ "=\x22".toList ++ attr.2 ++ "\x22".toList

/-- An element as it is written, with values that are spelled already. -/
def Element.write (e : Element) : Str :=
  '<' :: e.name ++ e.attrs.flatMap writeAttr ++
    match e.text with
    | none => " />".toList
    | some text => '>' :: text ++ "</".toList ++ e.name ++ ['>']

/-- An element with values that are read. -/
def Element.decoded (e : Element) : Element :=
  ⟨e.name, e.attrs.map fun attr => (attr.1, decode attr.2), e.text.map decode⟩

/-- A name. -/
def IsName (name : Str) : Prop := name ≠ [] ∧ ∀ c ∈ name, isNameChar c = true

instance : DecidablePred IsName := fun name => inferInstanceAs (Decidable (name ≠ [] ∧ ∀ c ∈ name, isNameChar c = true))

/-- An element whose spelled values end where they should. -/
structure Element.Spelled (e : Element) : Prop where
  name : IsName e.name
  attrs : ∀ attr ∈ e.attrs, IsName attr.1 ∧ '"' ∉ attr.2
  text : ∀ text, e.text = some text → '<' ∉ text

/-- Characters up to one that is not of their kind. -/
theorem takeWhile_dropWhile {p : Char → Bool} {a : Str} {x : Char} (ha : ∀ c ∈ a, p c = true) (hx : p x = false)
    (b : Str) : (a ++ x :: b).takeWhile p = a ∧ (a ++ x :: b).dropWhile p = x :: b := by
  rw [List.takeWhile_append_of_pos ha, List.dropWhile_append_of_pos ha, List.takeWhile_cons, List.dropWhile_cons, hx]
  exact ⟨List.append_nil a, rfl⟩

theorem ne_of_notMem {d : Char} {s : Str} (h : d ∉ s) : ∀ c ∈ s, decide (c ≠ d) = true :=
  fun _ hc => decide_eq_true fun heq => h (heq ▸ hc)

/-- One attribute of a tag is read, and what follows it. -/
theorem readTag_attr {name value : Str} (hname : IsName name) (hvalue : '"' ∉ value) (fuel : ℕ) (behind : Str) :
    readTag (fuel + 1) (writeAttr (name, value) ++ behind) =
      (readTag fuel behind).map fun (attrs, closed, rest) => ((name, decode value) :: attrs, closed, rest) := by
  obtain ⟨hne, hchars⟩ := hname
  obtain ⟨c, name, rfl⟩ := List.exists_cons_of_ne_nil hne
  have hshape : writeAttr (c :: name, value) ++ behind =
      ' ' :: ((c :: name) ++ '=' :: '"' :: (value ++ '"' :: behind)) := by simp [writeAttr]
  obtain ⟨htake, hdrop⟩ := takeWhile_dropWhile hchars (x := '=') (by decide) ('"' :: (value ++ '"' :: behind))
  obtain ⟨hvtake, hvdrop⟩ := takeWhile_dropWhile (ne_of_notMem hvalue) (x := '"') (by decide) behind
  have hslash : c ≠ '/' := by
    rintro rfl
    exact absurd (hchars '/' List.mem_cons_self) (by decide)
  rw [hshape, readTag]
  · rw [htake, hdrop]
    simp only [hvtake, hvdrop]
  · intro rest hrest
    exact hslash (List.cons.inj hrest).1

/-- A tag is read attribute by attribute. -/
theorem readTag_attrs {attrs : List (Str × Str)} (h : ∀ attr ∈ attrs, IsName attr.1 ∧ '"' ∉ attr.2) {fuel : ℕ}
    (hfuel : attrs.length < fuel) {closing rest : Str} {closed : Bool}
    (hclosing : ∀ n, readTag (n + 1) closing = some ([], closed, rest)) :
    readTag fuel (attrs.flatMap writeAttr ++ closing) =
      some (attrs.map fun attr => (attr.1, decode attr.2), closed, rest) := by
  induction attrs generalizing fuel with
  | nil =>
    obtain ⟨n, rfl⟩ := Nat.exists_eq_add_of_lt hfuel
    exact hclosing _
  | cons attr attrs ih =>
    obtain ⟨n, rfl⟩ := Nat.exists_eq_add_of_lt hfuel
    obtain ⟨hname, hvalue⟩ := h attr List.mem_cons_self
    rw [List.flatMap_cons, List.append_assoc, readTag_attr hname hvalue,
      ih (fun a ha => h a (List.mem_cons_of_mem _ ha)) (by rw [List.length_cons]; omega)]
    rfl

theorem length_le_flatMap_writeAttr (attrs : List (Str × Str)) : attrs.length ≤ (attrs.flatMap writeAttr).length := by
  induction attrs with
  | nil => exact Nat.le_refl _
  | cons attr attrs ih =>
    rw [List.flatMap_cons, List.length_append, List.length_cons, writeAttr]
    simp only [List.cons_append, List.length_cons]
    omega

/-- An element that is written is read, with its values decoded. -/
theorem readElement_write {e : Element} (h : e.Spelled) (rest : Str) :
    readElement (e.write ++ rest) = some (e.decoded, rest) := by
  obtain ⟨name, attrs, text⟩ := e
  obtain ⟨⟨hne, hchars⟩, hattrs, htext⟩ := h
  -- The name ends where the attributes begin, or the tag ends.
  have hname : ∀ closing : Str, (∃ c behind, closing = c :: behind ∧ isNameChar c = false) →
      (name ++ (attrs.flatMap writeAttr ++ closing)).takeWhile isNameChar = name ∧
        (name ++ (attrs.flatMap writeAttr ++ closing)).dropWhile isNameChar = attrs.flatMap writeAttr ++ closing := by
    rintro closing ⟨c, behind, rfl, hc⟩
    cases attrs with
    | nil => exact takeWhile_dropWhile hchars hc behind
    | cons attr attrs => exact takeWhile_dropWhile hchars (x := ' ') (by decide) _
  have hfuel : ∀ c closing, attrs.length < (name ++ (attrs.flatMap writeAttr ++ c :: closing)).length := by
    intro c closing
    have hle := length_le_flatMap_writeAttr attrs
    rw [List.length_append, List.length_append, List.length_cons]
    omega
  have hstrip : ∀ s, Str.stripPrefix ['<'] ('<' :: s) = some s := fun s => Str.stripPrefix_eq_some.mpr rfl
  cases text with
  | none =>
    have hshape : Element.write ⟨name, attrs, none⟩ ++ rest =
        '<' :: (name ++ (attrs.flatMap writeAttr ++ ' ' :: '/' :: '>' :: rest)) := by simp [Element.write]
    obtain ⟨htake, hdrop⟩ := hname (' ' :: '/' :: '>' :: rest) ⟨' ', _, rfl, by decide⟩
    rw [hshape, readElement, hstrip, Option.bind_some]
    simp only [htake, hdrop]
    rw [readTag_attrs hattrs (hfuel _ _) fun n => rfl]
    rfl
  | some text =>
    have hshape : Element.write ⟨name, attrs, some text⟩ ++ rest = '<' :: (name ++ (attrs.flatMap writeAttr ++
        '>' :: (text ++ '<' :: '/' :: (name ++ '>' :: rest)))) := by simp [Element.write]
    obtain ⟨htake, hdrop⟩ := hname ('>' :: (text ++ '<' :: '/' :: (name ++ '>' :: rest))) ⟨'>', _, rfl, by decide⟩
    obtain ⟨htext, hbehind⟩ := takeWhile_dropWhile (ne_of_notMem (htext text rfl)) (x := '<') (by decide)
      ('/' :: (name ++ '>' :: rest))
    have hend : Str.stripPrefix ("</".toList ++ name ++ ['>']) ('<' :: '/' :: (name ++ '>' :: rest)) = some rest :=
      Str.stripPrefix_eq_some.mpr (by simp)
    rw [hshape, readElement, hstrip, Option.bind_some]
    simp only [htake, hdrop]
    rw [readTag_attrs hattrs (hfuel _ _) fun n => rfl]
    simp only [Option.bind_some, Bool.false_eq_true, if_false, htext, hbehind, hend]
    rfl

/-- Texts with a separator between them. -/
def document (texts : List Str) : Str := separator.intercalate texts

theorem document_concat {texts : List Str} (h : texts ≠ []) (text : Str) :
    document (texts ++ [text]) = document texts ++ separator ++ text := by
  induction texts with
  | nil => exact absurd rfl h
  | cons t texts ih =>
    cases texts with
    | nil => simp [document]
    | cons t' texts =>
      simp only [document, List.cons_append, List.intercalate_cons_cons, List.append_assoc] at ih ⊢
      rw [ih (List.cons_ne_nil _ _)]

/-- Elements that are written with separators between them are read one by one. -/
theorem readElements_document {e : Element} {es : List Element} (h : ∀ e' ∈ e :: es, e'.Spelled) {fuel : ℕ}
    (hfuel : es.length < fuel) :
    readElements fuel (document ((e :: es).map Element.write)) = some ((e :: es).map Element.decoded) := by
  induction es generalizing e fuel with
  | nil =>
    obtain ⟨n, rfl⟩ := Nat.exists_eq_add_of_lt hfuel
    have hread := readElement_write (h e List.mem_cons_self) []
    rw [List.append_nil] at hread
    simp [document, readElements, hread]
  | cons e' es ih =>
    obtain ⟨n, rfl⟩ := Nat.exists_eq_add_of_lt hfuel
    have hshape : document ((e :: e' :: es).map Element.write) =
        e.write ++ (separator ++ document ((e' :: es).map Element.write)) := by
      rw [document, List.map_cons, List.map_cons, List.intercalate_cons_cons, document, List.append_assoc]
    have hne : separator ++ document ((e' :: es).map Element.write) ≠ [] := by
      rw [separator]
      exact List.cons_ne_nil _ _
    rw [hshape, readElements, readElement_write (h e List.mem_cons_self), Option.bind_some]
    dsimp only
    rw [if_neg hne, Str.stripPrefix_append, Option.bind_some,
      ih (fun x hx => h x (List.mem_cons_of_mem _ hx)) (by rw [List.length_cons] at *; omega)]
    rfl

theorem length_le_document (es : List Element) : es.length ≤ (document (es.map Element.write)).length := by
  induction es with
  | nil => exact Nat.zero_le _
  | cons e es ih =>
    cases es with
    | nil => simp [document, Element.write]
    | cons e' es =>
      rw [document, List.map_cons, List.map_cons, List.intercalate_cons_cons, ← List.map_cons, ← document,
        List.length_append, List.length_append, List.length_cons]
      have hseparator : separator.length = 3 := rfl
      omega

/-- A document is read as its elements. -/
theorem read_document {es : List Element} (h : ∀ e ∈ es, e.Spelled) :
    read (document (es.map Element.write)) = some (es.map Element.decoded) := by
  cases es with
  | nil => rfl
  | cons e es =>
    have hlen := length_le_document (e :: es)
    have hne : document ((e :: es).map Element.write) ≠ [] := by
      intro hnil
      rw [hnil] at hlen
      simp at hlen
    rw [read, if_neg hne, readElements_document h (by rw [List.length_cons] at hlen; omega)]

end Arcature.Lib.Html
