import Arcature.Lib.Text

/-! JSON as a text, read and written.

    A value here is what a text spells: a number by its digits, the members of an object in their order.
    Writing puts no blanks in and leaves one thing open, how the characters of a string are spelled; reading
    knows all of JSON. Whatever spelling each character is read back from, the text of a value is read back
    as that value (`parse_write`):

        value   "a/b" in an array
        texts   ["a/b"]    ["a\/b"]    ["a\u002fb"]

    The reader takes a value, or what may follow in an array or in an object, off the front of a text, and
    returns the rest. Its fuel is the nesting it may still go through, of which the length of a text is
    always enough. -/

namespace Arcature.Lib.JsonText

/-! ### Values -/

/-- A character of a number. -/
def isNumberChar (c : Char) : Bool := c.isDigit || c ∈ ['-', '+', '.', 'e', 'E']

/-- A digit at least, and digits only. -/
def isDigits (s : Str) : Bool := !s.isEmpty && s.all Char.isDigit

/-- An exponent, with a sign or without. -/
def isExponent (s : Str) : Bool := isDigits s || (s.head?.any (· ∈ ['-', '+']) && isDigits s.tail)

/-- A number: an integer without a leading zero, then a fraction and an exponent if there are any. -/
def isNumber (s : Str) : Bool :=
  let unsigned := if s.head? = some '-' then s.tail else s
  let whole := unsigned.takeWhile Char.isDigit
  let rest := unsigned.dropWhile Char.isDigit
  let mantissaEnd := rest.takeWhile fun c => c ≠ 'e' && c ≠ 'E'
  let exponent := rest.dropWhile fun c => c ≠ 'e' && c ≠ 'E'
  s.all isNumberChar && isDigits whole && (whole.head? ≠ some '0' || whole.length = 1) &&
    (mantissaEnd.isEmpty || (mantissaEnd.head? = some '.' && isDigits mantissaEnd.tail)) &&
    (exponent.isEmpty || isExponent exponent.tail)

/-- What a text spells. -/
inductive Value where
  | null
  | bool (b : Bool)
  | number (literal : {s : Str // isNumber s = true})
  | string (s : Str)
  | array (items : List Value)
  | object (members : List (Str × Value))

/-! ### Writing -/

section write

variable (spell : Char → Str)

/-- A string in its quotes. -/
def quoted (s : Str) : Str := '"' :: s.flatMap spell ++ ['"']

mutual

/-- The text of a value. -/
def write : Value → Str
  | .null => "null".toList
  | .bool true => "true".toList
  | .bool false => "false".toList
  | .number literal => literal.1
  | .string s => quoted spell s
  | .array [] => "[]".toList
  | .array (v :: items) => '[' :: write v ++ writeItems items
  | .object [] => "\x7b\x7d".toList
  | .object ((name, v) :: members) => '\x7b' :: quoted spell name ++ ':' :: write v ++ writeMembers members

/-- What follows an item of an array. -/
def writeItems : List Value → Str
  | [] => [']']
  | v :: items => ',' :: write v ++ writeItems items

/-- What follows a member of an object. -/
def writeMembers : List (Str × Value) → Str
  | [] => ['\x7d']
  | (name, v) :: members => ',' :: quoted spell name ++ ':' :: write v ++ writeMembers members

end

end write

/-! ### Reading -/

/-- Blanks between tokens. -/
def isBlank (c : Char) : Bool := c ∈ [' ', '\t', '\n', '\r']

def skipBlanks (s : Str) : Str := s.dropWhile isBlank

/-- The value of a hexadecimal digit. -/
def hexValue (c : Char) : Option ℕ :=
  if c.isDigit then some (c.toNat - '0'.toNat)
  else if 'a' ≤ c ∧ c ≤ 'f' then some (c.toNat - 'a'.toNat + 10)
  else if 'A' ≤ c ∧ c ≤ 'F' then some (c.toNat - 'A'.toNat + 10)
  else none

/-- The four digits of a code unit. -/
def readUnit : Str → Option (ℕ × Str)
  | a :: b :: c :: d :: rest => do
    let a ← hexValue a
    let b ← hexValue b
    let c ← hexValue c
    let d ← hexValue d
    some (((a * 16 + b) * 16 + c) * 16 + d, rest)
  | _ => none

/-- The character of a code unit; a high surrogate needs its low one. -/
def readUnicode (s : Str) : Option (Char × Str) := do
  let (unit, rest) ← readUnit s
  if 0xd800 ≤ unit ∧ unit < 0xdc00 then
    let rest ← Str.stripPrefix ['\\', 'u'] rest
    let (low, rest) ← readUnit rest
    if 0xdc00 ≤ low ∧ low < 0xe000 then
      some (Char.ofNat (0x10000 + (unit - 0xd800) * 0x400 + (low - 0xdc00)), rest)
    else none
  else if 0xdc00 ≤ unit ∧ unit < 0xe000 then none
  else some (Char.ofNat unit, rest)

/-- What one letter behind a backslash stands for. -/
def letterEscapes : List (Char × Char) :=
  [('"', '"'), ('\\', '\\'), ('/', '/'), ('b', Char.ofNat 0x8), ('f', Char.ofNat 0xc), ('n', '\n'), ('r', '\r'),
    ('t', '\t')]

/-- A character of a string, spelled in some way. -/
def readChar : Str → Option (Char × Str)
  | [] => none
  | '\\' :: 'u' :: rest => readUnicode rest
  | '\\' :: letter :: rest => (letterEscapes.lookup letter).map (·, rest)
  | c :: rest => if c = '"' ∨ c = '\\' ∨ c.toNat < 0x20 then none else some (c, rest)

/-- A string behind its first quote. -/
def readString : ℕ → Str → Option (Str × Str)
  | 0, _ => none
  | fuel + 1, s =>
    if s.head? = some '"' then some ([], s.tail)
    else do
      let (c, rest) ← readChar s
      let (text, rest) ← readString fuel rest
      some (c :: text, rest)

/-- A number, or one of the words. -/
def readScalar (s : Str) : Option (Value × Str) :=
  match Str.stripPrefix "null".toList s, Str.stripPrefix "true".toList s, Str.stripPrefix "false".toList s with
  | some rest, _, _ => some (.null, rest)
  | _, some rest, _ => some (.bool true, rest)
  | _, _, some rest => some (.bool false, rest)
  | none, none, none =>
    if h : isNumber (s.takeWhile isNumberChar) = true then
      some (.number ⟨s.takeWhile isNumberChar, h⟩, s.dropWhile isNumberChar)
    else none

/-- The name of a member and its colon. -/
def readName (s : Str) : Option (Str × Str) := do
  let rest ← Str.stripPrefix ['"'] (skipBlanks s)
  let (name, rest) ← readString (rest.length + 1) rest
  let rest ← Str.stripPrefix [':'] (skipBlanks rest)
  some (name, rest)

mutual

/-- A value at the front of a text. -/
def readValue : ℕ → Str → Option (Value × Str)
  | 0, _ => none
  | fuel + 1, s =>
    let s := skipBlanks s
    if s.head? = some '"' then
      (readString s.length s.tail).map fun (text, rest) => (.string text, rest)
    else if s.head? = some '[' then
      if (skipBlanks s.tail).head? = some ']' then some (.array [], (skipBlanks s.tail).tail)
      else do
        let (v, rest) ← readValue fuel s.tail
        let (items, rest) ← readItems fuel rest
        some (.array (v :: items), rest)
    else if s.head? = some '\x7b' then
      if (skipBlanks s.tail).head? = some '\x7d' then some (.object [], (skipBlanks s.tail).tail)
      else do
        let (name, rest) ← readName s.tail
        let (v, rest) ← readValue fuel rest
        let (members, rest) ← readMembers fuel rest
        some (.object ((name, v) :: members), rest)
    else readScalar s

/-- The items that follow one of an array. -/
def readItems : ℕ → Str → Option (List Value × Str)
  | 0, _ => none
  | fuel + 1, s =>
    let s := skipBlanks s
    if s.head? = some ']' then some ([], s.tail)
    else if s.head? = some ',' then do
      let (v, rest) ← readValue fuel s.tail
      let (items, rest) ← readItems fuel rest
      some (v :: items, rest)
    else none

/-- The members that follow one of an object. -/
def readMembers : ℕ → Str → Option (List (Str × Value) × Str)
  | 0, _ => none
  | fuel + 1, s =>
    let s := skipBlanks s
    if s.head? = some '\x7d' then some ([], s.tail)
    else if s.head? = some ',' then do
      let (name, rest) ← readName s.tail
      let (v, rest) ← readValue fuel rest
      let (members, rest) ← readMembers fuel rest
      some ((name, v) :: members, rest)
    else none

end

/-- A text as a whole. -/
def parse (s : Str) : Option Value :=
  (readValue (s.length + 1) s).bind fun (v, rest) => if skipBlanks rest = [] then some v else none

/-! ### Reading what was written -/

section spelled

variable {spell : Char → Str}

/-- Every character is read back from its spelling, whatever follows. -/
def Spells (spell : Char → Str) : Prop := ∀ c rest, readChar (spell c ++ rest) = some (c, rest)

/-- A spelling has a first character, and it is no quote. -/
theorem Spells.head (h : Spells spell) (c : Char) : ∃ first rest, spell c = first :: rest ∧ first ≠ '"' := by
  have hread := h c []
  rw [List.append_nil] at hread
  cases hspell : spell c with
  | nil => simp [hspell, readChar] at hread
  | cons first rest =>
    refine ⟨first, rest, rfl, ?_⟩
    rintro rfl
    simp [hspell, readChar] at hread

theorem Spells.length_le (h : Spells spell) (s : Str) : s.length ≤ (s.flatMap spell).length := by
  induction s with
  | nil => exact Nat.zero_le _
  | cons c s ih =>
    obtain ⟨first, rest, hspell, -⟩ := h.head c
    rw [List.flatMap_cons, List.length_append, List.length_cons, hspell, List.length_cons]
    omega

theorem readString_spelled (h : Spells spell) (s rest : Str) {fuel : ℕ} (hfuel : s.length < fuel) :
    readString fuel (s.flatMap spell ++ '"' :: rest) = some (s, rest) := by
  induction s generalizing fuel with
  | nil =>
    obtain ⟨fuel, rfl⟩ := Nat.exists_eq_add_one_of_ne_zero (Nat.ne_of_gt hfuel)
    simp [readString]
  | cons c s ih =>
    obtain ⟨fuel, rfl⟩ := Nat.exists_eq_add_one_of_ne_zero (Nat.ne_of_gt (Nat.zero_lt_of_lt hfuel))
    obtain ⟨first, tail, hspell, hquote⟩ := h.head c
    have hhead : ((c :: s).flatMap spell ++ '"' :: rest).head? ≠ some '"' := by
      rw [List.flatMap_cons, hspell]
      exact fun hfirst => hquote (Option.some.inj hfirst)
    rw [readString, if_neg hhead, List.flatMap_cons, List.append_assoc, h c]
    simp only [Option.bind_eq_bind, Option.bind_some]
    rw [ih (Nat.lt_of_succ_lt_succ hfuel)]
    rfl

/-- No blank is skipped in front of what is no blank. -/
theorem skipBlanks_cons {c : Char} (h : isBlank c = false) (s : Str) : skipBlanks (c :: s) = c :: s := by
  rw [skipBlanks, List.dropWhile_cons_of_neg (by rw [h]; exact Bool.false_ne_true)]

theorem readName_quoted (h : Spells spell) (name rest : Str) :
    readName (quoted spell name ++ ':' :: rest) = some (name, rest) := by
  have hfuel : name.length < (name.flatMap spell ++ '"' :: ':' :: rest).length + 1 := by
    have := h.length_le name
    rw [List.length_append]
    omega
  rw [quoted, readName, List.cons_append, List.cons_append, skipBlanks_cons rfl, List.append_assoc]
  have hquote : ∀ s : Str, Str.stripPrefix ['"'] ('"' :: s) = some s := Str.stripPrefix_append ['"']
  have hcolon : ∀ s : Str, Str.stripPrefix [':'] (':' :: s) = some s := Str.stripPrefix_append [':']
  rw [hquote]
  simp only [Option.bind_eq_bind, Option.bind_some, List.cons_append, List.nil_append]
  rw [readString_spelled h name _ hfuel]
  simp only [Option.bind_some]
  rw [skipBlanks_cons rfl, hcolon]
  rfl

/-- A text that ends a number. -/
def Ends (rest : Str) : Prop := ∀ c ∈ rest.head?, isNumberChar c = false

theorem ends_cons {c : Char} (h : isNumberChar c = false) (s : Str) : Ends (c :: s) := by
  rintro d hd
  obtain rfl := Option.some.inj hd
  exact h

theorem takeWhile_ends {literal rest : Str} (h : ∀ c ∈ literal, isNumberChar c = true) (hrest : Ends rest) :
    (literal ++ rest).takeWhile isNumberChar = literal ∧ (literal ++ rest).dropWhile isNumberChar = rest := by
  rw [List.takeWhile_append_of_pos h, List.dropWhile_append_of_pos h]
  cases rest with
  | nil => exact ⟨List.append_nil _, rfl⟩
  | cons c rest =>
    have hc : ¬ isNumberChar c = true := by simp [hrest c rfl]
    rw [List.takeWhile_cons_of_neg hc, List.dropWhile_cons_of_neg hc]
    exact ⟨List.append_nil _, rfl⟩

/-- A number has a first character, which is one of a number like all of its characters. -/
theorem isNumber_chars {s : Str} (h : isNumber s = true) : s ≠ [] ∧ ∀ c ∈ s, isNumberChar c = true := by
  simp only [isNumber, Bool.and_eq_true] at h
  refine ⟨?_, List.all_eq_true.mp h.1.1.1.1⟩
  rintro rfl
  simp [isDigits] at h

theorem stripPrefix_of_head_ne {first c : Char} (h : c ≠ first) (opening s : Str) :
    Str.stripPrefix (first :: opening) (c :: s) = none := by
  cases hstrip : Str.stripPrefix (first :: opening) (c :: s) with
  | none => rfl
  | some rest => exact absurd (List.cons.inj (Str.stripPrefix_eq_some.mp hstrip)).1 h

theorem readScalar_number (literal : {s : Str // isNumber s = true}) {rest : Str} (h : Ends rest) :
    readScalar (literal.1 ++ rest) = some (.number literal, rest) := by
  obtain ⟨literal, hnumber⟩ := literal
  obtain ⟨hne, hchars⟩ := isNumber_chars hnumber
  obtain ⟨htake, hdrop⟩ := takeWhile_ends hchars h
  have hstrip : ∀ first opening, isNumberChar first = false →
      Str.stripPrefix (first :: opening) (literal ++ rest) = none := by
    intro first opening hfirst
    obtain ⟨c, tail, rfl⟩ := List.exists_cons_of_ne_nil hne
    refine stripPrefix_of_head_ne ?_ opening (tail ++ rest)
    rintro rfl
    exact absurd (hchars c List.mem_cons_self) (by rw [hfirst]; exact Bool.false_ne_true)
  have hnull : Str.stripPrefix "null".toList (literal ++ rest) = none := hstrip 'n' _ rfl
  have htrue : Str.stripPrefix "true".toList (literal ++ rest) = none := hstrip 't' _ rfl
  have hfalse : Str.stripPrefix "false".toList (literal ++ rest) = none := hstrip 'f' _ rfl
  simp only [readScalar, hnull, htrue, hfalse, htake, hdrop, hnumber, ↓reduceDIte]

theorem readScalar_word (rest : Str) : readScalar ("null".toList ++ rest) = some (.null, rest) ∧
    readScalar ("true".toList ++ rest) = some (.bool true, rest) ∧
      readScalar ("false".toList ++ rest) = some (.bool false, rest) := by
  refine ⟨?_, ?_, ?_⟩
  · rw [readScalar, Str.stripPrefix_append]
  · have hnull : Str.stripPrefix "null".toList ("true".toList ++ rest) = none :=
      stripPrefix_of_head_ne (by decide) _ _
    rw [readScalar, hnull, Str.stripPrefix_append]
  · have hnull : Str.stripPrefix "null".toList ("false".toList ++ rest) = none :=
      stripPrefix_of_head_ne (by decide) _ _
    have htrue : Str.stripPrefix "true".toList ("false".toList ++ rest) = none :=
      stripPrefix_of_head_ne (by decide) _ _
    rw [readScalar, hnull, htrue, Str.stripPrefix_append]

/-- A text that is no string, array or object is read as a scalar. -/
theorem readValue_scalar {c : Char} {s : Str} {fuel : ℕ} (hblank : isBlank c = false)
    (h : c ∉ ['"', '[', '\x7b']) : readValue (fuel + 1) (c :: s) = readScalar (c :: s) := by
  have hne : ∀ d, d ∈ ['"', '[', '\x7b'] → ¬ (c :: s).head? = some d := by
    rintro d hd heq
    obtain rfl := Option.some.inj heq
    exact h hd
  rw [readValue, skipBlanks_cons hblank, if_neg (hne _ (by simp)), if_neg (hne _ (by simp)), if_neg (hne _ (by simp))]

/-- A value starts neither with a blank nor with the end of an array. -/
theorem write_head (spell : Char → Str) (v : Value) :
    ∃ c s, write spell v = c :: s ∧ isBlank c = false ∧ c ≠ ']' := by
  cases v with
  | null => exact ⟨'n', _, rfl, rfl, by decide⟩
  | bool b => cases b <;> exact ⟨_, _, rfl, rfl, by decide⟩
  | number literal =>
    obtain ⟨hne, hchars⟩ := isNumber_chars literal.2
    obtain ⟨c, s, heq⟩ := List.exists_cons_of_ne_nil hne
    have hc : isNumberChar c = true := hchars c (by rw [heq]; exact List.mem_cons_self)
    refine ⟨c, s, by rw [write, heq], ?_, ?_⟩
    · rw [isBlank, decide_eq_false_iff_not]
      intro hblank
      simp only [List.mem_cons, List.not_mem_nil, or_false] at hblank
      rcases hblank with rfl | rfl | rfl | rfl <;> exact absurd hc (by decide)
    · rintro rfl
      exact absurd hc (by decide)
  | string s => exact ⟨'"', _, by rw [write, quoted]; rfl, rfl, by decide⟩
  | array items => cases items <;> exact ⟨'[', _, by rw [write]; rfl, rfl, by decide⟩
  | object members => cases members <;> exact ⟨'\x7b', _, by rw [write]; rfl, rfl, by decide⟩

/-- A number ends where the next item starts, or the array. -/
theorem items_ends (items : List Value) (rest : Str) : Ends (writeItems spell items ++ rest) := by
  cases items <;> rw [writeItems] <;> exact ends_cons rfl _

theorem members_ends (members : List (Str × Value)) (rest : Str) : Ends (writeMembers spell members ++ rest) := by
  cases members <;> rw [writeMembers] <;> exact ends_cons rfl _

/-- A member, and what is written after it. -/
def writeMember (spell : Char → Str) (name : Str) (v : Value) (rest : Str) : Str :=
  quoted spell name ++ ':' :: (write spell v ++ rest)

section member

variable {name : Str} {v : Value} {items : List Value} {members : List (Str × Value)} {rest : Str} {fuel : ℕ}

theorem write_object_cons : write spell (.object ((name, v) :: members)) =
    '\x7b' :: writeMember spell name v (writeMembers spell members) := by
  rw [write, writeMember, List.append_assoc, List.cons_append, List.cons_append]

theorem writeMembers_cons : writeMembers spell ((name, v) :: members) =
    ',' :: writeMember spell name v (writeMembers spell members) := by
  rw [writeMembers, writeMember, List.append_assoc, List.cons_append, List.cons_append]

theorem writeMember_append (after rest : Str) :
    writeMember spell name v after ++ rest = writeMember spell name v (after ++ rest) := by
  rw [writeMember, writeMember, List.append_assoc, List.cons_append, List.append_assoc]

theorem length_writeMember :
    (writeMember spell name v rest).length = (quoted spell name).length + (write spell v).length + rest.length + 1 := by
  rw [writeMember, List.length_append, List.length_cons, List.length_append]
  omega

/-- A member starts with no closing brace. -/
theorem writeMember_ne_close : ¬ (skipBlanks (writeMember spell name v rest)).head? = some '\x7d' := by
  rw [writeMember, quoted, List.cons_append, List.cons_append, skipBlanks_cons rfl]
  exact fun heq => absurd (Option.some.inj heq) (by decide)

/-- An item is read, and then those after it. -/
theorem read_item {β : Type} (build : List Value → β)
    (hv : readValue fuel (write spell v ++ (writeItems spell items ++ rest)) =
      some (v, writeItems spell items ++ rest))
    (hitems : readItems fuel (writeItems spell items ++ rest) = some (items, rest)) : (do
      let (v, rest) ← readValue fuel (write spell v ++ (writeItems spell items ++ rest))
      let (items, rest) ← readItems fuel rest
      some (build (v :: items), rest)) = some (build (v :: items), rest) := by
  rw [hv]
  simp only [Option.bind_eq_bind, Option.bind_some]
  rw [hitems]
  rfl

/-- A member is read, and then those after it. -/
theorem read_member (h : Spells spell) {β : Type} (build : List (Str × Value) → β)
    (hv : readValue fuel (write spell v ++ (writeMembers spell members ++ rest)) =
      some (v, writeMembers spell members ++ rest))
    (hmembers : readMembers fuel (writeMembers spell members ++ rest) = some (members, rest)) : (do
      let (name, rest) ← readName (writeMember spell name v (writeMembers spell members ++ rest))
      let (v, rest) ← readValue fuel rest
      let (members, rest) ← readMembers fuel rest
      some (build ((name, v) :: members), rest)) = some (build ((name, v) :: members), rest) := by
  rw [writeMember, readName_quoted h]
  simp only [Option.bind_eq_bind, Option.bind_some]
  rw [hv]
  simp only [Option.bind_some]
  rw [hmembers]
  rfl

end member

mutual

/-- A written value is read off the front of whatever it is followed by. -/
theorem readValue_write (h : Spells spell) : ∀ (v : Value) {rest : Str} {fuel : ℕ}, Ends rest →
    (write spell v).length < fuel → readValue fuel (write spell v ++ rest) = some (v, rest)
  | .null, rest, fuel + 1, _, _ => by
    rw [write]
    exact (readValue_scalar rfl (by decide)).trans (readScalar_word rest).1
  | .bool true, rest, fuel + 1, _, _ => by
    rw [write]
    exact (readValue_scalar rfl (by decide)).trans (readScalar_word rest).2.1
  | .bool false, rest, fuel + 1, _, _ => by
    rw [write]
    exact (readValue_scalar rfl (by decide)).trans (readScalar_word rest).2.2
  | .number literal, rest, fuel + 1, hrest, _ => by
    rw [write]
    obtain ⟨c, s, hwrite, hblank, -⟩ := write_head spell (.number literal)
    rw [write] at hwrite
    have hc : isNumberChar c = true := (isNumber_chars literal.2).2 c (by rw [hwrite]; exact List.mem_cons_self)
    have hscalar : readValue (fuel + 1) (literal.1 ++ rest) = readScalar (literal.1 ++ rest) := by
      rw [hwrite, List.cons_append]
      refine readValue_scalar hblank fun hmem => ?_
      simp only [List.mem_cons, List.not_mem_nil, or_false] at hmem
      rcases hmem with rfl | rfl | rfl <;> exact absurd hc (by decide)
    exact hscalar.trans (readScalar_number literal hrest)
  | .string s, rest, fuel + 1, _, _ => by
    have hlen : s.length < ('"' :: (s.flatMap spell ++ '"' :: rest)).length := by
      have := h.length_le s
      rw [List.length_cons, List.length_append, List.length_cons]
      omega
    rw [write, quoted, List.cons_append, List.cons_append, List.append_assoc, List.singleton_append, readValue,
      skipBlanks_cons rfl, if_pos List.head?_cons]
    simp only [List.tail_cons]
    rw [readString_spelled h s rest hlen]
    rfl
  | .array [], rest, fuel + 1, _, _ => rfl
  | .array (v :: items), rest, fuel + 1, hrest, hfuel => by
    obtain ⟨c, s, hwrite, hblank, hclose⟩ := write_head spell v
    rw [write, List.length_append, List.length_cons] at hfuel
    have hempty : ¬ (skipBlanks (write spell v ++ writeItems spell items ++ rest)).head? = some ']' := by
      rw [hwrite, List.append_assoc, List.cons_append, skipBlanks_cons hblank]
      exact fun heq => hclose (Option.some.inj heq)
    rw [write, List.cons_append, List.cons_append, readValue, skipBlanks_cons rfl, if_neg (by simp),
      if_pos List.head?_cons, List.tail_cons, if_neg hempty, List.append_assoc]
    exact read_item Value.array (readValue_write h v (items_ends items rest) (by omega))
      (readItems_write h items (by omega))
  | .object [], rest, fuel + 1, _, _ => rfl
  | .object ((name, v) :: members), rest, fuel + 1, hrest, hfuel => by
    rw [write_object_cons, List.length_cons, length_writeMember] at hfuel
    rw [write_object_cons, List.cons_append, writeMember_append, readValue, skipBlanks_cons rfl, if_neg (by simp),
      if_neg (by simp), if_pos List.head?_cons, List.tail_cons, if_neg writeMember_ne_close]
    exact read_member h Value.object (readValue_write h v (members_ends members rest) (by omega))
      (readMembers_write h members (by omega))

theorem readItems_write (h : Spells spell) : ∀ (items : List Value) {rest : Str} {fuel : ℕ},
    (writeItems spell items).length < fuel →
      readItems fuel (writeItems spell items ++ rest) = some (items, rest)
  | [], rest, fuel + 1, _ => rfl
  | v :: items, rest, fuel + 1, hfuel => by
    rw [writeItems, List.length_append, List.length_cons] at hfuel
    rw [writeItems, List.cons_append, List.cons_append, readItems, skipBlanks_cons rfl, if_neg (by simp),
      if_pos List.head?_cons, List.tail_cons, List.append_assoc]
    exact read_item id (readValue_write h v (items_ends items rest) (by omega)) (readItems_write h items (by omega))

theorem readMembers_write (h : Spells spell) : ∀ (members : List (Str × Value)) {rest : Str} {fuel : ℕ},
    (writeMembers spell members).length < fuel →
      readMembers fuel (writeMembers spell members ++ rest) = some (members, rest)
  | [], rest, fuel + 1, _ => rfl
  | (name, v) :: members, rest, fuel + 1, hfuel => by
    rw [writeMembers_cons, List.length_cons, length_writeMember] at hfuel
    rw [writeMembers_cons, List.cons_append, writeMember_append, readMembers, skipBlanks_cons rfl, if_neg (by simp),
      if_pos List.head?_cons, List.tail_cons]
    exact read_member h id (readValue_write h v (members_ends members rest) (by omega))
      (readMembers_write h members (by omega))

end

/-- Whatever the spelling, a text is read back as the value it was written from. -/
theorem parse_write (h : Spells spell) (v : Value) : parse (write spell v) = some v := by
  have hread := readValue_write h v (show Ends [] from fun c hc => absurd hc (by simp)) (Nat.lt_succ_self _)
  rw [List.append_nil] at hread
  rw [parse, hread]
  rfl

end spelled

/-! ### Rewriting the characters of a text -/

/-- A character that stands outside of strings, or is their quote. -/
def isToken (c : Char) : Bool :=
  isNumberChar c || c ∈ ['"', '[', ']', '\x7b', '\x7d', ',', ':', 'n', 'u', 'l', 't', 'r', 'e', 'f', 'a', 's']

section rewrite

variable {f : Char → Str}

theorem flatMap_tokens (hf : ∀ c, isToken c = true → f c = [c]) {s : Str} (h : s.all isToken = true) :
    s.flatMap f = s := by
  rw [List.flatMap_congr fun c hc => hf c (List.all_eq_true.mp h c hc)]
  exact List.flatMap_singleton' s

theorem flatMap_token_cons (hf : ∀ c, isToken c = true → f c = [c]) {c : Char} (h : isToken c = true) (s : Str) :
    (c :: s).flatMap f = c :: s.flatMap f := by
  rw [List.flatMap_cons, hf c h]
  rfl

theorem flatMap_quoted (hf : ∀ c, isToken c = true → f c = [c]) (spell : Char → Str) (s : Str) :
    (quoted spell s).flatMap f = quoted (fun c => (spell c).flatMap f) s := by
  rw [quoted, quoted, List.cons_append, List.cons_append, flatMap_token_cons hf rfl, List.flatMap_append,
    flatMap_token_cons hf rfl, List.flatMap_assoc]
  rfl

mutual

/-- Characters that keep the tokens are rewritten in the spellings only. -/
theorem flatMap_write (hf : ∀ c, isToken c = true → f c = [c]) (spell : Char → Str) : ∀ v : Value,
    (write spell v).flatMap f = write (fun c => (spell c).flatMap f) v
  | .null | .bool true | .bool false => by
    rw [write, write]
    exact flatMap_tokens hf (by decide)
  | .number literal => by
    rw [write, write]
    refine flatMap_tokens hf (List.all_eq_true.mpr fun c hc => ?_)
    rw [isToken, (isNumber_chars literal.2).2 c hc, Bool.true_or]
  | .string s => by
    rw [write, write]
    exact flatMap_quoted hf spell s
  | .array [] | .object [] => by
    rw [write, write]
    exact flatMap_tokens hf (by decide)
  | .array (v :: items) => by
    rw [write, write, List.cons_append, flatMap_token_cons hf rfl, List.flatMap_append, flatMap_write hf spell v,
      flatMap_writeItems hf spell items]
    rfl
  | .object ((name, v) :: members) => by
    rw [write, write, List.cons_append, List.cons_append, flatMap_token_cons hf rfl, List.flatMap_append,
      List.flatMap_append, flatMap_quoted hf spell name, flatMap_token_cons hf rfl, flatMap_write hf spell v,
      flatMap_writeMembers hf spell members]
    rfl

theorem flatMap_writeItems (hf : ∀ c, isToken c = true → f c = [c]) (spell : Char → Str) : ∀ items : List Value,
    (writeItems spell items).flatMap f = writeItems (fun c => (spell c).flatMap f) items
  | [] => by
    rw [writeItems, writeItems]
    exact flatMap_tokens hf (by decide)
  | v :: items => by
    rw [writeItems, writeItems, List.cons_append, flatMap_token_cons hf rfl, List.flatMap_append,
      flatMap_write hf spell v, flatMap_writeItems hf spell items]
    rfl

theorem flatMap_writeMembers (hf : ∀ c, isToken c = true → f c = [c]) (spell : Char → Str) :
    ∀ members : List (Str × Value),
      (writeMembers spell members).flatMap f = writeMembers (fun c => (spell c).flatMap f) members
  | [] => by
    rw [writeMembers, writeMembers]
    exact flatMap_tokens hf (by decide)
  | (name, v) :: members => by
    rw [writeMembers, writeMembers, List.cons_append, List.cons_append, flatMap_token_cons hf rfl,
      List.flatMap_append, List.flatMap_append, flatMap_quoted hf spell name, flatMap_token_cons hf rfl,
      flatMap_write hf spell v, flatMap_writeMembers hf spell members]
    rfl

end

end rewrite

end Arcature.Lib.JsonText
