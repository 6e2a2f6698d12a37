import Arcature.Lib.Json

/-! Type literals of TypeScript: how a text is read, and which JSON values a type has.

    The characters are cut into tokens by an automaton, and the tokens are read by recursive descent.
    Brackets behind a type bind tighter than bars:

        string | null[]        union string (array null)
        (string | null)[]      array (union string null)

    What `print` writes of a type is read back as that type (`parse_print`). -/

namespace Arcature.Lib.TypeScript

/-! ### Tokens -/

/-- A token; white space and comments are none. -/
inductive Token where
  | word (w : Str)
  | literal (s : Str)
  | punct (c : Char)
  deriving DecidableEq

/-- The characters of identifiers and keywords. -/
def isWordChar (c : Char) : Bool := c.isAlphanum || c = '_' || c = '$'

/-- The characters that are tokens of their own. -/
def isPunct (c : Char) : Bool := "\x7b\x7d[]()<>|:;,?=".toList.contains c

/-- What the automaton is in the middle of. -/
inductive LexState where
  | start
  | word (w : Str)
  | literal (s : Str)
  | escape (s : Str)
  | unicode (s : Str) (digits value : ℕ)
  | slash
  | comment
  deriving DecidableEq

/-- The value of a hexadecimal digit. -/
def hexValue (c : Char) : Option ℕ :=
  if c.isDigit then some (c.toNat - '0'.toNat)
  else if 'a' ≤ c ∧ c ≤ 'f' then some (c.toNat - 'a'.toNat + 10)
  else if 'A' ≤ c ∧ c ≤ 'F' then some (c.toNat - 'A'.toNat + 10)
  else none

/-- What stands behind a backslash for one character. -/
def unescape : Char → Option Char
  | '\x22' => some '\x22'
  | '\\' => some '\\'
  | 'n' => some '\n'
  | 'r' => some '\r'
  | 't' => some '\t'
  | _ => none

/-- A character between two tokens. -/
def lexStart (c : Char) : Option (List Token × LexState) :=
  if c = ' ' ∨ c = '\n' ∨ c = '\r' ∨ c = '\t' then some ([], .start)
  else if isWordChar c then some ([], .word [c])
  else if c = '\x22' then some ([], .literal [])
  else if c = '/' then some ([], .slash)
  else if isPunct c then some ([.punct c], .start)
  else none

/-- One character: the token that it ends, and what it begins or goes on with. -/
def lexChar : LexState → Char → Option (List Token × LexState)
  | .start, c => lexStart c
  | .word w, c =>
    if isWordChar c then some ([], .word (w ++ [c])) else (lexStart c).map fun r => (.word w :: r.1, r.2)
  | .literal s, c =>
    if c = '\x22' then some ([.literal s], .start)
    else if c = '\\' then some ([], .escape s)
    else if c = '\n' ∨ c = '\r' then none
    else some ([], .literal (s ++ [c]))
  | .escape s, c =>
    if c = 'u' then some ([], .unicode s 0 0) else (unescape c).map fun d => ([], .literal (s ++ [d]))
  | .unicode s digits value, c =>
    (hexValue c).bind fun d =>
      if digits < 3 then some ([], .unicode s (digits + 1) (16 * value + d))
      else if (16 * value + d).isValidChar then some ([], .literal (s ++ [Char.ofNat (16 * value + d)]))
      else none
  | .slash, c => if c = '/' then some ([], .comment) else none
  | .comment, c => some ([], if c = '\n' then .start else .comment)

/-- A text, from a state on. -/
def lexFrom : LexState → Str → Option (List Token × LexState)
  | st, [] => some ([], st)
  | st, c :: s => (lexChar st c).bind fun r => (lexFrom r.2 s).map fun r' => (r.1 ++ r'.1, r'.2)

/-- The tokens of a text. -/
def lex (s : Str) : Option (List Token) :=
  (lexFrom .start s).bind fun r =>
    match r.2 with
    | .start | .comment => some r.1
    | .word w => some (r.1 ++ [.word w])
    | _ => none

@[simp] theorem lexFrom_nil (st : LexState) : lexFrom st [] = some ([], st) := rfl

theorem lexFrom_cons (st : LexState) (c : Char) (s : Str) :
    lexFrom st (c :: s) = (lexChar st c).bind fun r => (lexFrom r.2 s).map fun r' => (r.1 ++ r'.1, r'.2) := rfl

theorem lexFrom_append {st st' : LexState} {s : Str} {ts : List Token} (h : lexFrom st s = some (ts, st')) (s' : Str) :
    lexFrom st (s ++ s') = (lexFrom st' s').map fun r => (ts ++ r.1, r.2) := by
  induction s generalizing st ts with
  | nil =>
    obtain ⟨rfl, rfl⟩ := Prod.mk.inj (Option.some.inj h)
    cases hrest : lexFrom st s' <;> simp [hrest]
  | cons c s ih =>
    rw [lexFrom_cons] at h
    obtain ⟨⟨us, st₁⟩, hchar, h⟩ := Option.bind_eq_some_iff.mp h
    obtain ⟨⟨vs, st₂⟩, hrest, h⟩ := Option.map_eq_some_iff.mp h
    obtain ⟨rfl, rfl⟩ := Prod.mk.inj h
    rw [List.cons_append, lexFrom_cons, hchar, Option.bind_some, ih hrest, Option.map_map]
    simp only [Function.comp_def, List.append_assoc]

/-! ### Texts and their tokens -/

/-- A text that is complete: it has these tokens, whatever follows. -/
def Closed (s : Str) (ts : List Token) : Prop := lexFrom .start s = some (ts, .start)

/-- A text that has these tokens if no letter or digit follows. -/
def Lexed (s : Str) (ts : List Token) : Prop :=
  Closed s ts ∨ ∃ us w, lexFrom .start s = some (us, .word w) ∧ us ++ [.word w] = ts

theorem Closed.nil : Closed [] [] := rfl

theorem Closed.append {s s' : Str} {ts ts' : List Token} (h : Closed s ts) (h' : Closed s' ts') :
    Closed (s ++ s') (ts ++ ts') := by
  rw [Closed, lexFrom_append h, h', Option.map_some]

theorem Closed.append_lexed {s s' : Str} {ts ts' : List Token} (h : Closed s ts) (h' : Lexed s' ts') :
    Lexed (s ++ s') (ts ++ ts') := by
  rcases h' with h' | ⟨us, w, hlex, rfl⟩
  · exact .inl (h.append h')
  · refine .inr ⟨ts ++ us, w, ?_, List.append_assoc ..⟩
    rw [lexFrom_append h, hlex, Option.map_some]

/-- Between two tokens a word that no letter goes on with is a token. -/
theorem lexFrom_word {c : Char} (hc : isWordChar c = false) (w s : Str) :
    lexFrom (.word w) (c :: s) = (lexFrom .start (c :: s)).map fun r => (.word w :: r.1, r.2) := by
  rw [lexFrom_cons, lexFrom_cons]
  simp only [lexChar, hc, Bool.false_eq_true, if_false]
  cases lexStart c with
  | none => rfl
  | some r =>
    simp only [Option.map_some, Option.bind_some, Option.map_map, Function.comp_def, List.cons_append]

/-- A text that no word goes on with. -/
def Breaks (s : Str) : Prop := s.head?.map isWordChar = some false

theorem lexFrom_word_breaks {s : Str} (hs : Breaks s) (w : Str) :
    lexFrom (.word w) s = (lexFrom .start s).map fun r => (.word w :: r.1, r.2) := by
  cases s with
  | nil => cases hs
  | cons c s => exact lexFrom_word (Option.some.inj hs) w s

theorem Lexed.append_closed {s s' : Str} {ts ts' : List Token} (h : Lexed s ts) (h' : Closed s' ts')
    (hs : Breaks s') : Closed (s ++ s') (ts ++ ts') := by
  rcases h with h | ⟨us, w, hlex, rfl⟩
  · exact h.append h'
  · rw [Closed, lexFrom_append hlex, lexFrom_word_breaks hs, h']
    simp only [Option.map_some, List.append_assoc, List.singleton_append]

theorem Lexed.append {s s' : Str} {ts ts' : List Token} (h : Lexed s ts) (h' : Lexed s' ts')
    (hs : Breaks s') : Lexed (s ++ s') (ts ++ ts') := by
  rcases h' with h' | ⟨us, w, hlex, rfl⟩
  · exact .inl (h.append_closed h' hs)
  · rcases h with h | ⟨vs, v, hlex', rfl⟩
    · exact h.append_lexed (.inr ⟨us, w, hlex, rfl⟩)
    · refine .inr ⟨vs ++ .word v :: us, w, ?_, by simp⟩
      rw [lexFrom_append hlex', lexFrom_word_breaks hs, hlex]
      rfl

theorem Lexed.lex {s : Str} {ts : List Token} (h : Lexed s ts) : lex s = some ts := by
  rcases h with h | ⟨us, w, hlex, rfl⟩
  · rw [TypeScript.lex, h, Option.bind_some]
  · rw [TypeScript.lex, hlex, Option.bind_some]

/-- White space is no token. -/
theorem closed_spaces {s : Str} (h : ∀ c ∈ s, c = ' ') : Closed s [] := by
  induction s with
  | nil => exact .nil
  | cons c s ih =>
    obtain rfl := h c List.mem_cons_self
    have hspace : Closed [' '] [] := rfl
    exact hspace.append (ih fun d hd => h d (List.mem_cons_of_mem _ hd))

theorem lexFrom_comment {s : Str} (h : '\n' ∉ s) : lexFrom .comment (s ++ ['\n']) = some ([], .start) := by
  induction s with
  | nil => rfl
  | cons c s ih =>
    rw [List.mem_cons, not_or] at h
    rw [List.cons_append, lexFrom_cons, lexChar, if_neg (Ne.symm h.1), Option.bind_some, ih h.2]
    rfl

/-- A line that begins with two slashes is no token. -/
theorem closed_comment {line : Str} (hslashes : line.take 2 = ['/', '/']) (h : '\n' ∉ line) :
    Closed (line ++ ['\n']) [] := by
  have hopen : lexFrom .start ['/', '/'] = some ([], .comment) := rfl
  rw [Closed, ← List.take_append_drop 2 line, hslashes, List.append_assoc, lexFrom_append hopen,
    lexFrom_comment fun hmem => h (List.mem_of_mem_drop hmem)]
  rfl

/-! ### Types -/

/-- A member of an object type. -/
structure Member (τ : Type) where
  name : Str
  optional : Bool
  ty : τ
  deriving DecidableEq

/-- A type. -/
inductive TsType where
  | string
  | number
  | boolean
  | null
  | never
  | array (item : TsType)
  | union (left right : TsType)
  | record (key value : TsType)
  | object (members : List (Member TsType))

/-- The types that are words. -/
def keyword (w : Str) : Option TsType :=
  if w = "string".toList then some .string
  else if w = "number".toList then some .number
  else if w = "boolean".toList then some .boolean
  else if w = "null".toList then some .null
  else if w = "never".toList then some .never
  else none

/-- Whether a bar stands outermost. -/
def TsType.isUnion : TsType → Bool
  | .union _ _ => true
  | _ => false

/-- Parentheses, where they are needed. -/
def inParens (needed : Bool) (ts : List Token) : List Token :=
  if needed then .punct '(' :: ts ++ [.punct ')'] else ts

mutual

/-- A type as tokens. -/
def print : TsType → List Token
  | .string => [.word "string".toList]
  | .number => [.word "number".toList]
  | .boolean => [.word "boolean".toList]
  | .null => [.word "null".toList]
  | .never => [.word "never".toList]
  | .array item => inParens item.isUnion (print item) ++ [.punct '[', .punct ']']
  | .union left right => print left ++ .punct '|' :: inParens right.isUnion (print right)
  | .record key value =>
    .word "Record".toList :: .punct '<' :: print key ++ .punct ',' :: print value ++ [.punct '>']
  | .object members => .punct '\x7b' :: printMembers members ++ [.punct '\x7d']

/-- The members of an object type, each with its semicolon. -/
def printMembers : List (Member TsType) → List Token
  | [] => []
  | ⟨name, optional, ty⟩ :: members =>
    .literal name :: (if optional then [.punct '?'] else []) ++ .punct ':' :: print ty ++
      .punct ';' :: printMembers members

end

/-! ### Reading a type -/

/-- A token that has to stand here. -/
def expect (c : Char) (ts : List Token) : Option (List Token) :=
  if ts.head? = some (.punct c) then some ts.tail else none

/-- The pairs of brackets behind a type. -/
def parseBrackets (t : TsType) : List Token → TsType × List Token
  | .punct '[' :: .punct ']' :: ts => parseBrackets (.array t) ts
  | ts => (t, ts)

/-- The question mark of an optional member. -/
def parseQuestion (ts : List Token) : Bool × List Token :=
  match expect '?' ts with
  | some ts => (true, ts)
  | none => (false, ts)

mutual

/-- A type: one without bars, and what the bars join to it. -/
def parseType : ℕ → List Token → Option (TsType × List Token)
  | 0, _ => none
  | n + 1, ts => do
    let (t, ts) ← parsePostfix n ts
    parseBars n t ts

/-- The types behind the bars. -/
def parseBars : ℕ → TsType → List Token → Option (TsType × List Token)
  | 0, t, ts => if ts.head? = some (.punct '|') then none else some (t, ts)
  | n + 1, t, ts =>
    match expect '|' ts with
    | none => some (t, ts)
    | some ts => do
      let (u, ts) ← parsePostfix n ts
      parseBars n (.union t u) ts

/-- A type without bars, with the brackets behind it. -/
def parsePostfix : ℕ → List Token → Option (TsType × List Token)
  | 0, _ => none
  | _ + 1, [] => none
  | _ + 1, .literal _ :: _ => none
  | n + 1, .punct c :: ts =>
    if c = '(' then do
      let (t, ts) ← parseType n ts
      let ts ← expect ')' ts
      return parseBrackets t ts
    else if c = '\x7b' then do
      let (members, ts) ← parseMembers n ts
      return parseBrackets (.object members) ts
    else none
  | n + 1, .word w :: ts =>
    if w = "Record".toList then do
      let ts ← expect '<' ts
      let (key, ts) ← parseType n ts
      let ts ← expect ',' ts
      let (value, ts) ← parseType n ts
      let ts ← expect '>' ts
      return parseBrackets (.record key value) ts
    else do
      let t ← keyword w
      return parseBrackets t ts

/-- The members of an object type, with the brace behind them. -/
def parseMembers : ℕ → List Token → Option (List (Member TsType) × List Token)
  | 0, _ => none
  | _ + 1, [] => none
  | _ + 1, .word _ :: _ => none
  | _ + 1, .punct c :: ts => if c = '\x7d' then some ([], ts) else none
  | n + 1, .literal name :: ts => do
    let (optional, ts) := parseQuestion ts
    let ts ← expect ':' ts
    let (ty, ts) ← parseType n ts
    let ts ← expect ';' ts
    let (members, ts) ← parseMembers n ts
    return (⟨name, optional, ty⟩ :: members, ts)

end

/-- A type, and the tokens behind it: no type is nested deeper than its tokens are many. -/
def parse (ts : List Token) : Option (TsType × List Token) := parseType (2 * ts.length) ts

/-! ### What is written is read back -/

@[simp] theorem expect_self (c : Char) (ts : List Token) : expect c (.punct c :: ts) = some ts := by
  simp [expect]

theorem expect_eq_none {c : Char} {ts : List Token} (h : ts.head? ≠ some (.punct c)) : expect c ts = none :=
  if_neg h

theorem parseBars_stop {ts : List Token} (h : ts.head? ≠ some (.punct '|')) (n : ℕ) (t : TsType) :
    parseBars n t ts = some (t, ts) := by
  cases n with
  | zero => rw [parseBars, if_neg h]
  | succ n => rw [parseBars, expect_eq_none h]

theorem parseBrackets_stop {ts : List Token} (h : ts.head? ≠ some (.punct '[')) (t : TsType) :
    parseBrackets t ts = (t, ts) := by
  rw [parseBrackets]
  rintro us rfl
  exact h rfl

theorem length_print_pos (t : TsType) : 0 < (print t).length := by
  cases t <;> simp [print]

/-- A type that is read without the brackets behind it, given enough rounds. -/
def ReadsPostfix (t : TsType) (ts : List Token) : Prop :=
  ∀ n rest, 2 * ts.length ≤ n + 1 → parsePostfix n (ts ++ rest) = some (parseBrackets t rest)

/-- A type that is read up to the bars behind it, given enough rounds. -/
def ReadsType (t : TsType) : Prop :=
  ∀ n rest, 2 * (print t).length ≤ n → rest.head? ≠ some (.punct '[') →
    ∃ m, n ≤ m + 2 * (print t).length ∧ parseType n (print t ++ rest) = parseBars m t rest

theorem ReadsPostfix.readsType {t : TsType} (h : ReadsPostfix t (print t)) : ReadsType t := by
  intro n rest hn hrest
  have hpos := length_print_pos t
  obtain ⟨k, rfl⟩ : ∃ k, n = k + 1 := ⟨n - 1, by omega⟩
  refine ⟨k, by omega, ?_⟩
  rw [parseType, h k rest (by omega), parseBrackets_stop hrest]
  rfl

theorem ReadsType.stop {t : TsType} (h : ReadsType t) {n : ℕ} {rest : List Token} (hn : 2 * (print t).length ≤ n)
    (hbracket : rest.head? ≠ some (.punct '[')) (hbar : rest.head? ≠ some (.punct '|')) :
    parseType n (print t ++ rest) = some (t, rest) := by
  obtain ⟨m, -, hm⟩ := h n rest hn hbracket
  rw [hm, parseBars_stop hbar]

theorem ReadsType.inParens {t : TsType} (h : ReadsType t) : ReadsPostfix t (inParens true (print t)) := by
  intro n rest hn
  simp only [TypeScript.inParens, if_true, List.length_append, List.length_cons, List.length_nil] at hn
  obtain ⟨k, rfl⟩ : ∃ k, n = k + 1 := ⟨n - 1, by omega⟩
  simp only [TypeScript.inParens, if_true, List.cons_append, List.append_assoc, List.nil_append, parsePostfix]
  rw [h.stop (by omega) (by simp) (by simp)]
  simp

theorem reads_parens {t : TsType} (hplain : t.isUnion = false → ReadsPostfix t (print t)) (h : ReadsType t) :
    ReadsPostfix t (inParens t.isUnion (print t)) := by
  cases hunion : t.isUnion with
  | false => exact hplain hunion
  | true => exact h.inParens

theorem readsPostfix_keyword {t : TsType} {w : Str} (hw : keyword w = some t) (hrecord : w ≠ "Record".toList) :
    ReadsPostfix t [.word w] := by
  intro n rest hn
  obtain ⟨k, rfl⟩ : ∃ k, n = k + 1 := ⟨n - 1, by simp at hn; omega⟩
  rw [List.singleton_append, parsePostfix, if_neg hrecord, hw]
  rfl

theorem readsPostfix_array {t : TsType} {ts : List Token} (h : ReadsPostfix t ts) :
    ReadsPostfix (.array t) (ts ++ [.punct '[', .punct ']']) := by
  intro n rest hn
  rw [List.length_append] at hn
  rw [List.append_assoc, h n _ (by omega)]
  rfl

theorem readsType_union {left right : TsType} (hleft : ReadsType left)
    (hright : ReadsPostfix right (inParens right.isUnion (print right))) : ReadsType (.union left right) := by
  intro n rest hn hrest
  simp only [print, List.length_append, List.length_cons] at hn ⊢
  obtain ⟨m, hm, hparse⟩ :=
    hleft n (.punct '|' :: (inParens right.isUnion (print right) ++ rest)) (by omega) (by simp)
  obtain ⟨k, rfl⟩ : ∃ k, m = k + 1 := ⟨m - 1, by omega⟩
  refine ⟨k, by omega, ?_⟩
  rw [List.append_assoc, List.cons_append, hparse, parseBars, expect_self]
  simp only
  rw [hright k rest (by omega), parseBrackets_stop hrest]
  rfl

theorem readsPostfix_record {key value : TsType} (hkey : ReadsType key) (hvalue : ReadsType value) :
    ReadsPostfix (.record key value) (print (.record key value)) := by
  intro n rest hn
  simp only [print, List.length_append, List.length_cons, List.length_nil] at hn
  obtain ⟨k, rfl⟩ : ∃ k, n = k + 1 := ⟨n - 1, by omega⟩
  simp only [print, List.cons_append, List.append_assoc, List.nil_append, parsePostfix, if_true, expect_self]
  simp only [Option.bind_eq_bind, Option.bind_some]
  rw [hkey.stop (by omega) (by simp) (by simp)]
  simp only [Option.bind_some, expect_self]
  rw [hvalue.stop (by omega) (by simp) (by simp)]
  simp

/-- Members that are read up to the brace behind them, given enough rounds. -/
def ReadsMembers (members : List (Member TsType)) : Prop :=
  ∀ n rest, 2 * (printMembers members).length < n →
    parseMembers n (printMembers members ++ .punct '\x7d' :: rest) = some (members, rest)

theorem readsPostfix_object {members : List (Member TsType)} (h : ReadsMembers members) :
    ReadsPostfix (.object members) (print (.object members)) := by
  intro n rest hn
  simp only [print, List.length_append, List.length_cons, List.length_nil] at hn
  obtain ⟨k, rfl⟩ : ∃ k, n = k + 1 := ⟨n - 1, by omega⟩
  simp only [print, List.cons_append, List.append_assoc, List.nil_append, parsePostfix]
  rw [if_neg (by decide), if_pos trivial, h k rest (by omega)]
  rfl

theorem parseQuestion_print (optional : Bool) (ts : List Token) :
    parseQuestion ((if optional then [.punct '?'] else []) ++ .punct ':' :: ts) = (optional, .punct ':' :: ts) := by
  cases optional <;> rfl

theorem readsMembers_cons {name : Str} {optional : Bool} {ty : TsType} {members : List (Member TsType)}
    (hty : ReadsType ty) (h : ReadsMembers members) : ReadsMembers (⟨name, optional, ty⟩ :: members) := by
  intro n rest hn
  simp only [printMembers, List.length_append, List.length_cons] at hn
  obtain ⟨k, rfl⟩ : ∃ k, n = k + 1 := ⟨n - 1, by omega⟩
  simp only [printMembers, List.cons_append, List.append_assoc, parseMembers, parseQuestion_print, expect_self]
  simp only [Option.bind_eq_bind, Option.bind_some]
  rw [hty.stop (by omega) (by simp) (by simp)]
  simp only [Option.bind_some, expect_self]
  rw [h k rest (by omega)]
  rfl

theorem ReadsPostfix.both {t : TsType} (h : ReadsPostfix t (print t)) :
    (t.isUnion = false → ReadsPostfix t (print t)) ∧ ReadsType t := ⟨fun _ => h, h.readsType⟩

mutual

theorem reads : ∀ t : TsType, (t.isUnion = false → ReadsPostfix t (print t)) ∧ ReadsType t
  | .string => (readsPostfix_keyword (t := .string) rfl (by decide)).both
  | .number => (readsPostfix_keyword (t := .number) rfl (by decide)).both
  | .boolean => (readsPostfix_keyword (t := .boolean) rfl (by decide)).both
  | .null => (readsPostfix_keyword (t := .null) rfl (by decide)).both
  | .never => (readsPostfix_keyword (t := .never) rfl (by decide)).both
  | .array item => by
    have hitem := readsPostfix_array (reads_parens (reads item).1 (reads item).2)
    exact ReadsPostfix.both (t := .array item) hitem
  | .union left right =>
    ⟨nofun, readsType_union (reads left).2 (reads_parens (reads right).1 (reads right).2)⟩
  | .record key value => (readsPostfix_record (reads key).2 (reads value).2).both
  | .object members => (readsPostfix_object (readsMembers members)).both

theorem readsMembers : ∀ members : List (Member TsType), ReadsMembers members
  | [] => by
    intro n rest hn
    obtain ⟨k, rfl⟩ : ∃ k, n = k + 1 := ⟨n - 1, by omega⟩
    simp [printMembers, parseMembers]
  | ⟨_, _, ty⟩ :: members => readsMembers_cons (reads ty).2 (readsMembers members)

end

/-- A type as it is written is that type, if nothing goes on behind it. -/
theorem parse_print (t : TsType) {rest : List Token} (hbracket : rest.head? ≠ some (.punct '['))
    (hbar : rest.head? ≠ some (.punct '|')) : parse (print t ++ rest) = some (t, rest) :=
  (reads t).2.stop (by rw [List.length_append]; omega) hbracket hbar

/-! ### Values -/

/-- The JSON values of a type. A member that is optional may be absent; `null` is no way of being
    absent. -/
inductive Inhabits : TsType → Json → Prop where
  | string (s : Str) : Inhabits .string (.string s)
  | number (n : Number) : Inhabits .number (.number n)
  | boolean (b : Bool) : Inhabits .boolean (.bool b)
  | null : Inhabits .null .null
  | array {item : TsType} {items : List Json} (h : ∀ v ∈ items, Inhabits item v) :
    Inhabits (.array item) (.array items)
  | left {left right : TsType} {v : Json} (h : Inhabits left v) : Inhabits (.union left right) v
  | right {left right : TsType} {v : Json} (h : Inhabits right v) : Inhabits (.union left right) v
  | record {value : TsType} {m : Map Str Json} (h : ∀ k v, m.get? k = some v → Inhabits value v) :
    Inhabits (.record .string value) (.object m)
  | object {members : List (Member TsType)} {m : Map Str Json}
    (declared : ∀ k, (m.get? k).isSome → k ∈ members.map Member.name)
    (required : ∀ member ∈ members, member.optional = false → (m.get? member.name).isSome)
    (typed : ∀ member ∈ members, ∀ v, m.get? member.name = some v → Inhabits member.ty v) :
    Inhabits (.object members) (.object m)

theorem inhabits_array_iff {item : TsType} {items : List Json} :
    Inhabits (.array item) (.array items) ↔ ∀ v ∈ items, Inhabits item v := by
  constructor
  · rintro ⟨⟩
    assumption
  · exact .array

theorem inhabits_union_iff {left right : TsType} {v : Json} :
    Inhabits (.union left right) v ↔ Inhabits left v ∨ Inhabits right v := by
  constructor
  · rintro (_ | _ | _ | _ | _ | h | h)
    · exact .inl h
    · exact .inr h
  · rintro (h | h)
    · exact .left h
    · exact .right h

theorem inhabits_object_iff {members : List (Member TsType)} {m : Map Str Json} :
    Inhabits (.object members) (.object m) ↔
      (∀ k, (m.get? k).isSome → k ∈ members.map Member.name) ∧
        (∀ member ∈ members, member.optional = false → (m.get? member.name).isSome) ∧
        ∀ member ∈ members, ∀ v, m.get? member.name = some v → Inhabits member.ty v := by
  constructor
  · rintro ⟨⟩
    exact ⟨‹_›, ‹_›, ‹_›⟩
  · rintro ⟨hdeclared, hrequired, htyped⟩
    exact .object hdeclared hrequired htyped

/-- Nothing is of type `never`, so that a record of it has no members. -/
theorem inhabits_record_never_iff {m : Map Str Json} :
    Inhabits (.record .string .never) (.object m) ↔ ∀ k, m.get? k = none := by
  constructor
  · rintro ⟨⟩ k
    rename_i h
    cases hk : m.get? k with
    | none => rfl
    | some v => exact nomatch h k v hk
  · exact fun h => .record fun k v hk => by simp [h k] at hk

end Arcature.Lib.TypeScript
