import Arcature.Lib.Ascii
import Arcature.Lib.Percent
import Mathlib.Data.List.TakeWhile

/-! The `Content-Disposition` header as its recipients read it (RFC 6266).

        header     type *( ";" parameter )
        parameter  name "=" ( token | quoted string )
                   name* "=" charset "'" [language] "'" characters and escapes

    `read` takes any header of this form, with white space around `;` and `=` and names in any case.
    What a writer puts down a parameter at a time is read a parameter at a time: `params_quoted` and
    `params_extended` say what each form reads as whatever follows it. -/

namespace Arcature.Lib.Disposition

/-- A character of a token. -/
def isTokenChar (c : Char) : Bool := c.isAlphanum || "!#$%&'*+-.^_`|~".toList.contains c

/-- A character that stands for itself between quotes. -/
def isQuotedChar (c : Char) : Bool :=
  c == '\t' || (decide (0x20 ≤ c.toNat) && c != '"' && c != '\\' && c.toNat != 0x7f)

/-- A character that stands for itself in an extended value: `attr-char`. -/
def isAttrChar (c : Char) : Bool := c.isAlphanum || "!#$&+-.^_`|~".toList.contains c

/-- A hexadecimal digit of either case. -/
def isHexDigit (c : Char) : Bool := c.isDigit || "abcdefABCDEF".toList.contains c

/-- White space between the parts. -/
def isBlank (c : Char) : Bool := c == ' ' || c == '\t'

/-- The value of a parameter. -/
inductive Value where
  | plain (s : Str)
  | extended (charset language chars : Str)
  deriving DecidableEq

/-- What a header says. -/
structure Header where
  kind : Str
  params : List (Str × Value)
  deriving DecidableEq

/-! ### The reader -/

/-- A token, and the text behind it. -/
def token (s : Str) : Option (Str × Str) :=
  if s.takeWhile isTokenChar = [] then none else some (s.takeWhile isTokenChar, s.dropWhile isTokenChar)

/-- What a quoted string says, behind its opening quote, and the text behind the closing one. A backslash
    makes the next character stand for itself. -/
def quoted (escaped : Bool) : Str → Option (Str × Str)
  | [] => none
  | c :: rest =>
    if escaped then (quoted false rest).map fun (s, tail) => (c :: s, tail)
    else if c = '"' then some ([], rest)
    else if c = '\\' then quoted true rest
    else if isQuotedChar c then (quoted false rest).map fun (s, tail) => (c :: s, tail)
    else none

/-- Whether a text is made of attribute characters and escapes, `owed` digits being left of the last. -/
def areValueChars : ℕ → Str → Bool
  | owed, [] => owed == 0
  | 0, c :: rest => if c = '%' then areValueChars 2 rest else isAttrChar c && areValueChars 0 rest
  | owed + 1, c :: rest => isHexDigit c && areValueChars owed rest

/-- An extended value. -/
def extended (s : Str) : Option (Value × Str) := do
  let (charset, s) ← Str.splitOnce '\'' s
  let (language, s) ← Str.splitOnce '\'' s
  let chars := s.takeWhile fun c => isAttrChar c || c == '%'
  if charset ≠ [] ∧ charset.all isTokenChar ∧ (language.all fun c => c.isAlphanum || c == '-') ∧ areValueChars 0 chars
  then some (.extended charset language chars, s.dropWhile fun c => isAttrChar c || c == '%')
  else none

/-- The value of a parameter, and the text behind it. -/
def value (name s : Str) : Option (Value × Str) :=
  if name.getLast? = some '*' then extended s
  else
    match s with
    | '"' :: rest => (quoted false rest).map fun (s, tail) => (.plain s, tail)
    | _ => (token s).map fun (s, tail) => (.plain s, tail)

/-- The parameters, at most `fuel` of them. -/
def params : ℕ → Str → Option (List (Str × Value))
  | fuel, s =>
    match s.dropWhile isBlank with
    | [] => some []
    | c :: rest =>
      match fuel with
      | 0 => none
      | fuel + 1 => do
        if c ≠ ';' then none
        let (name, rest) ← token (rest.dropWhile isBlank)
        let name := name.map Char.toLower
        let rest ← Str.stripPrefix ['='] (rest.dropWhile isBlank)
        let (v, rest) ← value name (rest.dropWhile isBlank)
        let more ← params fuel rest
        some ((name, v) :: more)

/-- `read`. Every parameter has a `;`, so the length of the text is fuel enough. -/
def read (s : Str) : Option Header := do
  let (kind, rest) ← token s
  let params ← params rest.length rest
  some ⟨kind.map Char.toLower, params⟩

/-- The name to save under: `filename*` where there is one, and `filename` else. -/
def Header.fileName (header : Header) : Option Str :=
  match header.params.lookup "filename*".toList with
  | some (.extended charset _ chars) =>
    if charset.map Char.toLower = "utf-8".toList then Str.ofBytes? (percentDecode chars.bytes) else none
  | some (.plain _) => none
  | none =>
    match header.params.lookup "filename".toList with
    | some (.plain s) => some s
    | _ => none

/-! ### What a form reads as -/

theorem token_append {name tail : Str} (hne : name ≠ []) (hname : ∀ c ∈ name, isTokenChar c = true)
    (htail : ∀ c, tail.head? = some c → isTokenChar c = false) : token (name ++ tail) = some (name, tail) := by
  have htake : tail.takeWhile isTokenChar = [] ∧ tail.dropWhile isTokenChar = tail := by
    cases tail with
    | nil => exact ⟨rfl, rfl⟩
    | cons c tail =>
      have hc : ¬ isTokenChar c = true := by simp [htail c rfl]
      exact ⟨List.takeWhile_cons_of_neg hc, List.dropWhile_cons_of_neg hc⟩
  rw [token, List.takeWhile_append_of_pos hname, List.dropWhile_append_of_pos hname, htake.1, htake.2,
    List.append_nil, if_neg hne]

theorem isBlank_of_isTokenChar {c : Char} (h : isTokenChar c = true) : isBlank c = false := by
  rw [isBlank, Bool.or_eq_false_iff, beq_eq_false_iff_ne, beq_eq_false_iff_ne]
  constructor <;> rintro rfl <;> exact absurd h (by decide)

/-- The type, and the parameters behind it. -/
theorem read_append {kind tail : Str} {ps : List (Str × Value)} (hne : kind ≠ [])
    (hkind : ∀ c ∈ kind, isTokenChar c = true) (hlower : kind.map Char.toLower = kind)
    (htail : ∀ c, tail.head? = some c → isTokenChar c = false) (hparams : params tail.length tail = some ps) :
    read (kind ++ tail) = some ⟨kind, ps⟩ := by
  rw [read, token_append hne hkind htail]
  simp only [bind, Option.bind, hparams, hlower]

theorem quoted_append {s tail : Str} (h : ∀ c ∈ s, isQuotedChar c = true) :
    quoted false (s ++ '"' :: tail) = some (s, tail) := by
  induction s with
  | nil => rfl
  | cons c s ih =>
    have hc := h c List.mem_cons_self
    have hquote : c ≠ '"' := by
      rintro rfl
      exact absurd hc (by decide)
    have hback : c ≠ '\\' := by
      rintro rfl
      exact absurd hc (by decide)
    have hrest := ih fun d hd => h d (List.mem_cons_of_mem c hd)
    rw [List.cons_append, quoted, if_neg Bool.false_ne_true, if_neg hquote, if_neg hback, if_pos hc, hrest]
    rfl

/-! ### Extended values -/

theorem isAttrChar_of_isHexDigit {c : Char} (h : isHexDigit c = true) : isAttrChar c = true := by
  rcases Bool.or_eq_true _ _ ▸ h with h | h
  · rw [isAttrChar, Char.isAlphanum, h, Bool.or_true, Bool.true_or]
  · have hletters : ∀ c ∈ "abcdefABCDEF".toList, isAttrChar c = true := by decide
    exact hletters c (List.contains_iff_mem.mp h)

/-- What an extended value is made of ends where a `;` or a space begins. -/
theorem isAttrChar_of_areValueChars {owed : ℕ} {s : Str} (h : areValueChars owed s = true) :
    ∀ c ∈ s, (isAttrChar c || c == '%') = true := by
  induction s generalizing owed with
  | nil => simp
  | cons c s ih =>
    cases owed with
    | zero =>
      rw [areValueChars] at h
      split_ifs at h with hc
      · exact List.forall_mem_cons.mpr ⟨by simp [hc], ih h⟩
      · obtain ⟨hattr, hs⟩ := Bool.and_eq_true _ _ ▸ h
        exact List.forall_mem_cons.mpr ⟨by simp [hattr], ih hs⟩
    | succ owed =>
      obtain ⟨hdigit, hs⟩ := Bool.and_eq_true _ _ ▸ h
      exact List.forall_mem_cons.mpr ⟨by simp [isAttrChar_of_isHexDigit hdigit], ih hs⟩

theorem printable_of_isAttrChar {c : Char} (h : isAttrChar c = true) : 0x20 ≤ c.toNat ∧ c.toNat ≤ 0x7e := by
  rcases Bool.or_eq_true _ _ ▸ h with halnum | hmark
  · exact Ascii.forall_alphanum (fun c => 0x20 ≤ c.toNat ∧ c.toNat ≤ 0x7e) (by decide +kernel) halnum
  · have hmarks : ∀ c ∈ "!#$&+-.^_`|~".toList, 0x20 ≤ c.toNat ∧ c.toNat ≤ 0x7e := by decide
    exact hmarks c (List.contains_iff_mem.mp hmark)

/-- And it is printable ASCII. -/
theorem printable_of_areValueChars {owed : ℕ} {s : Str} (h : areValueChars owed s = true) :
    ∀ c ∈ s, 0x20 ≤ c.toNat ∧ c.toNat ≤ 0x7e := by
  intro c hc
  rcases Bool.or_eq_true _ _ ▸ isAttrChar_of_areValueChars h c hc with hattr | hpercent
  · exact printable_of_isAttrChar hattr
  · rw [beq_iff_eq.mp hpercent]
    decide

/-- Percent-encoding writes value characters, if it keeps attribute characters only. -/
theorem areValueChars_percentEncode {keep : UInt8 → Bool}
    (hkeep : ∀ x, keep x = true → isAttrChar (Char.ofNat x.toNat) = true) (b : Bytes) :
    areValueChars 0 (percentEncodeExcept keep b) = true := by
  have hdigit : ∀ y : UInt8, y.toNat < 16 → isHexDigit (hexDigit y) = true := by
    intro y hy
    have hfacts : ∀ n : Fin 16, isHexDigit (hexDigit (UInt8.ofNat n)) = true := by decide +kernel
    simpa using hfacts ⟨y.toNat, hy⟩
  induction b with
  | nil => rfl
  | cons x b ih =>
    rw [percentEncodeExcept_cons]
    split_ifs with hx
    · have hattr := hkeep x hx
      have hpercent : Char.ofNat x.toNat ≠ '%' := by
        intro heq
        rw [heq] at hattr
        exact absurd hattr (by decide)
      rw [List.singleton_append, areValueChars, if_neg hpercent, hattr, ih]
      rfl
    · have hlt := x.toNat_lt
      have hhigh := hdigit (x / 16) (by simp; omega)
      have hlow := hdigit (x % 16) (by simp; omega)
      simp only [List.cons_append, List.nil_append, areValueChars, if_true, hhigh, hlow, ih, Bool.and_self]

/-- An extended value at the end of a header. -/
theorem extended_append {charset language chars : Str} (hne : charset ≠ [])
    (hcharset : ∀ c ∈ charset, isTokenChar c = true ∧ c ≠ '\'')
    (hlanguage : ∀ c ∈ language, (c.isAlphanum || c == '-') = true) (hchars : areValueChars 0 chars = true) :
    extended (charset ++ '\'' :: (language ++ '\'' :: chars)) = some (.extended charset language chars, []) := by
  have hquote : '\'' ∉ charset := fun h => (hcharset _ h).2 rfl
  have hquote' : '\'' ∉ language := fun h => absurd (hlanguage _ h) (by decide)
  have hattr := isAttrChar_of_areValueChars hchars
  have htoken : charset.all isTokenChar = true := List.all_eq_true.mpr fun c hc => (hcharset c hc).1
  rw [extended, Str.splitOnce_append hquote]
  simp only [bind, Option.bind, Str.splitOnce_append hquote', List.takeWhile_eq_self_iff.mpr hattr,
    List.dropWhile_eq_nil_iff.mpr hattr, hchars, htoken, List.all_eq_true.mpr hlanguage, hne, ne_eq,
    not_false_eq_true, and_self, if_true]

section Params

variable {name : Str} (hne : name ≠ []) (hname : ∀ c ∈ name, isTokenChar c = true)
  (hlower : name.map Char.toLower = name)

include hne hname hlower

/-- A parameter is read off the front, whatever follows it. -/
theorem params_cons {fuel : ℕ} {v : Value} {s tail : Str} (hblank : ∀ c, s.head? = some c → isBlank c = false)
    (hvalue : value name s = some (v, tail)) :
    params (fuel + 1) ("; ".toList ++ name ++ '=' :: s) = (params fuel tail).map ((name, v) :: ·) := by
  have hstart : (' ' :: (name ++ '=' :: s)).dropWhile isBlank = name ++ '=' :: s := by
    obtain ⟨c, rest, rfl⟩ := List.exists_cons_of_ne_nil hne
    have hc := isBlank_of_isTokenChar (hname c List.mem_cons_self)
    rw [List.dropWhile_cons_of_pos (by decide), List.cons_append, List.dropWhile_cons_of_neg (by simp [hc])]
  have hrest : s.dropWhile isBlank = s := by
    cases s with
    | nil => rfl
    | cons c s => exact List.dropWhile_cons_of_neg (by simp [hblank c rfl])
  have htoken : token (name ++ '=' :: s) = some (name, '=' :: s) := by
    refine token_append hne hname fun c hc => ?_
    rw [List.head?_cons, Option.some.injEq] at hc
    rw [← hc]
    decide
  have hopening : ("; ".toList ++ name ++ '=' :: s).dropWhile isBlank = ';' :: ' ' :: (name ++ '=' :: s) := by
    rw [List.append_assoc]
    exact List.dropWhile_cons_of_neg (by decide)
  have hequals : ('=' :: s).dropWhile isBlank = '=' :: s := List.dropWhile_cons_of_neg (by decide)
  have hstrip : Str.stripPrefix ['='] ('=' :: s) = some s := Str.stripPrefix_append ['='] s
  rw [params, hopening]
  simp only [ne_eq, not_true_eq_false, if_false, hstart, htoken, hlower, hequals, hstrip, hrest, hvalue, bind,
    Option.bind]
  cases params fuel tail <;> rfl

/-- A quoted value. -/
theorem params_quoted {fuel : ℕ} {s tail : Str} (hstar : name.getLast? ≠ some '*')
    (hs : ∀ c ∈ s, isQuotedChar c = true) :
    params (fuel + 1) ("; ".toList ++ name ++ '=' :: '"' :: (s ++ '"' :: tail)) =
      (params fuel tail).map ((name, .plain s) :: ·) := by
  refine params_cons hne hname hlower ?_ ?_
  · intro c hc
    rw [List.head?_cons, Option.some.injEq] at hc
    rw [← hc]
    decide
  · rw [value, if_neg hstar]
    simp only [quoted_append hs, Option.map_some]

/-- An extended value, which is the last. -/
theorem params_extended {fuel : ℕ} {charset language chars : Str} (hstar : name.getLast? = some '*')
    (hcharset : charset ≠ [] ∧ ∀ c ∈ charset, isTokenChar c = true ∧ c ≠ '\'')
    (hlanguage : ∀ c ∈ language, (c.isAlphanum || c == '-') = true) (hchars : areValueChars 0 chars = true) :
    params (fuel + 1) ("; ".toList ++ name ++ '=' :: (charset ++ '\'' :: (language ++ '\'' :: chars))) =
      some [(name, .extended charset language chars)] := by
  have hblank : ∀ c, (charset ++ '\'' :: (language ++ '\'' :: chars)).head? = some c → isBlank c = false := by
    intro c hc
    obtain ⟨d, rest, rfl⟩ := List.exists_cons_of_ne_nil hcharset.1
    obtain rfl : d = c := Option.some.inj hc
    exact isBlank_of_isTokenChar (hcharset.2 d List.mem_cons_self).1
  have hvalue : value name (charset ++ '\'' :: (language ++ '\'' :: chars)) =
      some (.extended charset language chars, []) := by
    unfold value
    rw [if_pos hstar]
    exact extended_append hcharset.1 hcharset.2 hlanguage hchars
  have hlast : params fuel [] = some [] := by
    cases fuel <;> rfl
  rw [params_cons hne hname hlower hblank hvalue, hlast]
  rfl

end Params

end Arcature.Lib.Disposition
