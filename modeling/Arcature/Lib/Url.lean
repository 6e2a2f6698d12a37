import Arcature.Lib.Percent
import Mathlib.Data.List.DropRight

/-! Where a link on an HTTP page leads.

    A browser resolves a text against the address of a page by the WHATWG URL standard. Of the result
    this keeps the origin: scheme, host and port. Controls and spaces at both ends and tabs and
    newlines anywhere are no part of the text, and a backslash is a slash:

        page  https://shop.example/cart      /pay             https://shop.example
                                             pay?x=1          https://shop.example
                                             //other.example  https://other.example
                                             /\other.example  https://other.example
                                             HTTP:other       http://other

    How a host is spelled, and which spellings are none, is for `parseHost` to say. A text stays on
    the origin of every page if it names no scheme and does not begin with two slashes, and no other
    text does (`stays_iff`). -/

namespace Arcature.Lib.Url

/-- A C0 control or a space. -/
def isC0OrSpace (c : Char) : Bool := c.toNat ≤ 0x20

/-- A tab or a newline. -/
def isTabOrNewline (c : Char) : Bool := c = '\t' ∨ c = '\n' ∨ c = '\r'

/-- A slash, in either direction. -/
def isSlash (c : Char) : Bool := c = '/' ∨ c = '\\'

/-- The text that is resolved. -/
def clean (s : Str) : Str :=
  ((s.dropWhile isC0OrSpace).rdropWhile isC0OrSpace).filter fun c => !isTabOrNewline c

/-- The scheme a text begins with, in lower case, and the text after its colon. -/
def scheme? (s : Str) : Option (Str × Str) :=
  let name := s.takeWhile fun c => c.isAlphanum || c = '+' || c = '-' || c = '.'
  match s.head?, s.drop name.length with
  | some c, ':' :: rest => if c.isAlpha then some (name.map Char.toLower, rest) else none
  | _, _ => none

/-- The origin of a URL. -/
structure Origin where
  scheme : Str
  host : Str
  port : Option UInt16
  deriving DecidableEq

/-- The port of a scheme whose URLs name a host. -/
def defaultPort (scheme : Str) : Option UInt16 :=
  if scheme = "http".toList ∨ scheme = "ws".toList then some 80
  else if scheme = "https".toList ∨ scheme = "wss".toList then some 443
  else if scheme = "ftp".toList then some 21
  else none

/-- The host and the port of an authority, at the first colon outside brackets. -/
def splitPort (inside : Bool) : Str → Str × Option Str
  | [] => ([], none)
  | c :: s =>
    if c = ':' ∧ inside = false then ([], some s)
    else
      let (host, port) := splitPort (c = '[' ∨ (inside ∧ c ≠ ']')) s
      (c :: host, port)

/-- The port that is written, if it is one; the default one is left out. -/
def parsePort (scheme : Str) : Option Str → Option (Option UInt16)
  | none => some none
  | some digits =>
    let n := digits.foldl (fun n c => 10 * n + (c.toNat - '0'.toNat)) 0
    if digits.all Char.isDigit ∧ n < 2 ^ 16 then
      some (if digits = [] ∨ defaultPort scheme = some (UInt16.ofNat n) then none else some (UInt16.ofNat n))
    else none

section Resolution

variable (parseHost : Str → Option Str)

/-- The origin of a URL whose authority begins the text. -/
def authorityOrigin (scheme s : Str) : Option Origin :=
  let authority := s.takeWhile fun c => !(isSlash c || c = '?' || c = '#')
  let (host, port) := splitPort false (authority.rtakeWhile (· ≠ '@'))
  if host = [] then none
  else do return ⟨scheme, ← parseHost host, ← parsePort scheme port⟩

/-- The origin a `blob` URL takes from the URL in its path. -/
def blobOrigin (s : Str) : Option Origin :=
  let path := s.takeWhile fun c => !(c = '?' || c = '#')
  match scheme? (clean (percentEncodeExcept (fun b => 0x20 ≤ b ∧ b ≤ 0x7e) (Str.bytes path))) with
  | some (scheme, rest) =>
    if scheme = "http".toList ∨ scheme = "https".toList then
      authorityOrigin parseHost scheme (rest.dropWhile isSlash)
    else none
  | none => none

/-- The origin of a URL that names its scheme; most schemes have none. -/
def absoluteOrigin (scheme rest : Str) : Option Origin :=
  if (defaultPort scheme).isSome then authorityOrigin parseHost scheme (rest.dropWhile isSlash)
  else if scheme = "blob".toList then blobOrigin parseHost rest
  else none

/-- The scheme of a page. -/
def pageScheme (secure : Bool) : Str := if secure then "https".toList else "http".toList

/-- The address of a page: `https` or `http`, a host, and a port that is not the default one. -/
structure Base where
  secure : Bool
  host : Str
  host_ne : host ≠ []
  port : Option UInt16
  port_ne : port ≠ defaultPort (pageScheme secure)

/-- The origin of a page. -/
def Base.origin (base : Base) : Origin := ⟨pageScheme base.secure, base.host, base.port⟩

/-- A text that begins with two slashes. -/
def namesHost : Str → Bool
  | c :: d :: _ => isSlash c && isSlash d
  | _ => false

/-- The origin of a text without a scheme, or with the one of the page. -/
def relativeOrigin (base : Base) (s : Str) : Option Origin :=
  if namesHost s then authorityOrigin parseHost (pageScheme base.secure) (s.dropWhile isSlash) else some base.origin

/-- The origin a text resolves to on a page, if it is a URL that has one. -/
def resolve (base : Base) (s : Str) : Option Origin :=
  match scheme? (clean s) with
  | some (scheme, rest) =>
    if scheme = pageScheme base.secure then relativeOrigin parseHost base rest
    else absoluteOrigin parseHost scheme rest
  | none => relativeOrigin parseHost base (clean s)

end Resolution

/-! ### Staying -/

/-- A text that names no scheme and does not begin with two slashes. -/
def Inside (s : Str) : Prop := scheme? (clean s) = none ∧ namesHost (clean s) = false

instance (s : Str) : Decidable (Inside s) := inferInstanceAs (Decidable (_ ∧ _))

/-- A page on another origin. -/
def pageApart (secure : Bool) : Option Origin → Base
  | some ⟨_, _, none⟩ => ⟨secure, ['a'], by simp, some 8080, by cases secure <;> decide⟩
  | _ => ⟨secure, ['a'], by simp, none, by cases secure <;> decide⟩

theorem secure_pageApart (secure : Bool) (o : Option Origin) : (pageApart secure o).secure = secure := by
  unfold pageApart
  split <;> rfl

theorem origin_pageApart (secure : Bool) (o : Option Origin) : some (pageApart secure o).origin ≠ o := by
  rcases o with _ | ⟨scheme, host, _ | port⟩ <;> simp [pageApart, Base.origin]

/-- The texts that stay on the origin of whatever page they are on. -/
theorem stays_iff (parseHost : Str → Option Str) (s : Str) :
    (∀ base : Base, resolve parseHost base s = some base.origin) ↔ Inside s := by
  constructor
  · intro h
    cases hscheme : scheme? (clean s) with
    | some found =>
      -- a page of the other kind, on another port
      obtain ⟨scheme, rest⟩ := found
      let base := pageApart (scheme ≠ "https".toList) (absoluteOrigin parseHost scheme rest)
      have hne : scheme ≠ pageScheme base.secure := by
        rw [secure_pageApart]
        by_cases hs : scheme = "https".toList
        · simp [hs, pageScheme]
        · rw [pageScheme, if_pos (by simpa using hs)]
          exact hs
      have hstays := h base
      rw [resolve, hscheme] at hstays
      simp only [if_neg hne] at hstays
      exact absurd hstays.symm (origin_pageApart _ _)
    | none =>
      refine ⟨hscheme, ?_⟩
      by_contra hhost
      rw [Bool.not_eq_false] at hhost
      let base := pageApart true
        (authorityOrigin parseHost "https".toList ((clean s).dropWhile isSlash))
      have hsecure : pageScheme base.secure = "https".toList := by
        rw [secure_pageApart, pageScheme, if_pos rfl]
      have hstays := h base
      rw [resolve, hscheme] at hstays
      simp only [relativeOrigin, hhost, if_true, hsecure] at hstays
      exact absurd hstays.symm (origin_pageApart _ _)
  · rintro ⟨hscheme, hhost⟩ base
    rw [resolve, hscheme]
    simp [relativeOrigin, hhost]

theorem clean_slash (rest : Str) :
    clean ('/' :: rest) = '/' :: (rest.rdropWhile isC0OrSpace).filter fun c => !isTabOrNewline c := by
  have hslash : isC0OrSpace '/' = false := by decide
  have hkeep : isTabOrNewline '/' = false := by decide
  rw [clean, List.dropWhile_cons_of_neg (by simp [hslash]), List.rdropWhile, List.reverse_cons,
    List.dropWhile_append]
  split_ifs with hempty
  · have hall : rest.rdropWhile isC0OrSpace = [] := by
      rw [List.rdropWhile, List.isEmpty_iff.mp hempty, List.reverse_nil]
    simp [hall, hslash, hkeep]
  · simp [List.rdropWhile, hkeep]

/-- After a slash, a text stays if no slash comes next. -/
theorem inside_slash_iff (rest : Str) :
    Inside ('/' :: rest) ↔
      ∀ c, (rest.filter fun c => !isTabOrNewline c).head? = some c → isSlash c = false := by
  have hscheme : ∀ s : Str, scheme? ('/' :: s) = none := by
    intro s
    simp [scheme?]
  -- what is dropped at the end holds no slash
  have hend : rest.rdropWhile isC0OrSpace ++ rest.rtakeWhile isC0OrSpace = rest :=
    List.rdropWhile_append_rtakeWhile
  have hdropped : ∀ c ∈ rest.rtakeWhile isC0OrSpace, isSlash c = false := by
    intro c hc
    have hspace := List.mem_rtakeWhile_imp hc
    by_contra hslash
    have hchar : c = '/' ∨ c = '\\' := by simpa [isSlash, or_iff_not_imp_left] using hslash
    rcases hchar with rfl | rfl
    · exact absurd hspace (by decide)
    · exact absurd hspace (by decide)
  rw [Inside, clean_slash, hscheme]
  conv_rhs => rw [← hend, List.filter_append]
  cases (rest.rdropWhile isC0OrSpace).filter fun c => !isTabOrNewline c with
  | nil =>
    simp only [namesHost, List.nil_append, true_and, true_iff]
    intro c hc
    exact hdropped c (List.mem_filter.mp (List.mem_of_mem_head? hc)).1
  | cons d s =>
    have hslash : isSlash '/' = true := by decide
    simp [namesHost, hslash]

end Arcature.Lib.Url
