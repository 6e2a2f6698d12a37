import Arcature.Http.Vary

/-! The token that a browser sends twice.

    A form is let in with its token in a cookie and the same token in a header; what a browser sends by
    itself, and with a bearer token, is let in without. The cookie is looked for among all that the browser
    has, a pair at a time:

        Cookie: theme=dark; csrf=4f..    x-csrf-token: 4f..    forwarded
        Cookie: theme; csrf=4f..         x-csrf-token: 4f..    missing cookie
        Cookie: theme=dark
        Cookie: csrf=4f..                x-csrf-token: 4f..    missing cookie

    The search ends at the first pair that is none, and there is one line that it looks at. So a token is
    found exactly if its pair is on the first line, the line can be read, and every pair before it is one
    (`found_iff`). The cookie library is a parameter: the name and the value that it reads of a pair. -/

namespace Arcature.Auth.Csrf
open Arcature.Lib Arcature.Http
open Inertia (headerToStr)

/-! ### Tokens and requests -/

/-- `is_ascii_hexdigit`. -/
def isAsciiHexdigit (c : Char) : Bool :=
  ('0' ≤ c && c ≤ '9') || ('a' ≤ c && c ≤ 'f') || ('A' ≤ c && c ≤ 'F')

/-- `CsrfToken`: sixty-four hexadecimal digits. -/
abbrev CsrfToken := {text : Str // text.len = 64 ∧ text.all isAsciiHexdigit = true}

/-- `CsrfToken::parse`. -/
def CsrfToken.parse (value : Str) : Option CsrfToken :=
  if h : value.len = 64 ∧ value.all isAsciiHexdigit = true then some ⟨value, h⟩ else none

/-- `http::Method`. -/
inductive Method where
  | get
  | post
  | put
  | delete
  | head
  | options
  | connect
  | patch
  | trace
  | extension (token : Str)
  deriving DecidableEq

/-- `is_safe_method`. -/
def isSafeMethod (method : Method) : Bool :=
  method = .get || method = .head || method = .options || method = .trace

/-- `CsrfError`. -/
inductive CsrfError where
  | missingCookie
  | missingHeader
  | tokenMismatch
  | malformedCookie
  deriving DecidableEq

/-- `CsrfConfig`, with what the check reads of it. -/
structure CsrfConfig where
  cookieName : Str
  headerName : Str

/-- A request, with what the check reads of it; header names are in lower case. -/
structure Request where
  method : Method
  headers : HeaderMap Str

def authorization : Str := "authorization".toList

def cookie : Str := "cookie".toList

/-- `HeaderMap::get`: the first value of a name, in whatever case it is asked for. -/
def getHeader (headers : HeaderMap Str) (name : Str) : Option Str := (headers.getAll (name.map Char.toLower)).head?

/-- `u8::is_ascii_whitespace`. -/
def isAsciiWhitespace (c : Char) : Bool := c ∈ [' ', '\t', '\n', Char.ofNat 0xc, '\r']

/-- `is_bearer_request`. -/
def isBearerRequest (headers : HeaderMap Str) : Bool :=
  match getHeader headers authorization with
  | none => false
  | some value => (value.takeWhile fun c => !isAsciiWhitespace c).map Char.toLower = "bearer".toList

section check

variable (parseEncoded : Str → Option (Str × Str))

/-- The loop of `extract_csrf_cookie` over what stands between semicolons. -/
def findCookie (cookieName : Str) : List Str → Option CsrfToken
  | [] => none
  | cookieStr :: pieces =>
    let trimmed := cookieStr.trim
    if trimmed = [] then findCookie cookieName pieces
    else
      match parseEncoded trimmed with
      | none => none
      | some (name, value) => if name = cookieName then CsrfToken.parse value else findCookie cookieName pieces

/-- `extract_csrf_cookie`. -/
def extractCsrfCookie (headers : HeaderMap Str) (cookieName : Str) : Option CsrfToken := do
  let raw ← (getHeader headers cookie).bind headerToStr
  findCookie parseEncoded cookieName (raw.splitOn ';')

/-- `extract_csrf_header`. -/
def extractCsrfHeader (headers : HeaderMap Str) (headerName : Str) : Option CsrfToken := do
  let raw ← (getHeader headers headerName).bind headerToStr
  CsrfToken.parse raw

/-- What becomes of a request: forwarded, with a fresh cookie put in the response or not, or rejected. -/
inductive Outcome where
  | forwarded (injectCookie : Bool)
  | rejected (error : CsrfError)
  deriving DecidableEq

/-- `CsrfMiddleware::call`. -/
def call (config : CsrfConfig) (req : Request) : Outcome :=
  let cookieToken := extractCsrfCookie parseEncoded req.headers config.cookieName
  let bearer := isBearerRequest req.headers
  let injectCookie := cookieToken.isNone && !bearer
  if !isSafeMethod req.method && !bearer then
    match cookieToken with
    | none => .rejected .missingCookie
    | some cookieToken =>
      match extractCsrfHeader req.headers config.headerName with
      | none => .rejected .missingHeader
      | some headerToken => if cookieToken ≠ headerToken then .rejected .tokenMismatch else .forwarded injectCookie
  else .forwarded injectCookie

/-! ### What is claimed of it -/

/-- The pairs of a line, well formed or not. -/
def pairs (line : Str) : List Str := ((line.splitOn ';').map Str.trim).filter (· ≠ [])

/-- The value of a pair of the name. -/
def valueOf (cookieName pair : Str) : Option Str :=
  (parseEncoded pair).bind fun (name, value) => if name = cookieName then some value else none

/-- The values of all the pairs of the name, on whatever line. -/
def namedValues (headers : HeaderMap Str) (cookieName : Str) : List Str :=
  ((headers.getAll cookie).flatMap pairs).filterMap (valueOf parseEncoded cookieName)

/-- A request that the check is made of. -/
def Checked (req : Request) : Prop := isSafeMethod req.method = false ∧ isBearerRequest req.headers = false

/-- The token stands in the header. -/
def InHeader (config : CsrfConfig) (req : Request) (token : CsrfToken) : Prop :=
  token.1 ∈ req.headers.getAll (config.headerName.map Char.toLower)

/-- The one pair of the name has a token, and the header has it too. -/
def Sent (config : CsrfConfig) (req : Request) : Prop :=
  ∃ token : CsrfToken, namedValues parseEncoded req.headers config.cookieName = [token.1] ∧ InHeader config req token

/-- A token that is sent is found, and a request that is let in has sent one. -/
structure Found (config : CsrfConfig) (req : Request) : Prop where
  complete : Checked req → Sent parseEncoded config req → ∃ inject, call parseEncoded config req = .forwarded inject
  sound : Checked req → (∃ inject, call parseEncoded config req = .forwarded inject) →
    ∃ token : CsrfToken, token.1 ∈ namedValues parseEncoded req.headers config.cookieName ∧ InHeader config req token

/-- The pair of the name is on the first line, which can be read, behind pairs that are well formed. -/
def OnFirstLine (config : CsrfConfig) (req : Request) : Prop :=
  ∃ line, (req.headers.getAll cookie).head? = some line ∧ Readable line ∧
    ∃ before pair behind, pairs line = before ++ pair :: behind ∧ (valueOf parseEncoded config.cookieName pair).isSome ∧
      ∀ other ∈ before, (parseEncoded other).isSome

/-- The first line of the header is a token. -/
def FirstInHeader (config : CsrfConfig) (req : Request) : Prop :=
  ∃ token : CsrfToken, (req.headers.getAll (config.headerName.map Char.toLower)).head? = some token.1 ∧
    token.1 ∈ namedValues parseEncoded req.headers config.cookieName

/-! ### The search -/

variable {parseEncoded} {config : CsrfConfig} {req : Request} {token : CsrfToken}

theorem parse_eq_some {value : Str} : CsrfToken.parse value = some token ↔ value = token.1 := by
  rw [CsrfToken.parse]
  constructor
  · intro h
    split_ifs at h with hvalue
    exact congrArg Subtype.val (Option.some.inj h)
  · rintro rfl
    rw [dif_pos token.2]

theorem valueOf_eq_some {cookieName pair value : Str} :
    valueOf parseEncoded cookieName pair = some value ↔ parseEncoded pair = some (cookieName, value) := by
  rw [valueOf]
  cases hparse : parseEncoded pair with
  | none => simp
  | some read =>
    obtain ⟨name, value'⟩ := read
    simp only [Option.bind_some, Option.some.injEq, Prod.mk.injEq]
    split_ifs with hname
    · simp [hname]
    · simp [hname]

/-- What is looked for behind the first ones of a list is its first, or behind the first ones of the rest. -/
theorem exists_split_cons {α : Type} {skipped wanted : α → Prop} {first : α} {rest : List α} :
    (∃ before a behind, first :: rest = before ++ a :: behind ∧ (∀ b ∈ before, skipped b) ∧ wanted a) ↔
      wanted first ∨ (skipped first ∧
        ∃ before a behind, rest = before ++ a :: behind ∧ (∀ b ∈ before, skipped b) ∧ wanted a) := by
  constructor
  · rintro ⟨before, a, behind, hsplit, hbefore, ha⟩
    match before, hsplit with
    | [], hsplit => exact .inl ((List.cons.inj hsplit).1 ▸ ha)
    | b :: before, hsplit =>
      obtain ⟨rfl, hrest⟩ := List.cons.inj hsplit
      obtain ⟨hfirst, hbefore⟩ := List.forall_mem_cons.mp hbefore
      exact .inr ⟨hfirst, before, a, behind, hrest, hbefore, ha⟩
  · rintro (ha | ⟨hfirst, before, a, behind, rfl, hbefore, ha⟩)
    · exact ⟨[], first, rest, rfl, fun b hb => absurd hb List.not_mem_nil, ha⟩
    · exact ⟨first :: before, a, behind, rfl, List.forall_mem_cons.mpr ⟨hfirst, hbefore⟩, ha⟩

/-- The search goes through the pairs of a line, and stops at the first of the name or at one that is none. -/
theorem findCookie_eq_some {cookieName : Str} {pieces : List Str} :
    findCookie parseEncoded cookieName pieces = some token ↔ ∃ before pair behind,
      (pieces.map Str.trim).filter (· ≠ []) = before ++ pair :: behind ∧
      (∀ other ∈ before, (parseEncoded other).isSome ∧ valueOf parseEncoded cookieName other = none) ∧
      valueOf parseEncoded cookieName pair = some token.1 := by
  induction pieces with
  | nil => simp [findCookie]
  | cons piece pieces ih =>
    rw [findCookie, List.map_cons]
    by_cases hempty : piece.trim = []
    · rw [if_pos hempty, ih, List.filter_cons_of_neg (by simp [hempty])]
    · rw [if_neg hempty, List.filter_cons_of_pos (by simp [hempty]), exists_split_cons, ← ih]
      cases hparse : parseEncoded piece.trim with
      | none =>
        have hnone : valueOf parseEncoded cookieName piece.trim = none := by rw [valueOf, hparse, Option.bind_none]
        simp [hnone]
      | some read =>
        obtain ⟨name, value⟩ := read
        dsimp only
        by_cases hname : name = cookieName
        · subst hname
          have hfound : valueOf parseEncoded name piece.trim = some value := valueOf_eq_some.mpr hparse
          rw [if_pos rfl, parse_eq_some]
          simp [hfound]
        · have hother : valueOf parseEncoded cookieName piece.trim = none := by
            rw [valueOf, hparse, Option.bind_some]
            exact if_neg hname
          rw [if_neg hname]
          simp [hother]

/-- What is found stands on the first line. -/
theorem extractCsrfCookie_eq_some {cookieName : Str} {headers : HeaderMap Str} :
    extractCsrfCookie parseEncoded headers cookieName = some token ↔
      ∃ line, (headers.getAll cookie).head? = some line ∧ Readable line ∧ ∃ before pair behind,
        pairs line = before ++ pair :: behind ∧
        (∀ other ∈ before, (parseEncoded other).isSome ∧ valueOf parseEncoded cookieName other = none) ∧
        valueOf parseEncoded cookieName pair = some token.1 := by
  have hlower : cookie.map Char.toLower = cookie := by decide
  rw [extractCsrfCookie, getHeader, hlower]
  cases hline : (headers.getAll cookie).head? with
  | none => simp
  | some line =>
    by_cases hread : Readable line
    · simp only [Option.bind_some, headerToStr_of_readable hread, Option.bind_eq_bind, findCookie_eq_some]
      exact ⟨fun h => ⟨line, rfl, hread, h⟩, fun ⟨line', hline', _, h⟩ => Option.some.inj hline' ▸ h⟩
    · simp only [Option.bind_some, headerToStr_of_not_readable hread, Option.bind_eq_bind, Option.bind_none]
      refine ⟨nofun, fun ⟨line', hline', hread', _⟩ => ?_⟩
      exact absurd (Option.some.inj hline' ▸ hread') hread

theorem readable_token (token : CsrfToken) : Readable token.1 := by
  intro c hc
  have hdigit := List.all_eq_true.mp token.2.2 c hc
  simp only [isAsciiHexdigit, Bool.or_eq_true, Bool.and_eq_true, decide_eq_true_eq] at hdigit
  rcases hdigit with (⟨hlow, hhigh⟩ | ⟨hlow, hhigh⟩) | ⟨hlow, hhigh⟩
  · exact .inr ⟨le_trans (by decide) hlow, hhigh.trans (by decide)⟩
  · exact .inr ⟨le_trans (by decide) hlow, hhigh.trans (by decide)⟩
  · exact .inr ⟨le_trans (by decide) hlow, hhigh.trans (by decide)⟩

theorem extractCsrfHeader_eq_some {headerName : Str} {headers : HeaderMap Str} :
    extractCsrfHeader headers headerName = some token ↔
      (headers.getAll (headerName.map Char.toLower)).head? = some token.1 := by
  rw [extractCsrfHeader, getHeader]
  cases hline : (headers.getAll (headerName.map Char.toLower)).head? with
  | none => simp
  | some line =>
    by_cases hread : Readable line
    · simp only [Option.bind_some, headerToStr_of_readable hread, Option.bind_eq_bind, parse_eq_some,
        Option.some.injEq]
    · simp only [Option.bind_some, headerToStr_of_not_readable hread, Option.bind_eq_bind, Option.bind_none,
        Option.some.injEq]
      refine ⟨nofun, fun heq => ?_⟩
      exact absurd (heq ▸ readable_token token) hread

/-- A request that is checked is let in with the same token in both places. -/
theorem forwarded_iff (h : Checked req) : (∃ inject, call parseEncoded config req = .forwarded inject) ↔
    ∃ token, extractCsrfCookie parseEncoded req.headers config.cookieName = some token ∧
      extractCsrfHeader req.headers config.headerName = some token := by
  obtain ⟨hchanges, hbearer⟩ := h
  have hchecked : (!isSafeMethod req.method && !isBearerRequest req.headers) = true := by rw [hchanges, hbearer]; rfl
  rw [call, if_pos hchecked]
  cases hcookie : extractCsrfCookie parseEncoded req.headers config.cookieName with
  | none => simp
  | some cookieToken =>
    cases hheader : extractCsrfHeader req.headers config.headerName with
    | none => simp
    | some headerToken =>
      dsimp only
      split_ifs with hne
      · refine ⟨nofun, fun ⟨token, hc, hh⟩ => ?_⟩
        exact absurd ((Option.some.inj hc).trans (Option.some.inj hh).symm) hne
      · exact ⟨fun _ => ⟨cookieToken, rfl, by rw [not_not.mp hne]⟩, fun _ => ⟨_, rfl⟩⟩

/-! ### What is found -/

theorem mem_namedValues {headers : HeaderMap Str} {cookieName line pair value : Str}
    (hline : (headers.getAll cookie).head? = some line) (hpair : pair ∈ pairs line)
    (hvalue : valueOf parseEncoded cookieName pair = some value) :
    value ∈ namedValues parseEncoded headers cookieName :=
  List.mem_filterMap.mpr ⟨pair, List.mem_flatMap.mpr ⟨line, List.mem_of_mem_head? hline, hpair⟩, hvalue⟩

/-- With one pair of the name, the pairs before it are not of the name. -/
theorem valueOf_eq_none_of_before {headers : HeaderMap Str} {cookieName line value : Str} {before behind : List Str}
    {pair : Str} (hnamed : namedValues parseEncoded headers cookieName = [value])
    (hline : (headers.getAll cookie).head? = some line) (hsplit : pairs line = before ++ pair :: behind)
    (hpair : (valueOf parseEncoded cookieName pair).isSome) :
    ∀ other ∈ before, valueOf parseEncoded cookieName other = none := by
  obtain ⟨lines, hlines⟩ : ∃ lines, headers.getAll cookie = line :: lines := List.head?_eq_some_iff.mp hline
  obtain ⟨found, hfound⟩ := Option.isSome_iff_exists.mp hpair
  intro other hother
  by_contra hsome
  obtain ⟨value', hvalue'⟩ := Option.ne_none_iff_exists'.mp hsome
  -- two values of the name would be on the line
  have hlen := congrArg List.length hnamed
  rw [namedValues, hlines, List.flatMap_cons, hsplit, List.filterMap_append, List.filterMap_append,
    List.filterMap_cons_some hfound, List.length_append, List.length_append, List.length_cons,
    List.length_singleton] at hlen
  have hmem : value' ∈ before.filterMap (valueOf parseEncoded cookieName) :=
    List.mem_filterMap.mpr ⟨other, hother, hvalue'⟩
  have hpos := List.length_pos_of_mem hmem
  omega

theorem sound (h : Checked req) (hcall : ∃ inject, call parseEncoded config req = .forwarded inject) :
    ∃ token : CsrfToken, token.1 ∈ namedValues parseEncoded req.headers config.cookieName ∧
      InHeader config req token := by
  obtain ⟨token, hcookie, hheader⟩ := (forwarded_iff h).mp hcall
  obtain ⟨line, hline, -, before, pair, behind, hsplit, -, hvalue⟩ := extractCsrfCookie_eq_some.mp hcookie
  exact ⟨token, mem_namedValues hline (hsplit ▸ List.mem_append_right before List.mem_cons_self) hvalue,
    List.mem_of_mem_head? (extractCsrfHeader_eq_some.mp hheader)⟩

/-- A token that is sent lets the request in exactly if it is looked for where it stands. -/
theorem forwarded_iff_of_sent (h : Checked req) (hsent : Sent parseEncoded config req) :
    (∃ inject, call parseEncoded config req = .forwarded inject) ↔
      OnFirstLine parseEncoded config req ∧ FirstInHeader parseEncoded config req := by
  obtain ⟨token, hnamed, -⟩ := hsent
  have hunique : ∀ {line pair value : Str}, (req.headers.getAll cookie).head? = some line → pair ∈ pairs line →
      valueOf parseEncoded config.cookieName pair = some value → value = token.1 := by
    intro line pair value hline hpair hvalue
    have hmem := mem_namedValues hline hpair hvalue
    rw [hnamed] at hmem
    exact List.mem_singleton.mp hmem
  rw [forwarded_iff h]
  constructor
  · rintro ⟨found, hcookie, hheader⟩
    obtain ⟨line, hline, hread, before, pair, behind, hsplit, hbefore, hvalue⟩ := extractCsrfCookie_eq_some.mp hcookie
    have hpair : pair ∈ pairs line := hsplit ▸ List.mem_append_right before List.mem_cons_self
    refine ⟨⟨line, hline, hread, before, pair, behind, hsplit, by rw [hvalue]; rfl, fun other hother =>
      (hbefore other hother).1⟩, found, extractCsrfHeader_eq_some.mp hheader, mem_namedValues hline hpair hvalue⟩
  · rintro ⟨⟨line, hline, hread, before, pair, behind, hsplit, hpair, hbefore⟩, found, hheader, hmem⟩
    obtain ⟨value, hvalue⟩ := Option.isSome_iff_exists.mp hpair
    have hfound : found.1 = token.1 := by
      rw [hnamed] at hmem
      exact List.mem_singleton.mp hmem
    have htoken := hunique hline (hsplit ▸ List.mem_append_right before List.mem_cons_self) hvalue
    refine ⟨found, extractCsrfCookie_eq_some.mpr ⟨line, hline, hread, before, pair, behind, hsplit, ?_, ?_⟩,
      extractCsrfHeader_eq_some.mpr hheader⟩
    · exact fun other hother => ⟨hbefore other hother, valueOf_eq_none_of_before hnamed hline hsplit hpair other hother⟩
    · rw [hvalue, htoken, hfound]

theorem onFirstLine_of_found (h : Found parseEncoded config req) (hchecked : Checked req)
    (hsent : Sent parseEncoded config req) :
    OnFirstLine parseEncoded config req ∧ FirstInHeader parseEncoded config req :=
  (forwarded_iff_of_sent hchecked hsent).mp (h.complete hchecked hsent)

/-- Whatever the cookie library, the configuration and the request: a token is found and nothing else is let in
    exactly if a token that is sent with a request that is checked has its pair on the first cookie line, this
    line can be read, the pairs before it are well formed, and it is the first value of its header. -/
theorem found_iff (parseEncoded : Str → Option (Str × Str)) (config : CsrfConfig) (req : Request) :
    Found parseEncoded config req ↔ (Checked req → Sent parseEncoded config req →
      OnFirstLine parseEncoded config req ∧ FirstInHeader parseEncoded config req) :=
  ⟨fun h hchecked hsent => onFirstLine_of_found h hchecked hsent,
    fun h => ⟨fun hchecked hsent => (forwarded_iff_of_sent hchecked hsent).mpr (h hchecked hsent), sound⟩⟩

end check

/-! ### A pair that is none -/

/-- The name and the value of a pair without percent signs. -/
def readPair (pair : Str) : Option (Str × Str) :=
  match Str.splitOnce '=' pair with
  | some (name, value) => if name.trim = [] then none else some (name.trim, value.trim)
  | none => none

/-- A form with its token, and a cookie without a value before it. -/
def themedForm : Request :=
  { method := .post
    headers := [(cookie, "theme; csrf=".toList ++ List.replicate 64 'a'),
      ("x-csrf-token".toList, List.replicate 64 'a')] }

/-- The token of the form is in both places and is not found. -/
theorem themed_form_rejected : ¬ Found readPair ⟨"csrf".toList, "x-csrf-token".toList⟩ themedForm := by
  intro h
  have hchecked : Checked themedForm := ⟨rfl, rfl⟩
  have hsent : Sent readPair ⟨"csrf".toList, "x-csrf-token".toList⟩ themedForm :=
    ⟨⟨List.replicate 64 'a', by decide⟩, by decide +kernel, by
      rw [InHeader]
      decide +kernel⟩
  obtain ⟨inject, hcall⟩ := h.complete hchecked hsent
  have hrejected : call readPair ⟨"csrf".toList, "x-csrf-token".toList⟩ themedForm = .rejected .missingCookie := by
    decide +kernel
  rw [hrejected] at hcall
  cases hcall

end Arcature.Auth.Csrf
