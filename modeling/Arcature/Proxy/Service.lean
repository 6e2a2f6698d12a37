import Arcature.Lib.HeaderMap

/-! The proxy in front of the router (`proxy/service.rs`, `proxy/action.rs`).

    A function of the application decides on each request before it is routed, and the service carries
    the decision out:

        Continue set_headers      the headers are set, and the router is called
        Rewrite uri               the URI is replaced, and the router is called
        Redirect, ShortCircuit    answered at once

    Headers are set value by value, each in place of all before it, so that of a name with several values
    only the last is left. And a target is checked for a scheme but not for an authority, so that one
    without a slash is taken for a host. Elsewhere the router sees what was decided (`passes_on_iff`). -/

namespace Arcature.Proxy
open Arcature.Lib

/-! ### Requests and responses -/

/-- `Uri`, by its parts. -/
structure Uri where
  scheme : Option Str
  authority : Option Str
  pathAndQuery : Option Str
  deriving DecidableEq

/-- A request: its parts, and its body. -/
structure Request (ε β : Type) where
  method : Str
  uri : Uri
  version : Str
  headers : HeaderMap Bytes
  extensions : ε
  body : β

/-- A response. -/
structure Response where
  status : ℕ
  headers : HeaderMap Bytes
  body : Bytes
  deriving DecidableEq

/-- `Action`. -/
inductive Action where
  | continue (setHeaders : HeaderMap Bytes)
  | redirect (location : Str) (permanent : Bool)
  | rewrite (uri : Str)
  | shortCircuit (status : ℕ) (response : Option Response)

/-- `ProxyFn`, which sees the method, the URI and the headers. -/
abbrev ProxyFn := Str → Uri → HeaderMap Bytes → Action

/-- `build_response`. -/
def buildResponse (status : ℕ) (headers : Option (HeaderMap Bytes)) (body : Option Bytes) : Response where
  status
  headers := (headers.getD []).foldl (fun built (name, value) => built.append name value)
    [("x-content-type-options".toList, Str.bytes "nosniff".toList)]
  body := body.getD []

/-- A rejection. -/
def badRequest (message : Str) : Response := buildResponse 400 none (some (Str.bytes message))

/-- `HeaderValue::try_from`: bytes that are visible, spaces or tabs. -/
def headerValue (value : Bytes) : Option Bytes :=
  if value.all fun b => (0x20 ≤ b && b != 0x7f) || b = 0x09 then some value else none

/-- `validate_header_value`. -/
def validateHeaderValue (value : Str) : Except Response Bytes :=
  if (Str.bytes value).any fun b => b = 0x0d || b = 0x0a || (b < 0x20 && b != 0x09) then
    .error (badRequest "invalid header value: CRLF or control character detected".toList)
  else
    match headerValue (Str.bytes value) with
    | some value => .ok value
    | none => .error (badRequest "invalid header value".toList)

/-- A value in which a line ends. -/
def breaksLine (value : Bytes) : Bool := value.contains 0x0d || value.contains 0x0a

/-- `merge_headers`. -/
def mergeHeaders (destination : HeaderMap Bytes) : HeaderMap Bytes → Except Response (HeaderMap Bytes)
  | [] => .ok destination
  | (name, value) :: source =>
    if breaksLine value then .error (badRequest "invalid header value in SetHeaders: CRLF detected".toList)
    else mergeHeaders (destination.insert name value) source

section Service
-- `str::parse::<Uri>`
variable (parse : Str → Option Uri)

/-- `validate_rewrite_uri`. -/
def validateRewriteUri (uri : Str) : Except Response Uri :=
  match parse uri with
  | none => .error (badRequest "invalid rewrite URI".toList)
  | some parsed =>
    if parsed.scheme.isSome then .error (badRequest "rewrite URI must not contain a scheme".toList) else .ok parsed

/-- What the service does with a request. -/
inductive Served (ε β : Type) where
  | delegated (request : Request ε β)
  | answered (response : Response)

variable {ε β : Type}

/-- `ProxyService::call`. -/
def call (proxy : Option ProxyFn) (request : Request ε β) : Served ε β :=
  match proxy with
  | none => .delegated request
  | some proxy =>
    match proxy request.method request.uri request.headers with
    | .continue setHeaders =>
      match mergeHeaders request.headers setHeaders with
      | .error rejection => .answered rejection
      | .ok headers => .delegated { request with headers }
    | .redirect location permanent =>
      match validateHeaderValue location with
      | .error rejection => .answered rejection
      | .ok value =>
        .answered (buildResponse (if permanent then 301 else 302) (some [("location".toList, value)]) none)
    | .rewrite uri =>
      match validateRewriteUri parse uri with
      | .error rejection => .answered rejection
      | .ok uri => .delegated { request with uri }
    | .shortCircuit status response => .answered (response.getD (buildResponse status none none))

/-! ### What was decided -/

/-- Headers that are accepted. -/
def Accepted (headers : HeaderMap Bytes) : Prop := ∀ line ∈ headers, breaksLine line.2 = false

/-- Two requests are the same but for their headers. -/
def SameButHeaders (r r' : Request ε β) : Prop := r = { r' with headers := r.headers }

/-- A path with an optional query. -/
def Uri.IsPath (uri : Uri) : Prop := uri.scheme = none ∧ uri.authority = none

/-- The router sees what an action decides, or is not called: with headers that are set, each of their
    names has exactly their values and nothing else is changed; with a target that is a path, the URI is
    replaced and nothing else is changed. -/
def Carries (request : Request ε β) : Action → Served ε β → Prop
  | .continue setHeaders, served =>
    (Accepted setHeaders → ∃ seen, served = .delegated seen ∧ SameButHeaders seen request ∧
      ∀ name, seen.headers.getAll name =
        if setHeaders.containsKey name then setHeaders.getAll name else request.headers.getAll name) ∧
      (¬ Accepted setHeaders → ∃ response, served = .answered response)
  | .rewrite target, served =>
    (∃ uri, parse target = some uri ∧ uri.IsPath ∧ served = .delegated { request with uri }) ∨
      ((∀ uri, parse target = some uri → ¬ uri.IsPath) ∧ ∃ response, served = .answered response)
  | .redirect _ _, served => ∃ response, served = .answered response
  | .shortCircuit _ _, served => ∃ response, served = .answered response

/-- No accepted header is set to several values, and no target has an authority but no scheme. -/
def Plain : Action → Prop
  | .continue setHeaders => Accepted setHeaders → ∀ name, (setHeaders.getAll name).length ≤ 1
  | .rewrite target => ∀ uri, parse target = some uri → uri.scheme = none → uri.authority = none
  | .redirect _ _ => True
  | .shortCircuit _ _ => True

end Service

/-! ### Setting headers -/

/-- Headers are set if no value of them ends a line, and then each name has the last of its values. -/
theorem mergeHeaders_eq {source : HeaderMap Bytes} (h : Accepted source) (destination : HeaderMap Bytes) :
    ∃ headers, mergeHeaders destination source = .ok headers ∧ ∀ name, headers.getAll name =
      if source.containsKey name then (source.getAll name).getLast?.toList else destination.getAll name := by
  induction source generalizing destination with
  | nil => exact ⟨destination, rfl, fun name => rfl⟩
  | cons line source ih =>
    obtain ⟨n, value⟩ := line
    obtain ⟨headers, hmerge, hget⟩ := ih (fun l hl => h l (List.mem_cons_of_mem _ hl)) (destination.insert n value)
    have hline := h (n, value) List.mem_cons_self
    refine ⟨headers, ?_, fun name => ?_⟩
    · rw [mergeHeaders, hline]
      exact hmerge
    · rw [hget, HeaderMap.getAll_insert, HeaderMap.getAll_cons, HeaderMap.containsKey_cons]
      cases hkey : HeaderMap.containsKey source name with
      | true =>
        have hne := HeaderMap.containsKey_iff.mp hkey
        rw [Bool.or_true, if_pos rfl, if_pos rfl, List.getLast?_append_of_ne_nil _ hne]
      | false =>
        rw [HeaderMap.getAll_of_containsKey hkey, List.append_nil]
        by_cases hname : n = name <;> simp [hname]

/-- One value that ends a line, and the request is rejected. -/
theorem mergeHeaders_eq_error {source : HeaderMap Bytes} (h : ¬ Accepted source) (destination : HeaderMap Bytes) :
    ∃ rejection, mergeHeaders destination source = .error rejection := by
  induction source generalizing destination with
  | nil => exact absurd (by simp [Accepted]) h
  | cons line source ih =>
    obtain ⟨n, value⟩ := line
    rw [mergeHeaders]
    split_ifs with hline
    · exact ⟨_, rfl⟩
    · refine ih (fun hsource => h ?_) _
      intro l hl
      rcases List.mem_cons.mp hl with rfl | hl
      · exact Bool.eq_false_iff.mpr hline
      · exact hsource l hl

/-- The last of some values is all of them exactly if there is at most one. -/
theorem getLast?_toList_eq_iff {α : Type} (l : List α) : l.getLast?.toList = l ↔ l.length ≤ 1 := by
  match l with
  | [] => simp
  | [a] => simp
  | a :: b :: l =>
    constructor
    · intro h
      have hlen := congrArg List.length h
      rw [List.getLast?_eq_some_getLast (by simp)] at hlen
      simp at hlen
    · intro h
      simp at h

section Service
variable {parse : Str → Option Uri} {ε β : Type}

/-- Accepted headers are set as decided exactly if no name among them has several values. -/
theorem carries_continue_iff (proxy : ProxyFn) (request : Request ε β) {setHeaders : HeaderMap Bytes}
    (h : proxy request.method request.uri request.headers = .continue setHeaders) :
    Carries parse request (.continue setHeaders) (call parse (some proxy) request) ↔
      Plain parse (.continue setHeaders) := by
  rw [call, h]
  by_cases haccepted : Accepted setHeaders
  · obtain ⟨headers, hmerge, hget⟩ := mergeHeaders_eq haccepted request.headers
    dsimp only
    rw [hmerge]
    constructor
    · rintro ⟨hset, -⟩ - name
      obtain ⟨seen, hseen, -, hvalues⟩ := hset haccepted
      obtain rfl := (Served.delegated.inj hseen).symm
      have hname := hvalues name
      rw [hget] at hname
      cases hkey : setHeaders.containsKey name with
      | true =>
        rw [hkey, if_pos rfl, if_pos rfl] at hname
        exact (getLast?_toList_eq_iff _).mp hname
      | false =>
        rw [HeaderMap.getAll_of_containsKey hkey]
        exact Nat.zero_le 1
    · intro hplain
      refine ⟨fun _ => ⟨_, rfl, rfl, fun name => ?_⟩, fun hnot => absurd haccepted hnot⟩
      rw [hget, (getLast?_toList_eq_iff _).mpr (hplain haccepted name)]
  · obtain ⟨rejection, hmerge⟩ := mergeHeaders_eq_error haccepted request.headers
    dsimp only
    rw [hmerge]
    exact ⟨fun _ hnot => absurd hnot haccepted, fun _ => ⟨fun hnot => absurd hnot haccepted, fun _ => ⟨_, rfl⟩⟩⟩

/-- A target without a scheme is taken. -/
theorem validateRewriteUri_eq_ok {target : Str} {uri : Uri} (hparse : parse target = some uri)
    (hscheme : uri.scheme = none) : validateRewriteUri parse target = .ok uri := by
  simp [validateRewriteUri, hparse, hscheme]

/-- What is no URI, or has a scheme, is rejected. -/
theorem validateRewriteUri_eq_error {target : Str} (h : ∀ uri, parse target = some uri → uri.scheme ≠ none) :
    ∃ rejection, validateRewriteUri parse target = .error rejection := by
  rw [validateRewriteUri]
  cases hparse : parse target with
  | none => exact ⟨_, rfl⟩
  | some uri => exact ⟨_, if_pos (Option.isSome_iff_ne_none.mpr (h uri hparse))⟩

/-- A target is followed as decided exactly if it has no authority without a scheme. -/
theorem carries_rewrite_iff (proxy : ProxyFn) (request : Request ε β) {target : Str}
    (h : proxy request.method request.uri request.headers = .rewrite target) :
    Carries parse request (.rewrite target) (call parse (some proxy) request) ↔ Plain parse (.rewrite target) := by
  rw [call]
  simp only [h]
  by_cases htaken : ∃ uri, parse target = some uri ∧ uri.scheme = none
  · obtain ⟨uri, hparse, hscheme⟩ := htaken
    rw [validateRewriteUri_eq_ok hparse hscheme]
    constructor
    · rintro (⟨u, hu, hpath, -⟩ | ⟨-, response, hserved⟩) u' hu' -
      · rw [Option.some.inj (hu'.symm.trans hu)]
        exact hpath.2
      · cases hserved
    · intro hplain
      exact .inl ⟨uri, hparse, ⟨hscheme, hplain uri hparse hscheme⟩, rfl⟩
  · have hscheme : ∀ uri, parse target = some uri → uri.scheme ≠ none :=
      fun uri hparse hnone => htaken ⟨uri, hparse, hnone⟩
    obtain ⟨rejection, hrejected⟩ := validateRewriteUri_eq_error hscheme
    rw [hrejected]
    refine ⟨fun _ uri hparse hnone => absurd hnone (hscheme uri hparse), fun _ => .inr ⟨?_, rejection, rfl⟩⟩
    exact fun uri hparse hpath => hscheme uri hparse hpath.1

/-- What the proxy decides is carried out exactly if it sets no accepted header to several values, and does
    not rewrite to a target that has an authority and no scheme. -/
theorem passes_on_iff (parse : Str → Option Uri) (proxy : ProxyFn) (request : Request ε β) :
    Carries parse request (proxy request.method request.uri request.headers) (call parse (some proxy) request) ↔
      Plain parse (proxy request.method request.uri request.headers) := by
  cases h : proxy request.method request.uri request.headers with
  | «continue» setHeaders => exact carries_continue_iff proxy request h
  | rewrite target => exact carries_rewrite_iff proxy request h
  | redirect location permanent =>
    refine ⟨fun _ => trivial, fun _ => ?_⟩
    rw [call, h]
    dsimp only
    cases validateHeaderValue location with
    | error rejection => exact ⟨_, rfl⟩
    | ok value => exact ⟨_, rfl⟩
  | shortCircuit status response =>
    refine ⟨fun _ => trivial, fun _ => ?_⟩
    rw [call, h]
    exact ⟨_, rfl⟩

/-- Of two values for one name only the second reaches the router, and a target without a slash reaches it
    as a host. -/
theorem several_values_and_host : ∃ request : Request Unit Unit,
    ¬ Carries (fun _ => none) request
        (.continue [("x-tag".toList, Str.bytes "a".toList), ("x-tag".toList, Str.bytes "b".toList)])
        (call (fun _ => none)
          (some fun _ _ _ => .continue [("x-tag".toList, Str.bytes "a".toList), ("x-tag".toList, Str.bytes "b".toList)])
          request) ∧
      ¬ Carries (fun _ => some ⟨none, some "links".toList, none⟩) request (.rewrite "links".toList)
        (call (fun _ => some ⟨none, some "links".toList, none⟩) (some fun _ _ _ => .rewrite "links".toList) request) := by
  refine ⟨⟨"GET".toList, ⟨none, none, some "/".toList⟩, "HTTP/1.1".toList, [], (), ()⟩, ?_, ?_⟩
  · rintro ⟨hset, -⟩
    obtain ⟨seen, hseen, -, hvalues⟩ := hset (by
      intro line hline
      rcases List.mem_pair.mp hline with rfl | rfl <;> decide +kernel)
    have hname := hvalues "x-tag".toList
    rw [← Served.delegated.inj hseen] at hname
    exact absurd hname (by decide +kernel)
  · rintro (⟨uri, huri, hpath, -⟩ | ⟨-, response, hserved⟩)
    · rw [← Option.some.inj huri] at hpath
      cases hpath.2
    · cases hserved

end Service

end Arcature.Proxy
