import Arcature.Lib.Url
import Arcature.Routing.Rendering

/-! Redirects and the origin they stay on.

    A handler answers with a path, a named route, or the page the request came from, and `resolve`
    (`http/response.rs`) makes a `Location` of it. A path and a `Referer` are first looked at:

        validate_redirect_target     refuses   //..   http://..   https://..     and nothing else

    What a browser reads as another host has more spellings than these, and the URL of a named route
    is not looked at, though its parameters stand in it as they are. A redirect stays on the origin
    of every page exactly when a browser finds no host in what it was built from
    (`originKept_iff`). -/

namespace Arcature.Http
open Arcature.Lib Arcature.Routing

/-- Where a redirect leads. -/
inductive RedirectTarget where
  | path (path : Str)
  | route (name : Str) (params : List Str)
  | back
  deriving DecidableEq

/-- The builder of a redirect. -/
structure RedirectResponse where
  target : RedirectTarget
  permanent : Bool
  deriving DecidableEq

/-- An HTTP redirect: its status and its `Location`. -/
structure Redirect where
  status : ℕ
  location : Str
  deriving DecidableEq

/-- `redirect()`. -/
def redirect : RedirectResponse := ⟨.path "/".toList, false⟩

namespace RedirectResponse

/-- `to`. -/
def toPath (response : RedirectResponse) (path : Str) : RedirectResponse :=
  { response with target := .path path }

/-- `route`. -/
def route (response : RedirectResponse) (name : Str) (params : List Str) : RedirectResponse :=
  { response with target := .route name params }

/-- `back`. -/
def back (response : RedirectResponse) : RedirectResponse := { response with target := .back }

end RedirectResponse

/-- `validate_redirect_target`. -/
def validateRedirectTarget (path : Str) : Except Error Unit :=
  if "//".toList.isPrefixOf path || "http://".toList.isPrefixOf path ||
      "https://".toList.isPrefixOf path then
    .error (.redirect "external redirect not allowed".toList)
  else .ok ()

/-- `resolve`. -/
def RedirectResponse.resolve (response : RedirectResponse) (table : RouteTable)
    (referer : Option Str) : Except Error Redirect := do
  let path ← match response.target with
    | .path p => do
      validateRedirectTarget p
      pure p
    | .route name params => table.urlFor name params
    | .back => pure ((referer.filter fun r => (validateRedirectTarget r).isOk).getD "/".toList)
  return ⟨if response.permanent then 308 else 307, path⟩

/-- On every page, the `Location` that a redirect resolves to stays on the page's origin. -/
def OriginKept (parseHost : Str → Option Str) (table : RouteTable) (referer : Option Str)
    (response : RedirectResponse) : Prop :=
  ∀ answer, response.resolve table referer = .ok answer →
    ∀ base : Url.Base, Url.resolve parseHost base answer.location = some base.origin

/-! ### The condition -/

/-- The number of captures of a template. -/
def captures (template : Str) : ℕ := (template.splitOn '/').countP fun s => (stripBraces s).isSome

/-- What is written for the first segment of a template that starts with a slash. -/
def firstWritten (segment : Str) (params : List Str) : Str :=
  if (stripBraces segment).isSome then params.headD [] else segment

/-- No host follows the slash a template starts with: but for tabs and newlines, its first segment is
    written as something that does not begin with a slash, or as nothing with nothing after it. -/
def FirstPlain (template : Str) (params : List Str) : Prop :=
  match template.splitOn '/' with
  | _ :: segment :: segments =>
    match (firstWritten segment params).filter fun c => !Url.isTabOrNewline c with
    | [] => segments = []
    | c :: _ => Url.isSlash c = false
  | _ => True

/-- A browser finds no host in what a redirect is built from, or the redirect is refused. -/
def Stays (table : RouteTable) (referer : Option Str) : RedirectTarget → Prop
  | .path path => validateRedirectTarget path = .ok () → Url.Inside path
  | .route name params => ∀ template, table.names.get? name = some template →
      captures template ≤ params.length → FirstPlain template params
  | .back => ∀ r, referer = some r → validateRedirectTarget r = .ok () → Url.Inside r

/-! ### Named routes -/

/-- What is written for the first segment, and that there is more exactly if there are more segments. -/
theorem renderSegments_first {params : List Str} {segment : Str} {segments out : List Str}
    (h : renderSegments params 0 (segment :: segments) = .ok out) :
    ∃ written, out = firstWritten segment params :: written ∧ (written = [] ↔ segments = []) := by
  obtain ⟨first, written, next, rfl, hrest, hfirst⟩ := renderSegments_cons_iff.mp h
  have hmore : written = [] ↔ segments = [] := by
    cases segments with
    | nil => simpa [renderSegments, eq_comm] using hrest
    | cons s segments =>
      obtain ⟨first', written', -, rfl, -⟩ := renderSegments_cons_iff.mp hrest
      simp
  refine ⟨written, ?_, hmore⟩
  rcases hfirst with ⟨hliteral, rfl, -⟩ | ⟨hcapture, hparam, -⟩
  · simp [firstWritten, hliteral]
  · simp [firstWritten, hcapture, List.headD_eq_head?_getD, List.head?_eq_getElem?, hparam]

/-- The URL of a template that starts with a slash stays exactly if its first segment is plain. -/
theorem inside_renderPath_iff {template url : Str} {params : List Str}
    (htemplate : template.head? = some '/') (h : renderPath template params = .ok url) :
    Url.Inside url ↔ FirstPlain template params := by
  obtain ⟨tail, rfl⟩ : ∃ tail, template = '/' :: tail := by
    cases template with
    | nil => simp at htemplate
    | cons c tail => exact ⟨tail, by simpa using htemplate⟩
  obtain ⟨segment, segments, hsplit⟩ := List.exists_cons_of_ne_nil (List.splitOn_ne_nil '/' tail)
  have hpieces : ('/' :: tail).splitOn '/' = [] :: segment :: segments := by
    rw [← List.nil_append ('/' :: tail), List.splitOn_append_cons_self, hsplit]
    rfl
  -- the URL is a slash, the first segment, and what follows it
  obtain ⟨out, hout, hurl⟩ := renderPath_eq_ok.mp h
  rw [hpieces] at hout
  obtain ⟨first, out, next, rfl, hout, hfirst⟩ := renderSegments_cons_iff.mp hout
  obtain ⟨rfl, rfl⟩ : first = [] ∧ next = 0 := by
    rcases hfirst with ⟨-, hfirst, hnext⟩ | ⟨hcapture, -⟩
    · exact ⟨hfirst, hnext⟩
    · simp [stripBraces] at hcapture
  obtain ⟨written, rfl, hmore⟩ := renderSegments_first hout
  rw [hurl, List.intercalate_cons_cons, List.nil_append, List.singleton_append, Url.inside_slash_iff,
    FirstPlain, hpieces]
  simp only
  have hslash : Url.isSlash '/' = true ∧ Url.isTabOrNewline '/' = false := by decide
  cases written with
  | nil =>
    rw [List.intercalate_singleton]
    cases (firstWritten segment params).filter fun c => !Url.isTabOrNewline c with
    | nil => simpa using hmore
    | cons c rest => simp
  | cons w written =>
    rw [List.intercalate_cons_cons, List.append_assoc, List.filter_append]
    cases (firstWritten segment params).filter fun c => !Url.isTabOrNewline c with
    | nil => simpa [hslash] using hmore
    | cons c rest => simp

/-! ### Every redirect -/

/-- The URLs of a named route stay exactly if the first segment is plain wherever there is a URL. -/
theorem inside_urlFor_iff {table : RouteTable}
    (htable : ∀ name template, table.names.get? name = some template → template.head? = some '/')
    (name : Str) (params : List Str) :
    (∀ url, table.urlFor name params = .ok url → Url.Inside url) ↔
      ∀ template, table.names.get? name = some template → captures template ≤ params.length →
        FirstPlain template params := by
  rw [RouteTable.urlFor]
  cases hname : table.names.get? name with
  | none => simp
  | some template =>
    have hstart := htable name template hname
    have hrenders := exists_renderSegments_iff params (template.splitOn '/') (Nat.zero_le _)
    rw [Nat.zero_add] at hrenders
    constructor
    · rintro h _ ⟨⟩ hcount
      obtain ⟨out, hout⟩ := hrenders.mpr hcount
      have hurl := renderPath_eq_ok.mpr ⟨out, hout, rfl⟩
      exact (inside_renderPath_iff hstart hurl).mp (h _ hurl)
    · intro h url hurl
      obtain ⟨out, hout, -⟩ := renderPath_eq_ok.mp hurl
      exact (inside_renderPath_iff hstart hurl).mpr (h template rfl (hrenders.mp ⟨out, hout⟩))

theorem inside_referer_iff (referer : Option Str) :
    Url.Inside ((referer.filter fun r => (validateRedirectTarget r).isOk).getD "/".toList) ↔
      ∀ r, referer = some r → validateRedirectTarget r = .ok () → Url.Inside r := by
  have hroot : Url.Inside "/".toList := by decide
  cases referer with
  | none => simpa using hroot
  | some r =>
    cases hvalid : validateRedirectTarget r with
    | error e => simpa [Option.filter, hvalid, Except.isOk, Except.toBool] using hroot
    | ok _ => simp [Option.filter, hvalid, Except.isOk, Except.toBool]

/-- A redirect stays on the origin of whatever page it is followed from exactly when a browser finds
    no host in the path, the `Referer` or the first segment of the route that it was built from, or
    it is refused. -/
theorem originKept_iff (parseHost : Str → Option Str) (table : RouteTable)
    (htable : ∀ name template, table.names.get? name = some template → template.head? = some '/')
    (referer : Option Str) (response : RedirectResponse) :
    OriginKept parseHost table referer response ↔ Stays table referer response.target := by
  have hlocation : OriginKept parseHost table referer response ↔
      ∀ answer, response.resolve table referer = .ok answer → Url.Inside answer.location :=
    forall₂_congr fun answer _ => Url.stays_iff parseHost answer.location
  obtain ⟨target, permanent⟩ := response
  rw [hlocation]
  cases target with
  | path p =>
    cases hvalid : validateRedirectTarget p <;>
      simp [RedirectResponse.resolve, Stays, hvalid, bind, Except.bind, pure, Except.pure]
  | route name params =>
    rw [Stays, ← inside_urlFor_iff htable]
    cases hurl : table.urlFor name params <;>
      simp [RedirectResponse.resolve, hurl, bind, Except.bind, pure, Except.pure]
  | back =>
    rw [Stays, ← inside_referer_iff]
    simp [RedirectResponse.resolve, bind, Except.bind, pure, Except.pure]

/-- `/{page}` under the name `page`. -/
def pages : RouteTable := ⟨Map.empty.insert "page".toList "/\x7bpage\x7d".toList⟩

theorem pages_start (name template : Str) (h : pages.names.get? name = some template) :
    template.head? = some '/' := by
  rw [pages, Map.get?_insert] at h
  split_ifs at h
  · rw [← Option.some_inj.mp h]
    rfl
  · simp at h

/-- A redirect to the page `home`. -/
theorem originKept_home :
    OriginKept (fun host => some (host.map Char.toLower)) pages none
      (redirect.route "page".toList ["home".toList]) := by
  refine (originKept_iff _ pages pages_start none _).mpr fun template htemplate _ => ?_
  rw [pages, Map.get?_insert, if_pos rfl] at htemplate
  rw [← Option.some_inj.mp htemplate]
  exact (rfl : Url.isSlash 'h' = false)

/-- A page of the shop. -/
def shop : Url.Base := ⟨true, "shop.example".toList, by decide, none, by decide⟩

/-- From the shop to another host: a backslash in a path, a scheme in upper case in a `Referer`, a
    slash in a parameter. -/
theorem redirects_leave :
    (redirect.toPath "/\\evil.example".toList).resolve pages none =
      .ok ⟨307, "/\\evil.example".toList⟩ ∧
    redirect.back.resolve pages (some "HTTPS://evil.example".toList) =
      .ok ⟨307, "HTTPS://evil.example".toList⟩ ∧
    (redirect.route "page".toList ["/evil.example".toList]).resolve pages none =
      .ok ⟨307, "//evil.example".toList⟩ ∧
    ∀ location ∈ ["/\\evil.example".toList, "HTTPS://evil.example".toList, "//evil.example".toList],
      Url.resolve (fun host => some (host.map Char.toLower)) shop location =
        some ⟨"https".toList, "evil.example".toList, none⟩ := by
  decide +kernel

end Arcature.Http
