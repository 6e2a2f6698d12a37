import Arcature.Inertia.Contracts
import Arcature.Inertia.Selection
import Arcature.Lib.HeaderMap

/-! A page that a handler declared and the layer renders.

    The handler's response carries the declaration; on the way out it is rendered, and the headers of
    the handler are put behind those of the render. Two of them described the body that was replaced
    and stay behind, and so does what the render set itself:

        handler    set-cookie: a    set-cookie: b    cache-control: no-store    content-type: ..
        render     content-type: text/html    vary: X-Inertia
        answer     content-type: text/html    vary: X-Inertia    set-cookie: a    cache-control: no-store

    Whether the render set a name is asked of the answer as it grows, in which the first value of a name
    stands in the way of the second: a name keeps all its values exactly if it has one at most
    (`headers_kept_iff`). -/

namespace Arcature.Inertia
open Arcature.Lib
open Contracts (eqIgnoreAsciiCase)

/-! ### What a render answers -/

/-- A declared page: its component and its props. -/
structure PendingPage where
  component : Str
  props : Json

/-- A response. Its header names are in lower case; `pending` is the extension. -/
structure Response (β γ : Type) where
  status : ℕ
  headers : HeaderMap β
  body : γ
  pending : Option PendingPage := none

/-- `Inertia`: what a page is rendered with. -/
structure Extractor (ρ κ ν η ℓ : Type) where
  request : ρ
  config : κ
  nonce : Option ν
  head : Option η
  locale : Option ℓ

def contentType : Str := "content-type".toList

def contentLength : Str := "content-length".toList

def vary : Str := "vary".toList

def xInertia : Str := "x-inertia".toList

/-- `HeaderValue::to_str`: visible ASCII, blanks and tabs. -/
def headerToStr (value : Str) : Option Str :=
  if value.all fun c => c = '\t' ∨ (' ' ≤ c ∧ c ≤ '~') then some value else none

/-- Put a token behind the others, unless it is there in some case. -/
def pushToken (tokens : List Str) (token : Str) : List Str :=
  if tokens.any (eqIgnoreAsciiCase · token) then tokens else tokens ++ [token]

/-- The tokens of a `Vary` line that can be read. -/
def varyTokens (value : Str) : List Str :=
  match headerToStr value with
  | none => []
  | some value => ((value.splitOn ',').map Str.trim).filter (· ≠ [])

/-- `ensure_vary_x_inertia`. -/
def ensureVaryXInertia (headers : HeaderMap Str) : HeaderMap Str :=
  if headers.getAll vary = [] then headers.insert vary "X-Inertia".toList
  else
    let read := (headers.getAll vary).flatMap varyTokens
    if read.contains ['*'] then headers
    else
      let tokens := pushToken (read.foldl pushToken []) "X-Inertia".toList
      headers.insert vary (", ".toList.intercalate tokens)

/-- `json_response`. -/
def jsonResponse {γ : Type} (pageJson : γ) (status : ℕ) : Response Str γ :=
  let headers : HeaderMap Str := []
  let headers := headers.insert contentType "application/json".toList
  let headers := headers.insert xInertia "true".toList
  { status, headers := ensureVaryXInertia headers, body := pageJson }

/-- `html`, of the document that the page is put into. -/
def html {γ : Type} (document : γ) (status : ℕ) : Response Str γ :=
  let headers : HeaderMap Str := []
  let headers := headers.insert contentType "text/html; charset=utf-8".toList
  { status, headers := ensureVaryXInertia headers, body := document }

section respond

variable {ρ κ ν η ℓ ε γ π : Type}
variable (isInertia : ρ → Bool) (serialize : π → Except ε Str) (body : Str → γ)
variable (document : κ → Str → Option ν → Option η → γ)

/-- `respond`: the page object for a visit of the client, a document around it for the first one. -/
def respond (inertia : Extractor ρ κ ν η ℓ) (page : π) (status : ℕ) : Except ε (Response Str γ) := do
  if isInertia inertia.request then
    let json ← serialize page
    .ok (jsonResponse (body json) status)
  else
    let pageJson ← serialize page
    .ok (html (document inertia.config pageJson inertia.nonce inertia.head) status)

/-- Only `Vary` is added. -/
theorem containsKey_ensureVary {headers : HeaderMap Str} {name : Str}
    (h : (ensureVaryXInertia headers).containsKey name = true) : vary = name ∨ headers.containsKey name = true := by
  rw [ensureVaryXInertia] at h
  split_ifs at h with habsent
  · exact (HeaderMap.containsKey_insert headers vary _ name).mp h
  · dsimp only at h
    split_ifs at h with hstar
    · exact .inr h
    · exact (HeaderMap.containsKey_insert headers vary _ name).mp h

/-- What a response with no headers but these is given, if they are among the three. -/
theorem name_of_ensureVary {headers : HeaderMap Str} {name : Str}
    (hheaders : headers.containsKey name = true → name ∈ [contentType, vary, xInertia])
    (h : (ensureVaryXInertia headers).containsKey name = true) : name ∈ [contentType, vary, xInertia] := by
  rcases containsKey_ensureVary h with rfl | h
  · exact List.mem_cons_of_mem _ List.mem_cons_self
  · exact hheaders h

/-- A render names the type of its body, what it varies by, and that it is a page object. -/
theorem respond_headers {inertia : Extractor ρ κ ν η ℓ} {page : π} {status : ℕ} {rendered : Response Str γ}
    (h : respond isInertia serialize body document inertia page status = .ok rendered) {name : Str}
    (hname : rendered.headers.containsKey name = true) : name ∈ [contentType, vary, xInertia] := by
  rw [respond] at h
  cases hpage : serialize page with
  | error error => split at h <;> simp [hpage, bind, Except.bind] at h
  | ok json =>
    simp only [hpage, bind, Except.bind] at h
    split_ifs at h with hvisit
    · obtain rfl := Except.ok.inj h
      unfold jsonResponse at hname
      dsimp only at hname
      refine name_of_ensureVary (fun h => ?_) hname
      simp only [HeaderMap.containsKey_insert, HeaderMap.containsKey_nil] at h
      simp only [List.mem_cons]
      tauto
    · obtain rfl := Except.ok.inj h
      unfold html at hname
      dsimp only at hname
      refine name_of_ensureVary (fun h => ?_) hname
      simp only [HeaderMap.containsKey_insert, HeaderMap.containsKey_nil] at h
      simp only [List.mem_cons]
      tauto

end respond

/-! ### The headers of the handler -/

section carry

variable {β : Type}

/-- The loop of `render_pending`, one header line of the handler. -/
def carry (rendered : HeaderMap β) : Str × β → HeaderMap β
  | (name, value) =>
    if name = contentType ∨ name = contentLength ∨ rendered.containsKey name then rendered
    else rendered.append name value

/-- A name that describes the body, or that is there already, gets nothing from a line. -/
theorem getAll_carry_of_kept {rendered : HeaderMap β} {name : Str}
    (h : name = contentType ∨ name = contentLength ∨ rendered.getAll name ≠ []) (line : Str × β) :
    (carry rendered line).getAll name = rendered.getAll name := by
  obtain ⟨n, value⟩ := line
  rw [carry]
  split_ifs with hskip
  · rfl
  · rw [HeaderMap.getAll_append]
    have hne : n ≠ name := by
      rintro rfl
      rw [HeaderMap.containsKey_iff] at hskip
      exact hskip h
    rw [if_neg hne, List.append_nil]

/-- A name that is not there gets its value from a line of its own. -/
theorem getAll_carry_of_absent {rendered : HeaderMap β} {name : Str} (htype : name ≠ contentType)
    (hlength : name ≠ contentLength) (habsent : rendered.getAll name = []) (n : Str) (value : β) :
    (carry rendered (n, value)).getAll name = if n = name then [value] else [] := by
  rw [carry]
  split_ifs with hskip hname hname
  · subst hname
    rcases hskip with hskip | hskip | hskip
    · exact absurd hskip htype
    · exact absurd hskip hlength
    · exact absurd habsent (HeaderMap.containsKey_iff.mp hskip)
  · exact habsent
  · rw [HeaderMap.getAll_append, habsent, if_pos hname, List.nil_append]
  · rw [HeaderMap.getAll_append, habsent, if_neg hname, List.nil_append]

/-- What the render set stays as it was, and so do the two headers of its body. -/
theorem getAll_foldl_carry_of_kept {rendered : HeaderMap β} {name : Str}
    (h : name = contentType ∨ name = contentLength ∨ rendered.getAll name ≠ []) (lines : HeaderMap β) :
    (lines.foldl carry rendered).getAll name = rendered.getAll name := by
  induction lines generalizing rendered with
  | nil => rfl
  | cons line lines ih =>
    have hstep := getAll_carry_of_kept h line
    rw [List.foldl_cons, ih (by rwa [hstep]), hstep]

/-- Of the values of any other name the first one is carried over. -/
theorem getAll_foldl_carry {rendered : HeaderMap β} {name : Str} (htype : name ≠ contentType)
    (hlength : name ≠ contentLength) (habsent : rendered.getAll name = []) (lines : HeaderMap β) :
    (lines.foldl carry rendered).getAll name = (lines.getAll name).take 1 := by
  induction lines generalizing rendered with
  | nil => exact habsent
  | cons line lines ih =>
    obtain ⟨n, value⟩ := line
    have hstep := getAll_carry_of_absent htype hlength habsent n value
    rw [List.foldl_cons, HeaderMap.getAll_cons]
    split_ifs at hstep ⊢ with hname
    · -- the first value is there now, and keeps the others out
      rw [getAll_foldl_carry_of_kept (.inr (.inr (by simp [hstep]))), hstep]
      rfl
    · rw [ih hstep, List.nil_append]

end carry

/-! ### The render -/

section renderPending

variable {ρ κ ν η ℓ ε β γ : Type}
variable (render : Extractor ρ κ ν η ℓ → Str → Json → Except ε (Response β γ)) (failed : ε → Response β γ)

/-- `render_pending`; `failed` is the response that a failed render is turned into. -/
def renderPending (resp : Response β γ) (request : ρ) (config : κ) (nonce : Option ν) (locale : Option ℓ) :
    Response β γ :=
  match resp.pending with
  | none => resp
  | some pending =>
    match render { request, config, nonce, head := none, locale } pending.component pending.props with
    | .error error => failed error
    | .ok rendered => { rendered with headers := resp.headers.foldl carry rendered.headers }

variable {render failed} {resp rendered : Response β γ} {page : PendingPage}
variable {request : ρ} {config : κ} {nonce : Option ν} {locale : Option ℓ}

/-- A response without a declared page passes through. -/
theorem renderPending_of_none (h : resp.pending = none) :
    renderPending render failed resp request config nonce locale = resp := by
  rw [renderPending, h]

theorem renderPending_of_ok (hpage : resp.pending = some page)
    (hrender : render { request, config, nonce, head := none, locale } page.component page.props = .ok rendered) :
    renderPending render failed resp request config nonce locale =
      { rendered with headers := resp.headers.foldl carry rendered.headers } := by
  rw [renderPending, hpage]
  dsimp only
  rw [hrender]

/-- The render decides the status, the body and every header that it set itself. -/
theorem renderPending_render (hpage : resp.pending = some page)
    (hrender : render { request, config, nonce, head := none, locale } page.component page.props = .ok rendered) :
    (renderPending render failed resp request config nonce locale).status = rendered.status ∧
      (renderPending render failed resp request config nonce locale).body = rendered.body ∧
      ∀ name, rendered.headers.containsKey name = true →
        (renderPending render failed resp request config nonce locale).headers.getAll name =
          rendered.headers.getAll name := by
  rw [renderPending_of_ok hpage hrender]
  refine ⟨rfl, rfl, fun name hname => ?_⟩
  exact getAll_foldl_carry_of_kept (.inr (.inr (HeaderMap.containsKey_iff.mp hname))) resp.headers

/-- Every header of the handler is kept exactly if none of them has a second value. -/
theorem headers_kept_iff (hpage : resp.pending = some page)
    (hrender : render { request, config, nonce, head := none, locale } page.component page.props = .ok rendered) :
    (∀ name, name ≠ contentType → name ≠ contentLength → rendered.headers.containsKey name = false →
        (renderPending render failed resp request config nonce locale).headers.getAll name =
          resp.headers.getAll name) ↔
      ∀ name, name ≠ contentType → name ≠ contentLength → rendered.headers.containsKey name = false →
        (resp.headers.getAll name).length ≤ 1 := by
  rw [renderPending_of_ok hpage hrender]
  refine forall_congr' fun name => forall_congr' fun htype => forall_congr' fun hlength =>
    forall_congr' fun hown => ?_
  have habsent : rendered.headers.getAll name = [] := by
    by_contra h
    rw [HeaderMap.containsKey_iff.mpr h] at hown
    exact Bool.noConfusion hown
  rw [getAll_foldl_carry htype hlength habsent, List.take_eq_self_iff]

end renderPending

/-- A page rendered for a visit of the client, with no props to look at. -/
def renderHome (_ : Extractor Unit Unit Unit Unit Unit) (component : Str) (_ : Json) :
    Except Unit (Response Str Str) :=
  .ok (jsonResponse component 200)

/-- A declared page, with headers of the handler. -/
def homePage (headers : HeaderMap Str) : Response Str Str :=
  { status := 500, headers, body := [], pending := some ⟨"Home".toList, .null⟩ }

/-- A flash cookie and a cache rule. -/
def flashHeaders : HeaderMap Str :=
  [("set-cookie".toList, "flash=1".toList), ("cache-control".toList, "no-store".toList)]

theorem getAll_flashHeaders_le (name : Str) : (HeaderMap.getAll flashHeaders name).length ≤ 1 := by
  by_cases hcookie : "set-cookie".toList = name
  · subst hcookie
    decide
  · simp only [flashHeaders, HeaderMap.getAll_cons, HeaderMap.getAll_nil, if_neg hcookie, List.nil_append]
    split_ifs <;> simp

theorem flash_kept :
    (renderPending renderHome (fun _ => homePage []) (homePage flashHeaders) () () none none).headers.getAll
      "set-cookie".toList = ["flash=1".toList] :=
  (headers_kept_iff rfl rfl).mpr (fun name _ _ _ => getAll_flashHeaders_le name) _ (by decide) (by decide)
    (by decide)

/-- Of two cookies the second is lost. -/
theorem second_cookie_lost :
    ¬ ∀ (headers : HeaderMap Str) (name : Str), name ≠ contentType → name ≠ contentLength →
      (jsonResponse "Home".toList 200).headers.containsKey name = false →
        (renderPending renderHome (fun _ => homePage []) (homePage headers) () () none none).headers.getAll
          name = headers.getAll name := by
  intro h
  have hlost := h [("set-cookie".toList, "session=1".toList), ("set-cookie".toList, "flash=2".toList)]
    "set-cookie".toList (by decide) (by decide) (by decide)
  exact absurd hlost (by decide)

end Arcature.Inertia
