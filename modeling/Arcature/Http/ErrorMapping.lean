import Arcature.Http.Vary

/-! Error responses on their way out.

    An error that the application did not dress is given a problem document, and one that spells an
    internal error out is replaced by one (`http/error_mapping.rs`). The headers of the original are
    carried over, by one loop for a document and by another for what a mapper of the application made:

        original      401   www-authenticate: Basic    www-authenticate: Bearer    content-type: text/plain
        document      401   www-authenticate: Basic    www-authenticate: Bearer    content-type: application/problem+json
        mapper's      401   www-authenticate: Basic                                content-type: text/html

    The second loop asks whether a name is there of a response that grows, and loses every value but the
    first (`keeps_headers_iff`). Whether a body is replaced is decided by how the first bytes of its type
    are spelled, and not by what the type is (`redacts_iff`). -/

namespace Arcature.Http
open Arcature.Lib Arcature.Inertia
open Inertia.Contracts (eqIgnoreAsciiCase)

/-! ### Problems -/

/-- `ProblemKind`. -/
inductive ProblemKind where
  | validation | authentication | authorization | notFound | conflict | rateLimit | internal | malformedJson
  | unsupportedMediaType | payloadTooLarge | badRequest | timeout | methodNotAllowed | unavailable
  deriving DecidableEq

namespace ProblemKind

/-- `ProblemKind::status`. -/
def status : ProblemKind → ℕ
  | validation => 422
  | authentication => 401
  | authorization => 403
  | notFound => 404
  | conflict => 409
  | rateLimit => 429
  | internal => 500
  | malformedJson => 400
  | unsupportedMediaType => 415
  | payloadTooLarge => 413
  | badRequest => 400
  | timeout => 408
  | methodNotAllowed => 405
  | unavailable => 503

/-- `ProblemKind::title`. -/
def title : ProblemKind → Str
  | validation => "Validation failed".toList
  | authentication => "Authentication required".toList
  | authorization => "Access denied".toList
  | notFound => "Resource not found".toList
  | conflict => "Request conflicts with current state".toList
  | rateLimit => "Rate limit exceeded".toList
  | internal => "Internal server error".toList
  | malformedJson => "Malformed JSON request body".toList
  | unsupportedMediaType => "Unsupported media type".toList
  | payloadTooLarge => "Request body too large".toList
  | badRequest => "Bad request".toList
  | timeout => "Request timed out".toList
  | methodNotAllowed => "Method not allowed".toList
  | unavailable => "Service unavailable".toList

/-- `ProblemKind::type_uri`. -/
def typeUri : ProblemKind → Str
  | validation => "urn:arcature:problem:validation".toList
  | authentication => "urn:arcature:problem:authentication".toList
  | authorization => "urn:arcature:problem:authorization".toList
  | notFound => "urn:arcature:problem:not-found".toList
  | conflict => "urn:arcature:problem:conflict".toList
  | rateLimit => "urn:arcature:problem:rate-limit".toList
  | internal => "urn:arcature:problem:internal".toList
  | malformedJson => "urn:arcature:problem:malformed-json".toList
  | unsupportedMediaType => "urn:arcature:problem:unsupported-media-type".toList
  | payloadTooLarge => "urn:arcature:problem:payload-too-large".toList
  | badRequest => "urn:arcature:problem:bad-request".toList
  | timeout => "urn:arcature:problem:timeout".toList
  | methodNotAllowed => "urn:arcature:problem:method-not-allowed".toList
  | unavailable => "urn:arcature:problem:unavailable".toList

/-- `ProblemKind::for_status`. -/
def forStatus : ℕ → Option ProblemKind
  | 400 => some badRequest
  | 401 => some authentication
  | 403 => some authorization
  | 404 => some notFound
  | 405 => some methodNotAllowed
  | 408 => some timeout
  | 409 => some conflict
  | 413 => some payloadTooLarge
  | 415 => some unsupportedMediaType
  | 422 => some validation
  | 429 => some rateLimit
  | 500 => some internal
  | 503 => some unavailable
  | _ => none

/-- A kind that is chosen for a status has that status. -/
theorem status_of_forStatus {s : ℕ} {kind : ProblemKind} (h : forStatus s = some kind) : kind.status = s := by
  unfold forStatus at h
  split at h
  all_goals first | (cases h; rfl) | cases h

end ProblemKind

/-- `CustomParts`. -/
structure CustomParts where
  typeUri : Str
  title : Str
  status : ℕ

/-- `Problem`, without the members that only an application adds. -/
structure Problem where
  kind : ProblemKind
  custom : Option CustomParts

namespace Problem

/-- `Problem::status`. -/
def status (problem : Problem) : ℕ := (problem.custom.map CustomParts.status).getD problem.kind.status

/-- `Problem::type_uri`. -/
def typeUri (problem : Problem) : Str := (problem.custom.map CustomParts.typeUri).getD problem.kind.typeUri

/-- `Problem::title`. -/
def title (problem : Problem) : Str := (problem.custom.map CustomParts.title).getD problem.kind.title

/-- `serialize_problem`. -/
def toJson (problem : Problem) : Json :=
  .objectOf [("type".toList, .string problem.typeUri), ("title".toList, .string problem.title),
    ("status".toList, .number (.posInt (UInt64.ofNat problem.status)))]

end Problem

/-! ### The mapping -/

/-- A response; its header names are in lower case. -/
structure ErrorResponse (ε : Type) where
  status : ℕ
  headers : HeaderMap Str
  body : Bytes
  extensions : ε

section Mapping

variable {ε : Type}

/-- `ErrorMapping`. A mapper makes a response of a status and the headers of the request, or declines. -/
structure ErrorMapping (ε : Type) where
  mapper : Option (ℕ → HeaderMap Str → Option (ErrorResponse ε))
  redact : Bool

def isClientError (status : ℕ) : Bool := 400 ≤ status ∧ status < 500

def isServerError (status : ℕ) : Bool := 500 ≤ status ∧ status < 600

/-- `LAYER_AUTHORED`. -/
def layerAuthored : List ℕ := [405, 408, 413]

/-- `PROBLEM_JSON`. -/
def problemJson : Str := "application/problem+json".toList

/-- `carry_headers`; the loop is that of a page that is rendered. -/
def carryHeaders (original replacement : ErrorResponse ε) : ErrorResponse ε :=
  { replacement with headers := original.headers.foldl carry replacement.headers }

/-- The loop of `rebuild`, one header line of the original. -/
def keepLine (headers : HeaderMap Str) : Str × Str → HeaderMap Str
  | (name, value) => if name = contentType ∨ name = contentLength then headers else headers.append name value

variable (canonicalReason : ℕ → Option Str) (toVec : Json → Bytes)

/-- `Problem::custom`. -/
def Problem.ofStatus (typeUri : Str) (status : ℕ) : Problem :=
  ⟨.internal, some ⟨typeUri, (canonicalReason status).getD "Request error".toList, status⟩⟩

/-- `problem_for`. -/
def problemFor (status : ℕ) : Problem :=
  match ProblemKind.forStatus status with
  | some kind => ⟨kind, none⟩
  | none => .ofStatus canonicalReason "about:blank".toList status

/-- `Problem::into_response`. The type that `(status, body)` has is overwritten. -/
def Problem.intoResponse (problem : Problem) (extensions : ε) : ErrorResponse ε :=
  let body := toVec problem.toJson
  let headers := HeaderMap.insert [] contentType "application/octet-stream".toList
  let headers := headers.insert contentType problemJson
  let headers := headers.insert contentLength (Nat.toDigits 10 body.length)
  { status := problem.status, headers, body, extensions }

/-- `rebuild`. -/
def rebuild (response : ErrorResponse ε) (problem : Problem) : ErrorResponse ε :=
  let replacement := problem.intoResponse toVec response.extensions
  { replacement with headers := response.headers.foldl keepLine replacement.headers }

/-- The type of a response, if it can be read. -/
def typeOf (headers : HeaderMap Str) : Option Str := (headers.getAll contentType).head?.bind headerToStr

/-- `ErrorMapping::map`. -/
def ErrorMapping.map (mapping : ErrorMapping ε) (requestHeaders : HeaderMap Str) (response : ErrorResponse ε) :
    ErrorResponse ε :=
  let status := response.status
  if ¬ (isClientError status ∨ isServerError status) then response
  else
    match mapping.mapper.bind fun mapper => mapper status requestHeaders with
    | some replacement => carryHeaders response replacement
    | none =>
      match typeOf response.headers with
      | some type =>
        if "text/plain".toList.isPrefixOf type ∧ status ∈ layerAuthored then
          rebuild toVec response (problemFor canonicalReason status)
        else if mapping.redact ∧ isServerError status ∧ "text/plain".toList.isPrefixOf type then
          rebuild toVec response (problemFor canonicalReason status)
        else response
      | none => rebuild toVec response (problemFor canonicalReason status)

/-! ### Headers that are kept -/

/-- The headers of a mapped response: where a mapper replaced it, what the replacement defines stays as
    it is there; every other name has the values of the original, but for the two that describe the body.
    A response that no mapper replaced keeps its status, and one that is no error is not touched. -/
structure KeepsHeaders (mapping : ErrorMapping ε) (requestHeaders : HeaderMap Str) (response : ErrorResponse ε) :
    Prop where
  own : ∀ replacement, (mapping.mapper.bind fun mapper => mapper response.status requestHeaders) = some replacement →
    isClientError response.status ∨ isServerError response.status →
    ∀ name, replacement.headers.containsKey name = true →
      (mapping.map canonicalReason toVec requestHeaders response).headers.getAll name = replacement.headers.getAll name
  kept : ∀ name, name ≠ contentType → name ≠ contentLength →
    (∀ replacement, (mapping.mapper.bind fun mapper => mapper response.status requestHeaders) = some replacement →
      replacement.headers.containsKey name = false) →
    (mapping.map canonicalReason toVec requestHeaders response).headers.getAll name = response.headers.getAll name
  status_eq : (mapping.mapper.bind fun mapper => mapper response.status requestHeaders) = none →
    (mapping.map canonicalReason toVec requestHeaders response).status = response.status
  untouched : ¬ (isClientError response.status ∨ isServerError response.status) →
    mapping.map canonicalReason toVec requestHeaders response = response

variable {canonicalReason toVec} {mapping : ErrorMapping ε} {requestHeaders : HeaderMap Str}
  {response response' : ErrorResponse ε}

/-- The loop of `rebuild` puts the values of a name behind those that are there. -/
theorem getAll_foldl_keepLine (lines headers : HeaderMap Str) (name : Str) :
    (lines.foldl keepLine headers).getAll name = headers.getAll name ++
      if name = contentType ∨ name = contentLength then [] else lines.getAll name := by
  induction lines generalizing headers with
  | nil => simp
  | cons line lines ih =>
    obtain ⟨n, value⟩ := line
    rw [List.foldl_cons, ih, keepLine, HeaderMap.getAll_cons]
    by_cases hn : n = contentType ∨ n = contentLength
    · rw [if_pos hn]
      by_cases hname : name = contentType ∨ name = contentLength
      · rw [if_pos hname, if_pos hname]
      · have hne : n ≠ name := by
          rintro rfl
          exact hname hn
        rw [if_neg hname, if_neg hname, if_neg hne, List.nil_append]
    · rw [if_neg hn, HeaderMap.getAll_append]
      by_cases hname : name = contentType ∨ name = contentLength
      · have hne : n ≠ name := by
          rintro rfl
          exact hn hname
        rw [if_pos hname, if_pos hname, if_neg hne, List.append_nil]
      · rw [if_neg hname, if_neg hname, List.append_assoc]

theorem status_problemFor (status : ℕ) : (problemFor canonicalReason status).status = status := by
  unfold problemFor
  split
  · rename_i kind h
    exact ProblemKind.status_of_forStatus h
  · rfl

/-- A problem document has the two headers of its body. -/
theorem getAll_intoResponse (problem : Problem) (extensions : ε) (name : Str) :
    (problem.intoResponse toVec extensions).headers.getAll name =
      if name = contentLength then [Nat.toDigits 10 (toVec problem.toJson).length]
      else if name = contentType then [problemJson] else [] := by
  simp only [Problem.intoResponse, HeaderMap.getAll_insert, HeaderMap.getAll_nil, eq_comm (b := name)]
  split_ifs <;> rfl

theorem getAll_rebuild (problem : Problem) (name : Str) :
    (rebuild toVec response problem).headers.getAll name =
      if name = contentLength then [Nat.toDigits 10 (toVec problem.toJson).length]
      else if name = contentType then [problemJson] else response.headers.getAll name := by
  rw [rebuild, getAll_foldl_keepLine, getAll_intoResponse]
  split_ifs <;> simp_all

/-- What a mapping does: an error that no mapper replaces is rebuilt or passed through. -/
theorem map_cases (mapping : ErrorMapping ε) (requestHeaders : HeaderMap Str) (response : ErrorResponse ε) :
    (mapping.map canonicalReason toVec requestHeaders response = response ∧
      (isClientError response.status ∨ isServerError response.status →
        (mapping.mapper.bind fun mapper => mapper response.status requestHeaders) = none)) ∨
    (mapping.map canonicalReason toVec requestHeaders response =
        rebuild toVec response (problemFor canonicalReason response.status) ∧
      (mapping.mapper.bind fun mapper => mapper response.status requestHeaders) = none) ∨
    ∃ replacement, (isClientError response.status ∨ isServerError response.status) ∧
      (mapping.mapper.bind fun mapper => mapper response.status requestHeaders) = some replacement ∧
      mapping.map canonicalReason toVec requestHeaders response = carryHeaders response replacement := by
  unfold ErrorMapping.map
  by_cases herror : isClientError response.status ∨ isServerError response.status
  · simp only [herror, not_true_eq_false, if_false, true_imp_iff, true_and]
    cases hmapper : mapping.mapper.bind fun mapper => mapper response.status requestHeaders with
    | some replacement => exact Or.inr (Or.inr ⟨replacement, rfl, rfl⟩)
    | none =>
      simp only
      cases typeOf response.headers with
      | none => exact Or.inr (Or.inl ⟨rfl, trivial⟩)
      | some type =>
        simp only
        split_ifs
        · exact Or.inr (Or.inl ⟨rfl, trivial⟩)
        · exact Or.inr (Or.inl ⟨rfl, trivial⟩)
        · exact Or.inl ⟨rfl, trivial⟩
  · exact Or.inl ⟨by simp [herror], fun h => absurd h herror⟩

theorem getAll_eq_nil {headers : HeaderMap Str} {name : Str} (h : headers.containsKey name = false) :
    headers.getAll name = [] := by
  by_contra hne
  rw [HeaderMap.containsKey_iff.mpr hne] at h
  cases h

/-- The headers are kept exactly if no mapper replaces the response, or no name that the replacement does
    not define has a second value. -/
theorem keeps_headers_iff : KeepsHeaders canonicalReason toVec mapping requestHeaders response ↔
    ∀ replacement, isClientError response.status ∨ isServerError response.status →
      (mapping.mapper.bind fun mapper => mapper response.status requestHeaders) = some replacement →
      ∀ name, name ≠ contentType → name ≠ contentLength → replacement.headers.containsKey name = false →
        (response.headers.getAll name).length ≤ 1 := by
  constructor
  · intro h replacement herror hmapper name htype hlength hown
    have hkept := h.kept name htype hlength fun other hother => by
      rw [hmapper, Option.some_inj] at hother
      rwa [← hother]
    rcases @map_cases ε canonicalReason toVec mapping requestHeaders response with ⟨-, hnone⟩ | ⟨-, hnone⟩ |
      ⟨other, -, hother, hmap⟩
    · rw [hnone herror] at hmapper
      cases hmapper
    · rw [hnone] at hmapper
      cases hmapper
    · rw [hmapper, Option.some_inj] at hother
      subst hother
      rw [hmap, carryHeaders, getAll_foldl_carry htype hlength (getAll_eq_nil hown), List.take_eq_self_iff] at hkept
      exact hkept
  · intro h
    rcases @map_cases ε canonicalReason toVec mapping requestHeaders response with ⟨hmap, hnone⟩ | ⟨hmap, hnone⟩ |
      ⟨replacement, herror, hmapper, hmap⟩
    · refine ⟨fun replacement hmapper herror => ?_, ?_, ?_, ?_⟩
      · rw [hnone herror] at hmapper
        cases hmapper
      · rw [hmap]
        exact fun _ _ _ _ => rfl
      · rw [hmap]
        exact fun _ => rfl
      · exact fun _ => hmap
    · refine ⟨fun replacement hmapper => ?_, fun name htype hlength _ => ?_, fun _ => ?_, fun hstatus => ?_⟩
      · rw [hnone] at hmapper
        cases hmapper
      · rw [hmap, getAll_rebuild, if_neg hlength, if_neg htype]
      · rw [hmap]
        exact status_problemFor _
      · rw [ErrorMapping.map, if_pos hstatus]
    · refine ⟨fun other hother _ name hname => ?_, fun name htype hlength hown => ?_, fun hnone => ?_,
        fun hstatus => absurd herror hstatus⟩
      · rw [hmapper, Option.some_inj] at hother
        subst hother
        rw [hmap, carryHeaders]
        exact getAll_foldl_carry_of_kept (.inr (.inr (HeaderMap.containsKey_iff.mp hname))) _
      · have habsent := hown replacement hmapper
        rw [hmap, carryHeaders, getAll_foldl_carry htype hlength (getAll_eq_nil habsent), List.take_eq_self_iff]
        exact h replacement herror hmapper name htype hlength habsent
      · rw [hmapper] at hnone
        cases hnone

end Mapping

/-- A page for every status. -/
def pageMapper : ErrorMapping Unit where
  mapper := some fun status _ => some ⟨status, [(contentType, "text/html".toList)], Str.bytes "<h1>gone</h1>".toList, ()⟩
  redact := true

/-- Two challenges, and no body. -/
def challenged : ErrorResponse Unit where
  status := 401
  headers := [("www-authenticate".toList, "Basic".toList), ("www-authenticate".toList, "Bearer".toList)]
  body := []
  extensions := ()

/-- The second challenge is lost. -/
theorem second_challenge_lost :
    (pageMapper.map (fun _ => none) (fun _ => []) [] challenged).headers.getAll "www-authenticate".toList =
      ["Basic".toList] ∧
    ¬ KeepsHeaders (fun _ => none) (fun _ => []) pageMapper [] challenged := by
  have hlost : (pageMapper.map (fun _ => none) (fun _ => []) [] challenged).headers.getAll "www-authenticate".toList =
      ["Basic".toList] := by decide +kernel
  refine ⟨hlost, fun h => ?_⟩
  have hkept := h.kept "www-authenticate".toList (by decide) (by decide) fun replacement hmapper => by
    cases hmapper
    decide
  rw [hlost] at hkept
  exact absurd hkept (by decide)

/-! ### Bodies that are replaced -/

section Redaction

variable {ε : Type} (canonicalReason : ℕ → Option Str) (toVec : Json → Bytes)

/-- The media type of a header value is `text/plain`, in any case and whatever its parameters are. -/
def IsPlain (value : Str) : Prop :=
  (trimOws (value.takeWhile (· ≠ ';'))).map Char.toLower = "text/plain".toList

instance (value : Str) : Decidable (IsPlain value) := inferInstanceAs (Decidable (_ = _))

/-- Two responses that differ only in their bodies and the length of them. -/
structure BodyApart (response response' : ErrorResponse ε) : Prop where
  status_eq : response.status = response'.status
  headers_eq : ∀ name, name ≠ contentLength → response.headers.getAll name = response'.headers.getAll name
  extensions_eq : response.extensions = response'.extensions
  body_ne : response.body ≠ response'.body

/-- The same response. The order of lines of different names is none. -/
structure SameResponse (response response' : ErrorResponse ε) : Prop where
  status_eq : response.status = response'.status
  headers_eq : ∀ name, response.headers.getAll name = response'.headers.getAll name
  body_eq : response.body = response'.body
  extensions_eq : response.extensions = response'.extensions

/-- Where the type of the body is missing or `text/plain`, nothing of the body is left; and every other
    response is passed through. -/
structure Redacts (mapping : ErrorMapping ε) (requestHeaders : HeaderMap Str) (response response' : ErrorResponse ε) :
    Prop where
  hidden : (∀ value ∈ (response.headers.getAll contentType).head?, IsPlain value) →
    SameResponse (mapping.map canonicalReason toVec requestHeaders response)
      (mapping.map canonicalReason toVec requestHeaders response')
  untouched : ¬ (∀ value ∈ (response.headers.getAll contentType).head?, IsPlain value) →
    ∀ r ∈ [response, response'], mapping.map canonicalReason toVec requestHeaders r = r

variable {canonicalReason toVec} {mapping : ErrorMapping ε} {requestHeaders : HeaderMap Str}
  {response response' : ErrorResponse ε}

/-- The test that is made of a type: it cannot be read, or it starts with these letters. -/
def Spelled (value : Str) : Prop := ¬ Readable value ∨ "text/plain".toList <+: value

theorem map_serverError (hmapper : mapping.mapper = none) (hredact : mapping.redact = true)
    (hstatus : isServerError response.status = true) :
    mapping.map canonicalReason toVec requestHeaders response =
      match typeOf response.headers with
      | some type =>
        if "text/plain".toList.isPrefixOf type then rebuild toVec response (problemFor canonicalReason response.status)
        else response
      | none => rebuild toVec response (problemFor canonicalReason response.status) := by
  unfold ErrorMapping.map
  simp only [hmapper, hredact, hstatus, or_true, not_true_eq_false, if_false, Option.bind_none, true_and]
  cases typeOf response.headers with
  | none => rfl
  | some type =>
    simp only
    generalize "text/plain".toList.isPrefixOf type = plain
    cases plain with
    | false => simp only [Bool.false_eq_true, false_and, if_false]
    | true => simp only [true_and, if_true, ite_self]

/-- An error of the server whose type is missing or spelled so is rebuilt. -/
theorem map_spelled (hmapper : mapping.mapper = none) (hredact : mapping.redact = true)
    (hstatus : isServerError response.status = true)
    (h : ∀ value ∈ (response.headers.getAll contentType).head?, Spelled value) :
    mapping.map canonicalReason toVec requestHeaders response =
      rebuild toVec response (problemFor canonicalReason response.status) := by
  rw [map_serverError hmapper hredact hstatus, typeOf]
  cases hvalue : (response.headers.getAll contentType).head? with
  | none => rfl
  | some value =>
    rcases h value hvalue with hunreadable | hprefix
    · rw [Option.bind_some, headerToStr_of_not_readable hunreadable]
    · rw [Option.bind_some]
      by_cases hreadable : Readable value
      · rw [headerToStr_of_readable hreadable]
        exact if_pos (List.isPrefixOf_iff_prefix.mpr hprefix)
      · rw [headerToStr_of_not_readable hreadable]

/-- Any other is passed through. -/
theorem map_unspelled (hmapper : mapping.mapper = none) (hredact : mapping.redact = true)
    (hstatus : isServerError response.status = true) {value : Str}
    (hvalue : (response.headers.getAll contentType).head? = some value) (h : ¬ Spelled value) :
    mapping.map canonicalReason toVec requestHeaders response = response := by
  rw [Spelled, not_or, not_not] at h
  rw [map_serverError hmapper hredact hstatus, typeOf, hvalue, Option.bind_some, headerToStr_of_readable h.1]
  exact if_neg fun hprefix => h.2 (List.isPrefixOf_iff_prefix.mp hprefix)

/-- A rebuilt response has nothing of the body of the original. -/
theorem sameResponse_rebuild (h : BodyApart response response') (problem : Problem) :
    SameResponse (rebuild toVec response problem) (rebuild toVec response' problem) := by
  refine ⟨rfl, fun name => ?_, rfl, h.extensions_eq⟩
  rw [getAll_rebuild, getAll_rebuild]
  split_ifs with hlength
  · rfl
  · rfl
  · exact h.headers_eq name hlength

/-- And another type. -/
theorem rebuild_ne {problem : Problem} (h : ∀ value ∈ (response.headers.getAll contentType).head?, Spelled value) :
    rebuild toVec response problem ≠ response := by
  intro heq
  have htype := congrArg (fun r => (r.headers.getAll contentType).head?) heq
  have hapart : ¬ contentType = contentLength := by decide
  simp only [getAll_rebuild, if_neg hapart, if_true, List.head?_cons] at htype
  have hjson : ¬ Spelled problemJson := by
    rw [Spelled, not_or, not_not]
    exact ⟨by decide, by decide⟩
  exact hjson (h problemJson htype.symm)

/-- Redaction does what it is for exactly where the type is missing, or is `text/plain` if and only if it
    cannot be read or starts with these letters in lower case. -/
theorem redacts_iff (hmapper : mapping.mapper = none) (hredact : mapping.redact = true)
    (hstatus : isServerError response.status = true) (h : BodyApart response response') :
    Redacts canonicalReason toVec mapping requestHeaders response response' ↔
      ∀ value ∈ (response.headers.getAll contentType).head?,
        (IsPlain value ↔ ¬ Readable value ∨ "text/plain".toList <+: value) := by
  have hstatus' : isServerError response'.status = true := h.status_eq ▸ hstatus
  have hvalues := congrArg List.head? (h.headers_eq contentType (by decide))
  constructor
  · intro hredacts value hvalue
    constructor
    · intro hplain
      by_contra hspelled
      have hhidden := hredacts.hidden fun other hother => by
        rw [Option.mem_def.mp hvalue, Option.mem_some_iff] at hother
        rwa [← hother]
      have hbody := hhidden.body_eq
      rw [map_unspelled hmapper hredact hstatus hvalue hspelled,
        map_unspelled hmapper hredact hstatus' (hvalues ▸ hvalue) hspelled] at hbody
      exact h.body_ne hbody
    · intro hspelled
      by_contra hplain
      have hall : ∀ other ∈ (response.headers.getAll contentType).head?, Spelled other := fun other hother => by
        rw [Option.mem_def.mp hvalue, Option.mem_some_iff] at hother
        rwa [← hother]
      have hsame := hredacts.untouched (fun hall => hplain (hall value hvalue)) response (by simp)
      rw [map_spelled hmapper hredact hstatus hall] at hsame
      exact rebuild_ne hall hsame
  · intro hspelling
    refine ⟨fun hplain => ?_, fun hother r hr => ?_⟩
    · have hall : ∀ value ∈ (response.headers.getAll contentType).head?, Spelled value := fun value hvalue =>
        (hspelling value hvalue).mp (hplain value hvalue)
      rw [map_spelled hmapper hredact hstatus hall, map_spelled hmapper hredact hstatus' (hvalues ▸ hall),
        ← h.status_eq]
      exact sameResponse_rebuild h _
    · simp only [not_forall] at hother
      obtain ⟨value, hvalue, hplain⟩ := hother
      have hspelled : ¬ Spelled value := fun hspelled => hplain ((hspelling value hvalue).mpr hspelled)
      rcases List.mem_pair.mp hr with rfl | rfl
      · exact map_unspelled hmapper hredact hstatus hvalue hspelled
      · exact map_unspelled hmapper hredact hstatus' (hvalues ▸ hvalue) hspelled

end Redaction

/-- An error of the server with a type and a body. -/
def failure500 (type body : Str) : ErrorResponse Unit :=
  { status := 500, headers := [(contentType, type)], body := Str.bytes body, extensions := () }

/-- No mapper, and redaction on. -/
def redacting : ErrorMapping Unit := { mapper := none, redact := true }

theorem bodyApart_failure500 (type : Str) : BodyApart (failure500 type "pw=a".toList) (failure500 type "pw=b".toList) :=
  -- each side is computed by itself: `rfl` would first compare the bodies, character by character
  ⟨show 500 = 500 from rfl, fun name _ => show HeaderMap.getAll [(contentType, type)] name = _ from rfl,
    show () = () from rfl, show Str.bytes "pw=a".toList ≠ Str.bytes "pw=b".toList by decide +kernel⟩

/-- A stringified error of the type that the framework itself writes is hidden. -/
theorem redacts_plain :
    Redacts (fun _ => none) (fun _ => []) redacting [] (failure500 "text/plain; charset=utf-8".toList "pw=a".toList)
      (failure500 "text/plain; charset=utf-8".toList "pw=b".toList) := by
  refine (redacts_iff rfl rfl rfl (bodyApart_failure500 _)).mpr fun value hvalue => ?_
  cases hvalue
  decide +kernel

/-- With a capital it is not. -/
theorem capital_leaks :
    ¬ Redacts (fun _ => none) (fun _ => []) redacting [] (failure500 "Text/Plain".toList "pw=a".toList)
      (failure500 "Text/Plain".toList "pw=b".toList) := by
  intro h
  have hbody := (h.hidden fun value hvalue => by
    cases hvalue
    decide +kernel).body_eq
  exact absurd hbody (by decide +kernel)

end Arcature.Http
