import Arcature.Lib.Percent
import Arcature.Routing.Rendering

/-! The client's URLs of named routes.

    The generated `routes.ts` holds the templates of the named routes and a function `route`, which
    replaces what stands in braces by the value of that name (`HELPER` in `uag/codegen/routes_ts.rs`):

        template  /files/{owner}/{*path}     owner  ann, path  a/b c     URL  /files/ann/a/b%20c

    A value is percent-encoded, the value of a wildcard segment by segment. Such a URL always leads
    back: split at its slashes and decoded, it is the template with the values in the places of its
    captures (`addresses_encoded`). The server writes the values as they are. Its URL is the client's
    exactly when there is nothing to encode (`urlFor_eq_route_iff`). -/

namespace Arcature.Uag
open Arcature.Lib Arcature.Routing

/-- `path_params`: what stands in braces, without the mark of a wildcard. -/
def pathParams (path : Str) : List Str :=
  match _hopen : Str.splitOnce '{' path with
  | none => []
  | some (_, after) =>
    match _hclose : Str.splitOnce '}' after with
    | none => []
    | some (token, rest) =>
      let name := token.dropWhile (· = '*')
      if name = [] then pathParams rest else name :: pathParams rest
termination_by path.length
decreasing_by all_goals
  obtain ⟨rfl, -⟩ := Str.splitOnce_eq_some.mp _hopen
  obtain ⟨rfl, -⟩ := Str.splitOnce_eq_some.mp _hclose
  simp
  omega

/-! ### The function `route` -/

/-- What `route` throws: its own error, or the one of reading a property of `undefined`. -/
inductive Thrown where
  | error (message : Str)
  | typeError
  deriving DecidableEq

/-- An entry of the table `routes`. -/
structure TsRoute where
  method : Str
  path : Str
  params : List Str
  deriving DecidableEq

/-- The bytes `encodeURIComponent` leaves alone: letters, digits and `-_.!~*'()`. -/
def uriUnescaped (b : UInt8) : Bool :=
  isUnreserved b || b == 0x21 || b == 0x2a || b == 0x27 || b == 0x28 || b == 0x29

/-- `encodeURIComponent`. -/
def encodeURIComponent (s : Str) : Str := percentEncodeExcept uriUnescaped s.bytes

/-- `replace` with the pattern `\{([^}]+)\}` everywhere: the text of the braces is given to `f`. -/
def replaceBraces (f : Str → Except Thrown Str) : Str → Except Thrown Str
  | [] => .ok []
  | c :: s =>
    let token := s.takeWhile (· ≠ '}')
    if c = '{' ∧ token ≠ [] ∧ token.length < s.length then do
      return (← f token) ++ (← replaceBraces f (s.drop (token.length + 1)))
    else do return c :: (← replaceBraces f s)
termination_by s => s.length
decreasing_by all_goals
  simp only [List.length_drop, List.length_cons]
  omega

/-- What `route` writes for a capture. -/
def substitute (name : Str) (params : Option (Map Str Str)) (token : Str) : Except Thrown Str :=
  let wildcard := token.head? = some '*'
  let key := if wildcard then token.tail else token
  match params.bind fun record => record.get? key with
  | none =>
    .error (.error ("route(".toList ++ name ++ "): missing parameter \"".toList ++ key ++ "\"".toList))
  | some value =>
    .ok (if wildcard then ['/'].intercalate ((value.splitOn '/').map encodeURIComponent)
      else encodeURIComponent value)

/-- `route`. -/
def route (routes : Map Str TsRoute) (name : Str) (params : Option (Map Str Str)) : Except Thrown Str :=
  match routes.get? name with
  | some entry => replaceBraces (substitute name params) entry.path
  | none => .error .typeError

/-! ### Both on a template -/

theorem pathParams_eq (path : Str) :
    pathParams path =
      match Str.splitOnce '{' path with
      | none => []
      | some (_, after) =>
        match Str.splitOnce '}' after with
        | none => []
        | some (token, rest) =>
          if token.dropWhile (· = '*') = [] then pathParams rest
          else token.dropWhile (· = '*') :: pathParams rest := by
  rw [pathParams]
  split <;> rename_i hopen
  · simp [hopen]
  · rw [hopen]
    split <;> rename_i hclose
    · simp [hclose]
    · simp [hclose]

theorem pathParams_cons {c : Char} (hc : c ≠ '{') (rest : Str) : pathParams (c :: rest) = pathParams rest := by
  rw [pathParams_eq, pathParams_eq rest, Str.splitOnce, if_neg hc]
  cases Str.splitOnce '{' rest <;> rfl

theorem pathParams_literal {text : Str} (h : '{' ∉ text) (rest : Str) :
    pathParams (text ++ rest) = pathParams rest := by
  induction text with
  | nil => rfl
  | cons c text ih =>
    rw [List.mem_cons, not_or] at h
    rw [List.cons_append, pathParams_cons (Ne.symm h.1), ih h.2]

theorem pathParams_braces {token name : Str} (hclose : '}' ∉ token)
    (hname : token.dropWhile (· = '*') = name) (hne : name ≠ []) (rest : Str) :
    pathParams ('{' :: (token ++ '}' :: rest)) = name :: pathParams rest := by
  rw [pathParams_eq, ← List.nil_append ('{' :: _), Str.splitOnce_append (by simp)]
  simp only [Str.splitOnce_append hclose, hname, if_neg hne]

theorem dropWhile_name {name : Str} (h : Segment.IsName name) : name.dropWhile (· = '*') = name := by
  obtain ⟨hne, -, -, hstar⟩ := h
  obtain ⟨c, name, rfl⟩ := List.exists_cons_of_ne_nil hne
  rw [List.head?_cons, ne_eq, Option.some_inj] at hstar
  simp [hstar]

theorem pathParams_text {s : Segment} (h : s.WellFormed) (rest : Str) :
    pathParams (s.text ++ rest) = s.name?.toList ++ pathParams rest := by
  cases s with
  | literal text => exact pathParams_literal h.1 rest
  | capture name =>
    have h : Segment.IsName name := h
    rw [Segment.text, List.cons_append, List.append_assoc]
    exact pathParams_braces h.2.1 (dropWhile_name h) h.1 rest
  | wildcard name =>
    have h : Segment.IsName name := h
    have hstar : ('*' :: name).dropWhile (· = '*') = name := by
      rw [List.dropWhile_cons_of_pos (by simp), dropWhile_name h]
    rw [Segment.text, List.cons_append, List.cons_append, List.append_assoc, ← List.cons_append]
    exact pathParams_braces (by simpa using h.2.1) hstar h.1 rest

theorem pathParams_intercalate {segments : List Segment} (h : ∀ s ∈ segments, s.WellFormed) :
    pathParams (['/'].intercalate (segments.map Segment.text)) = segments.filterMap Segment.name? := by
  induction segments with
  | nil =>
    rw [List.map_nil, List.intercalate_nil, pathParams_eq]
    rfl
  | cons s segments ih =>
    have hs := h s List.mem_cons_self
    have hrest := ih fun s hs => h s (List.mem_cons_of_mem _ hs)
    have hnames : (s :: segments).filterMap Segment.name? =
        s.name?.toList ++ segments.filterMap Segment.name? := by
      cases hname : s.name? <;> simp [hname]
    rw [hnames, ← hrest]
    cases segments with
    | nil =>
      rw [List.map_cons, List.map_nil, List.intercalate_singleton, List.intercalate_nil,
        ← pathParams_text hs, List.append_nil]
    | cons s' segments =>
      rw [List.map_cons, List.map_cons, List.intercalate_cons_cons, List.append_assoc,
        pathParams_text hs, List.singleton_append, pathParams_cons (by decide)]

/-- The names the artifact records for a template are those of its captures, in their order. -/
theorem pathParams_path (t : Template) : pathParams t.path = t.names :=
  pathParams_intercalate t.wellFormed

/-- A segment with its capture replaced by the encoded value of its name. -/
def encoded (values : Str → Str) : Segment → Str
  | .literal text => text
  | .capture name => encodeURIComponent (values name)
  | .wildcard name => ['/'].intercalate (((values name).splitOn '/').map encodeURIComponent)

theorem replaceBraces_cons {c : Char} (hc : c ≠ '{') {f : Str → Except Thrown Str} {rest out : Str}
    (hrest : replaceBraces f rest = .ok out) : replaceBraces f (c :: rest) = .ok (c :: out) := by
  rw [replaceBraces, if_neg fun h => hc h.1, hrest]
  rfl

theorem replaceBraces_literal {f : Str → Except Thrown Str} {text rest out : Str} (h : '{' ∉ text)
    (hrest : replaceBraces f rest = .ok out) : replaceBraces f (text ++ rest) = .ok (text ++ out) := by
  induction text with
  | nil => exact hrest
  | cons c text ih =>
    rw [List.mem_cons, not_or] at h
    exact replaceBraces_cons (Ne.symm h.1) (ih h.2)

theorem replaceBraces_braces {f : Str → Except Thrown Str} {token value rest out : Str}
    (hne : token ≠ []) (hclose : '}' ∉ token) (hvalue : f token = .ok value)
    (hrest : replaceBraces f rest = .ok out) :
    replaceBraces f ('{' :: (token ++ '}' :: rest)) = .ok (value ++ out) := by
  have htoken : (token ++ '}' :: rest).takeWhile (· ≠ '}') = token := by
    have hopen : ∀ c ∈ token, decide (c ≠ '}') = true := by
      rintro c hc
      exact decide_eq_true fun h => hclose (h ▸ hc)
    rw [List.takeWhile_append_of_pos hopen]
    simp
  have hdrop : (token ++ '}' :: rest).drop (token.length + 1) = rest := by
    rw [← List.drop_drop, List.drop_left, List.drop_one, List.tail_cons]
  rw [replaceBraces]
  simp only [htoken, hdrop]
  rw [if_pos ⟨trivial, hne, by simp⟩, hvalue, hrest]
  rfl

section Params

variable {name : Str} {params : Option (Map Str Str)} {values : Str → Str}

theorem substitute_capture {key : Str} (hkey : Segment.IsName key)
    (hvalue : (params.bind fun record => record.get? key) = some (values key)) :
    substitute name params key = .ok (encodeURIComponent (values key)) := by
  simp [substitute, hkey.2.2.2, hvalue]

theorem substitute_wildcard {key : Str} (hvalue : (params.bind fun record => record.get? key) = some (values key)) :
    substitute name params ('*' :: key) = .ok (encoded values (.wildcard key)) := by
  simp [substitute, hvalue, encoded]

theorem replaceBraces_text {s : Segment} (h : s.WellFormed)
    (hvalue : ∀ key, s.name? = some key → (params.bind fun record => record.get? key) = some (values key)) {rest out : Str}
    (hrest : replaceBraces (substitute name params) rest = .ok out) :
    replaceBraces (substitute name params) (s.text ++ rest) = .ok (encoded values s ++ out) := by
  cases s with
  | literal text => exact replaceBraces_literal h.1 hrest
  | capture key =>
    have h : Segment.IsName key := h
    rw [Segment.text, List.cons_append, List.append_assoc]
    exact replaceBraces_braces h.1 h.2.1 (substitute_capture h (hvalue key rfl)) hrest
  | wildcard key =>
    have h : Segment.IsName key := h
    rw [Segment.text, List.cons_append, List.cons_append, List.append_assoc, ← List.cons_append]
    exact replaceBraces_braces (by simp) (by simpa using h.2.1) (substitute_wildcard (hvalue key rfl)) hrest

theorem replaceBraces_intercalate {segments : List Segment} (hwf : ∀ s ∈ segments, s.WellFormed)
    (hvalues : ∀ s ∈ segments, ∀ key, s.name? = some key →
      (params.bind fun record => record.get? key) = some (values key)) :
    replaceBraces (substitute name params) (['/'].intercalate (segments.map Segment.text)) =
      .ok (['/'].intercalate (segments.map (encoded values))) := by
  induction segments with
  | nil =>
    rw [List.map_nil, List.intercalate_nil, replaceBraces]
    rfl
  | cons s segments ih =>
    have hs := hwf s List.mem_cons_self
    have hvalue := hvalues s List.mem_cons_self
    have hrest := ih (fun s hs => hwf s (List.mem_cons_of_mem _ hs))
      fun s hs => hvalues s (List.mem_cons_of_mem _ hs)
    cases segments with
    | nil => simpa using replaceBraces_text hs hvalue hrest
    | cons s' segments =>
      rw [List.map_cons, List.map_cons, List.intercalate_cons_cons, List.append_assoc,
        List.map_cons, List.map_cons, List.intercalate_cons_cons, List.append_assoc]
      exact replaceBraces_text hs hvalue (replaceBraces_cons (by decide) hrest)

/-- With a value for every name, the client's URL is the template with every capture replaced by its
    encoded value. -/
theorem route_path {t : Template} {routes : Map Str TsRoute} {entry : TsRoute}
    (hentry : routes.get? name = some entry) (hpath : entry.path = t.path)
    (hparams : ∀ key ∈ t.names, (params.bind fun record => record.get? key) = some (values key)) :
    route routes name params = .ok (['/'].intercalate (t.segments.map (encoded values))) := by
  rw [route, hentry]
  simp only [hpath]
  refine replaceBraces_intercalate t.wellFormed fun s hs key hkey => ?_
  exact hparams key (List.mem_filterMap.mpr ⟨s, hs, hkey⟩)

end Params

/-! ### What a URL leads to -/

/-- The segments of a URL, decoded. -/
def decodedSegments (url : Str) : List Bytes := 
  (url.splitOn '/').map fun piece : Str => percentDecode piece.bytes

/-- Decoded segments match a template with the values of its captures: a wildcard stands for one
    segment or more, with the slashes between them. -/
inductive Matches (values : Str → Str) : List Segment → List Bytes → Prop where
  | nil : Matches values [] []
  | literal {text : Str} {segments : List Segment} {pieces : List Bytes} :
      Matches values segments pieces →
      Matches values (.literal text :: segments) (percentDecode text.bytes :: pieces)
  | capture {name : Str} {segments : List Segment} {pieces : List Bytes} :
      Matches values segments pieces →
      Matches values (.capture name :: segments) ((values name).bytes :: pieces)
  | wildcard {name : Str} {segments : List Segment} {taken pieces : List Bytes} :
      taken ≠ [] → [0x2f].intercalate taken = (values name).bytes →
      Matches values segments pieces →
      Matches values (.wildcard name :: segments) (taken ++ pieces)

/-- A wildcard is the last segment, as a router has it. -/
def WildcardLast : List Segment → Prop
  | [] => True
  | .wildcard _ :: segments => segments = []
  | _ :: segments => WildcardLast segments

/-- A URL leads to a template with these values, and with no others where a wildcard is last. -/
def Addresses (t : Template) (values : Str → Str) (url : Str) : Prop :=
  Matches values t.segments (decodedSegments url) ∧
  (WildcardLast t.segments → ∀ other, Matches other t.segments (decodedSegments url) →
    ∀ name ∈ t.names, other name = values name)

theorem uriUnescaped_ascii (x : UInt8) (h : uriUnescaped x = true) : x.toNat < 0x80 ∧ x ≠ 0x25 := by
  have hall : ∀ n : Fin 256, uriUnescaped (UInt8.ofNat n) = true →
      n.val < 0x80 ∧ UInt8.ofNat n ≠ 0x25 := by decide +kernel
  simpa using hall ⟨x.toNat, x.toNat_lt⟩ (by simpa using h)

theorem slash_notMem_encodeURIComponent (s : Str) : '/' ∉ encodeURIComponent s :=
  notMem_percentEncodeExcept uriUnescaped_ascii (by decide) (by decide +kernel) _

theorem percentDecode_encodeURIComponent (s : Str) : percentDecode (encodeURIComponent s).bytes = s.bytes :=
  percentDecode_encode uriUnescaped_ascii _

/-- The segments of the client's URL match the template. -/
theorem matches_encoded {values : Str → Str} {segments : List Segment}
    (h : ∀ s ∈ segments, s.WellFormed) :
    Matches values segments ((segments.flatMap fun s => (encoded values s).splitOn '/').map
      fun piece : Str => percentDecode piece.bytes) := by
  induction segments with
  | nil => exact .nil
  | cons s segments ih =>
    have hrest := ih fun s hs => h s (List.mem_cons_of_mem _ hs)
    rw [List.flatMap_cons, List.map_append]
    cases s with
    | literal text =>
      obtain ⟨-, hslash⟩ : '{' ∉ text ∧ '/' ∉ text := h _ List.mem_cons_self
      rw [encoded, List.splitOn_eq_singleton hslash]
      exact .literal hrest
    | capture name =>
      rw [encoded, List.splitOn_eq_singleton (slash_notMem_encodeURIComponent _), List.map_singleton,
        percentDecode_encodeURIComponent]
      exact .capture hrest
    | wildcard name =>
      have hsplit : (encoded values (.wildcard name)).splitOn '/' =
          ((values name).splitOn '/').map encodeURIComponent := by
        refine List.splitOn_intercalate '/' ?_ (by simp)
        intro piece hpiece
        obtain ⟨part, -, rfl⟩ := List.mem_map.mp hpiece
        exact slash_notMem_encodeURIComponent part
      have hdecoded : (fun piece : Str => percentDecode piece.bytes) ∘ encodeURIComponent = Str.bytes :=
        funext percentDecode_encodeURIComponent
      have hslash : String.utf8EncodeChar '/' = [0x2f] := by decide
      rw [hsplit, List.map_map, hdecoded]
      refine .wildcard (by simp) ?_ hrest
      rw [← Str.bytes_intercalate hslash, List.intercalate_splitOn]

theorem matches_unique {values other : Str → Str} {segments : List Segment} {pieces : List Bytes}
    (hlast : WildcardLast segments) (h : Matches values segments pieces)
    (hother : Matches other segments pieces) :
    ∀ name ∈ segments.filterMap Segment.name?, other name = values name := by
  induction h with
  | nil => simp
  | literal _ ih =>
    cases hother with
    | literal hother => simpa [Segment.name?] using ih hlast hother
  | @capture name segments pieces _ ih =>
    generalize hpieces : (values name).bytes :: pieces = all at hother
    cases hother with
    | capture hother =>
      obtain ⟨hbytes, rfl⟩ := List.cons.inj hpieces
      simpa [Segment.name?, Str.bytes_injective hbytes.symm] using ih hlast hother
  | @wildcard name segments taken pieces _ hvalue hrest ih =>
    obtain rfl : segments = [] := hlast
    generalize hpieces : taken ++ pieces = all at hother
    cases hother with
    | wildcard _ hvalue' hrest' =>
      cases hrest
      cases hrest'
      rw [List.append_nil, List.append_nil] at hpieces
      rw [← hpieces, hvalue] at hvalue'
      simpa [Segment.name?] using Str.bytes_injective hvalue'.symm

theorem length_of_matches {values : Str → Str} {segments : List Segment} {pieces : List Bytes}
    (h : Matches values segments pieces) (hplain : ∀ name, .wildcard name ∉ segments) :
    pieces.length = segments.length := by
  induction h with
  | nil => rfl
  | literal _ ih => simpa using ih fun name hname => hplain name (List.mem_cons_of_mem _ hname)
  | capture _ ih => simpa using ih fun name hname => hplain name (List.mem_cons_of_mem _ hname)
  | wildcard _ _ _ _ => exact absurd List.mem_cons_self (hplain _)

theorem addresses_encoded (t : Template) (values : Str → Str) :
    Addresses t values (['/'].intercalate (t.segments.map (encoded values))) := by
  have hpieces : decodedSegments (['/'].intercalate (t.segments.map (encoded values))) =
      (t.segments.flatMap fun s => (encoded values s).splitOn '/').map
        fun piece : Str => percentDecode piece.bytes := by
    rw [decodedSegments, Str.splitOn_intercalate_flatMap (by simpa using t.segments_ne),
      List.flatMap_map]
  have hmatches := @matches_encoded values t.segments t.wellFormed
  rw [Addresses, hpieces]
  exact ⟨hmatches, fun hlast other hother => matches_unique hlast hmatches hother⟩

/-! ### Server and client -/

/-- The values of a segment's capture that an encoder leaves alone; the slashes of a wildcard are not
    encoded. -/
def Unencoded (values : Str → Str) : Segment → Prop
  | .literal _ => True
  | .capture name => ∀ c ∈ values name, Kept uriUnescaped c
  | .wildcard name => ∀ c ∈ values name, c = '/' ∨ Kept uriUnescaped c

theorem length_wildcard_le (s : Str) :
    s.length ≤ (['/'].intercalate ((s.splitOn '/').map encodeURIComponent)).length := by
  have hsum : ((s.splitOn '/').map List.length).sum ≤
      ((s.splitOn '/').map (List.length ∘ encodeURIComponent)).sum :=
    List.sum_le_sum fun piece _ => length_le_percentEncodeExcept piece
  have hjoined := Str.length_intercalate '/' (s.splitOn '/')
  rw [List.intercalate_splitOn] at hjoined
  rw [Str.length_intercalate, hjoined, List.map_map, List.length_map]
  omega

theorem length_filled_le (values : Str → Str) (s : Segment) :
    (s.filled values).length ≤ (encoded values s).length := by
  cases s with
  | literal text => exact le_rfl
  | capture name => exact length_le_percentEncodeExcept _
  | wildcard name => exact length_wildcard_le _

theorem unencoded_of_length {values : Str → Str} {s : Segment}
    (h : (s.filled values).length = (encoded values s).length) : Unencoded values s := by
  cases s with
  | literal text => trivial
  | capture name => exact kept_of_length_eq uriUnescaped_ascii h.symm
  | wildcard name =>
    intro c hc
    by_cases hslash : c = '/'
    · exact Or.inl hslash
    · -- segment by segment, nothing got longer
      have hpieces : ∀ piece ∈ (values name).splitOn '/',
          (id piece).length = (encodeURIComponent piece).length := by
        refine Str.length_eq_of_intercalate_length '/'
          (fun piece _ => length_le_percentEncodeExcept piece) ?_
        rw [List.map_id, List.intercalate_splitOn]
        exact h
      obtain ⟨piece, hpiece, hmem⟩ := (Str.mem_splitOn hslash (values name)).mpr hc
      exact Or.inr (kept_of_length_eq uriUnescaped_ascii (hpieces piece hpiece).symm c hmem)

theorem filled_eq_encoded {values : Str → Str} {s : Segment} (h : Unencoded values s) :
    s.filled values = encoded values s := by
  cases s with
  | literal text => rfl
  | capture name => exact (percentEncodeExcept_of_kept h).symm
  | wildcard name =>
    have hpieces : ((values name).splitOn '/').map encodeURIComponent = (values name).splitOn '/' := by
      rw [List.map_congr_left, List.map_id]
      intro piece hpiece
      refine percentEncodeExcept_of_kept fun c hc => ?_
      have hslash : c ≠ '/' := fun h => Str.sep_notMem_splitOn hpiece (h ▸ hc)
      exact (h c ((Str.sublist_of_mem_splitOn hpiece).subset hc)).resolve_left hslash
    rw [encoded, hpieces, List.intercalate_splitOn]
    rfl

/-- For every template and every assignment of values to its captures: the server's URL is the
    client's, and leads back to the template with these values, exactly when the values hold nothing
    that is encoded. -/
theorem urlFor_eq_route_iff (t : Template) (table : RouteTable) (routes : Map Str TsRoute)
    (name : Str) (entry : TsRoute) (values : Str → Str) (params : Option (Map Str Str))
    (htable : table.names.get? name = some t.path)
    (hroutes : routes.get? name = some entry) (hentry : entry.path = t.path)
    (hparams : ∀ key ∈ pathParams t.path,
      (params.bind fun record => record.get? key) = some (values key)) :
    (∃ url, table.urlFor name ((pathParams t.path).map values) = .ok url ∧
      route routes name params = .ok url ∧ Addresses t values url) ↔
    ∀ s ∈ t.segments, Unencoded values s := by
  rw [pathParams_path] at hparams ⊢
  rw [RouteTable.urlFor, htable]
  simp only [renderPath_path, route_path hroutes hentry hparams, Except.ok.injEq]
  constructor
  · rintro ⟨url, hserver, hclient, -⟩ s hs
    refine unencoded_of_length (Str.length_eq_of_intercalate_length '/'
      (fun s _ => length_filled_le values s) ?_ s hs)
    rw [hserver, hclient]
  · intro h
    have hsame : t.segments.map (Segment.filled values) = t.segments.map (encoded values) :=
      List.map_congr_left fun s hs => filled_eq_encoded (h s hs)
    exact ⟨_, rfl, by rw [hsame], by rw [hsame]; exact addresses_encoded t values⟩

/-- `/users/{id}`. -/
def usersShow : Template where
  segments := [.literal [], .literal "users".toList, .capture "id".toList]
  segments_ne := by simp
  wellFormed := by simp [Segment.WellFormed, Segment.IsName]

/-- The address of user `42`, once by position and once by name. -/
theorem urlFor_eq_route_digits :
    (∃ url, RouteTable.urlFor ⟨Map.empty.insert "users.show".toList usersShow.path⟩
        "users.show".toList ((pathParams usersShow.path).map fun _ => "42".toList) = .ok url ∧
      route (Map.empty.insert "users.show".toList ⟨"GET".toList, usersShow.path, ["id".toList]⟩)
        "users.show".toList (some (Map.empty.insert "id".toList "42".toList)) = .ok url ∧
      Addresses usersShow (fun _ => "42".toList) url) := by
  refine (urlFor_eq_route_iff usersShow _ _ _ ⟨"GET".toList, usersShow.path, ["id".toList]⟩
    (fun _ => "42".toList) _ (by simp) (by simp) rfl ?_).mpr ?_
  · rw [pathParams_path]
    simp [usersShow, Template.names, Segment.name?]
  · intro s hs
    fin_cases hs
    · trivial
    · trivial
    · intro c hc
      have hdigit : c = '4' ∨ c = '2' := by simpa using hc
      rcases hdigit with rfl | rfl
      · decide
      · decide

/-- A slash in a value: the server's URL has a segment more, and is not the client's. -/
theorem slash_written_apart :
    RouteTable.urlFor ⟨Map.empty.insert "users.show".toList usersShow.path⟩ "users.show".toList
      ["a/b".toList] = .ok "/users/a/b".toList ∧
    route (Map.empty.insert "users.show".toList ⟨"GET".toList, usersShow.path, ["id".toList]⟩)
      "users.show".toList (some (Map.empty.insert "id".toList "a/b".toList)) =
        .ok "/users/a%2Fb".toList ∧
    ¬ Addresses usersShow (fun _ => "a/b".toList) "/users/a/b".toList := by
  refine ⟨?_, ?_, ?_⟩
  · rw [RouteTable.urlFor, Map.get?_insert, if_pos rfl]
    exact renderPath_path usersShow fun _ => "a/b".toList
  · rw [@route_path "users.show".toList _ (fun _ => "a/b".toList) usersShow _
      ⟨"GET".toList, usersShow.path, ["id".toList]⟩ (by simp) rfl
      (by simp [usersShow, Template.names, Segment.name?])]
    decide +kernel
  · rintro ⟨hmatches, -⟩
    have hpieces : (decodedSegments "/users/a/b".toList).length = 4 := by decide +kernel
    have hlength := length_of_matches hmatches (by simp [usersShow])
    rw [hpieces] at hlength
    exact absurd hlength (by decide)

end Arcature.Uag
