import Arcature.Uag.RoutesTs

/-! Four readers of one path.

    The names in a path's braces are read by the macro, for the arguments of its URL helpers (`params`
    in `macros/routes/path.rs`); by the artifact, for the keys that `routes.ts` asks for
    (`path_params`); by the pattern that `route` replaces; and `render_path` counts the segments that
    are in braces:

                    macro       artifact    route     segments
        /u/{id}     id          id          id        1
        /f/{*path}  *path       path        path      1
        /u-{id}     id          id          id        0
        /u/{}                                         1
        /u/{id      id                                0

    A path is text and groups in braces, from an opening brace to the next closing one, and maybe a
    brace that is not closed. All four agree exactly when no group has the mark of a wildcard, nothing
    follows a brace that is not closed, and as many segments are in braces as there are groups that
    are not empty (`readersAgree_iff`). -/

namespace Arcature.Uag
open Arcature.Lib Arcature.Routing

/-! ### The macro's reader -/

/-- The loop of `params`, with what was read of a parameter. -/
def paramsLoop : Option Str → Str → List Str
  | none, [] => []
  | none, c :: path => if c = '{' then paramsLoop (some []) path else paramsLoop none path
  | some param, [] => if param = [] then [] else [param]
  | some param, c :: path =>
    if c = '}' then
      if param = [] then paramsLoop none path else param :: paramsLoop none path
    else paramsLoop (some (param ++ [c])) path

/-- `params`. -/
def params (path : Str) : List Str := paramsLoop none path

/-! ### The reader of `route` -/

/-- The texts that the pattern of `route` finds in braces. -/
def tokens : Str → List Str
  | [] => []
  | c :: s =>
    let token := s.takeWhile (· ≠ '}')
    if c = '{' ∧ token ≠ [] ∧ token.length < s.length then token :: tokens (s.drop (token.length + 1))
    else tokens s
termination_by s => s.length
decreasing_by all_goals
  simp only [List.length_drop, List.length_cons]
  omega

/-- The key a text in braces is replaced by the value of. -/
def keyOf (token : Str) : Str := if token.head? = some '*' then token.tail else token

/-! ### Groups -/

/-- The groups in braces of a path, each up to the next closing brace. -/
def groups (path : Str) : List Str :=
  match _hopen : Str.splitOnce '{' path with
  | none => []
  | some (_, after) =>
    match _hclose : Str.splitOnce '}' after with
    | none => []
    | some (group, rest) => group :: groups rest
termination_by path.length
decreasing_by all_goals
  obtain ⟨rfl, -⟩ := Str.splitOnce_eq_some.mp _hopen
  obtain ⟨rfl, -⟩ := Str.splitOnce_eq_some.mp _hclose
  simp
  omega

/-- What follows a brace that is not closed. -/
def unclosed (path : Str) : Str :=
  match _hopen : Str.splitOnce '{' path with
  | none => []
  | some (_, after) =>
    match _hclose : Str.splitOnce '}' after with
    | none => after
    | some (_, rest) => unclosed rest
termination_by path.length
decreasing_by all_goals
  obtain ⟨rfl, -⟩ := Str.splitOnce_eq_some.mp _hopen
  obtain ⟨rfl, -⟩ := Str.splitOnce_eq_some.mp _hclose
  simp
  omega

/-- A path is text without a brace, or text up to a brace that is not closed, or text, a group and a
    path. -/
theorem path_induction {motive : Str → Prop} (plain : ∀ text, '{' ∉ text → motive text)
    (dangling : ∀ text tail, '{' ∉ text → '}' ∉ tail → motive (text ++ '{' :: tail))
    (group : ∀ text token rest, '{' ∉ text → '}' ∉ token → motive rest →
      motive (text ++ '{' :: (token ++ '}' :: rest)))
    (path : Str) : motive path := by
  fun_induction groups path with
  | case1 path hopen => exact plain path (Str.splitOnce_eq_none.mp hopen)
  | case2 path text after hopen hclose =>
    obtain ⟨rfl, htext⟩ := Str.splitOnce_eq_some.mp hopen
    exact dangling text after htext (Str.splitOnce_eq_none.mp hclose)
  | case3 path text after hopen token rest hclose ih =>
    obtain ⟨rfl, htext⟩ := Str.splitOnce_eq_some.mp hopen
    obtain ⟨rfl, htoken⟩ := Str.splitOnce_eq_some.mp hclose
    exact group text token rest htext htoken ih

section Equations

variable {text token tail : Str}

theorem groups_eq (path : Str) :
    groups path =
      match Str.splitOnce '{' path with
      | none => []
      | some (_, after) =>
        match Str.splitOnce '}' after with
        | none => []
        | some (group, rest) => group :: groups rest := by
  rw [groups]
  split <;> rename_i hopen
  · simp [hopen]
  · rw [hopen]
    split <;> rename_i hclose
    · simp [hclose]
    · simp [hclose]

theorem unclosed_eq (path : Str) :
    unclosed path =
      match Str.splitOnce '{' path with
      | none => []
      | some (_, after) =>
        match Str.splitOnce '}' after with
        | none => after
        | some (_, rest) => unclosed rest := by
  rw [unclosed]
  split <;> rename_i hopen
  · simp [hopen]
  · rw [hopen]
    split <;> rename_i hclose
    · simp [hclose]
    · simp [hclose]

theorem groups_plain (htext : '{' ∉ text) : groups text = [] := by
  rw [groups_eq, Str.splitOnce_eq_none.mpr htext]

theorem groups_dangling (htext : '{' ∉ text) (htail : '}' ∉ tail) : groups (text ++ '{' :: tail) = [] := by
  rw [groups_eq, Str.splitOnce_append htext]
  simp only [Str.splitOnce_eq_none.mpr htail]

theorem groups_group (htext : '{' ∉ text) (htoken : '}' ∉ token) (rest : Str) :
    groups (text ++ '{' :: (token ++ '}' :: rest)) = token :: groups rest := by
  rw [groups_eq, Str.splitOnce_append htext]
  simp only [Str.splitOnce_append htoken]

theorem unclosed_plain (htext : '{' ∉ text) : unclosed text = [] := by
  rw [unclosed_eq, Str.splitOnce_eq_none.mpr htext]

theorem unclosed_dangling (htext : '{' ∉ text) (htail : '}' ∉ tail) :
    unclosed (text ++ '{' :: tail) = tail := by
  rw [unclosed_eq, Str.splitOnce_append htext]
  simp only [Str.splitOnce_eq_none.mpr htail]

theorem unclosed_group (htext : '{' ∉ text) (htoken : '}' ∉ token) (rest : Str) :
    unclosed (text ++ '{' :: (token ++ '}' :: rest)) = unclosed rest := by
  rw [unclosed_eq, Str.splitOnce_append htext]
  simp only [Str.splitOnce_append htoken]

theorem paramsLoop_text (htext : '{' ∉ text) (rest : Str) :
    paramsLoop none (text ++ rest) = paramsLoop none rest := by
  induction text with
  | nil => rfl
  | cons c text ih =>
    rw [List.mem_cons, not_or] at htext
    rw [List.cons_append, paramsLoop, if_neg (Ne.symm htext.1), ih htext.2]

theorem paramsLoop_token (htoken : '}' ∉ token) (param rest : Str) :
    paramsLoop (some param) (token ++ rest) = paramsLoop (some (param ++ token)) rest := by
  induction token generalizing param with
  | nil => rw [List.nil_append, List.append_nil]
  | cons c token ih =>
    rw [List.mem_cons, not_or] at htoken
    rw [List.cons_append, paramsLoop, if_neg (Ne.symm htoken.1), ih htoken.2, List.append_assoc]
    rfl

theorem takeWhile_token (htoken : '}' ∉ token) (rest : Str) :
    (token ++ '}' :: rest).takeWhile (· ≠ '}') = token := by
  have hopen : ∀ c ∈ token, decide (c ≠ '}') = true := by
    rintro c hc
    exact decide_eq_true fun h => htoken (h ▸ hc)
  rw [List.takeWhile_append_of_pos hopen]
  simp

theorem tokens_text (htext : '{' ∉ text) (rest : Str) : tokens (text ++ rest) = tokens rest := by
  induction text with
  | nil => rfl
  | cons c text ih =>
    rw [List.mem_cons, not_or] at htext
    rw [List.cons_append, tokens, if_neg fun h => htext.1 h.1.symm, ih htext.2]

theorem tokens_unclosed (htail : '}' ∉ tail) : tokens tail = [] := by
  induction tail with
  | nil => rw [tokens]
  | cons c tail ih =>
    rw [List.mem_cons, not_or] at htail
    have hall : tail.takeWhile (· ≠ '}') = tail := by
      have hopen : ∀ c ∈ tail, decide (c ≠ '}') = true := by
        rintro c hc
        exact decide_eq_true fun h => htail.2 (h ▸ hc)
      simpa using @List.takeWhile_append_of_pos _ _ tail [] hopen
    rw [tokens, hall, if_neg fun h => absurd h.2.2 (lt_irrefl _), ih htail.2]

theorem tokens_token (htoken : '}' ∉ token) (rest : Str) :
    tokens ('{' :: (token ++ '}' :: rest)) = if token = [] then tokens rest else token :: tokens rest := by
  have hdrop : (token ++ '}' :: rest).drop (token.length + 1) = rest := by
    rw [← List.drop_drop, List.drop_left, List.drop_one, List.tail_cons]
  rw [tokens]
  simp only [takeWhile_token htoken, hdrop]
  by_cases hempty : token = []
  · subst hempty
    rw [if_neg (by simp), if_pos rfl]
    have hbrace : '{' ∉ ['}'] := by decide
    exact tokens_text hbrace rest
  · rw [if_pos ⟨trivial, hempty, by simp⟩, if_neg hempty]

end Equations

/-! ### What each reader finds -/

/-- The macro finds the groups that are not empty, and what follows a brace that is not closed. -/
theorem params_eq (path : Str) :
    params path = (groups path ++ [unclosed path]).filter (· ≠ []) := by
  induction path using path_induction with
  | plain text htext =>
    have hloop := paramsLoop_text htext []
    rw [List.append_nil] at hloop
    rw [params, hloop, groups_plain htext, unclosed_plain htext]
    rfl
  | dangling text tail htext htail =>
    have hloop := paramsLoop_token htail [] []
    rw [List.append_nil, List.nil_append] at hloop
    rw [params, paramsLoop_text htext, paramsLoop, if_pos rfl, hloop, groups_dangling htext htail,
      unclosed_dangling htext htail, paramsLoop]
    by_cases hempty : tail = [] <;> simp [hempty]
  | group text token rest htext htoken ih =>
    rw [params, paramsLoop_text htext, paramsLoop, if_pos rfl, paramsLoop_token htoken, paramsLoop,
      if_pos rfl, groups_group htext htoken, unclosed_group htext htoken, List.cons_append,
      List.filter_cons, ← ih]
    by_cases hempty : token = [] <;> simp [hempty, params]

/-- The artifact finds the groups without their marks, where something is left. -/
theorem pathParams_groups (path : Str) :
    pathParams path = ((groups path).map (List.dropWhile (· = '*'))).filter (· ≠ []) := by
  induction path using path_induction with
  | plain text htext =>
    rw [pathParams_eq, Str.splitOnce_eq_none.mpr htext, groups_plain htext]
    rfl
  | dangling text tail htext htail =>
    rw [pathParams_eq, Str.splitOnce_append htext, groups_dangling htext htail]
    simp [Str.splitOnce_eq_none.mpr htail]
  | group text token rest htext htoken ih =>
    rw [pathParams_eq, Str.splitOnce_append htext, groups_group htext htoken, List.map_cons,
      List.filter_cons, ← ih]
    simp only [Str.splitOnce_append htoken]
    by_cases hempty : token.dropWhile (· = '*') = []
    · rw [if_pos hempty, if_neg (by simpa using hempty)]
    · rw [if_neg hempty, if_pos (by simpa using hempty)]

/-- The pattern of `route` finds the groups that are not empty. -/
theorem tokens_eq (path : Str) : tokens path = (groups path).filter (· ≠ []) := by
  induction path using path_induction with
  | plain text htext =>
    have htokens := tokens_text htext []
    rw [List.append_nil] at htokens
    rw [htokens, groups_plain htext, tokens]
    rfl
  | dangling text tail htext htail =>
    rw [tokens_text htext, groups_dangling htext htail, tokens_unclosed (by simpa using htail)]
    rfl
  | group text token rest htext htoken ih =>
    rw [tokens_text htext, tokens_token htoken, groups_group htext htoken, List.filter_cons, ← ih]
    by_cases hempty : token = [] <;> simp [hempty]

/-- `route` writes a path if it can write every token that its pattern finds. -/
theorem exists_replaceBraces_iff (f : Str → Except Thrown Str) (path : Str) :
    (∃ url, replaceBraces f path = .ok url) ↔ ∀ token ∈ tokens path, ∃ value, f token = .ok value := by
  fun_induction tokens path with
  | case1 => simp [replaceBraces]
  | case2 c s token h ih =>
    rw [replaceBraces, if_pos h, List.forall_mem_cons, ← ih]
    cases f token with
    | error e => simp [bind, Except.bind]
    | ok value =>
      cases replaceBraces f (s.drop (token.length + 1)) with
      | error e => simp [bind, Except.bind]
      | ok out => simp [bind, Except.bind, pure, Except.pure]
  | case3 c s token h ih =>
    rw [replaceBraces, if_neg h, ← ih]
    cases replaceBraces f s with
    | error e => simp [bind, Except.bind]
    | ok out => simp [bind, Except.bind, pure, Except.pure]

/-! ### All four -/

/-- The four readers agree on a path: the names and their order, the number of parameters that
    `render_path` asks for, and the keys that `route` asks for. -/
structure ReadersAgree (path : Str) : Prop where
  /-- The arguments of the macro's helper are the names of the artifact. -/
  macro_eq : params path = pathParams path
  /-- The keys that `route` replaces are the names of the artifact. -/
  route_eq : (tokens path).map keyOf = pathParams path
  /-- As many parameters as names are enough for `render_path`, and fewer are not. -/
  rendered_iff : ∀ args : List Str,
    (∃ url, renderPath path args = .ok url) ↔ (pathParams path).length ≤ args.length
  /-- `route` writes the path exactly if all the names that its entry lists have a value. -/
  routed_iff : ∀ (routes : Map Str TsRoute) (name : Str) (entry : TsRoute) (record : Option (Map Str Str)),
    routes.get? name = some entry → entry.path = path → entry.params = pathParams path →
    ((∃ url, route routes name record = .ok url) ↔
      ∀ key ∈ entry.params, ((record.bind fun values => values.get? key)).isSome)

theorem exists_renderPath_iff (path : Str) (args : List Str) :
    (∃ url, renderPath path args = .ok url) ↔
      (path.splitOn '/').countP (fun s => (stripBraces s).isSome) ≤ args.length := by
  have hrenders := exists_renderSegments_iff args (path.splitOn '/') (Nat.zero_le _)
  rw [Nat.zero_add] at hrenders
  rw [← hrenders]
  constructor
  · rintro ⟨url, hurl⟩
    obtain ⟨out, hout, -⟩ := renderPath_eq_ok.mp hurl
    exact ⟨out, hout⟩
  · rintro ⟨out, hout⟩
    exact ⟨_, renderPath_eq_ok.mpr ⟨out, hout, rfl⟩⟩

theorem exists_substitute_iff (name : Str) (record : Option (Map Str Str)) (token : Str) :
    (∃ value, substitute name record token = .ok value) ↔
      (record.bind fun values => values.get? (keyOf token)).isSome := by
  simp only [substitute, keyOf]
  cases record.bind fun values => values.get? (if token.head? = some '*' then token.tail else token) with
  | none => simp
  | some value => simp

theorem map_eq_self_iff {f : Str → Str} {texts : List Str} : texts.map f = texts ↔ ∀ g ∈ texts, f g = g := by
  have hid := @List.map_inj_left _ _ texts f id
  rwa [List.map_id] at hid

theorem flatten_filter_nonempty (texts : List Str) :
    (texts.filter (· ≠ [])).flatten = texts.flatten := by
  induction texts with
  | nil => rfl
  | cons text texts ih =>
    by_cases hempty : text = []
    · rw [List.filter_cons_of_neg (by simpa using hempty), ih, hempty]
      rfl
    · rw [List.filter_cons_of_pos (by simpa using hempty), List.flatten_cons, ih, List.flatten_cons]

theorem length_dropStars_le (token : Str) : (token.dropWhile (· = '*')).length ≤ token.length :=
  (List.dropWhile_suffix _).length_le

theorem dropStars_eq_self_iff (token : Str) :
    token.dropWhile (· = '*') = token ↔ token.head? ≠ some '*' := by
  cases token with
  | nil => simp
  | cons c token =>
    rw [List.head?_cons, ne_eq, Option.some_inj]
    by_cases hstar : c = '*'
    · subst hstar
      have hle := length_dropStars_le token
      rw [List.dropWhile_cons_of_pos (by simp)]
      simp only [not_true_eq_false, iff_false]
      intro h
      rw [h, List.length_cons] at hle
      omega
    · simp [hstar]

/-- Taking the marks away makes the groups shorter, all together, unless there is none. -/
theorem length_flatten_dropStars (texts : List Str) :
    (texts.map (List.dropWhile (· = '*'))).flatten.length ≤ texts.flatten.length ∧
      ((texts.map (List.dropWhile (· = '*'))).flatten.length = texts.flatten.length →
        texts.map (List.dropWhile (· = '*')) = texts) := by
  induction texts with
  | nil => exact ⟨le_rfl, fun _ => rfl⟩
  | cons g texts ih =>
    have hg := length_dropStars_le g
    simp only [List.map_cons, List.flatten_cons, List.length_append]
    refine ⟨by omega, fun h => ?_⟩
    have hself : g.dropWhile (· = '*') = g :=
      (List.dropWhile_suffix _).eq_of_length (by omega)
    rw [hself, ih.2 (by omega)]

/-- The macro and the artifact find the same names if no group has a mark and nothing follows a brace
    that is not closed. -/
theorem params_eq_pathParams_iff (path : Str) :
    params path = pathParams path ↔ (∀ g ∈ groups path, g.head? ≠ some '*') ∧ unclosed path = [] := by
  have hmarks : (∀ g ∈ groups path, g.head? ≠ some '*') ↔
      (groups path).map (List.dropWhile (· = '*')) = groups path := by
    rw [map_eq_self_iff]
    exact forall₂_congr fun g _ => (dropStars_eq_self_iff g).symm
  rw [params_eq, pathParams_groups, hmarks]
  constructor
  · intro h
    -- both sides have the same number of characters
    have hlength := congrArg (fun names => names.flatten.length) h
    simp only [flatten_filter_nonempty, List.flatten_append, List.flatten_singleton,
      List.length_append] at hlength
    obtain ⟨hle, hself⟩ := length_flatten_dropStars (groups path)
    exact ⟨hself (by omega), List.length_eq_zero_iff.mp (by omega)⟩
  · rintro ⟨hself, hunclosed⟩
    rw [hself, hunclosed, List.filter_append]
    simp

/-- The four readers agree on a path exactly when no group begins with the mark of a wildcard, nothing
    follows a brace that is not closed, and as many segments begin and end with a brace as there are
    groups that are not empty. -/
theorem readersAgree_iff (path : Str) :
    ReadersAgree path ↔
      (∀ g ∈ groups path, g.head? ≠ some '*') ∧ unclosed path = [] ∧
        (path.splitOn '/').countP (fun s => (stripBraces s).isSome) =
          ((groups path).filter (· ≠ [])).length := by
  constructor
  · intro h
    obtain ⟨hstar, hunclosed⟩ := (params_eq_pathParams_iff path).mp h.macro_eq
    refine ⟨hstar, hunclosed, ?_⟩
    have hlength : ((groups path).filter (· ≠ [])).length = (pathParams path).length := by
      rw [← h.route_eq, tokens_eq, List.length_map]
    rw [hlength]
    -- with one parameter fewer the URL is not rendered, with one more it is
    have hrendered := h.rendered_iff
    simp only [exists_renderPath_iff] at hrendered
    have hnames := hrendered (pathParams path)
    have hsegments := hrendered (List.replicate
      ((path.splitOn '/').countP fun s => (stripBraces s).isSome) [])
    rw [List.length_replicate] at hsegments
    exact le_antisymm (hnames.mpr le_rfl) (hsegments.mp le_rfl)
  · rintro ⟨hstar, hunclosed, hcount⟩
    have hparams := (params_eq_pathParams_iff path).mpr ⟨hstar, hunclosed⟩
    have htokens : tokens path = pathParams path := by
      rw [← hparams, params_eq, hunclosed, tokens_eq, List.filter_append]
      simp
    have hkeys : (tokens path).map keyOf = tokens path := by
      rw [map_eq_self_iff]
      intro token htoken
      rw [tokens_eq] at htoken
      rw [keyOf, if_neg (hstar token (List.mem_of_mem_filter htoken))]
    refine ⟨hparams, hkeys.trans htokens, fun args => ?_, ?_⟩
    · rw [exists_renderPath_iff, hcount, ← tokens_eq, htokens]
    · intro routes name entry record hentry hpath hlisted
      rw [route, hentry, hlisted, ← htokens, ← hkeys]
      simp only [hpath, exists_replaceBraces_iff, exists_substitute_iff, List.forall_mem_map]

/-- A wildcard: the macro's helper asks for `*path`, the artifact lists `path`. -/
theorem wildcard_read_apart :
    params "/files/{*path}".toList = ["*path".toList] ∧
    pathParams "/files/{*path}".toList = ["path".toList] ∧
    ¬ ReadersAgree "/files/{*path}".toList := by
  have hparams : params "/files/{*path}".toList = ["*path".toList] := by decide
  have hpathParams : pathParams "/files/{*path}".toList = ["path".toList] := by
    rw [pathParams_groups]
    decide +kernel
  refine ⟨hparams, hpathParams, fun h => ?_⟩
  have hsame := h.macro_eq
  rw [hparams, hpathParams] at hsame
  exact absurd hsame (by decide)

end Arcature.Uag
