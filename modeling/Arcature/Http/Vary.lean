import Arcature.Inertia.Pending
import Arcature.Lib.Ascii
import Arcature.Lib.Lines

/-! What a response varies by.

    Two places add a name to `Vary`, the page protocol and the choice of a locale, each to whatever an
    application has set. The tokens of all the lines are read, and written as one line with the new one:

        Vary: Cookie          adds X-Inertia          Vary: Cookie, Accept, X-Inertia
        Vary: accept, Cookie                 (a token is the same in any case)

        Vary: *               adds X-Inertia          Vary: *

    So the set of the tokens grows by the new one, and adding it again changes nothing. A line with a
    character that is not visible ASCII cannot be read: its tokens are skipped and the line is dropped with
    the others when the new one is put in their place. The union is what it says exactly if every line is
    visible, or a visible one says `*` (`union_iff`). -/

namespace Arcature.Http
open Arcature.Lib Arcature.Inertia
open Inertia.Contracts (eqIgnoreAsciiCase)

/-! ### Adding a language -/

def acceptLanguage : Str := "Accept-Language".toList

/-- `ensure_vary_accept_language`. A `*` or the token itself ends it, wherever it stands. -/
def ensureVaryAcceptLanguage (headers : HeaderMap Str) : HeaderMap Str :=
  let read := (headers.getAll vary).flatMap varyTokens
  if read.any fun token => token = ['*'] || eqIgnoreAsciiCase token acceptLanguage then headers
  else
    match headerToStr (", ".toList.intercalate (read ++ [acceptLanguage])) with
    | some value => headers.insert vary value
    | none => headers

/-! ### Tokens -/

/-- A character of a line that can be read. -/
def Visible (c : Char) : Prop := c = '\t' ∨ (' ' ≤ c ∧ c ≤ '~')

instance (c : Char) : Decidable (Visible c) := inferInstanceAs (Decidable (_ ∨ _))

/-- A line that can be read. -/
def Readable (value : Str) : Prop := ∀ c ∈ value, Visible c

instance (value : Str) : Decidable (Readable value) := inferInstanceAs (Decidable (∀ c ∈ value, Visible c))

/-- A blank of a header line. -/
def isOws (c : Char) : Bool := c ∈ [' ', '\t']

/-- Without the blanks at either end. -/
def trimOws (s : Str) : Str := ((s.dropWhile isOws).reverse.dropWhile isOws).reverse

/-- The tokens of a line, of whatever bytes it is. -/
def lineTokens (value : Str) : List Str := ((value.splitOn ',').map trimOws).filter (· ≠ [])

/-- A token of some `Vary` line. -/
def HasToken (headers : HeaderMap Str) (token : Str) : Prop :=
  ∃ value ∈ headers.getAll vary, token ∈ lineTokens value

/-- The tokens of all the lines, without their case. -/
def varySet (headers : HeaderMap Str) : Set Str :=
  {folded | ∃ token, HasToken headers token ∧ token.map Char.toLower = folded}

/-- The name is added, and nothing else happens: not at all under a `*`, and only once. -/
structure Adds (ensure : HeaderMap Str → HeaderMap Str) (name : Str) (headers : HeaderMap Str) : Prop where
  star : HasToken headers ['*'] → ensure headers = headers
  union : ¬ HasToken headers ['*'] → varySet (ensure headers) = insert (name.map Char.toLower) (varySet headers)
  others : ∀ other, other ≠ vary → (ensure headers).getAll other = headers.getAll other
  again : ensure (ensure headers) = ensure headers

/-- Both names are added to the tokens, in either order. -/
structure VaryUnion (headers : HeaderMap Str) : Prop where
  inertia : Adds ensureVaryXInertia "X-Inertia".toList headers
  language : Adds ensureVaryAcceptLanguage acceptLanguage headers
  order : varySet (ensureVaryAcceptLanguage (ensureVaryXInertia headers)) =
    varySet (ensureVaryXInertia (ensureVaryAcceptLanguage headers))

/-! ### What can be read -/

theorem headerToStr_of_readable {value : Str} (h : Readable value) : headerToStr value = some value := by
  have hall : value.all (fun c => decide (c = '\t' ∨ (' ' ≤ c ∧ c ≤ '~'))) = true :=
    List.all_eq_true.mpr fun c hc => decide_eq_true (h c hc)
  rw [headerToStr, if_pos hall]

theorem headerToStr_of_not_readable {value : Str} (h : ¬ Readable value) : headerToStr value = none := by
  rw [headerToStr, if_neg]
  exact fun hall => h fun c hc => of_decide_eq_true (List.all_eq_true.mp hall c hc)

theorem visible_ascii {c : Char} (h : Visible c) : c.toNat < 128 := by
  rcases h with rfl | ⟨-, h⟩
  · decide
  · have hle : c.toNat ≤ '~'.toNat := h
    exact Nat.lt_of_le_of_lt hle (by decide)

/-- A visible character is white space if it is a blank. -/
theorem isWhiteSpace_of_visible {c : Char} (h : Visible c) : Str.isWhiteSpace c = isOws c :=
  Ascii.forall_ascii (fun c => (c = '\t' ∨ (' ' ≤ c ∧ c ≤ '~')) → Str.isWhiteSpace c = isOws c) (by decide +kernel)
    (visible_ascii h) h

theorem visible_toLower {c : Char} (h : Visible c) : Visible c.toLower :=
  Ascii.forall_ascii (fun c => (c = '\t' ∨ (' ' ≤ c ∧ c ≤ '~')) →
    (c.toLower = '\t' ∨ (' ' ≤ c.toLower ∧ c.toLower ≤ '~'))) (by decide +kernel) (visible_ascii h) h

/-- Only visible characters have a lower case. -/
theorem toLower_of_not_visible {c : Char} (h : ¬ Visible c) : c.toLower = c := by
  unfold Char.toLower
  split_ifs with hupper
  · refine absurd (.inr ⟨?_, ?_⟩) h
    · exact (show ' ' ≤ 'A' by decide).trans hupper.1
    · exact (show c ≤ 'Z' from hupper.2).trans (by decide)
  · rfl

theorem trim_eq_trimOws {s : Str} (h : Readable s) : Str.trim s = trimOws s := by
  have hdrop : ∀ {s : Str}, Readable s → s.dropWhile Str.isWhiteSpace = s.dropWhile isOws := by
    intro s hs
    induction s with
    | nil => rfl
    | cons c s ih =>
      rw [List.dropWhile_cons, List.dropWhile_cons, isWhiteSpace_of_visible (hs c List.mem_cons_self),
        ih fun d hd => hs d (List.mem_cons_of_mem c hd)]
  have hrest : Readable (s.dropWhile isOws).reverse := fun c hc =>
    h c ((List.dropWhile_sublist isOws).mem (List.mem_reverse.mp hc))
  rw [Str.trim, trimOws, hdrop h, hdrop hrest]

theorem readable_of_mem_splitOn {value piece : Str} (h : Readable value) (hpiece : piece ∈ value.splitOn ',') :
    Readable piece := fun c hc => h c ((Str.sublist_of_mem_splitOn hpiece).mem hc)

/-- The tokens of a line are read if it can be read. -/
theorem varyTokens_of_readable {value : Str} (h : Readable value) : varyTokens value = lineTokens value := by
  rw [varyTokens, headerToStr_of_readable h, lineTokens]
  dsimp only
  rw [List.map_congr_left fun piece hpiece => trim_eq_trimOws (readable_of_mem_splitOn h hpiece)]

theorem varyTokens_of_not_readable {value : Str} (h : ¬ Readable value) : varyTokens value = [] := by
  rw [varyTokens, headerToStr_of_not_readable h]

/-! ### Tokens put in a line -/

/-- A token as it is read: visible, in one piece and trimmed. -/
structure IsToken (token : Str) : Prop where
  ne_nil : token ≠ []
  readable : Readable token
  piece : ',' ∉ token
  trimmed : Str.trim token = token

theorem isToken_of_mem {value token : Str} (h : token ∈ varyTokens value) : IsToken token := by
  by_cases hvalue : Readable value
  · rw [varyTokens, headerToStr_of_readable hvalue] at h
    obtain ⟨hmem, hne⟩ := List.mem_filter.mp h
    obtain ⟨piece, hpiece, rfl⟩ := List.mem_map.mp hmem
    have hsublist := (Str.trim_infix_self piece).sublist
    exact ⟨of_decide_eq_true hne, fun c hc => readable_of_mem_splitOn hvalue hpiece c (hsublist.mem hc),
      fun hc => Str.sep_notMem_splitOn hpiece (hsublist.mem hc), Str.trim_trim piece⟩
  · rw [varyTokens_of_not_readable hvalue] at h
    exact absurd h (List.not_mem_nil)

/-- One line of the tokens. -/
def joined (tokens : List Str) : Str := ", ".toList.intercalate tokens

theorem joined_cons_cons (token next : Str) (tokens : List Str) :
    joined (token :: next :: tokens) = token ++ ',' :: ' ' :: joined (next :: tokens) := by
  rw [joined, List.intercalate_cons_cons, List.append_assoc]
  rfl

theorem readable_joined {tokens : List Str} (h : ∀ token ∈ tokens, IsToken token) : Readable (joined tokens) := by
  induction tokens with
  | nil => exact fun c hc => absurd hc (by simp [joined])
  | cons token tokens ih =>
    have htoken := (h token List.mem_cons_self).readable
    cases tokens with
    | nil => simpa [joined] using htoken
    | cons next tokens =>
      have hrest := ih fun t ht => h t (List.mem_cons_of_mem token ht)
      rw [joined_cons_cons]
      intro c hc
      simp only [List.mem_append, List.mem_cons] at hc
      rcases hc with hc | rfl | rfl | hc
      · exact htoken c hc
      · decide
      · decide
      · exact hrest c hc

/-- The pieces of a text, trimmed, without the empty ones. -/
def pieces (s : Str) : List Str := ((s.splitOn ',').map Str.trim).filter (· ≠ [])

theorem pieces_append (s t : Str) : pieces (s ++ ',' :: t) = pieces s ++ pieces t := by
  rw [pieces, List.splitOn_append_cons_self, List.map_append, List.filter_append, ← pieces, ← pieces]

theorem pieces_blank (s : Str) : pieces (' ' :: s) = pieces s := by
  obtain ⟨piece, rest, hsplit⟩ := List.exists_cons_of_ne_nil (List.splitOn_ne_nil ',' s)
  have hspace : ∀ c ∈ [' '], Str.isWhiteSpace c = true := by decide
  have hblank : Str.trim (' ' :: piece) = Str.trim piece := Str.trim_append_of_space hspace piece
  rw [pieces, pieces, List.splitOn_cons_eq_if_modifyHead, if_neg (by decide), hsplit, List.modifyHead_cons,
    List.map_cons, List.map_cons, hblank]

theorem pieces_token {token : Str} (h : IsToken token) : pieces token = [token] := by
  rw [pieces, List.splitOn_eq_singleton h.piece, List.map_singleton, h.trimmed,
    List.filter_cons_of_pos (by simpa using h.ne_nil), List.filter_nil]

/-- The tokens of a line are those it was joined from. -/
theorem varyTokens_joined {tokens : List Str} (h : ∀ token ∈ tokens, IsToken token) :
    varyTokens (joined tokens) = tokens := by
  have hpieces : pieces (joined tokens) = tokens := by
    induction tokens with
    | nil => simp [joined, pieces, Str.trim]
    | cons token tokens ih =>
      have htoken := pieces_token (h token List.mem_cons_self)
      cases tokens with
      | nil => simpa [joined] using htoken
      | cons next tokens =>
        rw [joined_cons_cons, pieces_append, pieces_blank, htoken, ih fun t ht => h t (List.mem_cons_of_mem token ht)]
        rfl
  rw [varyTokens, headerToStr_of_readable (readable_joined h)]
  exact hpieces

/-! ### What the two do -/

section cases

variable {headers : HeaderMap Str}

/-- What is read of the lines. -/
def readTokens (headers : HeaderMap Str) : List Str := (headers.getAll vary).flatMap varyTokens

theorem isToken_of_mem_readTokens {token : Str} (h : token ∈ readTokens headers) : IsToken token := by
  obtain ⟨value, -, hmem⟩ := List.mem_flatMap.mp h
  exact isToken_of_mem hmem

@[simp] theorem readTokens_insert {tokens : List Str} (h : ∀ token ∈ tokens, IsToken token) :
    readTokens (headers.insert vary (joined tokens)) = tokens := by
  rw [readTokens, HeaderMap.getAll_insert, if_pos rfl, List.flatMap_singleton, varyTokens_joined h]

/-- The tokens without their case. -/
def folds (tokens : List Str) : List Str := tokens.map (List.map Char.toLower)

theorem folds_append (tokens tokens' : List Str) : folds (tokens ++ tokens') = folds tokens ++ folds tokens' :=
  List.map_append

@[simp] theorem folds_cons (token : Str) (tokens : List Str) :
    folds (token :: tokens) = token.map Char.toLower :: folds tokens := rfl

@[simp] theorem folds_nil : folds [] = [] := rfl

theorem any_eqIgnoreAsciiCase {tokens : List Str} {token : Str} :
    tokens.any (eqIgnoreAsciiCase · token) = true ↔ token.map Char.toLower ∈ folds tokens := by
  simp [folds, eqIgnoreAsciiCase]

theorem mem_folds_pushToken {tokens : List Str} {token folded : Str} :
    folded ∈ folds (pushToken tokens token) ↔ folded = token.map Char.toLower ∨ folded ∈ folds tokens := by
  rw [pushToken]
  split_ifs with hany
  · refine ⟨.inr, fun h => h.elim (fun heq => ?_) id⟩
    rw [heq]
    exact any_eqIgnoreAsciiCase.mp hany
  · rw [folds_append, folds_cons, folds_nil, List.mem_append, List.mem_singleton, or_comm]

theorem mem_of_mem_pushToken {tokens : List Str} {token t : Str} (h : t ∈ pushToken tokens token) :
    t = token ∨ t ∈ tokens := by
  rw [pushToken] at h
  split_ifs at h
  · exact .inr h
  · exact (List.mem_append.mp h).symm.imp_left List.mem_singleton.mp

theorem nodup_folds_pushToken {tokens : List Str} {token : Str} (h : (folds tokens).Nodup) :
    (folds (pushToken tokens token)).Nodup := by
  rw [pushToken]
  split_ifs with hany
  · exact h
  · rw [folds_append]
    refine List.Nodup.append h (List.nodup_singleton _) (List.disjoint_singleton.mpr ?_)
    exact fun hmem => hany (any_eqIgnoreAsciiCase.mpr hmem)

/-- The loop over the tokens keeps the first of each, whatever it starts with. -/
theorem foldl_pushToken (read tokens : List Str) :
    (∀ folded, folded ∈ folds (read.foldl pushToken tokens) ↔ folded ∈ folds read ∨ folded ∈ folds tokens) ∧
    (∀ t ∈ read.foldl pushToken tokens, t ∈ read ∨ t ∈ tokens) ∧
    ((folds tokens).Nodup → (folds (read.foldl pushToken tokens)).Nodup) := by
  induction read generalizing tokens with
  | nil => exact ⟨fun folded => by simp, fun t ht => .inr ht, id⟩
  | cons token read ih =>
    obtain ⟨hfolds, hmem, hnodup⟩ := ih (pushToken tokens token)
    refine ⟨fun folded => ?_, fun t ht => ?_, fun h => hnodup (nodup_folds_pushToken h)⟩
    · rw [List.foldl_cons, hfolds, mem_folds_pushToken, folds_cons, List.mem_cons]
      tauto
    · rcases hmem t ht with h | h
      · exact .inl (List.mem_cons_of_mem token h)
      · exact (mem_of_mem_pushToken h).imp_left fun heq => by rw [heq]; exact List.mem_cons_self

/-- Tokens that are all different are kept. -/
theorem foldl_pushToken_of_nodup {read tokens : List Str} (h : (folds (tokens ++ read)).Nodup) :
    read.foldl pushToken tokens = tokens ++ read := by
  induction read generalizing tokens with
  | nil => exact (List.append_nil tokens).symm
  | cons token read ih =>
    have hshape : folds (tokens ++ token :: read) = folds (tokens ++ [token]) ++ folds read := by
      rw [← folds_append, List.append_assoc, List.singleton_append]
    have hnotmem : token.map Char.toLower ∉ folds tokens := by
      have hpart := (List.nodup_append.mp (hshape ▸ h)).1
      rw [folds_append] at hpart
      exact fun hmem => (List.nodup_append.mp hpart).2.2 _ hmem _ (List.mem_singleton.mpr rfl) rfl
    have hpush : pushToken tokens token = tokens ++ [token] := by
      rw [pushToken, if_neg (any_eqIgnoreAsciiCase.not.mpr hnotmem)]
    rw [List.foldl_cons, hpush, ih (by rwa [List.append_assoc, List.singleton_append]), List.append_assoc,
      List.singleton_append]

/-- Every line can be read. -/
def AllReadable (headers : HeaderMap Str) : Prop := ∀ value ∈ headers.getAll vary, Readable value

/-- What is read is a token. -/
theorem hasToken_of_mem_readTokens {token : Str} (h : token ∈ readTokens headers) : HasToken headers token := by
  obtain ⟨value, hvalue, hmem⟩ := List.mem_flatMap.mp h
  by_cases hread : Readable value
  · exact ⟨value, hvalue, varyTokens_of_readable hread ▸ hmem⟩
  · rw [varyTokens_of_not_readable hread] at hmem
    exact absurd hmem List.not_mem_nil

theorem AllReadable.hasToken_iff (h : AllReadable headers) {token : Str} :
    HasToken headers token ↔ token ∈ readTokens headers := by
  refine ⟨fun ⟨value, hvalue, hmem⟩ => ?_, hasToken_of_mem_readTokens⟩
  exact List.mem_flatMap.mpr ⟨value, hvalue, (varyTokens_of_readable (h value hvalue)).symm ▸ hmem⟩

theorem AllReadable.mem_varySet (h : AllReadable headers) {folded : Str} :
    folded ∈ varySet headers ↔ folded ∈ folds (readTokens headers) := by
  rw [folds, List.mem_map]
  exact exists_congr fun token => and_congr_left fun _ => h.hasToken_iff

theorem allReadable_insert {tokens : List Str} (h : ∀ token ∈ tokens, IsToken token) :
    AllReadable (headers.insert vary (joined tokens)) := by
  intro value hvalue
  rw [HeaderMap.getAll_insert, if_pos rfl, List.mem_singleton] at hvalue
  exact hvalue ▸ readable_joined h

/-- The new line holds its tokens and no others. -/
theorem mem_varySet_insert {tokens : List Str} (h : ∀ token ∈ tokens, IsToken token) {folded : Str} :
    folded ∈ varySet (headers.insert vary (joined tokens)) ↔ folded ∈ folds tokens := by
  rw [(allReadable_insert h).mem_varySet, readTokens_insert h]

/-- No star is read as another token, nor another token as a star. -/
theorem star_mem_folds {tokens : List Str} : ['*'] ∈ folds tokens ↔ ['*'] ∈ tokens := by
  have hstar : ∀ c : Char, c.toLower = '*' → c = '*' := by
    intro c hc
    by_cases hvisible : Visible c
    · exact Ascii.forall_ascii (fun c => c.toLower = '*' → c = '*') (by decide +kernel) (visible_ascii hvisible) hc
    · exact (toLower_of_not_visible hvisible).symm.trans hc
  refine ⟨fun h => ?_, fun h => List.mem_map.mpr ⟨['*'], h, rfl⟩⟩
  obtain ⟨token, hmem, hfold⟩ := List.mem_map.mp h
  obtain ⟨c, rfl, hc⟩ := List.map_eq_singleton_iff.mp hfold
  exact hstar c hc ▸ hmem

theorem xInertia_isToken : IsToken "X-Inertia".toList :=
  ⟨by decide, by decide, by decide, by decide⟩

theorem acceptLanguage_isToken : IsToken acceptLanguage := ⟨by decide, by decide, by decide, by decide⟩

/-- `ensureVaryXInertia` leaves a map with a star that can be read, and else puts one line in. -/
theorem ensureVaryXInertia_cases (headers : HeaderMap Str) :
    (['*'] ∈ readTokens headers ∧ ensureVaryXInertia headers = headers) ∨
    (['*'] ∉ readTokens headers ∧ ∃ tokens, ensureVaryXInertia headers = headers.insert vary (joined tokens) ∧
      (∀ token ∈ tokens, IsToken token) ∧ (folds tokens).Nodup ∧
      ∀ folded, folded ∈ folds tokens ↔
        folded = "X-Inertia".toList.map Char.toLower ∨ folded ∈ folds (readTokens headers)) := by
  rw [ensureVaryXInertia]
  split_ifs with habsent
  · have hread : readTokens headers = [] := by rw [readTokens, habsent, List.flatMap_nil]
    refine .inr ⟨by rw [hread]; exact List.not_mem_nil, ["X-Inertia".toList], ?_, ?_, List.nodup_singleton _, ?_⟩
    · rw [joined, List.intercalate_singleton]
    · exact fun token htoken => List.mem_singleton.mp htoken ▸ xInertia_isToken
    · intro folded
      rw [hread, folds_cons, folds_nil, List.mem_singleton]
      simp
  · rw [← readTokens]
    dsimp only
    split_ifs with hstar
    · exact .inl ⟨List.contains_iff_mem.mp hstar, rfl⟩
    · obtain ⟨hfolds, hmem, hnodup⟩ := foldl_pushToken (readTokens headers) []
      refine .inr ⟨fun h => hstar (List.contains_iff_mem.mpr h), _, rfl, fun token htoken => ?_,
        nodup_folds_pushToken (hnodup List.nodup_nil), fun folded => ?_⟩
      · rcases mem_of_mem_pushToken htoken with rfl | htoken
        · exact xInertia_isToken
        · rcases hmem token htoken with htoken | htoken
          · exact isToken_of_mem_readTokens htoken
          · exact absurd htoken List.not_mem_nil
      · rw [mem_folds_pushToken, hfolds]
        simp

/-- `ensureVaryAcceptLanguage` leaves a map that has its token or a star, and else puts one line in. -/
theorem ensureVaryAcceptLanguage_cases (headers : HeaderMap Str) :
    ((['*'] ∈ readTokens headers ∨ acceptLanguage.map Char.toLower ∈ folds (readTokens headers)) ∧
      ensureVaryAcceptLanguage headers = headers) ∨
    (¬ (['*'] ∈ readTokens headers ∨ acceptLanguage.map Char.toLower ∈ folds (readTokens headers)) ∧
      (∀ token ∈ readTokens headers ++ [acceptLanguage], IsToken token) ∧
      ensureVaryAcceptLanguage headers = headers.insert vary (joined (readTokens headers ++ [acceptLanguage]))) := by
  have hany : ((readTokens headers).any fun token => token = ['*'] || eqIgnoreAsciiCase token acceptLanguage) = true ↔
      ['*'] ∈ readTokens headers ∨ acceptLanguage.map Char.toLower ∈ folds (readTokens headers) := by
    rw [← any_eqIgnoreAsciiCase, List.any_eq_true, List.any_eq_true]
    constructor
    · rintro ⟨token, hmem, htoken⟩
      rcases Bool.or_eq_true_iff.mp htoken with h | h
      · exact .inl (of_decide_eq_true h ▸ hmem)
      · exact .inr ⟨token, hmem, h⟩
    · rintro (hmem | ⟨token, hmem, h⟩)
      · exact ⟨['*'], hmem, rfl⟩
      · exact ⟨token, hmem, by rw [h, Bool.or_true]⟩
  rw [ensureVaryAcceptLanguage, ← readTokens]
  split_ifs with hfound
  · exact .inl ⟨hany.mp hfound, rfl⟩
  · have htokens : ∀ token ∈ readTokens headers ++ [acceptLanguage], IsToken token := by
      intro token htoken
      rcases List.mem_append.mp htoken with htoken | htoken
      · exact isToken_of_mem_readTokens htoken
      · exact List.mem_singleton.mp htoken ▸ acceptLanguage_isToken
    refine .inr ⟨fun h => hfound (hany.mpr h), htokens, ?_⟩
    rw [← joined, headerToStr_of_readable (readable_joined htokens)]

/-! ### The union -/

/-- Only the lines of `Vary` are touched. -/
theorem getAll_insert_vary (line : Str) {other : Str} (h : other ≠ vary) :
    (headers.insert vary line).getAll other = headers.getAll other := by
  rw [HeaderMap.getAll_insert, if_neg h.symm]

/-- One line in the place of one line. -/
theorem insert_insert (line : Str) : (headers.insert vary line).insert vary line = headers.insert vary line := by
  rw [HeaderMap.insert, HeaderMap.insert, List.filter_append, List.filter_filter]
  simp

theorem ensureVaryXInertia_again (headers : HeaderMap Str) :
    ensureVaryXInertia (ensureVaryXInertia headers) = ensureVaryXInertia headers := by
  rcases ensureVaryXInertia_cases headers with ⟨-, heq⟩ | ⟨hstar, tokens, heq, htokens, hnodup, hfolds⟩
  · rw [heq, heq]
  · have hread : readTokens (headers.insert vary (joined tokens)) = tokens := readTokens_insert htokens
    have hinertia : tokens.any (eqIgnoreAsciiCase · "X-Inertia".toList) = true :=
      any_eqIgnoreAsciiCase.mpr ((hfolds _).mpr (.inl rfl))
    have hno : ¬ tokens.contains ['*'] = true := by
      rw [List.contains_iff_mem, ← star_mem_folds, hfolds, star_mem_folds]
      rintro (h | h)
      · exact absurd h (by decide)
      · exact hstar h
    have hkept : pushToken (tokens.foldl pushToken []) "X-Inertia".toList = tokens := by
      rw [foldl_pushToken_of_nodup (by simpa using hnodup), List.nil_append, pushToken, if_pos hinertia]
    have hlines : ¬ (headers.insert vary (joined tokens)).getAll vary = [] := by
      rw [HeaderMap.getAll_insert, if_pos rfl]
      exact List.cons_ne_nil _ _
    rw [heq, ensureVaryXInertia, if_neg hlines, ← readTokens, hread]
    dsimp only
    rw [if_neg hno, hkept, ← joined, insert_insert]

theorem ensureVaryAcceptLanguage_again (headers : HeaderMap Str) :
    ensureVaryAcceptLanguage (ensureVaryAcceptLanguage headers) = ensureVaryAcceptLanguage headers := by
  rcases ensureVaryAcceptLanguage_cases headers with ⟨-, heq⟩ | ⟨-, htokens, heq⟩
  · rw [heq, heq]
  · rw [heq]
    rcases ensureVaryAcceptLanguage_cases (headers.insert vary (joined (readTokens headers ++ [acceptLanguage])))
      with ⟨-, hkept⟩ | ⟨hfresh, -, -⟩
    · exact hkept
    · rw [readTokens_insert htokens, folds_append] at hfresh
      exact absurd (.inr (List.mem_append_right _ List.mem_cons_self)) hfresh

/-- What a function of the two does: it puts one line in, or there was nothing to add. -/
def Puts (ensure : HeaderMap Str → HeaderMap Str) (name : Str) : Prop := ∀ headers,
  ((['*'] ∈ readTokens headers ∨ name.map Char.toLower ∈ folds (readTokens headers)) ∧ ensure headers = headers) ∨
  (['*'] ∉ readTokens headers ∧ ∃ tokens, ensure headers = headers.insert vary (joined tokens) ∧
    (∀ token ∈ tokens, IsToken token) ∧
    ∀ folded, folded ∈ folds tokens ↔ folded = name.map Char.toLower ∨ folded ∈ folds (readTokens headers))

theorem puts_xInertia : Puts ensureVaryXInertia "X-Inertia".toList := by
  intro headers
  rcases ensureVaryXInertia_cases headers with ⟨hstar, heq⟩ | ⟨hstar, tokens, heq, htokens, -, hfolds⟩
  · exact .inl ⟨.inl hstar, heq⟩
  · exact .inr ⟨hstar, tokens, heq, htokens, hfolds⟩

theorem puts_acceptLanguage : Puts ensureVaryAcceptLanguage acceptLanguage := by
  intro headers
  rcases ensureVaryAcceptLanguage_cases headers with hkept | ⟨hfresh, htokens, heq⟩
  · exact .inl hkept
  · refine .inr ⟨fun hstar => hfresh (.inl hstar), _, heq, htokens, fun folded => ?_⟩
    rw [folds_append, List.mem_append, folds_cons, folds_nil, List.mem_singleton, or_comm]

section puts

variable {ensure : HeaderMap Str → HeaderMap Str} {name : Str}

theorem Puts.of_star (hputs : Puts ensure name) (h : ['*'] ∈ readTokens headers) : ensure headers = headers := by
  rcases hputs headers with ⟨-, heq⟩ | ⟨hstar, -⟩
  · exact heq
  · exact absurd h hstar

theorem Puts.allReadable (hputs : Puts ensure name) (h : AllReadable headers) : AllReadable (ensure headers) := by
  rcases hputs headers with ⟨-, heq⟩ | ⟨-, tokens, heq, htokens, -⟩
  · exact heq.symm ▸ h
  · exact heq.symm ▸ allReadable_insert htokens

/-- Where all the lines can be read, the tokens grow by the name. -/
theorem Puts.union (hputs : Puts ensure name) (h : AllReadable headers) (hstar : ['*'] ∉ readTokens headers) :
    varySet (ensure headers) = insert (name.map Char.toLower) (varySet headers) := by
  ext folded
  rw [Set.mem_insert_iff, h.mem_varySet]
  rcases hputs headers with ⟨hthere, heq⟩ | ⟨-, tokens, heq, htokens, hfolds⟩
  · rw [heq, h.mem_varySet]
    refine ⟨.inr, fun hmem => hmem.elim (fun hname => ?_) id⟩
    exact hname ▸ hthere.resolve_left hstar
  · rw [heq, mem_varySet_insert htokens, hfolds]

/-- The same where a star can be read, as nothing is done. -/
theorem Puts.adds (hputs : Puts ensure name) (hagain : ensure (ensure headers) = ensure headers)
    (h : AllReadable headers ∨ ['*'] ∈ readTokens headers) : Adds ensure name headers where
  star htoken := hputs.of_star (h.elim (fun hread => hread.hasToken_iff.mp htoken) id)
  union htoken := by
    have hstar : ['*'] ∉ readTokens headers := fun hmem => htoken (hasToken_of_mem_readTokens hmem)
    exact hputs.union (h.resolve_right hstar) hstar
  others other hother := by
    rcases hputs headers with ⟨-, heq⟩ | ⟨-, tokens, heq, -⟩
    · rw [heq]
    · rw [heq, getAll_insert_vary _ hother]
  again := hagain

/-- No star comes in with a name that is none. -/
theorem Puts.star_notMem (hputs : Puts ensure name) (h : AllReadable headers) (hstar : ['*'] ∉ readTokens headers)
    (hname : ['*'] ≠ name.map Char.toLower) : ['*'] ∉ readTokens (ensure headers) := by
  rw [← star_mem_folds, ← (hputs.allReadable h).mem_varySet, hputs.union h hstar, Set.mem_insert_iff, not_or,
    h.mem_varySet, star_mem_folds]
  exact ⟨hname, hstar⟩

end puts

/-- A line that cannot be read has a token with a character that no new line has. -/
theorem exists_token_of_not_readable {value : Str} (h : ¬ Readable value) :
    ∃ token ∈ lineTokens value, ∃ c ∈ token.map Char.toLower, ¬ Visible c := by
  rw [Readable] at h
  push Not at h
  obtain ⟨c, hc, hvisible⟩ := h
  have hows : isOws c = false := by
    rw [isOws, decide_eq_false_iff_not]
    intro hmem
    simp only [List.mem_cons, List.not_mem_nil, or_false] at hmem
    rcases hmem with rfl | rfl <;> exact absurd hvisible (by decide)
  have hkept : ∀ s : Str, c ∈ s → c ∈ s.dropWhile isOws := by
    intro s hs
    rw [← List.takeWhile_append_dropWhile (p := isOws) (l := s), List.mem_append] at hs
    refine hs.resolve_left fun htake => ?_
    rw [List.mem_takeWhile_imp htake] at hows
    exact Bool.noConfusion hows
  have hcomma : c ≠ ',' := by
    rintro rfl
    exact hvisible (by decide)
  obtain ⟨piece, hpiece, hmem⟩ := (Str.mem_splitOn hcomma value).mpr hc
  have htrim : c ∈ trimOws piece :=
    List.mem_reverse.mpr (hkept _ (List.mem_reverse.mpr (hkept piece hmem)))
  refine ⟨trimOws piece, List.mem_filter.mpr ⟨List.mem_map.mpr ⟨piece, hpiece, rfl⟩, ?_⟩, c, ?_, hvisible⟩
  · exact decide_eq_true (List.ne_nil_of_mem htrim)
  · exact List.mem_map.mpr ⟨c, htrim, toLower_of_not_visible hvisible⟩

/-- A new line does not stand for a line that could not be read. -/
theorem allReadable_of_adds (h : Adds ensureVaryXInertia "X-Inertia".toList headers)
    (hstar : ['*'] ∉ readTokens headers) : AllReadable headers := by
  rcases ensureVaryXInertia_cases headers with ⟨hmem, -⟩ | ⟨-, tokens, heq, htokens, -⟩
  · exact absurd hmem hstar
  · by_cases htoken : HasToken headers ['*']
    · -- a star that cannot be read: the map would have to be left
      have hkept := heq.symm.trans (h.star htoken)
      exact hkept ▸ allReadable_insert htokens
    · intro value hvalue
      by_contra hread
      obtain ⟨token, hmem, c, hc, hvisible⟩ := exists_token_of_not_readable hread
      have hunion : token.map Char.toLower ∈ varySet (ensureVaryXInertia headers) := by
        rw [h.union htoken]
        exact Set.mem_insert_of_mem _ ⟨token, ⟨value, hvalue, hmem⟩, rfl⟩
      rw [heq, mem_varySet_insert htokens] at hunion
      obtain ⟨written, hwritten, hfold⟩ := List.mem_map.mp hunion
      rw [← hfold] at hc
      obtain ⟨d, hd, rfl⟩ := List.mem_map.mp hc
      exact hvisible (visible_toLower ((htokens written hwritten).readable d hd))

/-- A union needs lines that can be read. -/
theorem allReadable_or_star_of_union (h : VaryUnion headers) : AllReadable headers ∨ ['*'] ∈ readTokens headers := by
  by_cases hstar : ['*'] ∈ readTokens headers
  · exact .inr hstar
  · exact .inl (allReadable_of_adds h.inertia hstar)

/-- Whatever the lines: the names are added to the tokens as to a set exactly if every line can be read, or one
    that can be read has a star. -/
theorem union_iff (headers : HeaderMap Str) : VaryUnion headers ↔
    (∀ value ∈ headers.getAll vary, Readable value) ∨
      ∃ value ∈ headers.getAll vary, Readable value ∧ ['*'] ∈ lineTokens value := by
  have hstar_iff : (∃ value ∈ headers.getAll vary, Readable value ∧ ['*'] ∈ lineTokens value) ↔
      ['*'] ∈ readTokens headers := by
    rw [readTokens, List.mem_flatMap]
    refine exists_congr fun value => and_congr_right fun _ => ?_
    by_cases hread : Readable value
    · rw [varyTokens_of_readable hread, and_iff_right hread]
    · rw [varyTokens_of_not_readable hread]
      exact ⟨fun h => absurd h.1 hread, fun h => absurd h List.not_mem_nil⟩
  rw [hstar_iff]
  refine ⟨allReadable_or_star_of_union, fun h => ⟨puts_xInertia.adds (ensureVaryXInertia_again headers) h,
    puts_acceptLanguage.adds (ensureVaryAcceptLanguage_again headers) h, ?_⟩⟩
  by_cases hstar : ['*'] ∈ readTokens headers
  · rw [puts_xInertia.of_star hstar, puts_acceptLanguage.of_star hstar, puts_xInertia.of_star hstar]
  · have hread : AllReadable headers := h.resolve_right hstar
    have hinertia := puts_xInertia.star_notMem hread hstar (by decide)
    have hlanguage := puts_acceptLanguage.star_notMem hread hstar (by decide)
    rw [puts_acceptLanguage.union (puts_xInertia.allReadable hread) hinertia, puts_xInertia.union hread hstar,
      puts_xInertia.union (puts_acceptLanguage.allReadable hread) hlanguage,
      puts_acceptLanguage.union hread hstar, Set.insert_comm]

end cases

/-- A line with a character that is not ASCII is lost with all its tokens. -/
theorem foreign_line_lost : ¬ VaryUnion [(vary, "Cookie, caf\u00e9".toList)] := by
  intro h
  rcases allReadable_or_star_of_union h with hread | hstar
  · exact absurd (hread _ List.mem_cons_self) (by decide)
  · exact absurd hstar (by decide)

end Arcature.Http
