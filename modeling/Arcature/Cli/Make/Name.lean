import Arcature.Lib.Ascii
import Arcature.Lib.ModuleTree

/-! What the developer typed, as the names a generator needs.

    A name is cut at `/`, `\` and `::`, and every part is turned into snake case: the last part is the
    stem of the file, the ones before it are the directories the file goes into. An `ArtifactName`
    holds parts that are snake case, so each of them is an identifier. -/

namespace Arcature.Cli.Make
open Lib

/-- `NameError`. -/
inductive NameError where
  | empty
  | badSegment (segment : Str)
  deriving DecidableEq

/-! ### Snake case -/

/-- Whether an upper-case letter starts a word, from the characters on either side of it. -/
def startsWord (previous : Option Char) (current : Char) (next : Option Char) : Bool :=
  current.isUpper && previous.any fun p =>
    p.isLower || p.isDigit || (p.isUpper && next.any Char.isLower)

/-- The loop of `to_snake_case`. -/
def snakeFrom (previous : Option Char) (out : Str) : Str → Str
  | [] => out
  | current :: rest =>
    if current = '-' ∨ current = '_' ∨ current = ' ' then
      snakeFrom (some current) (if out.getLast? ≠ some '_' ∧ out ≠ [] then out ++ ['_'] else out) rest
    else
      let broken :=
        if startsWord previous current rest.head? ∧ out.getLast? ≠ some '_' then out ++ ['_'] else out
      snakeFrom (some current) (broken ++ [current.toLower]) rest

/-- `to_snake_case`. -/
def toSnakeCase (input : Str) : Str :=
  ((snakeFrom none [] input).dropWhile (· == '_')).rdropWhile (· == '_')

/-- A word with its first letter in upper case. -/
def capitalize : Str → Str
  | [] => []
  | first :: rest => first.toUpper :: rest

/-- `pascal`. -/
def pascal (snake : Str) : Str := ((snake.splitOn '_').filter (· ≠ [])).flatMap capitalize

/-- `to_pascal_case`. -/
def toPascalCase (input : Str) : Str := pascal (toSnakeCase input)

/-- `pluralize`. -/
def pluralize (word : Str) : Str :=
  match (word.dropSuffix? ['y']).filter fun stem => !stem.getLast?.any ("aeiou".toList.contains ·) with
  | some stem => stem ++ "ies".toList
  | none =>
    if ["s", "x", "z", "ch", "sh"].any fun ending => ending.toList.isSuffixOf word then word ++ "es".toList
    else word ++ "s".toList

/-! ### Names -/

/-- A character of a snake-case name. -/
def isSnakeChar (c : Char) : Bool := c.isLower || c.isDigit || c == '_'

/-- A name in snake case that starts with a letter. -/
def isSnake : Str → Bool
  | [] => false
  | c :: rest => c.isLower && rest.all isSnakeChar

/-- `validate`: the part is a plain identifier. -/
def valid (segment : Str) : Bool :=
  segment.head?.any Char.isAlpha && segment.all fun c => c.isAlphanum || c == '_' || c == '-'

theorem isSnake_iff {s : Str} :
    isSnake s = true ↔ (∃ c, s.head? = some c ∧ c.isLower = true) ∧ ∀ c ∈ s, isSnakeChar c = true := by
  cases s with
  | nil => simp [isSnake]
  | cons c rest =>
    simp only [isSnake, Bool.and_eq_true, List.all_eq_true, List.head?_cons, Option.some.injEq,
      exists_eq_left', List.mem_cons, forall_eq_or_imp]
    constructor
    · rintro ⟨hc, hrest⟩
      exact ⟨hc, by simp [isSnakeChar, hc], hrest⟩
    · rintro ⟨hc, -, hrest⟩
      exact ⟨hc, hrest⟩

theorem isSnake_append {s rest : Str} (h : isSnake s = true) (hrest : ∀ c ∈ rest, isSnakeChar c = true) :
    isSnake (s ++ rest) = true := by
  obtain ⟨⟨c, hc, hlower⟩, hall⟩ := isSnake_iff.mp h
  refine isSnake_iff.mpr ⟨⟨c, by rw [List.head?_append, hc]; rfl, hlower⟩, fun d hd => ?_⟩
  exact (List.mem_append.mp hd).elim (hall d) (hrest d)

/-- What a snake-case name starts with is one. -/
theorem isSnake_of_prefix {s p : Str} (h : isSnake s = true) (hp : p <+: s) (hne : p ≠ []) : isSnake p = true := by
  obtain ⟨⟨c, hc, hlower⟩, hall⟩ := isSnake_iff.mp h
  obtain ⟨rest, rfl⟩ := hp
  refine isSnake_iff.mpr ⟨⟨c, ?_, hlower⟩, fun d hd => hall d (List.mem_append_left rest hd)⟩
  rw [List.head?_append_of_ne_nil _ hne] at hc
  exact hc

theorem isSnakeChar_toLower {c : Char} (h : c.isAlphanum = true) : isSnakeChar c.toLower = true := by
  rcases Ascii.toLower_of_isAlphanum h with h | h <;> simp [isSnakeChar, h]

/-- Going on with a valid part, the loop keeps to snake case. -/
theorem isSnake_snakeFrom {previous : Option Char} {out rest : Str} (hout : isSnake out = true)
    (hrest : ∀ c ∈ rest, (c.isAlphanum || c == '_' || c == '-') = true) :
    isSnake (snakeFrom previous out rest) = true := by
  induction rest generalizing previous out with
  | nil => exact hout
  | cons c rest ih =>
    have hc := hrest c List.mem_cons_self
    have hgo : ∀ {out'}, isSnake out' = true → isSnake (snakeFrom (some c) out' rest) = true :=
      fun h => ih h fun d hd => hrest d (List.mem_cons_of_mem c hd)
    have hbreak : isSnake (out ++ ['_']) = true := isSnake_append hout (by simp [isSnakeChar])
    rw [snakeFrom]
    by_cases hsep : c = '-' ∨ c = '_' ∨ c = ' '
    · rw [if_pos hsep]
      split_ifs
      · exact hgo hbreak
      · exact hgo hout
    · rw [if_neg hsep]
      have halnum : c.isAlphanum = true := by
        rcases Bool.or_eq_true_iff.mp hc with hc | hc
        · rcases Bool.or_eq_true_iff.mp hc with hc | hc
          · exact hc
          · exact absurd (Or.inr (Or.inl (beq_iff_eq.mp hc))) hsep
        · exact absurd (Or.inl (beq_iff_eq.mp hc)) hsep
      refine hgo (isSnake_append ?_ (by simpa using isSnakeChar_toLower halnum))
      split_ifs
      · exact hbreak
      · exact hout

/-- A valid part has a name in snake case. -/
theorem isSnake_toSnakeCase {segment : Str} (h : valid segment = true) : isSnake (toSnakeCase segment) = true := by
  rw [valid, Bool.and_eq_true, List.all_eq_true] at h
  obtain ⟨hhead, hall⟩ := h
  cases segment with
  | nil => simp at hhead
  | cons c rest =>
    have halpha : c.isAlpha = true := by simpa using hhead
    have hrest : ∀ d ∈ rest, (d.isAlphanum || d == '_' || d == '-') = true :=
      fun d hd => hall d (List.mem_cons_of_mem c hd)
    -- the first letter starts the name, whatever is on its right
    have hfirst : snakeFrom none [] (c :: rest) = snakeFrom (some c) [c.toLower] rest := by
      have hsep : ¬ (c = '-' ∨ c = '_' ∨ c = ' ') := by
        rintro (rfl | rfl | rfl) <;> exact absurd halpha (by decide)
      rw [snakeFrom, if_neg hsep, if_neg (by simp [startsWord])]
      rfl
    have hsnake : isSnake (snakeFrom (some c) [c.toLower] rest) = true :=
      isSnake_snakeFrom (by simp [isSnake, Ascii.isLower_toLower halpha]) hrest
    obtain ⟨⟨d, hd, hlower⟩, -⟩ := isSnake_iff.mp hsnake
    have hd' : d ≠ '_' := by
      rintro rfl
      exact absurd hlower (by decide)
    obtain ⟨tail, htail⟩ : ∃ tail, snakeFrom (some c) [c.toLower] rest = d :: tail :=
      ⟨_, (List.cons_head?_tail hd).symm⟩
    rw [toSnakeCase, hfirst, htail, List.dropWhile_cons_of_neg (by simpa using hd'), ← htail]
    refine isSnake_of_prefix hsnake (List.rdropWhile_prefix _ _) fun hnil => ?_
    rw [List.rdropWhile_eq_nil_iff, htail] at hnil
    exact hd' (by simpa using hnil d List.mem_cons_self)

/-! ### Pascal case -/

/-- A name in Pascal case starts with a capital letter. -/
theorem exists_head_pascal {s : Str} (h : isSnake s = true) : ∃ c, (pascal s).head? = some c ∧ c.isUpper = true := by
  obtain ⟨⟨c, hc, hlower⟩, -⟩ := isSnake_iff.mp h
  obtain ⟨rest, rfl⟩ : ∃ rest, s = c :: rest := ⟨_, (List.cons_head?_tail hc).symm⟩
  have hne : c ≠ '_' := by
    rintro rfl
    exact absurd hlower (by decide)
  obtain ⟨word, words, hwords⟩ := List.exists_cons_of_ne_nil (List.splitOn_ne_nil '_' rest)
  refine ⟨c.toUpper, ?_, Ascii.isUpper_toUpper hlower⟩
  rw [pascal, List.splitOn_cons_eq_if_modifyHead, if_neg (by simpa using hne), hwords, List.modifyHead_cons,
    List.filter_cons_of_pos (by simp), List.flatMap_cons, capitalize]
  rfl

/-- Pascal case has letters and digits only. -/
theorem isAlphanum_of_mem_pascal {s : Str} (h : ∀ c ∈ s, isSnakeChar c = true) {c : Char} (hc : c ∈ pascal s) :
    c.isAlphanum = true := by
  obtain ⟨word, hword, hc⟩ := List.mem_flatMap.mp hc
  have hword := (List.mem_filter.mp hword).1
  have hmem : ∀ d ∈ word, d.isLower = true ∨ d.isDigit = true := by
    intro d hd
    have hsnake := h d ((Str.sublist_of_mem_splitOn hword).mem hd)
    simp only [isSnakeChar, Bool.or_eq_true, beq_iff_eq] at hsnake
    rcases hsnake with hsnake | rfl
    · exact hsnake
    · exact absurd hd (Str.sep_notMem_splitOn hword)
  have hkeep : ∀ d ∈ word, d.isAlphanum = true := fun d hd =>
    (hmem d hd).elim Ascii.isAlphanum_of_isLower Ascii.isAlphanum_of_isDigit
  cases word with
  | nil => exact absurd hc List.not_mem_nil
  | cons first rest =>
    rcases List.mem_cons.mp hc with rfl | hc
    · rcases hmem first List.mem_cons_self with hfirst | hfirst
      · simp [Char.isAlphanum, Ascii.isAlpha_of_isUpper (Ascii.isUpper_toUpper hfirst)]
      · rw [Ascii.toUpper_of_isDigit hfirst]
        exact hkeep first List.mem_cons_self
    · exact hkeep c (List.mem_cons_of_mem first hc)

/-- What is in snake case is a valid part. -/
theorem valid_of_isSnake {s : Str} (h : isSnake s = true) : valid s = true := by
  obtain ⟨⟨c, hc, hlower⟩, hall⟩ := isSnake_iff.mp h
  rw [valid, Bool.and_eq_true, List.all_eq_true, hc]
  refine ⟨by simp [Ascii.isAlpha_of_isLower hlower], fun d hd => ?_⟩
  have hd := hall d hd
  simp only [isSnakeChar, Bool.or_eq_true] at hd
  rcases hd with (hd | hd) | hd
  · simp [Ascii.isAlphanum_of_isLower hd]
  · simp [Ascii.isAlphanum_of_isDigit hd]
  · simp [hd]

/-! ### Artifact names -/

/-- A part of a name. -/
abbrev Segment := {s : Str // isSnake s = true}

/-- `ArtifactName`. -/
structure ArtifactName where
  segments : List Segment
  stem : Segment

/-- A part as it was typed, in snake case. -/
def segment (raw : Str) : Except NameError Segment :=
  if h : valid raw = true then .ok ⟨toSnakeCase raw, isSnake_toSnakeCase h⟩ else .error (.badSegment raw)

/-- `replace("::", "/")`. -/
def replaceColons : Str → Str
  | [] => []
  | ':' :: ':' :: rest => '/' :: replaceColons rest
  | c :: rest => c :: replaceColons rest

namespace ArtifactName

/-- `parse`. -/
def parse (input : Str) : Except NameError ArtifactName :=
  let normalized := (replaceColons input).map fun c => if c = '\\' then '/' else c
  let raw := (normalized.splitOn '/').filter (· ≠ [])
  match raw.getLast? with
  | none => .error .empty
  | some last => do
    let segments ← raw.dropLast.mapM segment
    let stem ← segment last
    .ok { segments, stem }

/-- `base`: the stem without a suffix that was typed already. -/
def base (name : ArtifactName) (suffix : Str) : Str :=
  if suffix = [] then name.stem.1
  else
    match name.stem.1.dropSuffix? ('_' :: toSnakeCase suffix) with
    | some rest => if rest ≠ [] then rest else name.stem.1
    | none => name.stem.1

/-- `file_stem`. -/
def fileStem (name : ArtifactName) (suffix : Str) : Str :=
  if suffix = [] then name.base suffix else name.base suffix ++ '_' :: toSnakeCase suffix

/-- `type_name`. -/
def typeName (name : ArtifactName) (suffix : Str) : Str := toPascalCase (name.base suffix) ++ pascal suffix

/-- The parts as path components. -/
def dirs (name : ArtifactName) : List Str := name.segments.map Subtype.val

/-- `slash_path`. -/
def slashPath (name : ArtifactName) : Str := ['/'].intercalate (name.dirs ++ [name.stem.1])

theorem isSnake_base (name : ArtifactName) (suffix : Str) : isSnake (name.base suffix) = true := by
  rw [base]
  split_ifs
  · exact name.stem.2
  · split
    · next rest hrest =>
      split_ifs with hne
      · obtain ⟨ending, hstem, -⟩ := List.dropSuffix?_eq_some_iff.mp hrest
        exact isSnake_of_prefix name.stem.2 ⟨ending, hstem.symm⟩ hne
      · exact name.stem.2
    · exact name.stem.2

theorem isSnake_fileStem (name : ArtifactName) {suffix : Str} (h : ∀ c ∈ toSnakeCase suffix, isSnakeChar c = true) :
    isSnake (name.fileStem suffix) = true := by
  rw [fileStem]
  split_ifs
  · exact name.isSnake_base suffix
  · refine isSnake_append (name.isSnake_base suffix) fun c hc => ?_
    rcases List.mem_cons.mp hc with rfl | hc
    · simp [isSnakeChar]
    · exact h c hc

theorem isSnake_of_mem_dirs {name : ArtifactName} {d : Str} (h : d ∈ name.dirs) : isSnake d = true := by
  obtain ⟨part, -, rfl⟩ := List.mem_map.mp h
  exact part.2

end ArtifactName

end Arcature.Cli.Make
