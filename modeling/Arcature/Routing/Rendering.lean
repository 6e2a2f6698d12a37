import Arcature.Lib.Json

/-! URLs of named routes.

    `url_for` looks a name up in the table of templates and walks the template's segments
    (`render_path` in `routing/mod.rs`). A segment in braces is a capture, whatever stands in the
    braces; it is replaced by the next parameter, as the parameter is:

        template  /files/{owner}/{*path}     parameters  ann, a/b c     URL  /files/ann/a/b c

    A `Template` is a path made of literal segments and of captures that fill a segment. For these
    the URL is the template with every capture replaced by its value (`renderPath_path`). -/

namespace Arcature.Routing
open Arcature.Lib

/-- The errors of `url_for` and of a redirect, with their messages. -/
inductive Error where
  | notFound (message : Str)
  | badRequest (message : Str)
  | redirect (message : Str)
  deriving DecidableEq

/-- What stands between the braces of a segment in braces. -/
def stripBraces : Str → Option Str
  | '{' :: rest => if rest.getLast? = some '}' then some rest.dropLast else none
  | _ => none

/-- The loop of `render_path`: the segments that are written, the next parameter being `paramIdx`. -/
def renderSegments (params : List Str) : ℕ → List Str → Except Error (List Str)
  | _, [] => .ok []
  | paramIdx, segment :: segments =>
    match stripBraces segment with
    | some rest =>
      match params[paramIdx]? with
      | some param => do return param :: (← renderSegments params (paramIdx + 1) segments)
      | none => .error (.badRequest ("missing parameter `".toList ++ rest ++ "`".toList))
    | none => do return segment :: (← renderSegments params paramIdx segments)

/-- `render_path`. -/
def renderPath (template : Str) (params : List Str) : Except Error Str := do
  return ['/'].intercalate (← renderSegments params 0 (template.splitOn '/'))

/-- The templates of an application's named routes. -/
structure RouteTable where
  names : Map Str Str

/-- `url_for`. -/
def RouteTable.urlFor (table : RouteTable) (name : Str) (params : List Str) : Except Error Str :=
  match table.names.get? name with
  | some template => renderPath template params
  | none => .error (.notFound ("route `".toList ++ name ++ "` is not defined".toList))

/-! ### Templates -/

/-- A segment of a template. -/
inductive Segment where
  | literal (text : Str)
  | capture (name : Str)
  | wildcard (name : Str)
  deriving DecidableEq

namespace Segment

/-- A segment as it stands in the path. -/
def text : Segment → Str
  | literal text => text
  | capture name => '{' :: (name ++ ['}'])
  | wildcard name => '{' :: '*' :: (name ++ ['}'])

/-- The name a capture is filled by. -/
def name? : Segment → Option Str
  | literal _ => none
  | capture name => some name
  | wildcard name => some name

/-- A segment with its capture replaced by the value of its name. -/
def filled (values : Str → Str) : Segment → Str
  | literal text => text
  | capture name => values name
  | wildcard name => values name

/-- A name of a parameter: not empty, within a segment, and without the mark of a wildcard. -/
def IsName (name : Str) : Prop := name ≠ [] ∧ '}' ∉ name ∧ '/' ∉ name ∧ name.head? ≠ some '*'

/-- A segment of a path: a literal opens no capture. -/
def WellFormed : Segment → Prop
  | literal text => '{' ∉ text ∧ '/' ∉ text
  | capture name => IsName name
  | wildcard name => IsName name

end Segment

/-- A path made of literal segments and of captures that fill a segment. -/
structure Template where
  segments : List Segment
  segments_ne : segments ≠ []
  wellFormed : ∀ s ∈ segments, s.WellFormed

namespace Template

/-- The path that spells a template. -/
def path (t : Template) : Str := ['/'].intercalate (t.segments.map Segment.text)

/-- The names of its captures in the order they are declared. -/
def names (t : Template) : List Str := t.segments.filterMap Segment.name?

end Template

theorem slash_notMem_text {s : Segment} (h : s.WellFormed) : '/' ∉ s.text := by
  cases s with
  | literal text => exact h.2
  | capture name => simpa [Segment.text] using h.2.2.1
  | wildcard name => simpa [Segment.text] using h.2.2.1

theorem splitOn_path (t : Template) : t.path.splitOn '/' = t.segments.map Segment.text := by
  refine List.splitOn_intercalate '/' ?_ (by simpa using t.segments_ne)
  intro text htext
  obtain ⟨s, hs, rfl⟩ := List.mem_map.mp htext
  exact slash_notMem_text (t.wellFormed s hs)

theorem stripBraces_literal {text : Str} (h : '{' ∉ text) : stripBraces text = none := by
  unfold stripBraces
  split
  · simp at h
  · rfl

theorem stripBraces_braces (token : Str) : stripBraces ('{' :: (token ++ ['}'])) = some token := by
  simp [stripBraces]

/-- How a step of the loop succeeds: on a literal, or on a capture with a parameter for it. -/
theorem renderSegments_cons_iff {params : List Str} {paramIdx : ℕ} {segment : Str}
    {segments out : List Str} :
    renderSegments params paramIdx (segment :: segments) = .ok out ↔
      ∃ first written next, out = first :: written ∧ renderSegments params next segments = .ok written ∧
        ((stripBraces segment = none ∧ first = segment ∧ next = paramIdx) ∨
          ((stripBraces segment).isSome ∧ params[paramIdx]? = some first ∧ next = paramIdx + 1)) := by
  have hreturn : ∀ (first : Str) (rest : Except Error (List Str)),
      (do return first :: (← rest)) = Except.ok out ↔
        ∃ written, out = first :: written ∧ rest = .ok written := by
    intro first rest
    cases rest with
    | error e => simp [bind, Except.bind]
    | ok written => simp [bind, Except.bind, pure, Except.pure, eq_comm]
  rw [renderSegments]
  cases hstrip : stripBraces segment with
  | none =>
    simp only [hreturn]
    simp
  | some rest =>
    cases hparam : params[paramIdx]? with
    | none => simp
    | some param =>
      simp only [hreturn]
      simp

/-- A template can be rendered if it has no more captures than there are parameters left. -/
theorem exists_renderSegments_iff (params : List Str) {paramIdx : ℕ} (segments : List Str)
    (hidx : paramIdx ≤ params.length) :
    (∃ out, renderSegments params paramIdx segments = .ok out) ↔
      paramIdx + segments.countP (fun s => (stripBraces s).isSome) ≤ params.length := by
  induction segments generalizing paramIdx with
  | nil => simpa [renderSegments] using hidx
  | cons segment segments ih =>
    simp only [renderSegments_cons_iff]
    cases hstrip : stripBraces segment with
    | none =>
      rw [List.countP_cons_of_neg (by simp [hstrip]), ← ih hidx]
      simp
    | some rest =>
      rw [List.countP_cons_of_pos (by simp [hstrip])]
      rcases Nat.lt_or_ge paramIdx params.length with hlt | hge
      · have hnext := @ih (paramIdx + 1) hlt
        rw [← Nat.add_assoc, Nat.add_right_comm, ← hnext]
        simp [List.getElem?_eq_getElem hlt]
      · simp only [List.getElem?_eq_none hge]
        simp
        omega

/-- The segments are written one after the other, each capture from the parameters that are left. -/
theorem renderSegments_text (values : Str → Str) {params : List Str} {paramIdx : ℕ}
    {segments : List Segment} (hsegments : ∀ s ∈ segments, s.WellFormed)
    (hparams : params.drop paramIdx = (segments.filterMap Segment.name?).map values) :
    renderSegments params paramIdx (segments.map Segment.text) =
      .ok (segments.map (Segment.filled values)) := by
  induction segments generalizing paramIdx with
  | nil => rfl
  | cons s segments ih =>
    have hrest : ∀ s ∈ segments, s.WellFormed := fun s hs => hsegments s (List.mem_cons_of_mem _ hs)
    -- a capture takes the head of what is left
    have hcapture : ∀ name token, s.name? = some name → s.text = '{' :: (token ++ ['}']) →
        s.filled values = values name →
        renderSegments params paramIdx ((s :: segments).map Segment.text) =
          .ok ((s :: segments).map (Segment.filled values)) := by
      intro name token hname htext hfilled
      rw [List.filterMap_cons_some hname, List.map_cons] at hparams
      have hhead : params[paramIdx]? = some (values name) := by
        rw [← List.head?_drop, hparams, List.head?_cons]
      have htail : params.drop (paramIdx + 1) = (segments.filterMap Segment.name?).map values := by
        rw [← List.tail_drop, hparams, List.tail_cons]
      rw [List.map_cons, htext, renderSegments, stripBraces_braces]
      simp only [hhead, ih hrest htail, List.map_cons, hfilled]
      rfl
    cases s with
    | literal text =>
      obtain ⟨hopen, -⟩ : '{' ∉ text ∧ '/' ∉ text := hsegments _ List.mem_cons_self
      rw [List.map_cons, renderSegments, Segment.text, stripBraces_literal hopen]
      simp only [ih hrest hparams]
      rfl
    | capture name => exact hcapture name name rfl rfl rfl
    | wildcard name => exact hcapture name ('*' :: name) rfl rfl rfl

theorem renderPath_eq_ok {template url : Str} {params : List Str} :
    renderPath template params = .ok url ↔
      ∃ out, renderSegments params 0 (template.splitOn '/') = .ok out ∧ url = ['/'].intercalate out := by
  rw [renderPath]
  cases renderSegments params 0 (template.splitOn '/') with
  | error e => simp [bind, Except.bind]
  | ok out => simp [bind, Except.bind, pure, Except.pure, eq_comm]

/-- With a value for every capture, in the order they are declared, the URL is the template with
    every capture replaced by its value. -/
theorem renderPath_path (t : Template) (values : Str → Str) :
    renderPath t.path (t.names.map values) =
      .ok (['/'].intercalate (t.segments.map (Segment.filled values))) := by
  rw [renderPath, splitOn_path, renderSegments_text values t.wellFormed rfl]
  rfl

end Arcature.Routing
