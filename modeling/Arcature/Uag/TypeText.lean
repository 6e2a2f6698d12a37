import Arcature.Lib.Lines
import Arcature.Uag.ShapeText

/-! Type expressions, and what is read of them.

    A type is written with any white space around its brackets and behind its ampersands:

        & 'a & std::Option < Vec<i64> >      refs, path, Option, Vec, a name

    The shape is read level by level. A lifetime is dropped up to the first white space, whether or not
    that stands right behind it: behind `'a&` or `'a::` more than the lifetime is lost, and the type is
    read right only if the white space stands among the references as well (`shape_preserved`). -/

namespace Arcature.Uag
open Arcature.Lib

/-! ### Type expressions -/

/-- White space, or nothing. -/
structure Blanks where
  text : Str
  blank : ∀ c ∈ text, Str.isWhiteSpace c = true

/-- No white space, and none of the marks of a type. -/
def IsWordChar (c : Char) : Prop := Str.isWhiteSpace c = false ∧ c ∉ ['<', '>', '&', '\'', ':']

instance : DecidablePred IsWordChar := fun _ => inferInstanceAs (Decidable (_ ∧ _))

/-- A name. -/
structure Word where
  text : Str
  ne : text ≠ []
  chars : ∀ c ∈ text, IsWordChar c

/-- A reference: the white space behind the ampersand, and a lifetime with the white space behind it. -/
structure Ref where
  gap : Blanks
  lifetime : Option (Word × Blanks)

/-- The reference as it is written. -/
def Ref.text (r : Ref) : Str :=
  '&' :: (r.gap.text ++ match r.lifetime with
    | none => []
    | some (name, gap) => '\'' :: (name.text ++ gap.text))

/-- A lifetime without white space behind it. -/
def Ref.isOpen : Ref → Bool
  | ⟨_, some (_, gap)⟩ => gap.text = []
  | ⟨_, none⟩ => false

/-- The path before a name: `::` first or not, and a word and `::` for each module. -/
structure PathPrefix where
  rooted : Bool
  segments : List Word

/-- The path as it is written. -/
def PathPrefix.text (p : PathPrefix) : Str :=
  (if p.rooted then "::".toList else []) ++ p.segments.flatMap fun w => w.text ++ "::".toList

/-- There is a path. -/
def PathPrefix.isSome (p : PathPrefix) : Bool := p.rooted || !p.segments.isEmpty

/-- What stands before a name. Behind a lifetime with no white space there is another reference, or `::`. -/
structure Front where
  refs : List Ref
  path : PathPrefix
  spelled : ∀ r ∈ refs.getLast?, r.isOpen → path.rooted

/-- The references of a type. -/
def refsText (refs : List Ref) : Str := refs.flatMap Ref.text

/-- `Option` or `Vec`. -/
inductive Wrapper where
  | option
  | vec
  deriving DecidableEq

/-- The name of a wrapper. -/
def Wrapper.name : Wrapper → Str
  | .option => "Option".toList
  | .vec => "Vec".toList

/-- The shape of a wrapper. -/
def Wrapper.wrap : Wrapper → TypeShape → TypeShape
  | .option => .optional
  | .vec => .array

/-- A type expression, with the white space before `<`, behind it, and before `>`. -/
inductive TypeExpr where
  | named (front : Front) (name : Word)
  | wrapped (front : Front) (wrapper : Wrapper) (before after close : Blanks) (inner : TypeExpr)

/-- The primitives, with their shapes. -/
def primitives : List (Str × TypeShape) :=
  (["String", "str", "char"].map fun name => (name.toList, .string)) ++
    (["i8", "i16", "i32", "i64", "i128", "isize", "u8", "u16", "u32", "u64", "u128", "usize", "f32", "f64"].map
      fun name => (name.toList, .number)) ++ [("bool".toList, .boolean)]

namespace TypeExpr

/-- The expression as it is written. -/
def text : TypeExpr → Str
  | named front name => refsText front.refs ++ (front.path.text ++ name.text)
  | wrapped front wrapper before after close inner =>
    refsText front.refs ++ (front.path.text ++ (wrapper.name ++ (before.text ++
      '<' :: (after.text ++ (inner.text ++ (close.text ++ ['>']))))))

/-- The shape of an expression. -/
def shape : TypeExpr → TypeShape
  | named _ name => (primitives.lookup name.text).getD .unknown
  | wrapped _ wrapper _ _ _ inner => wrapper.wrap inner.shape

end TypeExpr

/-- Whether the name is reached with nothing lost that matters, through the references, and from inside
    the search for white space or not. The search ends behind the first white space. If that stands
    between an ampersand and a lifetime, the lifetime stays, and only a path hides it. -/
def reached (path : PathPrefix) : Bool → List Ref → Bool
  | false, [] => true
  | true, [] => false
  | false, r :: refs => reached path r.isOpen refs
  | true, r :: refs =>
    if r.gap.text = [] then reached path (r.lifetime.isNone || r.isOpen) refs
    else if r.lifetime.isNone then reached path false refs
    else path.isSome

/-- The name is reached at each level, down to one that is not listed. -/
def TypeExpr.Reached : TypeExpr → Prop
  | .named front name => (primitives.lookup name.text).isSome → reached front.path false front.refs
  | .wrapped front _ _ _ _ inner => reached front.path false front.refs ∧ inner.Reached

/-! ### Through the references -/

/-- A text that begins with something that is neither white space nor the mark of a lifetime. -/
def Solid (s : Str) : Prop := ∃ c rest, s = c :: rest ∧ Str.isWhiteSpace c = false ∧ c ≠ '\''

/-- What is left behind the first white space. -/
def skip (s : Str) : Str := trimStart (s.dropWhile (!Str.isWhiteSpace ·))

theorem trimStart_cons {c : Char} (hc : Str.isWhiteSpace c = false) (rest : Str) :
    trimStart (c :: rest) = c :: rest :=
  List.dropWhile_cons_of_neg (by simp [hc])

theorem trimStart_blanks (b : Blanks) {c : Char} (hc : Str.isWhiteSpace c = false) (rest : Str) :
    trimStart (b.text ++ c :: rest) = c :: rest := by
  rw [trimStart, List.dropWhile_append_of_pos b.blank]
  exact trimStart_cons hc rest

theorem skip_append {w : Str} (h : ∀ c ∈ w, Str.isWhiteSpace c = false) (s : Str) : skip (w ++ s) = skip s := by
  rw [skip, List.dropWhile_append_of_pos fun c hc => by simp [h c hc], skip]

theorem skip_cons {c : Char} (hc : Str.isWhiteSpace c = false) (s : Str) : skip (c :: s) = skip s :=
  skip_append (w := [c]) (by simpa using hc) s

theorem skip_blanks {b : Blanks} (hb : b.text ≠ []) {c : Char} (hc : Str.isWhiteSpace c = false) (rest : Str) :
    skip (b.text ++ c :: rest) = c :: rest := by
  obtain ⟨d, text, hd⟩ := List.exists_cons_of_ne_nil hb
  have hblank : Str.isWhiteSpace d = true := b.blank d (by rw [hd]; exact List.mem_cons_self)
  have hstay : (b.text ++ c :: rest).dropWhile (!Str.isWhiteSpace ·) = b.text ++ c :: rest := by
    rw [hd]
    exact List.dropWhile_cons_of_neg (by simp [hblank])
  rw [skip, hstay, trimStart_blanks b hc]

theorem length_skip_le (s : Str) : (skip s).length ≤ s.length :=
  (length_trimStart_le _).trans (List.dropWhile_suffix _).length_le

theorem isWhiteSpace_word (w : Word) : ∀ c ∈ w.text, Str.isWhiteSpace c = false := fun c hc => (w.chars c hc).1

/-- The loop ends at what does not begin with an ampersand. -/
theorem stripReferences_stop {s : Str} (h : s.head? ≠ some '&') (n : ℕ) : stripReferences n s = s := by
  cases n with
  | zero => rfl
  | succ n =>
    rw [stripReferences]
    rintro rest rfl
    exact h rfl

theorem stripReferences_plain {rest s : Str} (hrest : trimStart rest = s) (h : Solid s) (n : ℕ) :
    stripReferences (n + 1) ('&' :: rest) = stripReferences n s := by
  obtain ⟨c, tail, rfl, -, hc⟩ := h
  rw [stripReferences, hrest]
  split
  · rename_i heq
    exact absurd (List.cons.inj heq).1 hc
  · rfl

theorem stripReferences_lifetime {rest s : Str} (hrest : trimStart rest = '\'' :: s) (n : ℕ) :
    stripReferences (n + 1) ('&' :: rest) = stripReferences n (skip s) := by
  rw [stripReferences, hrest]
  rfl

/-- As many rounds as there are characters are enough: the loop has ended. -/
theorem head_stripReferences (n : ℕ) (s : Str) (h : s.length ≤ n) : (stripReferences n s).head? ≠ some '&' := by
  fun_induction stripReferences n s with
  | case1 s => simp [List.eq_nil_of_length_eq_zero (Nat.le_zero.mp h)]
  | case2 n rest lifetime hlifetime ih =>
    have htrim := length_trimStart_le rest
    have hskip := length_skip_le lifetime
    rw [hlifetime, List.length_cons] at htrim
    rw [List.length_cons] at h
    rw [skip] at hskip
    exact ih (by omega)
  | case3 n rest _ ih =>
    have htrim := length_trimStart_le rest
    rw [List.length_cons] at h
    exact ih (by omega)
  | case4 n s hno =>
    cases s with
    | nil => simp
    | cons c s =>
      rintro hc
      rw [List.head?_cons, Option.some_inj] at hc
      exact hno s (by rw [hc])

section Outcome
variable {path : PathPrefix} {base : Str}

/-- What is left of the references before a base: the base, also behind a lifetime that a path hides; or
    what a search in the base leaves, or the base behind a lifetime that shows. -/
inductive Outcome (path : PathPrefix) (base : Str) : Bool → Str → Prop where
  | clean : Outcome path base true base
  | hidden (p : Str) (hp : '<' ∉ p) (hpath : path.isSome = true) : Outcome path base true (p ++ base)
  | lost (n : ℕ) : Outcome path base false (stripReferences n (skip base))
  | marked (p : Str) (hp : '<' ∉ p ∧ ':' ∉ p) (hpath : path.isSome = false) :
    Outcome path base false ('\'' :: (p ++ base))

/-- A base begins neither with white space nor with a reference. -/
def IsBase (base : Str) : Prop := Solid base ∧ base.head? ≠ some '&'

theorem solid_refsText (hbase : IsBase base) (refs : List Ref) : Solid (refsText refs ++ base) := by
  cases refs with
  | nil => exact hbase.1
  | cons r refs => exact ⟨'&', _, rfl, by decide, by decide⟩

theorem notMem_blanks {c : Char} (hc : Str.isWhiteSpace c = false) (b : Blanks) : c ∉ b.text := fun hmem => by
  simp [b.blank c hmem] at hc

theorem notMem_word {c : Char} (h : c ∈ ['<', ':']) (w : Word) : c ∉ w.text := by
  intro hmem
  refine (w.chars c hmem).2 ?_
  rcases List.mem_pair.mp h with rfl | rfl
  · simp
  · simp

theorem notMem_refText {c : Char} (hc : Str.isWhiteSpace c = false) (h : c ∈ ['<', ':']) (r : Ref) : c ∉ r.text := by
  have hmark : c ≠ '&' ∧ c ≠ '\'' := by
    rcases List.mem_pair.mp h with rfl | rfl
    · decide
    · decide
  obtain ⟨gap, _ | ⟨name, gap'⟩⟩ := r
  · simp only [Ref.text, List.append_nil, List.mem_cons, not_or]
    exact ⟨hmark.1, notMem_blanks hc gap⟩
  · simp only [Ref.text, List.mem_cons, List.mem_append, not_or]
    exact ⟨hmark.1, notMem_blanks hc gap, hmark.2, notMem_word h name, notMem_blanks hc gap'⟩

theorem notMem_refsText {c : Char} (hc : Str.isWhiteSpace c = false) (h : c ∈ ['<', ':']) (refs : List Ref) :
    c ∉ refsText refs := by
  rw [refsText, List.mem_flatMap]
  rintro ⟨r, -, hmem⟩
  exact notMem_refText hc h r hmem

/-- What white space leaves to a search: what stands behind it, or the search goes on. -/
theorem skip_gap {s rest : Str} {c : Char} (hs : s = c :: rest) (hc : Str.isWhiteSpace c = false) (b : Blanks) :
    skip (b.text ++ s) = if b.text = [] then skip s else s := by
  subst hs
  split
  · rename_i hnil
    rw [hnil, List.nil_append]
  · rename_i hne
    exact skip_blanks hne hc rest

theorem reached_open (name : Word) (gap gap' : Blanks) (refs : List Ref) :
    reached path false (⟨gap, some (name, gap')⟩ :: refs) = reached path (gap'.text = []) refs := rfl

/-- What the loop leaves, from the front and from inside a search. -/
theorem outcome (path : PathPrefix) (hbase : IsBase base) (refs : List Ref) (n : ℕ)
    (hn : (refsText refs ++ base).length ≤ n) :
    Outcome path base (reached path false refs) (stripReferences n (refsText refs ++ base)) ∧
      Outcome path base (reached path true refs) (stripReferences n (skip (refsText refs ++ base))) := by
  induction refs generalizing n with
  | nil =>
    have hstop : stripReferences n base = base := stripReferences_stop hbase.2 n
    rw [refsText, List.flatMap_nil, List.nil_append, hstop]
    exact ⟨.clean, .lost n⟩
  | cons r refs ih =>
    have hsolid := solid_refsText hbase refs
    obtain ⟨c, rest, hrest, hc, -⟩ := id hsolid
    obtain ⟨gap, _ | ⟨name, gap'⟩⟩ := r
    · have htext : refsText (⟨gap, none⟩ :: refs) ++ base = '&' :: (gap.text ++ (refsText refs ++ base)) := by
        simp [refsText, Ref.text]
      rw [htext, List.length_cons, List.length_append] at hn
      obtain ⟨n, rfl⟩ : ∃ k, n = k + 1 := ⟨n - 1, by omega⟩
      rw [htext]
      constructor
      · rw [stripReferences_plain (by rw [hrest]; exact trimStart_blanks gap hc rest) (hrest ▸ hsolid), ← hrest]
        exact (ih n (by omega)).1
      · rw [skip_cons (by decide), skip_gap hrest hc, reached]
        by_cases hgap : gap.text = []
        · rw [if_pos hgap, if_pos hgap]
          exact (ih (n + 1) (by omega)).2
        · rw [if_neg hgap, if_neg hgap]
          exact (ih (n + 1) (by omega)).1
    · have htext : refsText (⟨gap, some (name, gap')⟩ :: refs) ++ base =
          '&' :: (gap.text ++ '\'' :: (name.text ++ (gap'.text ++ (refsText refs ++ base)))) := by
        simp [refsText, Ref.text]
      -- Behind a lifetime the search starts at its name.
      have hsearch : ∀ m, (refsText refs ++ base).length ≤ m → Outcome path base (reached path (gap'.text = []) refs)
          (stripReferences m (skip (name.text ++ (gap'.text ++ (refsText refs ++ base))))) := by
        intro m hm
        rw [skip_append (isWhiteSpace_word name), skip_gap hrest hc]
        by_cases hgap' : gap'.text = []
        · rw [if_pos hgap', decide_eq_true hgap']
          exact (ih m hm).2
        · rw [if_neg hgap', decide_eq_false hgap']
          exact (ih m hm).1
      rw [htext] at hn ⊢
      simp only [List.length_cons, List.length_append] at hn
      obtain ⟨n, rfl⟩ : ∃ k, n = k + 1 := ⟨n - 1, by omega⟩
      constructor
      · rw [stripReferences_lifetime (trimStart_blanks gap (by decide) _), reached_open]
        exact hsearch n (by rw [List.length_append]; omega)
      · rw [skip_cons (by decide), skip_gap rfl (by decide), reached]
        by_cases hgap : gap.text = []
        · rw [if_pos hgap, if_pos hgap, skip_cons (by decide)]
          exact hsearch (n + 1) (by rw [List.length_append]; omega)
        · rw [if_neg hgap, if_neg hgap, if_neg (by simp), stripReferences_stop (by simp)]
          -- The lifetime stays, and what stands behind it up to the base.
          have hassoc : '\'' :: (name.text ++ (gap'.text ++ (refsText refs ++ base))) =
              '\'' :: ((name.text ++ (gap'.text ++ refsText refs)) ++ base) := by simp
          have hfront : ∀ {c : Char}, Str.isWhiteSpace c = false → c ∈ ['<', ':'] →
              c ∉ name.text ++ (gap'.text ++ refsText refs) := by
            intro c hc hmem
            simp only [List.mem_append, not_or]
            exact ⟨notMem_word hmem name, notMem_blanks hc gap', notMem_refsText hc hmem refs⟩
          rw [hassoc]
          cases hpath : path.isSome with
          | true =>
            refine .hidden ('\'' :: (name.text ++ (gap'.text ++ refsText refs))) ?_ hpath
            rw [List.mem_cons, not_or]
            exact ⟨by decide, hfront (by decide) (by simp)⟩
          | false => exact .marked _ ⟨hfront (by decide) (by simp), hfront (by decide) (by simp)⟩ hpath

end Outcome

/-! ### The last name of a path -/

theorem afterLastColons_eq_none {s : Str} (h : ':' ∉ s) : afterLastColons s = none := by
  induction s with
  | nil => rfl
  | cons c s ih =>
    rw [List.mem_cons, not_or] at h
    rw [afterLastColons, ih h.2]
    exact if_neg fun hc => h.1 hc.1.symm

theorem afterLastColons_append {s : Str} (h : ':' ∉ s) (p : Str) :
    afterLastColons (p ++ ("::".toList ++ s)) = some s := by
  induction p with
  | nil =>
    have hlast : afterLastColons (':' :: s) = none := by
      rw [afterLastColons, afterLastColons_eq_none h]
      exact if_neg fun hc => h (List.mem_of_mem_head? (by rw [hc.2]; rfl))
    have hcolons : ([] : Str) ++ ("::".toList ++ s) = ':' :: ':' :: s := rfl
    rw [hcolons, afterLastColons, hlast]
    exact if_pos ⟨rfl, rfl⟩
  | cons c p ih => rw [List.cons_append, afterLastColons, ih]

/-- What `normalize` does behind the references. -/
def reduce (ty : Str) : Str :=
  let head := ty.takeWhile (· ≠ '<')
  Str.trim ((afterLastColons head).getD head) ++ ty.dropWhile (· ≠ '<')

theorem normalize_eq (s : Str) : normalize s = reduce (stripReferences (Str.trim s).length (Str.trim s)) := rfl

/-- Nothing, or an argument. -/
def IsTail (tail : Str) : Prop := tail = [] ∨ ∃ rest, tail = '<' :: rest

theorem reduce_append {head tail : Str} (hhead : '<' ∉ head) (htail : IsTail tail) :
    reduce (head ++ tail) = Str.trim ((afterLastColons head).getD head) ++ tail := by
  have hpass : ∀ c ∈ head, decide (c ≠ '<') = true := fun c hc => by
    rw [decide_eq_true_eq]
    rintro rfl
    exact hhead hc
  rw [reduce, List.takeWhile_append_of_pos hpass, List.dropWhile_append_of_pos hpass]
  rcases htail with rfl | ⟨rest, rfl⟩
  · simp
  · simp

theorem trim_append_blanks (s : Str) (b : Blanks) : Str.trim (s ++ b.text) = Str.trim s := by
  obtain ⟨text, hblank⟩ := b
  induction text using List.reverseRecOn with
  | nil => rw [List.append_nil]
  | append_singleton text c ih =>
    rw [← List.append_assoc, Str.trim_concat_space (hblank c (by simp))]
    exact ih fun d hd => hblank d (List.mem_append_left _ hd)

/-- White space around a text that neither begins nor ends with it. -/
theorem trim_around {s : Str} {c d : Char} (hhead : s.head? = some c) (hlast : s.getLast? = some d)
    (hc : Str.isWhiteSpace c = false) (hd : Str.isWhiteSpace d = false) (lead trail : Blanks) :
    Str.trim (lead.text ++ (s ++ trail.text)) = s := by
  rw [Str.trim_append_of_space lead.blank, trim_append_blanks, Str.trim_eq_self hhead hlast hc hd]

/-- A text of a name: not empty, and of the characters of names. -/
def IsName (name : Str) : Prop := name ≠ [] ∧ ∀ c ∈ name, IsWordChar c

theorem trim_name {name : Str} (h : IsName name) (b : Blanks) : Str.trim (name ++ b.text) = name := by
  obtain ⟨c, rest, hc⟩ := List.exists_cons_of_ne_nil h.1
  have hhead : name.head? = some c := by rw [hc]; rfl
  rw [trim_append_blanks]
  exact Str.trim_eq_self hhead (List.getLast?_eq_some_getLast h.1) (h.2 c (List.mem_of_mem_head? hhead)).1
    (h.2 _ (List.getLast_mem h.1)).1

namespace PathPrefix
variable {path : PathPrefix}

theorem text_eq_nil (h : path.isSome = false) : path.text = [] := by
  obtain ⟨rooted, segments⟩ := path
  rw [isSome, Bool.or_eq_false_iff] at h
  obtain ⟨rfl, hsegments⟩ := h
  have hnil : segments = [] := by simpa using hsegments
  rw [hnil]
  rfl

theorem text_eq_append (h : path.isSome = true) : ∃ p, path.text = p ++ "::".toList := by
  obtain ⟨rooted, segments⟩ := path
  rcases List.eq_nil_or_concat segments with rfl | ⟨front, last, rfl⟩
  · cases rooted with
    | false => cases h
    | true => exact ⟨[], rfl⟩
  · refine ⟨(if rooted then "::".toList else []) ++ ((front.flatMap fun w => w.text ++ "::".toList) ++ last.text), ?_⟩
    simp only [text, List.concat_eq_append, List.flatMap_append, List.flatMap_singleton, List.append_assoc]

theorem chars {c : Char} (hc : c ∈ path.text) : Str.isWhiteSpace c = false ∧ c ∉ ['<', '&', '\''] := by
  have hcolon : ∀ {c : Char}, c ∈ "::".toList → Str.isWhiteSpace c = false ∧ c ∉ ['<', '&', '\''] := by
    intro c hc
    have hc : c = ':' := by simpa using hc
    subst hc
    decide
  rw [text, List.mem_append, List.mem_flatMap] at hc
  rcases hc with hc | ⟨w, -, hc⟩
  · split at hc
    · exact hcolon hc
    · cases hc
  · rcases List.mem_append.mp hc with hc | hc
    · obtain ⟨hwhite, hmark⟩ := w.chars c hc
      exact ⟨hwhite, fun hmem => hmark (by simp at hmem ⊢; tauto)⟩
    · exact hcolon hc

end PathPrefix

section Base
variable {path : PathPrefix} {name tail : Str} {before : Blanks}

/-- A path, a name, white space, and perhaps an argument. -/
def baseText (path : PathPrefix) (name : Str) (before : Blanks) (tail : Str) : Str :=
  path.text ++ (name ++ (before.text ++ tail))

theorem isBase_baseText (path : PathPrefix) (hname : IsName name) (before : Blanks) (tail : Str) :
    IsBase (baseText path name before tail) := by
  obtain ⟨c, rest, hc⟩ := List.exists_cons_of_ne_nil hname.1
  have hchar : IsWordChar c := hname.2 c (by rw [hc]; exact List.mem_cons_self)
  cases hpath : path.text with
  | nil =>
    rw [IsBase, baseText, hpath, hc]
    obtain ⟨hwhite, hmark⟩ := hchar
    simp only [List.mem_cons, not_or] at hmark
    exact ⟨⟨c, _, rfl, hwhite, hmark.2.2.2.1⟩, fun heq => hmark.2.2.1 (Option.some.inj heq)⟩
  | cons d front =>
    have hd : d ∈ path.text := by rw [hpath]; exact List.mem_cons_self
    obtain ⟨hwhite, hmark⟩ := PathPrefix.chars hd
    simp only [List.mem_cons, not_or] at hmark
    rw [IsBase, baseText, hpath]
    exact ⟨⟨d, _, rfl, hwhite, hmark.2.2.1⟩, fun heq => hmark.2.1 (Option.some.inj heq)⟩

/-- The name is what is left of a base, also behind what a path hides. -/
theorem reduce_baseText (hname : IsName name) (htail : IsTail tail) {p : Str} (hp : '<' ∉ p)
    (hpath : p = [] ∨ path.isSome = true) : reduce (p ++ baseText path name before tail) = name ++ tail := by
  have hcolon : ':' ∉ name ++ before.text := by
    rw [List.mem_append, not_or]
    exact ⟨fun hmem => (hname.2 _ hmem).2 (by simp), notMem_blanks (by decide) before⟩
  have hopen : '<' ∉ p ++ (path.text ++ (name ++ before.text)) := by
    simp only [List.mem_append, not_or]
    exact ⟨hp, fun hmem => (PathPrefix.chars hmem).2 (by simp), fun hmem => (hname.2 _ hmem).2 (by simp),
      notMem_blanks (by decide) before⟩
  have hassoc : p ++ baseText path name before tail = (p ++ (path.text ++ (name ++ before.text))) ++ tail := by
    simp [baseText]
  rw [hassoc, reduce_append hopen htail]
  cases hsome : path.isSome with
  | false =>
    obtain rfl : p = [] := hpath.resolve_right (by simp [hsome])
    rw [PathPrefix.text_eq_nil hsome, List.nil_append, List.nil_append, afterLastColons_eq_none hcolon,
      Option.getD_none, trim_name hname]
  | true =>
    obtain ⟨q, hq⟩ := PathPrefix.text_eq_append hsome
    rw [hq, List.append_assoc, ← List.append_assoc p, afterLastColons_append hcolon, Option.getD_some,
      trim_name hname]

/-- Without a path a lifetime shows. -/
theorem reduce_marked (hname : IsName name) (before : Blanks) (htail : IsTail tail) {p : Str} (hp : '<' ∉ p ∧ ':' ∉ p)
    (hpath : path.isSome = false) :
    ∃ rest, reduce ('\'' :: (p ++ baseText path name before tail)) = '\'' :: rest := by
  have hfree : ∀ {c : Char}, Str.isWhiteSpace c = false → c ∈ ['<', '>', '&', '\'', ':'] → c ≠ '\'' → c ∉ p →
      c ∉ '\'' :: (p ++ (name ++ before.text)) := by
    intro c hc hmark hne hcp
    simp only [List.mem_cons, List.mem_append, not_or]
    exact ⟨hne, hcp, fun hmem => (hname.2 _ hmem).2 hmark, notMem_blanks hc before⟩
  have hassoc : '\'' :: (p ++ baseText path name before tail) = ('\'' :: (p ++ (name ++ before.text))) ++ tail := by
    simp [baseText, PathPrefix.text_eq_nil hpath]
  rw [hassoc, reduce_append (hfree (by decide) (by simp) (by decide) hp.1) htail,
    afterLastColons_eq_none (hfree (by decide) (by simp) (by decide) hp.2), Option.getD_none]
  have hassoc' : '\'' :: (p ++ (name ++ before.text)) = ('\'' :: (p ++ name)) ++ before.text := by simp
  have hne : '\'' :: (p ++ name) ≠ [] := List.cons_ne_nil _ _
  have hlast : ('\'' :: (p ++ name)).getLast? = some (name.getLast hname.1) := by
    rw [← List.cons_append, List.getLast?_append_of_ne_nil _ hname.1, List.getLast?_eq_some_getLast hname.1]
  rw [hassoc', trim_append_blanks, Str.trim_eq_self rfl hlast (by decide) (hname.2 _ (List.getLast_mem hname.1)).1]
  exact ⟨_, rfl⟩

end Base

/-! ### What is parsed of a reduced text -/

theorem parse_eq (s : Str) : parse s =
    match genericArgument (normalize s) "Option".toList with
    | some inner => .optional (parse inner)
    | none =>
      match genericArgument (normalize s) "Vec".toList with
      | some inner => .array (parse inner)
      | none => parseName (normalize s) := by
  rw [parse]
  split <;> rename_i hoption
  · simp only [hoption]
  · simp only [hoption]
    split <;> rename_i hvec
    · simp only [hvec]
    · simp only [hvec]

theorem genericArgument_eq_some {ty name inner : Str} :
    genericArgument ty name = some inner ↔ ∃ body, ty = name ++ '<' :: (body ++ ['>']) ∧ Str.trim body = inner := by
  simp only [genericArgument, Option.bind_eq_bind, Option.bind_eq_some_iff, Option.pure_def, Option.some_inj]
  constructor
  · rintro ⟨rest, hrest, body, hbody, rfl⟩
    rw [stripLast] at hbody
    split_ifs at hbody with hlast
    cases hbody
    refine ⟨rest.dropLast, ?_, rfl⟩
    rw [List.dropLast_append_getLast? _ hlast, Str.stripPrefix_eq_some.mp hrest, List.append_assoc]
    rfl
  · rintro ⟨body, rfl, rfl⟩
    refine ⟨body ++ ['>'], ?_, body, ?_, rfl⟩
    · exact Str.stripPrefix_eq_some.mpr (by simp)
    · rw [stripLast, if_pos (by simp), List.dropLast_concat]

theorem parse_wrapper {s body : Str} (w : Wrapper) (h : normalize s = w.name ++ '<' :: (body ++ ['>'])) :
    parse s = w.wrap (parse (Str.trim body)) := by
  rw [parse_eq, h]
  cases w with
  | option =>
    rw [Wrapper.name, genericArgument_eq_some.mpr ⟨body, rfl, rfl⟩]
    rfl
  | vec =>
    have hno : genericArgument ("Vec".toList ++ '<' :: (body ++ ['>'])) "Option".toList = none := by
      rw [Option.eq_none_iff_forall_ne_some]
      intro inner hinner
      obtain ⟨_, heq, -⟩ := genericArgument_eq_some.mp hinner
      exact absurd (List.cons.inj heq).1 (by decide)
    rw [Wrapper.name, hno, genericArgument_eq_some.mpr ⟨body, rfl, rfl⟩]
    rfl

theorem parse_name {s name : Str} (h : normalize s = name) (hname : '<' ∉ name) : parse s = parseName name := by
  have hno : ∀ wrapper, genericArgument name wrapper = none := by
    intro wrapper
    rw [Option.eq_none_iff_forall_ne_some]
    intro inner hinner
    obtain ⟨_, rfl, -⟩ := genericArgument_eq_some.mp hinner
    exact hname (List.mem_append_right _ List.mem_cons_self)
  rw [parse_eq, h, hno, hno]

theorem lookup_map (names : List Str) (shape : TypeShape) (ty : Str) :
    (names.map fun name => (name, shape)).lookup ty = if ty ∈ names then some shape else none := by
  induction names with
  | nil => rfl
  | cons name names ih =>
    rw [List.map_cons, List.lookup_cons, ih]
    by_cases hname : ty = name
    · simp [hname]
    · simp only [beq_false_of_ne hname, List.mem_cons, hname, false_or]

/-- The code's names are the primitives. -/
theorem lookup_primitives (ty : Str) : primitives.lookup ty =
    if ty ∈ ["String", "str", "char"].map String.toList then some .string
    else if ty ∈ numberTypes then some .number
    else if ty = "bool".toList then some .boolean
    else none := by
  have hparts : primitives = ((["String", "str", "char"].map String.toList).map fun name => (name, TypeShape.string)) ++
      ((numberTypes.map fun name => (name, TypeShape.number)) ++
        ["bool".toList].map fun name => (name, TypeShape.boolean)) := rfl
  rw [hparts, List.lookup_append, List.lookup_append, lookup_map, lookup_map, lookup_map]
  simp only [List.mem_singleton]
  split_ifs <;> rfl

theorem parseName_eq (ty : Str) : parseName ty = (primitives.lookup ty).getD .unknown := by
  have hmem : ty ∈ ["String", "str", "char"].map String.toList ↔
      ty = "String".toList ∨ ty = "str".toList ∨ ty = "char".toList := by
    simp only [List.map_cons, List.map_nil, List.mem_cons, List.not_mem_nil, or_false]
  rw [lookup_primitives, parseName]
  simp only [hmem]
  split_ifs <;> rfl

theorem unknown_iff (ty : Str) :
    .unknown = (primitives.lookup ty).getD .unknown ↔ (primitives.lookup ty).isSome = false := by
  rw [lookup_primitives]
  split_ifs <;> simp

/-- A text that begins with a mark is no type. -/
theorem parse_mark {s rest : Str} {c : Char} (h : normalize s = c :: rest) (hc : c = '<' ∨ c = '\'') :
    parse s = .unknown := by
  have hno : ∀ (d : Char) (wrapper : Str), c ≠ d → genericArgument (c :: rest) (d :: wrapper) = none := by
    intro d wrapper hne
    rw [Option.eq_none_iff_forall_ne_some]
    intro inner hinner
    obtain ⟨_, heq, -⟩ := genericArgument_eq_some.mp hinner
    exact hne (List.cons.inj heq).1
  have hlist : ∀ name ∈ primitives.map Prod.fst, name.head? ≠ some '<' ∧ name.head? ≠ some '\'' := by
    decide +kernel
  have hlookup : primitives.lookup (c :: rest) = none := by
    refine List.lookup_eq_none_iff.mpr fun p hp => bne_iff_ne.mpr ?_
    rintro heq
    obtain ⟨hopen, hmark⟩ := hlist p.1 (List.mem_map_of_mem hp)
    rw [← heq] at hopen hmark
    rcases hc with rfl | rfl
    · exact hopen rfl
    · exact hmark rfl
  have hoption : "Option".toList = 'O' :: "ption".toList := rfl
  have hvec : "Vec".toList = 'V' :: "ec".toList := rfl
  rw [parse_eq, h, hoption, hno _ _ (by rcases hc with rfl | rfl <;> decide), hvec,
    hno _ _ (by rcases hc with rfl | rfl <;> decide), parseName_eq, hlookup]
  rfl

/-! ### No shape is deeper than its brackets are many -/

/-- How many options and arrays a shape is made of. -/
def TypeShape.depth : TypeShape → ℕ
  | .optional inner => inner.depth + 1
  | .array inner => inner.depth + 1
  | _ => 0

theorem depth_wrap (w : Wrapper) (shape : TypeShape) : (w.wrap shape).depth = shape.depth + 1 := by
  cases w <;> rfl

theorem sublist_trim (s : Str) : (Str.trim s).Sublist s := (Str.trim_infix_self s).sublist

theorem sublist_trimStart (s : Str) : (trimStart s).Sublist s := List.dropWhile_sublist _

theorem sublist_skip (s : Str) : (skip s).Sublist s := (sublist_trimStart _).trans (List.dropWhile_sublist _)

theorem sublist_stripReferences (n : ℕ) (s : Str) : (stripReferences n s).Sublist s := by
  fun_induction stripReferences n s with
  | case1 s => exact .refl s
  | case2 n rest lifetime hlifetime ih =>
    have hskip : (skip lifetime).Sublist (trimStart rest) := by
      rw [hlifetime]
      exact (sublist_skip lifetime).cons _
    exact ((ih.trans hskip).trans (sublist_trimStart rest)).cons _
  | case3 n rest _ ih => exact (ih.trans (sublist_trimStart rest)).cons _
  | case4 n s _ => exact .refl s

theorem sublist_afterLastColons (s : Str) : ((afterLastColons s).getD s).Sublist s := by
  induction s with
  | nil => exact .refl _
  | cons c s ih =>
    rw [afterLastColons]
    cases hrest : afterLastColons s with
    | some rest =>
      rw [hrest, Option.getD_some] at ih
      exact ih.cons _
    | none =>
      simp only
      split_ifs
      · exact (List.tail_sublist s).cons _
      · exact .refl _

theorem sublist_reduce (ty : Str) : (reduce ty).Sublist ty := by
  have hparts := ((sublist_trim _).trans (sublist_afterLastColons (ty.takeWhile (· ≠ '<')))).append
    (List.Sublist.refl (ty.dropWhile (· ≠ '<')))
  rwa [List.takeWhile_append_dropWhile] at hparts

theorem sublist_normalize (s : Str) : (normalize s).Sublist s := by
  rw [normalize_eq]
  exact ((sublist_reduce _).trans (sublist_stripReferences _ _)).trans (sublist_trim s)

theorem depth_parseName (ty : Str) : (parseName ty).depth = 0 := by
  unfold parseName
  split_ifs <;> rfl

theorem count_genericArgument {ty name inner : Str} (h : genericArgument ty name = some inner) :
    (normalize inner).count '<' + 1 ≤ ty.count '<' := by
  obtain ⟨body, rfl, rfl⟩ := genericArgument_eq_some.mp h
  have hle := ((sublist_normalize _).trans (sublist_trim body)).count_le '<'
  simp only [List.count_append, List.count_cons, beq_self_eq_true, if_true]
  omega

/-- What is parsed of a text is no deeper than the reduced text has brackets. -/
theorem depth_parse_le (s : Str) : (parse s).depth ≤ (normalize s).count '<' := by
  fun_induction parse s with
  | case1 s ty inner hoption ih => exact (Nat.add_le_add_right ih 1).trans (count_genericArgument hoption)
  | case2 s ty _ inner hvec ih => exact (Nat.add_le_add_right ih 1).trans (count_genericArgument hvec)
  | case3 s ty _ _ =>
    rw [depth_parseName]
    exact Nat.zero_le _

/-! ### Expressions -/

namespace TypeExpr

/-- Nothing. -/
def noBlanks : Blanks := ⟨[], by simp⟩

theorem isName_word (w : Word) : IsName w.text := ⟨w.ne, w.chars⟩

theorem isName_wrapper (w : Wrapper) : IsName w.name := by
  have hchars : ∀ c ∈ w.name, Str.isWhiteSpace c = false ∧ c ∉ ['<', '>', '&', '\'', ':'] := by
    cases w <;> decide +kernel
  exact ⟨by cases w <;> decide, hchars⟩

/-- The argument of a wrapper. -/
def argument (after close : Blanks) (inner : TypeExpr) : Str :=
  '<' :: ((after.text ++ (inner.text ++ close.text)) ++ ['>'])

theorem text_named (front : Front) (name : Word) :
    text (.named front name) = refsText front.refs ++ baseText front.path name.text noBlanks [] := by
  simp [text, baseText, noBlanks]

theorem text_wrapped (front : Front) (w : Wrapper) (before after close : Blanks) (inner : TypeExpr) :
    text (.wrapped front w before after close inner) =
      refsText front.refs ++ baseText front.path w.name before (argument after close inner) := by
  simp [text, baseText, argument]

/-- Neither end of an expression is white space. -/
theorem text_ends (e : TypeExpr) : ∃ c d, e.text.head? = some c ∧ e.text.getLast? = some d ∧
    Str.isWhiteSpace c = false ∧ Str.isWhiteSpace d = false := by
  cases e with
  | named front name =>
    obtain ⟨c, rest, hrest, hc, -⟩ := solid_refsText
      (isBase_baseText front.path (isName_word name) noBlanks []) front.refs
    have hne := name.ne
    refine ⟨c, name.text.getLast hne, by rw [text_named, hrest]; rfl, ?_, hc,
      isWhiteSpace_word name _ (List.getLast_mem hne)⟩
    rw [text, List.getLast?_append_of_ne_nil _ (by simp [hne]), List.getLast?_append_of_ne_nil _ hne,
      List.getLast?_eq_some_getLast hne]
  | wrapped front w before after close inner =>
    obtain ⟨c, rest, hrest, hc, -⟩ := solid_refsText
      (isBase_baseText front.path (isName_wrapper w) before (argument after close inner)) front.refs
    refine ⟨c, '>', by rw [text_wrapped, hrest]; rfl, ?_, hc, by decide⟩
    rw [text_wrapped, baseText, argument]
    simp only [← List.cons_append, ← List.append_assoc, List.getLast?_concat]

/-- White space around an expression is trimmed. -/
theorem trim_text (e : TypeExpr) (lead trail : Blanks) : Str.trim (lead.text ++ (e.text ++ trail.text)) = e.text := by
  obtain ⟨c, d, hhead, hlast, hc, hd⟩ := e.text_ends
  exact trim_around hhead hlast hc hd lead trail

theorem depth_shape_named (name : Str) : ((primitives.lookup name).getD .unknown).depth = 0 := by
  rw [← parseName_eq, depth_parseName]

theorem count_blanks (b : Blanks) : b.text.count '<' = 0 := List.count_eq_zero_of_not_mem (notMem_blanks (by decide) b)

/-- An expression has as many brackets as its shape is deep. -/
theorem count_text (e : TypeExpr) : e.text.count '<' = e.shape.depth := by
  have hzero : ∀ {s : Str}, '<' ∉ s → s.count '<' = 0 := List.count_eq_zero_of_not_mem
  have hrefs : ∀ refs, (refsText refs).count '<' = 0 := fun refs => hzero (notMem_refsText (by decide) (by simp) refs)
  have hpath : ∀ path : PathPrefix, path.text.count '<' = 0 :=
    fun path => hzero fun hmem => (PathPrefix.chars hmem).2 (by simp)
  have hname : ∀ {name : Str}, IsName name → name.count '<' = 0 :=
    fun h => hzero fun hmem => (h.2 _ hmem).2 (by simp)
  induction e with
  | named front name =>
    rw [text, List.count_append, List.count_append, hrefs, hpath, hname (isName_word name), shape, depth_shape_named]
  | wrapped front w before after close inner ih =>
    simp only [text, List.count_append, List.count_cons, hrefs, hpath, hname (isName_wrapper w), count_blanks, ih,
      shape, depth_wrap]
    simp

theorem count_argument (after close : Blanks) (inner : TypeExpr) :
    ((after.text ++ (inner.text ++ close.text)) ++ ['>']).count '<' = inner.shape.depth := by
  simp only [List.count_append, count_blanks, count_text]
  simp

/-- What is reduced of an expression. -/
theorem normalize_text (e : TypeExpr) (lead trail : Blanks) : normalize (lead.text ++ (e.text ++ trail.text)) =
    reduce (stripReferences e.text.length e.text) := by
  rw [normalize_eq, trim_text]

/-- A name is parsed as its shape if it is reached, or not listed. -/
theorem parse_named (front : Front) (name : Word) (lead trail : Blanks) :
    parse (lead.text ++ (text (.named front name) ++ trail.text)) = shape (.named front name) ↔
      Reached (.named front name) := by
  have hname := isName_word name
  have htail : IsTail [] := .inl rfl
  have hnormal := normalize_text (.named front name) lead trail
  obtain ⟨hout, -⟩ := outcome front.path (isBase_baseText front.path hname noBlanks []) front.refs
    (text (.named front name)).length (by rw [← text_named])
  rw [← text_named] at hout
  rw [Reached, shape]
  generalize reached front.path false front.refs = found at hout ⊢
  generalize stripReferences _ _ = left at hout hnormal
  have hfound : normalize (lead.text ++ (text (.named front name) ++ trail.text)) = name.text →
      parse (lead.text ++ (text (.named front name) ++ trail.text)) = (primitives.lookup name.text).getD .unknown :=
    fun h => by rw [parse_name h fun hmem => (hname.2 _ hmem).2 (by simp), parseName_eq]
  have hunknown : parse (lead.text ++ (text (.named front name) ++ trail.text)) = .unknown →
      (parse (lead.text ++ (text (.named front name) ++ trail.text)) = (primitives.lookup name.text).getD .unknown ↔
        ((primitives.lookup name.text).isSome = true → false = true)) := by
    intro h
    rw [h, unknown_iff]
    cases (primitives.lookup name.text).isSome <;> simp
  cases hout with
  | clean =>
    rw [← List.nil_append (baseText _ _ _ _), reduce_baseText hname htail (by simp) (.inl rfl),
      List.append_nil] at hnormal
    exact iff_of_true (hfound hnormal) fun _ => rfl
  | hidden p hp hpath =>
    rw [reduce_baseText hname htail hp (.inr hpath), List.append_nil] at hnormal
    exact iff_of_true (hfound hnormal) fun _ => rfl
  | lost n =>
    have hskip : skip (baseText front.path name.text noBlanks []) = [] := by
      rw [baseText, skip_append fun c hc => (PathPrefix.chars hc).1, skip_append (isWhiteSpace_word name)]
      rfl
    rw [hskip, stripReferences_stop (by simp)] at hnormal
    refine hunknown ?_
    rw [parse_name hnormal (by decide)]
    decide +kernel
  | marked p hp hpath =>
    obtain ⟨rest, hrest⟩ := reduce_marked hname noBlanks htail hp hpath
    rw [hrest] at hnormal
    exact hunknown (parse_mark hnormal (.inr rfl))

/-- A wrapper is parsed as its shape if it is reached, and its argument is parsed as its own. -/
theorem parse_wrapped (front : Front) (w : Wrapper) (before after close : Blanks) (inner : TypeExpr)
    (lead trail : Blanks) :
    parse (lead.text ++ (text (.wrapped front w before after close inner) ++ trail.text)) = w.wrap inner.shape ↔
      reached front.path false front.refs ∧ parse inner.text = inner.shape := by
  have hname := isName_wrapper w
  have htail : IsTail (argument after close inner) := .inr ⟨_, rfl⟩
  have hnormal := normalize_text (.wrapped front w before after close inner) lead trail
  have hdepth := depth_parse_le (lead.text ++ (text (.wrapped front w before after close inner) ++ trail.text))
  obtain ⟨hout, -⟩ := outcome front.path
    (isBase_baseText front.path hname before (argument after close inner)) front.refs
    (text (.wrapped front w before after close inner)).length
    (by rw [← text_wrapped])
  rw [← text_wrapped] at hout
  generalize text (.wrapped front w before after close inner) = written at *
  generalize reached front.path false front.refs = found at hout ⊢
  generalize stripReferences _ _ = left at hout hnormal
  have hinj : ∀ shape shape' : TypeShape, w.wrap shape = w.wrap shape' ↔ shape = shape' := by
    intro shape shape'
    cases w <;> simp [Wrapper.wrap]
  have hfound : normalize (lead.text ++ (written ++ trail.text)) = w.name ++ argument after close inner →
      (parse (lead.text ++ (written ++ trail.text)) = w.wrap inner.shape ↔
        true = true ∧ parse inner.text = inner.shape) := by
    intro h
    rw [parse_wrapper w h, trim_text, hinj]
    simp
  have hunknown : parse (lead.text ++ (written ++ trail.text)) = .unknown →
      ¬ parse (lead.text ++ (written ++ trail.text)) = w.wrap inner.shape := by
    intro h
    rw [h]
    cases w <;> simp [Wrapper.wrap]
  cases hout with
  | clean =>
    rw [← List.nil_append (baseText _ _ _ _), reduce_baseText hname htail (by simp) (.inl rfl)] at hnormal
    exact hfound hnormal
  | hidden p hp hpath =>
    rw [reduce_baseText hname htail hp (.inr hpath)] at hnormal
    exact hfound hnormal
  | lost n =>
    refine iff_of_false ?_ (by simp)
    have hskip : skip (baseText front.path w.name before (argument after close inner)) =
        if before.text = [] then skip (argument after close inner) else argument after close inner := by
      rw [baseText, skip_append fun c hc => (PathPrefix.chars hc).1, skip_append fun c hc => (hname.2 c hc).1]
      exact skip_gap rfl (by decide) before
    rw [hskip] at hnormal
    split_ifs at hnormal with hbefore
    · -- The search went past the bracket: too few are left.
      intro heq
      have hsublist : (reduce (stripReferences n (skip (argument after close inner)))).Sublist
          ((after.text ++ (inner.text ++ close.text)) ++ ['>']) := by
        rw [argument, skip_cons (by decide)]
        exact ((sublist_reduce _).trans (sublist_stripReferences _ _)).trans (sublist_skip _)
      have hcount := hsublist.count_le '<'
      rw [heq, depth_wrap, hnormal] at hdepth
      rw [count_argument] at hcount
      omega
    · -- The bracket itself is in front.
      rw [stripReferences_stop (by simp [argument]), ← List.nil_append (argument _ _ _),
        reduce_append (by simp) htail] at hnormal
      exact hunknown (parse_mark hnormal (.inl rfl))
  | marked p hp hpath =>
    obtain ⟨rest, hrest⟩ := reduce_marked hname before htail hp hpath
    rw [hrest] at hnormal
    exact iff_of_false (hunknown (parse_mark hnormal (.inr rfl))) (by simp)

/-- An expression is parsed as its shape exactly if each name down to one that is not listed is reached. -/
theorem parse_text_iff (e : TypeExpr) (lead trail : Blanks) :
    parse (lead.text ++ (e.text ++ trail.text)) = e.shape ↔ e.Reached := by
  induction e generalizing lead trail with
  | named front name => exact parse_named front name lead trail
  | wrapped front w before after close inner ih =>
    have hinner := ih noBlanks noBlanks
    simp only [noBlanks, List.nil_append, List.append_nil] at hinner
    rw [shape, parse_wrapped, Reached, hinner]

end TypeExpr

/-! ### Shapes are preserved where the names are reached -/

/-- A type expression, whatever white space stands around it, is parsed as its shape exactly if its names are
    reached, down to one that is not listed. Every text is parsed, with the loop over its references at
    its end; and what is written of a shape denotes it, with repeated options as one. -/
theorem shape_preserved (e : TypeExpr) (lead trail : Blanks) :
    (parse (lead.text ++ (e.text ++ trail.text)) = e.shape ↔ e.Reached) ∧
      (∀ s : Str, (stripReferences s.length s).head? ≠ some '&') ∧
      ∀ shape : TypeShape, readTypescript (typescript shape) = some shape.flat :=
  ⟨e.parse_text_iff lead trail, fun s => head_stripReferences s.length s le_rfl, readTypescript_typescript⟩

/-- The lifetime `'a`, with no white space behind it. -/
def openRef : Ref := ⟨TypeExpr.noBlanks, some (⟨['a'], by decide, by decide +kernel⟩, TypeExpr.noBlanks)⟩

/-- `&'a&str`. -/
def twiceBorrowed : TypeExpr :=
  .named ⟨[openRef, ⟨TypeExpr.noBlanks, none⟩], ⟨false, []⟩, by simp [Ref.isOpen]⟩
    ⟨"str".toList, by decide, by decide +kernel⟩

/-- `&'a::std::String`. -/
def rootedString : TypeExpr :=
  .named ⟨[openRef], ⟨true, [⟨"std".toList, by decide, by decide +kernel⟩]⟩, by simp⟩
    ⟨"String".toList, by decide, by decide +kernel⟩

/-- Both are strings, and of both nothing is left to parse. -/
theorem open_lifetime_lost :
    twiceBorrowed.text = "&'a&str".toList ∧ twiceBorrowed.shape = .string ∧ parse "&'a&str".toList = .unknown ∧
      rootedString.text = "&'a::std::String".toList ∧ rootedString.shape = .string ∧
      parse "&'a::std::String".toList = .unknown := by
  have hborrowed : normalize "&'a&str".toList = [] := by decide +kernel
  have hrooted : normalize "&'a::std::String".toList = [] := by decide +kernel
  refine ⟨by decide +kernel, by decide +kernel, ?_, by decide +kernel, by decide +kernel, ?_⟩
  · rw [parse_name hborrowed (by simp)]
    decide +kernel
  · rw [parse_name hrooted (by simp)]
    decide +kernel

end Arcature.Uag
