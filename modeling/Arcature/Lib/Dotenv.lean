import Arcature.Lib.Lines

/-! A reader of `.env` texts.

    There is one assignment on a line, unless a quote that was opened goes on to the next one:

        # a comment
        NAME=value                 NAME      value
          export NAME = value      NAME      value
        NAME="first                NAME      "first
        second"                              second"

    A value is given as it is spelled, quotes included. The first assignment of a name counts. White space
    at the end of a line, or of the text, is not read (`readEnv_trimEnd`). -/

namespace Arcature.Lib.Str

/-- `trim_start`. -/
def trimStart (s : Str) : Str := s.dropWhile isWhiteSpace

theorem trimStart_concat_space {w : Char} (hw : isWhiteSpace w = true) (s : Str) :
    trimStart (s ++ [w]) = if trimStart s = [] then [] else trimStart s ++ [w] := by
  rw [trimStart, trimStart, List.dropWhile_append]
  simp only [List.isEmpty_iff, List.dropWhile_cons_of_pos hw, List.dropWhile_nil]

end Arcature.Lib.Str

namespace Arcature.Lib.Dotenv
open Arcature.Lib Arcature.Lib.Str

/-- A character of a name. -/
def isNameChar (c : Char) : Bool := c != '=' && !isWhiteSpace c

/-- A name, an equals sign and a value, with spaces around the sign. -/
def named (s : Str) : Option (Str × Str) :=
  match s.takeWhile isNameChar, trimStart (s.dropWhile isNameChar) with
  | c :: name, '=' :: value => some (c :: name, trim value)
  | _, _ => none

/-- What follows `export` and a space. -/
def exported (s : Str) : Option (Str × Str) :=
  (stripPrefix "export".toList s).bind fun rest =>
    if (rest.head?.map isWhiteSpace).getD false then named (trimStart rest) else none

/-- What is assigned where a quote does not go on. -/
def assignment (s : Str) : Option (Str × Str) :=
  if (trimStart s).head? = some '#' then none else (named (trimStart s)).or (exported (trimStart s))

/-- A quote. -/
inductive Quote where
  | single
  | double
  deriving DecidableEq

/-- The character that opens a quote and closes it. -/
def Quote.mark : Quote → Char
  | .single => '\''
  | .double => '"'

/-- The quote that is open after a character. -/
def quoteStep (q : Option Quote) (c : Char) : Option Quote :=
  match q with
  | none => if c = Quote.double.mark then some .double else if c = Quote.single.mark then some .single else none
  | some quote => if c = quote.mark then none else some quote

/-- The quote that is open after a line. None is opened in a comment. -/
def scan (q : Option Quote) (line : Str) : Option Quote :=
  if q = none ∧ (trimStart line).head? = some '#' then none else line.foldl quoteStep q

/-- The assignments of lines in order, when some lines of a quoted value have been read. -/
def read (q : Option Quote) (buffer : Str) : List Str → List (Str × Str)
  | [] => []
  | line :: lines =>
    let buffer := if q = none then line else buffer ++ '\n' :: line
    match scan q line with
    | none => (assignment buffer).toList ++ read none [] lines
    | some quote => read (some quote) buffer lines

/-- The assignments of a text in order. -/
def readEnv (s : Str) : List (Str × Str) := read none [] (s.splitOn '\n')

/-- The value of a name: that of its first assignment. -/
def value (l : List (Str × Str)) (name : Str) : Option Str := (l.find? (·.1 = name)).map Prod.snd

/-- What holds of every line, with the quote that is open before it. -/
def Along (P : Option Quote → Str → Prop) (q : Option Quote) : List Str → Prop
  | [] => True
  | line :: lines => P q line ∧ Along P (scan q line) lines

/-- The carriage return of a line end is in no quoted value. -/
def BareEnds (s : Str) : Prop :=
  Along (fun q line => line.getLast? = some '\r' → scan q line = none) none (s.splitOn '\n').dropLast

/-! ### Lines after lines -/

theorem along_append {P : Option Quote → Str → Prop} {q : Option Quote} {a b : List Str} :
    Along P q (a ++ b) ↔ Along P q a ∧ Along P (a.foldl scan q) b := by
  induction a generalizing q with
  | nil => simp [Along]
  | cons line a ih => rw [List.cons_append, Along, Along, ih, List.foldl_cons, and_assoc]

/-- Outside a quoted value nothing has been read of one. -/
theorem read_none (buffer : Str) (lines : List Str) : read none buffer lines = read none [] lines := by
  cases lines <;> rfl

/-- Lines that close the quotes they open are read by themselves. -/
theorem read_append {q : Option Quote} {a : List Str} (h : a.foldl scan q = none) (buffer : Str) (b : List Str) :
    read q buffer (a ++ b) = read q buffer a ++ read none [] b := by
  induction a generalizing q buffer with
  | nil =>
    rw [List.foldl_nil] at h
    subst h
    exact read_none buffer b
  | cons line a ih =>
    rw [List.foldl_cons] at h
    rw [List.cons_append, read, read]
    cases hscan : scan q line with
    | some quote => exact ih (hscan ▸ h) _
    | none =>
      dsimp only
      rw [ih (hscan ▸ h), List.append_assoc]

/-- A quote that is opened and not closed takes all that follows. -/
theorem read_append_open {q : Option Quote} {a b : List Str} {quote : Quote} (h : a.foldl scan q = some quote)
    (hb : ∀ l ∈ b, scan (some quote) l = some quote) (buffer : Str) : read q buffer (a ++ b) = read q buffer a := by
  induction a generalizing q buffer with
  | nil =>
    rw [List.foldl_nil] at h
    subst h
    rw [List.nil_append, read]
    induction b generalizing buffer with
    | nil => rfl
    | cons line b ih =>
      rw [read, hb line List.mem_cons_self]
      exact ih (fun l hl => hb l (List.mem_cons_of_mem line hl)) _
  | cons line a ih =>
    rw [List.foldl_cons] at h
    rw [List.cons_append, read, read]
    cases hscan : scan q line with
    | some open' => exact ih (hscan ▸ h) _
    | none =>
      dsimp only
      rw [ih (hscan ▸ h)]

/-- Whatever lines follow, what has been read stands. -/
theorem read_prefix_append (q : Option Quote) (buffer : Str) (a b : List Str) :
    read q buffer a <+: read q buffer (a ++ b) := by
  induction a generalizing q buffer with
  | nil => exact List.nil_prefix
  | cons line a ih =>
    rw [List.cons_append, read, read]
    cases scan q line with
    | some quote => exact ih _ _
    | none => exact (List.prefix_append_right_inj _).mpr (ih _ _)

/-- A character that is no quote opens none and closes none. -/
theorem quoteStep_of_ne {c : Char} (hdouble : c ≠ '"') (hsingle : c ≠ '\'') (q : Option Quote) : quoteStep q c = q := by
  cases q with
  | none => simp [quoteStep, Quote.mark, hdouble, hsingle]
  | some quote => cases quote <;> simp [quoteStep, Quote.mark, hdouble, hsingle]

/-- A line without quotes leaves a quote as it is. -/
theorem scan_of_notMem {line : Str} (hdouble : '"' ∉ line) (hsingle : '\'' ∉ line) (q : Option Quote) :
    scan q line = q := by
  have hfold : line.foldl quoteStep q = q := by
    induction line with
    | nil => rfl
    | cons c line ih =>
      rw [List.mem_cons, not_or] at hdouble hsingle
      rw [List.foldl_cons, quoteStep_of_ne (Ne.symm hdouble.1) (Ne.symm hsingle.1), ih hdouble.2 hsingle.2]
  rw [scan, hfold]
  split_ifs with hcomment
  · exact hcomment.1.symm
  · rfl

/-! ### The first assignment of a name -/

theorem value_append (a b : List (Str × Str)) (name : Str) :
    value (a ++ b) name = (value a name).or (value b name) := by
  rw [value, value, value, List.find?_append]
  cases a.find? (·.1 = name) <;> rfl

/-- The assignments of one name are none of another's. -/
theorem value_filter_ne {name key : Str} (h : name ≠ key) (l : List (Str × Str)) :
    value (l.filter (·.1 ≠ key)) name = value l name := by
  induction l with
  | nil => rfl
  | cons entry l ih =>
    rw [value, value] at *
    by_cases hkey : entry.1 = key
    · rw [List.filter_cons_of_neg (by simp [hkey]), List.find?_cons_of_neg (by simp [hkey, Ne.symm h]), ih]
    · rw [List.filter_cons_of_pos (by simp [hkey]), List.find?_cons, List.find?_cons]
      split
      · rfl
      · exact ih

/-! ### White space at the end -/

theorem named_concat_space {w : Char} (hw : isWhiteSpace w = true) (s : Str) : named (s ++ [w]) = named s := by
  have hname : isNameChar w = false := by simp [isNameChar, hw]
  have htake : (s ++ [w]).takeWhile isNameChar = s.takeWhile isNameChar := by
    rw [List.takeWhile_append]
    split_ifs with hlen
    · rw [List.takeWhile_cons_of_neg (by simp [hname]), List.append_nil, (List.takeWhile_prefix _).eq_of_length hlen]
    · rfl
  have hdrop : (s ++ [w]).dropWhile isNameChar = s.dropWhile isNameChar ++ [w] := by
    rw [List.dropWhile_append]
    split_ifs with hempty
    · rw [List.isEmpty_iff.mp hempty, List.dropWhile_cons_of_neg (by simp [hname])]
      rfl
    · rfl
  rw [named, named, htake, hdrop, trimStart_concat_space hw]
  by_cases hrest : trimStart (s.dropWhile isNameChar) = []
  · rw [if_pos hrest, hrest]
  · rw [if_neg hrest]
    obtain ⟨c, rest, hc⟩ := List.exists_cons_of_ne_nil hrest
    rw [hc, List.cons_append]
    split
    next d name value hd heq =>
      obtain ⟨rfl, rfl⟩ := List.cons.inj heq
      simp only [hd, trim_concat_space hw]
    next hno =>
      split
      next d name value hd heq =>
        obtain ⟨rfl, rfl⟩ := List.cons.inj heq
        exact absurd rfl (hno d name (rest ++ [w]) hd)
      next => rfl

theorem named_trimStart_concat_space {w : Char} (hw : isWhiteSpace w = true) (s : Str) :
    named (trimStart (s ++ [w])) = named (trimStart s) := by
  rw [trimStart_concat_space hw]
  split_ifs with hempty
  · rw [hempty]
  · exact named_concat_space hw _

theorem exported_concat_space {w : Char} (hw : isWhiteSpace w = true) (s : Str) : exported (s ++ [w]) = exported s := by
  rw [exported, exported]
  cases hstrip : stripPrefix "export".toList s with
  | some rest =>
    have hs := stripPrefix_eq_some.mp hstrip
    rw [hs, List.append_assoc, stripPrefix_append, Option.bind_some, Option.bind_some,
      named_trimStart_concat_space hw]
    cases rest with
    | nil =>
      have hnone : named (trimStart []) = none := rfl
      rw [hnone, ite_self, ite_self]
    | cons c rest => rfl
  | none =>
    have hnone : stripPrefix "export".toList (s ++ [w]) = none := by
      rw [Option.eq_none_iff_forall_ne_some]
      intro rest hrest
      have heq := stripPrefix_eq_some.mp hrest
      rcases List.eq_nil_or_concat rest with rfl | ⟨rest, c, rfl⟩
      · have hlast : w = 't' := by
          have := congrArg List.getLast? heq
          simpa using this
        rw [hlast] at hw
        exact absurd hw (by decide)
      · rw [List.concat_eq_append, ← List.append_assoc] at heq
        rw [(List.append_inj' heq rfl).1, stripPrefix_append] at hstrip
        exact Option.some_ne_none _ hstrip
    rw [hnone]

theorem assignment_concat_space {w : Char} (hw : isWhiteSpace w = true) (s : Str) :
    assignment (s ++ [w]) = assignment s := by
  rw [assignment, assignment, trimStart_concat_space hw]
  by_cases hempty : trimStart s = []
  · rw [if_pos hempty, hempty]
  · rw [if_neg hempty, List.head?_append_of_ne_nil _ hempty, named_concat_space hw, exported_concat_space hw]

theorem scan_concat_space {w : Char} (hw : isWhiteSpace w = true) (q : Option Quote) (line : Str) :
    scan q (line ++ [w]) = scan q line := by
  have hhead : (trimStart (line ++ [w])).head? = (trimStart line).head? := by
    rw [trimStart_concat_space hw]
    split_ifs with hempty
    · rw [hempty]
    · rw [List.head?_append_of_ne_nil _ hempty]
  have hdouble : w ≠ '"' := by
    rintro rfl
    exact absurd hw (by decide)
  have hsingle : w ≠ '\'' := by
    rintro rfl
    exact absurd hw (by decide)
  rw [scan, scan, hhead, List.foldl_append, List.foldl_cons, List.foldl_nil, quoteStep_of_ne hdouble hsingle]

/-- White space at the end of the last line makes no difference. -/
theorem read_concat_space {w : Char} (hw : isWhiteSpace w = true) (q : Option Quote) (buffer line : Str)
    (lines : List Str) : read q buffer (lines ++ [line ++ [w]]) = read q buffer (lines ++ [line]) := by
  induction lines generalizing q buffer with
  | nil =>
    simp only [List.nil_append, read, scan_concat_space hw]
    cases scan q line with
    | some quote => rfl
    | none =>
      dsimp only
      split_ifs
      · rw [assignment_concat_space hw]
      · rw [← List.cons_append, ← List.append_assoc, assignment_concat_space hw]
  | cons l lines ih =>
    rw [List.cons_append, List.cons_append, read, read]
    cases scan q l with
    | some quote => exact ih _ _
    | none => exact congrArg _ (ih _ _)

/-- An empty line at the end makes none either. -/
theorem read_concat_nil (q : Option Quote) (buffer : Str) (lines : List Str) :
    read q buffer (lines ++ [[]]) = read q buffer lines := by
  induction lines generalizing q buffer with
  | nil =>
    cases q with
    | none => rfl
    | some quote => rfl
  | cons l lines ih =>
    rw [List.cons_append, read, read]
    cases scan q l with
    | some quote => exact ih _ _
    | none => exact congrArg _ (ih _ _)

theorem read_append_nils (q : Option Quote) (buffer : Str) (lines : List Str) {gap : List Str}
    (h : ∀ l ∈ gap, l = []) : read q buffer (lines ++ gap) = read q buffer lines := by
  induction gap using List.reverseRecOn with
  | nil => rw [List.append_nil]
  | append_singleton gap l ih =>
    rw [← List.append_assoc, h l (by simp), read_concat_nil, ih fun k hk => h k (List.mem_append_left _ hk)]

/-- The carriage return of a line end is not read, if it is in no quoted value. -/
theorem read_stripCr {q : Option Quote} {a : List Str}
    (h : Along (fun q line => line.getLast? = some '\r' → scan q line = none) q a) (buffer : Str) (b : List Str) :
    read q buffer (a.map stripCr ++ b) = read q buffer (a ++ b) := by
  induction a generalizing q buffer with
  | nil => rfl
  | cons line a ih =>
    obtain ⟨hline, ha⟩ := h
    rw [List.map_cons, List.cons_append, List.cons_append]
    by_cases hcr : line.getLast? = some '\r'
    · have hscan := hline hcr
      obtain ⟨front, rfl⟩ := List.getLast?_eq_some_iff.mp hcr
      have hspace : isWhiteSpace '\r' = true := by decide
      have hfront : stripCr (front ++ ['\r']) = front := by rw [stripCr, if_pos hcr, List.dropLast_concat]
      have hscan' : scan q front = none := by rw [← scan_concat_space hspace, hscan]
      rw [hfront, read, read, hscan, hscan']
      rw [hscan] at ha
      dsimp only
      rw [ih ha]
      split_ifs
      · rw [assignment_concat_space hspace]
      · rw [← List.cons_append, ← List.append_assoc, assignment_concat_space hspace]
    · rw [stripCr_eq_self_iff.mpr hcr, read, read]
      cases hscan : scan q line with
      | some quote => exact ih (hscan ▸ ha) _
      | none =>
        rw [hscan] at ha
        exact congrArg _ (ih ha _)

/-- Lines are read as the text is. -/
theorem read_lines {s : Str} (h : BareEnds s) : read none [] (lines s) = readEnv s := by
  have hpieces := List.dropLast_append_getLast (List.splitOn_ne_nil '\n' s)
  rw [readEnv, ← hpieces, lines, List.getLast?_eq_some_getLast (List.splitOn_ne_nil '\n' s), read_stripCr h]
  by_cases hlast : (s.splitOn '\n').getLast (List.splitOn_ne_nil '\n' s) = []
  · rw [hlast, read_concat_nil]
    simp
  · simp [hlast]

theorem readEnv_concat_space {w : Char} (hw : isWhiteSpace w = true) (s : Str) : readEnv (s ++ [w]) = readEnv s := by
  by_cases hnewline : w = '\n'
  · subst hnewline
    rw [readEnv, List.splitOn_append_cons_self, List.splitOn_nil]
    exact read_concat_nil none [] _
  · rw [readEnv, splitOn_concat hnewline, read_concat_space hw, List.dropLast_append_getLast]
    rfl

/-- White space at the end of a text is not read. -/
theorem readEnv_trimEnd (s : Str) : readEnv (trimEnd s) = readEnv s := by
  induction s using List.reverseRecOn with
  | nil => rfl
  | append_singleton s w ih =>
    by_cases hw : isWhiteSpace w = true
    · rw [trimEnd, List.rdropWhile_concat_pos _ _ _ hw, ← trimEnd, ih, readEnv_concat_space hw]
    · rw [trimEnd, List.rdropWhile_concat_neg _ _ _ hw]

end Arcature.Lib.Dotenv
