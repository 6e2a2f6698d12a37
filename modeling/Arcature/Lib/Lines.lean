import Arcature.Lib.Text
import Mathlib.Data.List.DropRight

/-! Text read a line at a time.

    `lines` cuts a text as a line iterator does: at every line feed, with a carriage return before it
    taken along, and no empty line at the end. `readLines` collects what a reader `f` makes of the
    trimmed lines. A reader that makes nothing of a blank line sees neither the line ends nor the
    white space at the end of the text, so that what an editor of lines does to a text is known from
    the lines it puts in. -/

namespace Arcature.Lib.Str

/-- A line without the carriage return of its line end. -/
def stripCr (line : Str) : Str := if line.getLast? = some '\r' then line.dropLast else line

/-- `lines`. The last piece has no line end, and is a line if there is anything in it. -/
def lines (s : Str) : List Str :=
  let pieces := s.splitOn '\n'
  pieces.dropLast.map stripCr ++ pieces.getLast?.toList.filter (· ≠ [])

/-- The lines with a line feed between them: `join("\n")`. -/
def joinLines (ls : List Str) : Str := ['\n'].intercalate ls

/-- Every line with its line feed. -/
def unlines (ls : List Str) : Str := ls.flatMap (· ++ ['\n'])

/-- `trim_end`. -/
def trimEnd (s : Str) : Str := s.rdropWhile isWhiteSpace

/-- What a reader makes of the lines, each without the white space around it. -/
def readLines {α : Type} (f : Str → Option α) (s : Str) : List α := (lines s).filterMap fun l => f (trim l)

@[simp] theorem unlines_singleton (l : Str) : unlines [l] = l ++ ['\n'] := by simp [unlines]

/-! ### Trimming -/

@[simp] theorem trim_nil : trim [] = [] := rfl

theorem trim_concat_space {w : Char} (hw : isWhiteSpace w = true) (s : Str) : trim (s ++ [w]) = trim s := by
  rw [trim, trim, List.dropWhile_append]
  split_ifs with hempty
  · rw [List.isEmpty_iff.mp hempty, List.dropWhile_cons_of_pos hw]
    rfl
  · rw [List.reverse_append, List.reverse_singleton, List.singleton_append, List.dropWhile_cons_of_pos hw]

theorem trim_append_of_space {indent : Str} (h : ∀ c ∈ indent, isWhiteSpace c = true) (s : Str) :
    trim (indent ++ s) = trim s := by
  rw [trim, List.dropWhile_append_of_pos h, trim]

/-- A text with no white space at either end is trimmed. -/
theorem trim_eq_self {c d : Char} {s : Str} (hhead : s.head? = some c) (hlast : s.getLast? = some d)
    (hc : isWhiteSpace c = false) (hd : isWhiteSpace d = false) : trim s = s := by
  obtain ⟨rest, rfl⟩ : ∃ rest, s = c :: rest := by
    cases s with
    | nil => simp at hhead
    | cons a rest => exact ⟨rest, by rw [Option.some.inj hhead]⟩
  obtain ⟨front, hfront⟩ := List.getLast?_eq_some_iff.mp hlast
  rw [trim, List.dropWhile_cons_of_neg (by simp [hc]), hfront, List.reverse_append, List.reverse_singleton,
    List.singleton_append, List.dropWhile_cons_of_neg (by simp [hd])]
  simp

theorem trim_infix_self (s : Str) : trim s <:+: s := by
  have hprefix := List.rdropWhile_prefix isWhiteSpace (s.dropWhile isWhiteSpace)
  exact hprefix.isInfix.trans (List.dropWhile_suffix isWhiteSpace).isInfix

/-- A trimmed text ends with no white space. -/
theorem isWhiteSpace_getLast_trim {s : Str} {c : Char} (h : (trim s).getLast? = some c) :
    isWhiteSpace c = false := by
  have hne : trim s ≠ [] := fun hnil => by simp [hnil] at h
  have hlast := List.rdropWhile_last_not isWhiteSpace (s.dropWhile isWhiteSpace) hne
  rw [List.getLast?_eq_some_getLast hne, Option.some.injEq] at h
  subst h
  exact Bool.eq_false_of_not_eq_true hlast

/-- Nor does it start with any. -/
theorem isWhiteSpace_head_trim {s : Str} {c : Char} (h : (trim s).head? = some c) : isWhiteSpace c = false := by
  have hprefix : trim s <+: s.dropWhile isWhiteSpace := List.rdropWhile_prefix isWhiteSpace _
  obtain ⟨rest, hrest⟩ := hprefix
  have hhead : (s.dropWhile isWhiteSpace).head? = some c := by
    rw [← hrest, List.head?_append, h]
    rfl
  have hne : s.dropWhile isWhiteSpace ≠ [] := fun hnil => by simp [hnil] at hhead
  have hnot := List.head_dropWhile_not isWhiteSpace hne
  rw [List.head?_eq_some_head hne, Option.some.injEq] at hhead
  rwa [hhead] at hnot

theorem trim_trim (s : Str) : trim (trim s) = trim s := by
  cases hhead : (trim s).head? with
  | none =>
    rw [List.head?_eq_none_iff.mp hhead]
    rfl
  | some c =>
    have hne : trim s ≠ [] := fun hnil => by simp [hnil] at hhead
    have hlast := List.getLast?_eq_some_getLast hne
    exact trim_eq_self hhead hlast (isWhiteSpace_head_trim hhead) (isWhiteSpace_getLast_trim hlast)

theorem trim_stripCr (line : Str) : trim (stripCr line) = trim line := by
  rw [stripCr]
  split_ifs with h
  · obtain ⟨front, rfl⟩ := List.getLast?_eq_some_iff.mp h
    rw [List.dropLast_concat, trim_concat_space (by decide)]
  · rfl

/-! ### Reading lines -/

/-- No line has a line feed in it. -/
theorem newline_notMem_lines {s l : Str} (h : l ∈ lines s) : '\n' ∉ l := by
  rcases List.mem_append.mp h with h | h
  · obtain ⟨piece, hpiece, rfl⟩ := List.mem_map.mp h
    have hnot := sep_notMem_splitOn (List.mem_of_mem_dropLast hpiece)
    rw [stripCr]
    split_ifs
    · exact fun hmem => hnot (List.mem_of_mem_dropLast hmem)
    · exact hnot
  · obtain ⟨hlast, -⟩ := List.mem_filter.mp h
    exact sep_notMem_splitOn (List.mem_of_mem_getLast? (Option.mem_toList.mp hlast))

section Reader

variable {α : Type} {f : Str → Option α}

/-- The line ends and the last empty piece make no difference to a reader. -/
theorem readLines_eq (hf : f [] = none) (s : Str) :
    readLines f s = (s.splitOn '\n').filterMap fun l => f (trim l) := by
  have hpieces := List.dropLast_append_getLast (List.splitOn_ne_nil '\n' s)
  rw [readLines, lines, List.getLast?_eq_some_getLast (List.splitOn_ne_nil '\n' s)]
  conv_rhs => rw [← hpieces]
  rw [List.filterMap_append, List.filterMap_append, List.filterMap_map]
  congr 1
  · exact List.filterMap_congr fun l _ => by rw [Function.comp_apply, trim_stripCr]
  · by_cases hlast : (s.splitOn '\n').getLast (List.splitOn_ne_nil '\n' s) = []
    · simp [hlast, hf]
    · simp [hlast]

theorem readLines_joinLines (hf : f [] = none) {ls : List Str} (h : ∀ l ∈ ls, '\n' ∉ l) :
    readLines f (joinLines ls) = ls.filterMap fun l => f (trim l) := by
  rw [readLines_eq hf]
  by_cases hls : ls = []
  · subst hls
    simp [joinLines, hf]
  · rw [joinLines, List.splitOn_intercalate '\n' h hls]

/-- A character that is no line feed goes to the last piece. -/
theorem splitOn_concat {w : Char} (hw : w ≠ '\n') (s : Str) :
    (s ++ [w]).splitOn '\n' = (s.splitOn '\n').dropLast ++
      [(s.splitOn '\n').getLast (List.splitOn_ne_nil '\n' s) ++ [w]] := by
  have hlast := List.dropLast_append_getLast (List.splitOn_ne_nil '\n' s)
  have hpieces : ∀ l ∈ (s.splitOn '\n').dropLast ++
      [(s.splitOn '\n').getLast (List.splitOn_ne_nil '\n' s) ++ [w]], '\n' ∉ l := by
    intro l hl
    rcases List.mem_append.mp hl with hl | hl
    · exact sep_notMem_splitOn (List.mem_of_mem_dropLast hl)
    · rw [List.mem_singleton.mp hl]
      have := sep_notMem_splitOn (List.getLast_mem (List.splitOn_ne_nil '\n' s))
      simp [this, Ne.symm hw]
  have hjoin : s ++ [w] = joinLines ((s.splitOn '\n').dropLast ++
      [(s.splitOn '\n').getLast (List.splitOn_ne_nil '\n' s) ++ [w]]) := by
    have hs : joinLines (s.splitOn '\n') = s := List.intercalate_splitOn '\n'
    rw [← hlast] at hs
    by_cases hfront : (s.splitOn '\n').dropLast = []
    · rw [hfront, List.nil_append, joinLines, List.intercalate_singleton] at hs ⊢
      rw [hs]
    · rw [joinLines, intercalate_append hfront (by simp), List.intercalate_singleton] at hs ⊢
      conv_lhs => rw [← hs]
      simp
  conv_lhs => rw [hjoin]
  exact List.splitOn_intercalate '\n' hpieces (by simp)

theorem readLines_body (hf : f [] = none) {body : Str} (hbody : '\n' ∉ body) :
    readLines f body = (f (trim body)).toList := by
  rw [readLines_eq hf, List.splitOn_eq_singleton hbody, List.filterMap_cons, List.filterMap_nil]
  cases f (trim body) <;> rfl

theorem readLines_line_append (hf : f [] = none) {body : Str} (hbody : '\n' ∉ body) (rest : Str) :
    readLines f (body ++ '\n' :: rest) = (f (trim body)).toList ++ readLines f rest := by
  rw [readLines_eq hf, readLines_eq hf, List.splitOn_append_cons_self_of_not_mem hbody, List.filterMap_cons]
  cases f (trim body) <;> rfl

/-- White space at the start is not read. -/
theorem readLines_cons_space (hf : f [] = none) {w : Char} (hw : isWhiteSpace w = true) (s : Str) :
    readLines f (w :: s) = readLines f s := by
  rw [readLines_eq hf, readLines_eq hf, List.splitOn_cons_eq_if_modifyHead]
  split_ifs
  · rw [List.filterMap_cons, trim_nil, hf]
  · obtain ⟨piece, pieces, hpieces⟩ := List.exists_cons_of_ne_nil (List.splitOn_ne_nil '\n' s)
    have htrim : trim (w :: piece) = trim piece := by rw [trim, List.dropWhile_cons_of_pos hw, trim]
    rw [hpieces, List.modifyHead_cons, List.filterMap_cons, List.filterMap_cons, htrim]

/-- White space at the end is not read. -/
theorem readLines_concat_space (hf : f [] = none) {w : Char} (hw : isWhiteSpace w = true) (s : Str) :
    readLines f (s ++ [w]) = readLines f s := by
  rw [readLines_eq hf, readLines_eq hf]
  by_cases hnewline : w = '\n'
  · subst hnewline
    rw [List.splitOn_append_cons_self, List.splitOn_nil, List.filterMap_append]
    simp [hf]
  · conv_rhs => rw [← List.dropLast_append_getLast (List.splitOn_ne_nil '\n' s)]
    rw [splitOn_concat hnewline, List.filterMap_append, List.filterMap_append, List.filterMap_cons,
      List.filterMap_cons, trim_concat_space hw]

theorem readLines_trimEnd (hf : f [] = none) (s : Str) : readLines f (trimEnd s) = readLines f s := by
  induction s using List.reverseRecOn with
  | nil => rfl
  | append_singleton s w ih =>
    by_cases hw : isWhiteSpace w = true
    · rw [trimEnd, List.rdropWhile_concat_pos _ _ _ hw, ← trimEnd, ih, readLines_concat_space hf hw]
    · rw [trimEnd, List.rdropWhile_concat_neg _ _ _ hw]

theorem readLines_trim (hf : f [] = none) (s : Str) : readLines f (trim s) = readLines f s := by
  have htrim : trim s = trimEnd (s.dropWhile isWhiteSpace) := rfl
  rw [htrim, readLines_trimEnd hf]
  induction s with
  | nil => rfl
  | cons c s ih =>
    by_cases hc : isWhiteSpace c = true
    · rw [List.dropWhile_cons_of_pos hc, ih rfl, readLines_cons_space hf hc]
    · rw [List.dropWhile_cons_of_neg hc]

theorem readLines_unlines (hf : f [] = none) {ls : List Str} (h : ∀ l ∈ ls, '\n' ∉ l) :
    readLines f (unlines ls) = ls.filterMap fun l => f (trim l) := by
  have hunlines : unlines ls = joinLines (ls ++ [[]]) := by
    clear h
    induction ls with
    | nil => rfl
    | cons l ls ih =>
      rw [unlines, List.flatMap_cons, ← unlines, ih, joinLines, joinLines, List.cons_append,
        List.intercalate_cons_of_ne_nil (by simp)]
  rw [hunlines, readLines_joinLines hf, List.filterMap_append]
  · simp [hf]
  · rintro l hl
    rcases List.mem_append.mp hl with hl | hl
    · exact h l hl
    · simp [List.mem_singleton.mp hl]

end Reader

/-! ### The end of lines -/

/-- There is only white space on it. -/
def isBlankLine (line : Str) : Bool := line.all isWhiteSpace

@[simp] theorem isBlankLine_append (s t : Str) : isBlankLine (s ++ t) = (isBlankLine s && isBlankLine t) :=
  List.all_append

@[simp] theorem isBlankLine_cons (c : Char) (s : Str) : isBlankLine (c :: s) = (isWhiteSpace c && isBlankLine s) :=
  List.all_cons

theorem trimEnd_append_of_blank {s t : Str} (h : isBlankLine t = true) : trimEnd (s ++ t) = trimEnd s := by
  rw [trimEnd, trimEnd, List.rdropWhile, List.rdropWhile, List.reverse_append, List.dropWhile_append_of_pos]
  intro c hc
  exact List.all_eq_true.mp h c (List.mem_reverse.mp hc)

theorem trimEnd_append {s t : Str} (h : isBlankLine t = false) : trimEnd (s ++ t) = s ++ trimEnd t := by
  induction t using List.reverseRecOn with
  | nil => exact absurd h (by simp [isBlankLine])
  | append_singleton t c ih =>
    rw [← List.append_assoc]
    by_cases hc : isWhiteSpace c = true
    · have hblank : isBlankLine [c] = true := by simp [isBlankLine, hc]
      rw [trimEnd_append_of_blank hblank, trimEnd_append_of_blank hblank, ih]
      simpa [hblank] using h
    · rw [trimEnd, List.rdropWhile_concat_neg _ _ _ hc, trimEnd, List.rdropWhile_concat_neg _ _ _ hc, List.append_assoc]

theorem isBlankLine_trimEnd (s : Str) : isBlankLine (trimEnd s) = isBlankLine s := by
  induction s using List.reverseRecOn with
  | nil => rfl
  | append_singleton s c ih =>
    by_cases hc : isWhiteSpace c = true
    · rw [trimEnd_append_of_blank (by simp [isBlankLine, hc]), ih]
      simp [isBlankLine, hc]
    · rw [trimEnd, List.rdropWhile_concat_neg _ _ _ hc]

theorem stripCr_eq_self_iff {line : Str} : stripCr line = line ↔ line.getLast? ≠ some '\r' := by
  rw [stripCr]
  split_ifs with h
  · obtain ⟨front, rfl⟩ := List.getLast?_eq_some_iff.mp h
    rw [List.dropLast_concat]
    exact iff_of_false (by simp) (not_not.mpr h)
  · exact iff_of_true rfl h

/-- A trimmed line has no carriage return at the end. -/
theorem stripCr_trimEnd (s : Str) : stripCr (trimEnd s) = trimEnd s := by
  rw [stripCr_eq_self_iff]
  intro hlast
  obtain ⟨front, hfront⟩ := List.getLast?_eq_some_iff.mp hlast
  have hnot := List.rdropWhile_last_not isWhiteSpace s
  rw [← trimEnd, hfront] at hnot
  exact absurd (by simpa using hnot (by simp)) (by decide : ¬ isWhiteSpace '\r' = false)

theorem trim_trimEnd (s : Str) : trim (trimEnd s) = trim s := by
  induction s using List.reverseRecOn with
  | nil => rfl
  | append_singleton s c ih =>
    by_cases hc : isWhiteSpace c = true
    · rw [trimEnd, List.rdropWhile_concat_pos _ _ _ hc, ← trimEnd, ih, trim_concat_space hc]
    · rw [trimEnd, List.rdropWhile_concat_neg _ _ _ hc]

theorem trimEnd_trimEnd (s : Str) : trimEnd (trimEnd s) = trimEnd s := List.rdropWhile_idempotent isWhiteSpace s

theorem lines_concat_newline (s : Str) : lines (s ++ ['\n']) = (s.splitOn '\n').map stripCr := by
  rw [lines, List.splitOn_append_cons_self, List.splitOn_nil, List.dropLast_concat, List.getLast?_concat]
  exact List.append_nil _

theorem joinLines_concat {ls : List Str} (h : ls ≠ []) (l : Str) :
    joinLines (ls ++ [l]) = joinLines ls ++ '\n' :: l := by
  rw [joinLines, intercalate_append h (by simp), List.intercalate_singleton]
  simp [joinLines]

theorem joinLines_inj {ls ks : List Str} (hls : ls ≠ []) (hks : ks ≠ []) (h : ∀ l ∈ ls, '\n' ∉ l)
    (h' : ∀ k ∈ ks, '\n' ∉ k) : joinLines ls = joinLines ks ↔ ls = ks := by
  refine ⟨fun heq => ?_, congrArg joinLines⟩
  rw [joinLines, joinLines] at heq
  rw [← List.splitOn_intercalate '\n' h hls, heq, List.splitOn_intercalate '\n' h' hks]

/-- The last line that is not blank. -/
theorem exists_last {ls : List Str} (h : ∃ l ∈ ls, isBlankLine l = false) :
    ∃ l blanks, ls = (ls.rdropWhile isBlankLine).dropLast ++ l :: blanks ∧ isBlankLine l = false ∧
      ∀ b ∈ blanks, isBlankLine b = true := by
  induction ls using List.reverseRecOn with
  | nil => simp at h
  | append_singleton ls l ih =>
    by_cases hl : isBlankLine l = true
    · have hrest : ∃ l ∈ ls, isBlankLine l = false := by
        obtain ⟨k, hk, hblank⟩ := h
        rcases List.mem_append.mp hk with hk | hk
        · exact ⟨k, hk, hblank⟩
        · rw [List.mem_singleton.mp hk, hl] at hblank
          exact absurd hblank (by simp)
      obtain ⟨last, blanks, heq, hlast, hblanks⟩ := ih hrest
      refine ⟨last, blanks ++ [l], ?_, hlast, ?_⟩
      · rw [List.rdropWhile_concat_pos _ _ _ hl, ← List.cons_append, ← List.append_assoc, ← heq]
      · rw [List.forall_mem_append, List.forall_mem_singleton]
        exact ⟨hblanks, hl⟩
    · refine ⟨l, [], ?_, Bool.eq_false_of_not_eq_true hl, by simp⟩
      rw [List.rdropWhile_concat_neg _ _ _ hl, List.dropLast_concat]

/-- What is trimmed from the end of lines are the blank ones after the last that is not, and the end of this one. -/
theorem trimEnd_joinLines (front : List Str) {l : Str} (hl : isBlankLine l = false) {blanks : List Str}
    (h : ∀ b ∈ blanks, isBlankLine b = true) :
    trimEnd (joinLines (front ++ l :: blanks)) = joinLines (front ++ [trimEnd l]) := by
  induction blanks using List.reverseRecOn with
  | nil =>
    rcases eq_or_ne front [] with rfl | hfront
    · simp [joinLines]
    · rw [joinLines_concat hfront, joinLines_concat hfront, ← List.singleton_append, ← List.append_assoc,
        trimEnd_append hl, List.append_assoc, List.singleton_append]
  | append_singleton blanks b ih =>
    have hb := h b (by simp)
    rw [← List.cons_append, ← List.append_assoc, joinLines_concat (by simp), trimEnd_append_of_blank, ih]
    · exact fun b hb => h b (List.mem_append_left _ hb)
    · rw [isBlankLine_cons, hb]
      rfl

/-! ### Whatever the ends of lines are -/

/-- A line without the carriage returns at its end. -/
def bareLine (line : Str) : Str := line.rdropWhile (· = '\r')

/-- The lines of a text up to the last that is not blank, without their ends. -/
def contentLines (s : Str) : List Str := ((lines s).map bareLine).rdropWhile isBlankLine

theorem bareLine_concat (line : Str) : bareLine (line ++ ['\r']) = bareLine line :=
  List.rdropWhile_concat_pos _ _ _ (by simp)

/-- What a carriage return at the end does not change is that of the bare line. -/
theorem apply_bareLine {α : Type} {f : Str → α} (hf : ∀ line, f (line ++ ['\r']) = f line) (line : Str) :
    f (bareLine line) = f line := by
  induction line using List.reverseRecOn with
  | nil => rfl
  | append_singleton line c ih =>
    by_cases hc : c = '\r'
    · rw [hc, bareLine_concat, ih, hf]
    · rw [bareLine, List.rdropWhile_concat_neg _ _ _ (by simpa using hc)]

@[simp] theorem trim_bareLine (line : Str) : trim (bareLine line) = trim line :=
  apply_bareLine (fun _ => trim_concat_space rfl _) line

@[simp] theorem trimEnd_bareLine (line : Str) : trimEnd (bareLine line) = trimEnd line :=
  apply_bareLine (fun _ => trimEnd_append_of_blank rfl) line

@[simp] theorem isBlankLine_bareLine (line : Str) : isBlankLine (bareLine line) = isBlankLine line :=
  apply_bareLine (fun line => by rw [isBlankLine_append]; exact Bool.and_true _) line

@[simp] theorem bareLine_stripCr (line : Str) : bareLine (stripCr line) = bareLine line := by
  rw [stripCr]
  split_ifs with h
  · obtain ⟨front, rfl⟩ := List.getLast?_eq_some_iff.mp h
    rw [List.dropLast_concat, bareLine_concat]
  · rfl

theorem bareLine_eq_self {line : Str} (h : line.getLast? ≠ some '\r') : bareLine line = line := by
  rw [bareLine, List.rdropWhile_eq_self_iff]
  intro hne heq
  exact h (by rw [List.getLast?_eq_some_getLast hne, of_decide_eq_true heq])

theorem bareLine_trimEnd (line : Str) : bareLine (trimEnd line) = trimEnd line :=
  bareLine_eq_self (stripCr_eq_self_iff.mp (stripCr_trimEnd line))

theorem lines_joinLines_newline {ls : List Str} (hne : ls ≠ []) (h : ∀ l ∈ ls, '\n' ∉ l) :
    lines (joinLines ls ++ ['\n']) = ls.map stripCr := by
  rw [lines_concat_newline, joinLines, List.splitOn_intercalate '\n' h hne]

theorem rdropWhile_blank {front : List Str} {l : Str} (hl : isBlankLine l = false) {blanks : List Str}
    (h : ∀ b ∈ blanks, isBlankLine b = true) :
    (front ++ l :: blanks).rdropWhile isBlankLine = front ++ [l] := by
  induction blanks using List.reverseRecOn with
  | nil => exact List.rdropWhile_concat_neg _ _ _ (by simp [hl])
  | append_singleton blanks b ih =>
    rw [List.forall_mem_append, List.forall_mem_singleton] at h
    rw [← List.cons_append, ← List.append_assoc, List.rdropWhile_concat_pos _ _ _ h.2, ih h.1]

theorem contentLines_of_lines {s : Str} {front : List Str} {l : Str} {blanks : List Str}
    (hlines : lines s = front ++ l :: blanks) (hl : isBlankLine l = false) (h : ∀ b ∈ blanks, isBlankLine b = true) :
    contentLines s = front.map bareLine ++ [bareLine l] := by
  rw [contentLines, hlines, List.map_append, List.map_cons, rdropWhile_blank (by simpa using hl)]
  intro b hb
  obtain ⟨blank, hblank, rfl⟩ := List.mem_map.mp hb
  rw [isBlankLine_bareLine, h blank hblank]

/-- What is left of lines when the end of the text is trimmed. -/
theorem contentLines_trimEnd_joinLines {front : List Str} {l : Str} {blanks : List Str} (hl : isBlankLine l = false)
    (h : ∀ b ∈ blanks, isBlankLine b = true) (hbroken : ∀ k ∈ front ++ [l], '\n' ∉ k) :
    contentLines (trimEnd (joinLines (front ++ l :: blanks)) ++ ['\n']) = front.map bareLine ++ [trimEnd l] := by
  rw [List.forall_mem_append, List.forall_mem_singleton] at hbroken
  have hlast : '\n' ∉ trimEnd l := fun hmem => hbroken.2 ((List.rdropWhile_prefix _ l).sublist.mem hmem)
  have hlines : lines (trimEnd (joinLines (front ++ l :: blanks)) ++ ['\n']) =
      front.map stripCr ++ [stripCr (trimEnd l)] := by
    rw [trimEnd_joinLines front hl h, lines_joinLines_newline (by simp), List.map_append]
    · rfl
    · rw [List.forall_mem_append, List.forall_mem_singleton]
      exact ⟨hbroken.1, hlast⟩
  rw [contentLines_of_lines hlines (by rw [stripCr_trimEnd, isBlankLine_trimEnd, hl]) (by simp), List.map_map,
    bareLine_stripCr, bareLine_trimEnd]
  exact congrArg (· ++ _) (List.map_congr_left fun k _ => bareLine_stripCr k)

/-! ### Lines with their ends -/

/-- `split_inclusive('\n')`. -/
def splitInclusive : Str → List Str
  | [] => []
  | c :: s =>
    if c = '\n' then [c] :: splitInclusive s
    else match splitInclusive s with
      | [] => [[c]]
      | line :: lines => (c :: line) :: lines

/-- A line with its end, or the last one without. -/
def IsLine (line : Str) : Prop := ∃ body, '\n' ∉ body ∧ (line = body ∨ line = body ++ ['\n'])

/-- Only the last of lines has no end. -/
def Ended (lines : List Str) : Prop := lines.Pairwise fun line _ => ∃ body, line = body ++ ['\n']

theorem flatten_splitInclusive (s : Str) : (splitInclusive s).flatten = s := by
  induction s with
  | nil => rfl
  | cons c s ih =>
    rw [splitInclusive]
    split_ifs
    · rw [List.flatten_cons, ih]
      rfl
    · conv_rhs => rw [← ih]
      cases splitInclusive s <;> rfl

theorem isLine_of_mem_splitInclusive {s line : Str} (h : line ∈ splitInclusive s) : IsLine line := by
  induction s generalizing line with
  | nil => exact absurd h List.not_mem_nil
  | cons c s ih =>
    rw [splitInclusive] at h
    split_ifs at h with hc
    · obtain rfl | h := List.mem_cons.mp h
      · exact ⟨[], List.not_mem_nil, .inr (by rw [hc]; rfl)⟩
      · exact ih h
    · have hfirst : ∀ rest, IsLine rest → IsLine (c :: rest) := by
        rintro rest ⟨body, hbody, hrest⟩
        exact ⟨c :: body, List.not_mem_cons_of_ne_of_not_mem (Ne.symm hc) hbody,
          hrest.imp (congrArg (c :: ·)) (congrArg (c :: ·))⟩
      cases hs : splitInclusive s with
      | nil =>
        rw [hs] at h
        rw [List.mem_singleton.mp h]
        exact hfirst [] ⟨[], List.not_mem_nil, .inl rfl⟩
      | cons l ls =>
        rw [hs] at h ih
        obtain rfl | h := List.mem_cons.mp h
        · exact hfirst l (ih List.mem_cons_self)
        · exact ih (List.mem_cons_of_mem l h)

theorem ended_splitInclusive (s : Str) : Ended (splitInclusive s) := by
  induction s with
  | nil => exact List.Pairwise.nil
  | cons c s ih =>
    rw [splitInclusive]
    split_ifs with hc
    · exact List.pairwise_cons.mpr ⟨fun _ _ => ⟨[], by rw [hc]; rfl⟩, ih⟩
    · cases hs : splitInclusive s with
      | nil => exact List.pairwise_singleton _ _
      | cons l ls =>
        rw [hs] at ih
        obtain ⟨hl, hls⟩ := List.pairwise_cons.mp ih
        refine List.pairwise_cons.mpr ⟨fun k hk => ?_, hls⟩
        obtain ⟨body, hbody⟩ := hl k hk
        exact ⟨c :: body, by rw [hbody]; rfl⟩

/-- Lines that follow each other are read one by one. -/
theorem readLines_flatten {α : Type} {f : Str → Option α} (hf : f [] = none) {ls : List Str} (hended : Ended ls)
    (hline : ∀ l ∈ ls, IsLine l) : readLines f ls.flatten = ls.filterMap fun l => f (trim l) := by
  induction ls with
  | nil => simp [readLines_eq hf, hf]
  | cons l ls ih =>
    obtain ⟨hl, hls⟩ := List.forall_mem_cons.mp hline
    obtain ⟨hfollowed, hrest⟩ := List.pairwise_cons.mp hended
    obtain ⟨body, hbody, rfl | rfl⟩ := hl
    · have hlast : ls = [] := by
        by_contra hne
        obtain ⟨k, hk⟩ := List.exists_mem_of_ne_nil ls hne
        obtain ⟨front, rfl⟩ := hfollowed k hk
        exact hbody (by simp)
      subst hlast
      rw [List.flatten_cons, List.flatten_nil, List.append_nil, readLines_body hf hbody, List.filterMap_cons]
      cases f (trim l) <;> rfl
    · rw [List.flatten_cons, List.append_assoc, List.singleton_append, readLines_line_append hf hbody, ih hrest hls,
        List.filterMap_cons, trim_concat_space (by decide)]
      cases f (trim body) <;> rfl

/-- `s[i..j]`, which panics off the boundaries of characters. -/
def slice? (s : Str) (i j : ℕ) : Option Str :=
  if i ≤ j ∧ s.isCharBoundary i ∧ s.isCharBoundary j then some ((s.sliceTo j).drop (s.sliceTo i).length) else none

theorem slice?_append (a b c : Str) : slice? (a ++ b ++ c) a.len (a ++ b).len = some b := by
  have hstart : (a ++ b ++ c).isCharBoundary a.len = true := by
    have := isCharBoundary_append a (b ++ c) 0
    rw [← List.append_assoc, Nat.add_zero] at this
    rw [this]
    cases b ++ c <;> rfl
  have hstop : (a ++ b ++ c).isCharBoundary (a ++ b).len = true := by
    have := isCharBoundary_append (a ++ b) c 0
    rw [Nat.add_zero] at this
    rw [this]
    cases c <;> rfl
  have hle : a.len ≤ (a ++ b).len := by
    rw [len_append]
    exact Nat.le_add_right _ _
  have hfront : (a ++ b ++ c).sliceTo a.len = a := by rw [List.append_assoc, sliceTo_append]
  rw [slice?, if_pos ⟨hle, hstart, hstop⟩, sliceTo_append, hfront, List.drop_left]

end Arcature.Lib.Str
