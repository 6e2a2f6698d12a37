import Arcature.Lib.Double
import Mathlib.Tactic

/-! The text format of metrics, version 0.0.4, as a scraper reads it.

    A text is made of lines. A line is a comment, the help text of a metric name, the type of one, or a
    sample; a reader that cannot read one of the lines has read nothing:

        # HELP hits_total How many.
        # TYPE hits_total counter
        hits_total{route="/a",name="a\"b"} 3

    Label values and help texts have their own escapes. A sample that is written by the rules is read
    back as it was (`parseLine_sample`), whatever stands in its labels, and a text is read unless one
    of its help texts has an escape there is none of (`parse_write`). The type of a sample is the one
    given for its name, or for the histogram or summary the sample is a part of (`typesOf`). -/

namespace Arcature.Lib.Exposition

/-! ### Reading -/

/-- What separates tokens. -/
def isBlank (c : Char) : Bool := c = ' ' || c = '\t'

/-- Leave out blanks. -/
def skip (s : Str) : Str := s.dropWhile isBlank

/-- The text up to the next blank, and what follows. -/
def token (s : Str) : Str × Str := (s.takeWhile (!isBlank ·), s.dropWhile (!isBlank ·))

/-- A character of a label name. -/
def isLabelChar (c : Char) : Bool := c.isAlphanum || c = '_'

/-- A character of a metric name. -/
def isNameChar (c : Char) : Bool := isLabelChar c || c = ':'

/-- A metric name. -/
def isMetricName (s : Str) : Bool := s ≠ [] && s.all isNameChar && !(s.head?.any Char.isDigit)

/-- A label name. -/
def isLabelName (s : Str) : Bool := s ≠ [] && s.all isLabelChar && !(s.head?.any Char.isDigit)

/-- The type of a metric. -/
inductive MetricType where
  | counter
  | gauge
  | histogram
  | summary
  | untyped
  deriving DecidableEq

/-- What is written for a type. -/
def MetricType.text : MetricType → Str
  | counter => "counter".toList
  | gauge => "gauge".toList
  | histogram => "histogram".toList
  | summary => "summary".toList
  | untyped => "untyped".toList

/-- All types. -/
def MetricType.all : List MetricType := [counter, gauge, histogram, summary, untyped]

/-- One sample: the value is left as it is written. -/
structure Sample where
  name : Str
  labels : List (Str × Str)
  value : Str
  timestamp : Option Str := none
  deriving DecidableEq

/-- One line. -/
inductive Line where
  | comment
  | help (name docstring : Str)
  | type (name : Str) (kind : MetricType)
  | sample (s : Sample)
  deriving DecidableEq

/-- The text up to a closing quote: `\\`, `\"` and `\n` are escapes, and nothing else is. -/
def unquote : Str → Option (Str × Str)
  | [] => none
  | '\x22' :: rest => some ([], rest)
  | '\\' :: '\\' :: rest => (unquote rest).map fun (v, r) => ('\\' :: v, r)
  | '\\' :: '\x22' :: rest => (unquote rest).map fun (v, r) => ('\x22' :: v, r)
  | '\\' :: 'n' :: rest => (unquote rest).map fun (v, r) => ('\n' :: v, r)
  | '\\' :: _ => none
  | c :: rest => (unquote rest).map fun (v, r) => (c :: v, r)

/-- A help text: `\\` and `\n` are escapes, and nothing else is. -/
def unescapeHelp : Str → Option Str
  | [] => some []
  | '\\' :: '\\' :: rest => (unescapeHelp rest).map ('\\' :: ·)
  | '\\' :: 'n' :: rest => (unescapeHelp rest).map ('\n' :: ·)
  | '\\' :: _ => none
  | c :: rest => (unescapeHelp rest).map (c :: ·)

/-- One label, and what follows. -/
def parseLabel (s : Str) : Option ((Str × Str) × Str) :=
  let key := s.takeWhile isLabelChar
  match skip (s.dropWhile isLabelChar) with
  | '=' :: rest =>
    match skip rest with
    | '\x22' :: rest => if isLabelName key then (unquote rest).map fun (v, r) => ((key, v), r) else none
    | _ => none
  | _ => none

/-- The labels up to a closing brace, and what follows; there is room for one label a character. -/
def parseLabels : ℕ → Str → Option (List (Str × Str) × Str)
  | 0, _ => none
  | room + 1, s =>
    match skip s with
    | '}' :: rest => some ([], rest)
    | s =>
      (parseLabel s).bind fun (label, rest) =>
        match skip rest with
        | ',' :: rest => (parseLabels room rest).map fun (labels, r) => (label :: labels, r)
        | '}' :: rest => some ([label], rest)
        | _ => none

/-- The value of a sample, and the time of it if there is one. -/
def parseValue (name : Str) (labels : List (Str × Str)) (s : Str) : Option Sample :=
  let (value, rest) := token (skip s)
  let (time, rest) := token (skip rest)
  if (F64.parse value).isSome ∧ (time = [] ∨ (parseI64 time).isSome) ∧ skip rest = [] then
    some ⟨name, labels, value, if time = [] then none else some time⟩
  else none

/-- A sample. -/
def parseSample (s : Str) : Option Sample :=
  let name := s.takeWhile isNameChar
  if isMetricName name then
    match skip (s.dropWhile isNameChar) with
    | '{' :: rest => (parseLabels (rest.length + 1) rest).bind fun (labels, rest) => parseValue name labels rest
    | rest => parseValue name [] rest
  else none

/-- What follows the `#` of a line. -/
def parseComment (s : Str) : Option Line :=
  let (word, rest) := token (skip s)
  if word = "HELP".toList then
    let (name, docstring) := token (skip rest)
    if isMetricName name then (unescapeHelp (skip docstring)).map (.help name ·) else none
  else if word = "TYPE".toList then
    let (name, rest) := token (skip rest)
    let (kind, rest) := token (skip rest)
    if isMetricName name ∧ skip rest = [] then (MetricType.all.find? (·.text = kind)).map (.type name ·) else none
  else some .comment

/-- A line. -/
def parseLine (s : Str) : Option Line :=
  match skip s with
  | [] => some .comment
  | '#' :: rest => parseComment rest
  | s => (parseSample s).map .sample

/-- A text: the last line has a line break, too. -/
def parse (text : Str) : Option (List Line) :=
  let lines := text.splitOn '\n'
  if lines.getLast? = some [] then lines.dropLast.mapM parseLine else none

/-! ### Samples and their types -/

/-- What parts of a metric are named. -/
def MetricType.suffixes : MetricType → List Str
  | histogram => ["_bucket".toList, "_sum".toList, "_count".toList]
  | summary => ["_sum".toList, "_count".toList]
  | _ => []

/-- The sample of a line. -/
def Line.sample? : Line → Option Sample
  | .sample s => some s
  | _ => none

/-- The type a line gives to a name. -/
def Line.type? : Line → Option (Str × MetricType)
  | .type name kind => some (name, kind)
  | _ => none

/-- The samples of lines. -/
def samples (lines : List Line) : List Sample := lines.filterMap Line.sample?

/-- The types of lines. -/
def types (lines : List Line) : List (Str × MetricType) := lines.filterMap Line.type?

/-- The types given for the name of a sample, or else for what it is a part of. -/
def typesOf (lines : List Line) (name : Str) : List (Str × MetricType) :=
  let own := (types lines).filter (·.1 = name)
  if own = [] then (types lines).filter fun t => name ∈ t.2.suffixes.map (t.1 ++ ·) else own

/-- The samples of lines, each with the last type before it. -/
def underTypes : Option (Str × MetricType) → List Line → List (Option (Str × MetricType) × Sample)
  | _, [] => []
  | _, .type name kind :: lines => underTypes (some (name, kind)) lines
  | t, .sample s :: lines => (t, s) :: underTypes t lines
  | t, _ :: lines => underTypes t lines

/-- What a sample is of: its name and its label set. -/
def Sample.series (s : Sample) : Str × Multiset (Str × Str) := (s.name, s.labels)

/-! ### Writing -/

/-- What stands for a character of a label value. -/
def escapeChar (c : Char) : Str :=
  if c = '\\' then ['\\', '\\'] else if c = '\x22' then ['\\', '\x22'] else if c = '\n' then ['\\', 'n'] else [c]

/-- A label. -/
def writeLabel (label : Str × Str) : Str := label.1 ++ '=' :: '\x22' :: (label.2.flatMap escapeChar ++ ['\x22'])

/-- A name with its labels. -/
def writeSeries (name : Str) (labels : List (Str × Str)) : Str :=
  name ++ if labels = [] then [] else '{' :: ([','].intercalate (labels.map writeLabel) ++ ['}'])

/-- A sample. -/
def writeSample (s : Sample) : Str := writeSeries s.name s.labels ++ ' ' :: s.value

/-- What is written for the type of a name. -/
def writeType (name : Str) (kind : MetricType) : Str :=
  '#' :: ' ' :: ("TYPE".toList ++ ' ' :: (name ++ ' ' :: kind.text))

/-- What is written for the help text of a name. -/
def writeHelp (name docstring : Str) : Str :=
  '#' :: ' ' :: ("HELP".toList ++ ' ' :: (name ++ ' ' :: docstring))

/-- A line: the help text has its escapes already. -/
def writeLine : Line → Str
  | .comment => ['#']
  | .help name docstring => writeHelp name docstring
  | .type name kind => writeType name kind
  | .sample s => writeSample s

/-- A text of lines. -/
def write (lines : List Line) : Str := lines.flatMap (writeLine · ++ ['\n'])

theorem write_cons (l : Line) (lines : List Line) : write (l :: lines) = writeLine l ++ ['\n'] ++ write lines :=
  List.flatMap_cons

theorem write_append (lines lines' : List Line) : write (lines ++ lines') = write lines ++ write lines' :=
  List.flatMap_append

theorem write_flatMap {α : Type} (l : List α) (f : α → List Line) : write (l.flatMap f) = l.flatMap fun a => write (f a) :=
  List.flatMap_assoc

/-! ### What is written is read -/

theorem takeWhile_append_cons {p : Char → Bool} {l : Str} {c : Char} (hl : l.all p) (hc : p c = false) (rest : Str) :
    (l ++ c :: rest).takeWhile p = l := by
  rw [List.takeWhile_append_of_pos (List.all_eq_true.mp hl), List.takeWhile_cons_of_neg (by simp [hc]), List.append_nil]

theorem dropWhile_append_cons {p : Char → Bool} {l : Str} {c : Char} (hl : l.all p) (hc : p c = false) (rest : Str) :
    (l ++ c :: rest).dropWhile p = c :: rest := by
  rw [List.dropWhile_append_of_pos (List.all_eq_true.mp hl), List.dropWhile_cons_of_neg (by simp [hc])]

theorem skip_cons {c : Char} (hc : isBlank c = false) (rest : Str) : skip (c :: rest) = c :: rest := by
  rw [skip, List.dropWhile_cons_of_neg (by simp [hc])]

theorem skip_blank (rest : Str) : skip (' ' :: rest) = skip rest := by
  rw [skip, List.dropWhile_cons_of_pos (by decide)]
  rfl

/-- A text without blanks. -/
def NoBlank (s : Str) : Prop := s ≠ [] ∧ s.all (!isBlank ·)

/-- A character of a number. -/
def isValueChar (c : Char) : Bool := c.isAlphanum || c = '.' || c = '-' || c = '+'

/-- A text that can be a number. -/
def NumberText (s : Str) : Prop := s ≠ [] ∧ s.all isValueChar

theorem NoBlank.skip {s : Str} (h : NoBlank s) (rest : Str) : skip (s ++ rest) = s ++ rest := by
  obtain ⟨c, s, rfl⟩ := List.exists_cons_of_ne_nil h.1
  have hc := h.2
  rw [List.all_cons, Bool.and_eq_true] at hc
  exact skip_cons (by simpa using hc.1) _

theorem NoBlank.token {s : Str} (h : NoBlank s) (rest : Str) : token (s ++ ' ' :: rest) = (s, ' ' :: rest) := by
  rw [Exposition.token, takeWhile_append_cons h.2 (by decide), dropWhile_append_cons h.2 (by decide)]

theorem NoBlank.token_end {s : Str} (h : NoBlank s) : Exposition.token s = (s, []) := by
  have hall := List.all_eq_true.mp h.2
  have htake : s.takeWhile (!isBlank ·) = s := by simpa using @List.takeWhile_append_of_pos _ _ s [] hall
  have hdrop : s.dropWhile (!isBlank ·) = [] := by simpa using @List.dropWhile_append_of_pos _ _ s [] hall
  rw [Exposition.token, htake, hdrop]

theorem unquote_escape (v rest : Str) : unquote (v.flatMap escapeChar ++ '\x22' :: rest) = some (v, rest) := by
  induction v with
  | nil => rfl
  | cons c v ih =>
    rw [List.flatMap_cons, List.append_assoc]
    by_cases hbackslash : c = '\\'
    · subst hbackslash
      simp [escapeChar, unquote, ih]
    by_cases hquote : c = '\x22'
    · subst hquote
      simp [escapeChar, unquote, ih]
    by_cases hbreak : c = '\n'
    · subst hbreak
      simp [escapeChar, unquote, ih]
    · rw [escapeChar, if_neg hbackslash, if_neg hquote, if_neg hbreak, List.singleton_append, unquote, ih]
      · rfl
      all_goals simp_all

theorem isLabelName_iff {k : Str} : isLabelName k ↔ k ≠ [] ∧ k.all isLabelChar ∧ k.head?.any Char.isDigit = false := by
  simp [isLabelName, and_assoc]

theorem parseLabel_writeLabel {label : Str × Str} (hname : isLabelName label.1) (rest : Str) :
    parseLabel (writeLabel label ++ rest) = some (label, rest) := by
  have hchars := (isLabelName_iff.mp hname).2.1
  rw [parseLabel, writeLabel, List.append_assoc, List.cons_append, List.cons_append, List.append_assoc,
    List.singleton_append, takeWhile_append_cons hchars (by decide), dropWhile_append_cons hchars (by decide),
    skip_cons (by decide)]
  simp only
  rw [skip_cons (by decide)]
  simp only
  rw [if_pos hname, unquote_escape]
  rfl

/-- What a label name begins with. -/
theorem exists_cons_of_isLabelName {k : Str} (h : isLabelName k) :
    ∃ c s, k = c :: s ∧ isBlank c = false ∧ c ≠ '\x7d' := by
  obtain ⟨hne, hchars, -⟩ := isLabelName_iff.mp h
  obtain ⟨c, s, rfl⟩ := List.exists_cons_of_ne_nil hne
  rw [List.all_cons, Bool.and_eq_true] at hchars
  refine ⟨c, s, rfl, ?_, ?_⟩
  · by_contra hblank
    simp only [Bool.not_eq_false, isBlank, Bool.or_eq_true, decide_eq_true_eq] at hblank
    rcases hblank with rfl | rfl
    · exact absurd hchars.1 (by decide)
    · exact absurd hchars.1 (by decide)
  · rintro rfl
    exact absurd hchars.1 (by decide)

theorem parseLabels_write {labels : List (Str × Str)} (hne : labels ≠ []) (hnames : ∀ l ∈ labels, isLabelName l.1)
    {room : ℕ} (hroom : labels.length ≤ room) (rest : Str) :
    parseLabels room ([','].intercalate (labels.map writeLabel) ++ '\x7d' :: rest) = some (labels, rest) := by
  induction labels generalizing room with
  | nil => exact absurd rfl hne
  | cons label labels ih =>
    rw [List.forall_mem_cons] at hnames
    obtain ⟨room, rfl⟩ : ∃ r, room = r + 1 := ⟨room - 1, by simp at hroom; omega⟩
    rw [List.length_cons, Nat.add_le_add_iff_right] at hroom
    obtain ⟨c, k, hk, hblank, hbrace⟩ := exists_cons_of_isLabelName hnames.1
    have hstep : ∀ after : Str, parseLabels (room + 1) (writeLabel label ++ after) =
        match skip after with
        | ',' :: rest => (parseLabels room rest).map fun (labels, r) => (label :: labels, r)
        | '\x7d' :: rest => some ([label], rest)
        | _ => none := by
      intro after
      have hlabel := parseLabel_writeLabel hnames.1 after
      have htext : ∃ tail, writeLabel label ++ after = c :: tail := by
        rw [writeLabel, hk]
        exact ⟨_, rfl⟩
      obtain ⟨tail, htail⟩ := htext
      rw [htail] at hlabel ⊢
      rw [parseLabels, skip_cons hblank]
      split
      · rename_i heq
        exact absurd (List.cons.inj heq).1 hbrace
      · rw [hlabel]
        rfl
    cases labels with
    | nil =>
      rw [List.map_singleton, List.intercalate_singleton, hstep, skip_cons (by decide)]
      rfl
    | cons label' labels =>
      rw [List.map_cons, List.map_cons, List.intercalate_cons_cons, List.append_assoc, List.append_assoc,
        List.singleton_append, hstep, skip_cons (by decide)]
      have hrest := ih (List.cons_ne_nil _ _) hnames.2 hroom
      rw [List.map_cons] at hrest
      simp only [hrest]
      rfl

theorem isMetricName_iff {n : Str} : isMetricName n ↔ n ≠ [] ∧ n.all isNameChar ∧ n.head?.any Char.isDigit = false := by
  simp [isMetricName, and_assoc]

theorem not_blank_of_isNameChar {c : Char} (h : isNameChar c) : isBlank c = false ∧ c ≠ '#' := by
  refine ⟨?_, ?_⟩
  · by_contra hblank
    simp only [Bool.not_eq_false, isBlank, Bool.or_eq_true, decide_eq_true_eq] at hblank
    rcases hblank with rfl | rfl
    · exact absurd h (by decide)
    · exact absurd h (by decide)
  · rintro rfl
    exact absurd h (by decide)

theorem noBlank_of_isMetricName {n : Str} (h : isMetricName n) : NoBlank n := by
  obtain ⟨hne, hchars, -⟩ := isMetricName_iff.mp h
  refine ⟨hne, List.all_eq_true.mpr fun c hc => ?_⟩
  rw [(not_blank_of_isNameChar (List.all_eq_true.mp hchars c hc)).1]
  rfl

theorem NumberText.noBlank {s : Str} (h : NumberText s) : NoBlank s := by
  refine ⟨h.1, List.all_eq_true.mpr fun c hc => ?_⟩
  have hchar := List.all_eq_true.mp h.2 c hc
  by_contra hblank
  simp only [Bool.not_eq_true', Bool.not_eq_false, isBlank, Bool.or_eq_true, decide_eq_true_eq] at hblank
  rcases hblank with rfl | rfl
  · exact absurd hchar (by decide)
  · exact absurd hchar (by decide)

theorem parseValue_eq {value : Str} (hvalue : NoBlank value) (hread : (F64.parse value).isSome) (name : Str)
    (labels : List (Str × Str)) :
    parseValue name labels (' ' :: value) = some ⟨name, labels, value, none⟩ := by
  have hskip := hvalue.skip []
  rw [List.append_nil] at hskip
  rw [parseValue, skip_blank, hskip, hvalue.token_end]
  simp [hread, skip, token]

/-- A sample is read back as it was. -/
theorem parseSample_writeSample {s : Sample} (hname : isMetricName s.name) (hlabels : ∀ l ∈ s.labels, isLabelName l.1)
    (hvalue : NumberText s.value) (hread : (F64.parse s.value).isSome) (htime : s.timestamp = none) :
    parseSample (writeSample s) = some s := by
  obtain ⟨name, labels, value, time⟩ := s
  obtain rfl : time = none := htime
  have hchars := (isMetricName_iff.mp hname).2.1
  rw [parseSample, writeSample, writeSeries]
  by_cases hnil : labels = []
  · subst hnil
    rw [if_pos rfl, List.append_nil, takeWhile_append_cons hchars (by decide), dropWhile_append_cons hchars (by decide)]
    simp only [if_pos hname]
    have hskip := hvalue.noBlank.skip []
    rw [List.append_nil] at hskip
    rw [skip_blank, hskip]
    split
    · rename_i rest heq
      exact absurd (List.all_eq_true.mp hvalue.2 '\x7b' (heq ▸ List.mem_cons_self)) (by decide)
    · have hparsed := parseValue_eq hvalue.noBlank hread name []
      rw [parseValue, skip_blank] at hparsed
      exact hparsed
  · rw [if_neg hnil, List.append_assoc, List.cons_append, List.append_assoc, List.singleton_append,
      takeWhile_append_cons hchars (by decide), dropWhile_append_cons hchars (by decide)]
    simp only [if_pos hname]
    rw [skip_cons (by decide)]
    have hroom : labels.length ≤
        ([','].intercalate (labels.map writeLabel) ++ '\x7d' :: ' ' :: value).length + 1 := by
      rw [List.length_append, Str.length_intercalate, List.length_map]
      omega
    simp only [parseLabels_write hnil hlabels hroom, Option.bind_some]
    exact parseValue_eq hvalue.noBlank hread name labels

theorem exists_cons_of_isMetricName {n : Str} (h : isMetricName n) :
    ∃ c s, n = c :: s ∧ isBlank c = false ∧ c ≠ '#' := by
  obtain ⟨hne, hchars, -⟩ := isMetricName_iff.mp h
  obtain ⟨c, s, rfl⟩ := List.exists_cons_of_ne_nil hne
  rw [List.all_cons, Bool.and_eq_true] at hchars
  exact ⟨c, s, rfl, not_blank_of_isNameChar hchars.1⟩

theorem parseLine_sample {s : Sample} (hname : isMetricName s.name) (hlabels : ∀ l ∈ s.labels, isLabelName l.1)
    (hvalue : NumberText s.value) (hread : (F64.parse s.value).isSome) (htime : s.timestamp = none) :
    parseLine (writeSample s) = some (.sample s) := by
  have hsample := parseSample_writeSample hname hlabels hvalue hread htime
  obtain ⟨c, k, hk, hblank, hhash⟩ := exists_cons_of_isMetricName hname
  obtain ⟨tail, htail⟩ : ∃ tail, writeSample s = c :: tail := by
    rw [writeSample, writeSeries, hk]
    exact ⟨_, rfl⟩
  rw [htail] at hsample ⊢
  rw [parseLine, skip_cons hblank]
  split
  · rename_i heq
    cases heq
  · rename_i heq
    exact absurd (List.cons.inj heq).1 hhash
  · rw [hsample]
    rfl

theorem noBlank_text (kind : MetricType) : NoBlank kind.text := by
  cases kind <;> exact ⟨by decide, by decide⟩

theorem find?_text (kind : MetricType) : MetricType.all.find? (·.text = kind.text) = some kind := by
  cases kind <;> decide

theorem parseLine_hash (s : Str) : parseLine ('#' :: s) = parseComment s := by
  rw [parseLine, skip_cons (by decide)]
  rfl

theorem noBlank_word {word : Str} (h : word ∈ ["TYPE".toList, "HELP".toList]) : NoBlank word := by
  rw [List.mem_pair] at h
  rcases h with rfl | rfl
  · exact ⟨by decide, by decide⟩
  · exact ⟨by decide, by decide⟩

theorem parseLine_type {name : Str} (hname : isMetricName name) (kind : MetricType) :
    parseLine (writeType name kind) = some (.type name kind) := by
  have hword : NoBlank "TYPE".toList := noBlank_word (by simp)
  have hn := noBlank_of_isMetricName hname
  have hk := noBlank_text kind
  have hskip := hk.skip []
  rw [List.append_nil] at hskip
  rw [writeType, parseLine_hash, parseComment, skip_blank, hword.skip, hword.token]
  dsimp only
  rw [if_neg (by decide), if_pos rfl, skip_blank, hn.skip, hn.token]
  dsimp only
  rw [skip_blank, hskip, hk.token_end]
  dsimp only
  rw [if_pos ⟨hname, rfl⟩, find?_text]
  rfl

theorem parseLine_help {name : Str} (hname : isMetricName name) (docstring : Str) :
    parseLine (writeHelp name docstring) = (unescapeHelp (skip docstring)).map (.help name ·) := by
  have hword : NoBlank "HELP".toList := noBlank_word (by simp)
  have hn := noBlank_of_isMetricName hname
  rw [writeHelp, parseLine_hash, parseComment, skip_blank, hword.skip, hword.token]
  dsimp only
  rw [if_pos rfl, skip_blank, hn.skip, hn.token]
  dsimp only
  rw [if_pos hname, skip_blank]

/-! ### Numbers -/

theorem isValueChar_of_isDigit {c : Char} (h : c.isDigit) : isValueChar c := by
  simp [isValueChar, Char.isAlphanum, h]

theorem NumberText.minus {s : Str} (h : NumberText s) : NumberText ('-' :: s) :=
  ⟨List.cons_ne_nil _ _, by rw [List.all_cons, h.2]; rfl⟩

theorem numberText_of_all_isDigit {s : Str} (hne : s ≠ []) (h : s.all Char.isDigit) : NumberText s :=
  ⟨hne, List.all_eq_true.mpr fun c hc => isValueChar_of_isDigit (List.all_eq_true.mp h c hc)⟩

theorem numberText_toDigits (n : ℕ) : NumberText (Nat.toDigits 10 n) :=
  numberText_of_all_isDigit Nat.toDigits_ne_nil (all_isDigit_toDigits n)

theorem numberText_intText (k : ℤ) : NumberText (intText k) := by
  rw [intText]
  split
  · exact (numberText_toDigits _).minus
  · exact numberText_toDigits _

theorem numberText_decimalText (d : ℕ) (places : ℤ) : NumberText (decimalText d places) := by
  rw [decimalText]
  split
  · exact numberText_toDigits _
  · have hpad := List.all_eq_true.mp (all_isDigit_leftpad places.toNat (d % 10 ^ places.toNat))
    refine ⟨by simp, ?_⟩
    rw [List.all_append, (numberText_toDigits _).2, List.all_cons]
    exact List.all_eq_true.mpr fun c hc => isValueChar_of_isDigit (hpad c hc)

theorem numberText_display (x : F64) : NumberText x.display := by
  rw [F64.display]
  split
  · exact ⟨by decide, by decide⟩
  rename_i hnan
  have htext : NumberText (if x.isFinite then displayMagnitude x.magnitude else "inf".toList) := by
    split
    · rename_i hfinite
      obtain ⟨d, places, h⟩ :=
        exists_decimalText_of_mem (parseMagnitude_displayMagnitude (of_decide_eq_true hfinite)).1
      rw [h]
      exact numberText_decimalText d places
    · exact ⟨by decide, by decide⟩
  dsimp only
  split
  · exact htext.minus
  · exact htext

/-! ### What is written is one line -/

theorem newline_notMem_of_isMetricName {n : Str} (h : isMetricName n) : '\n' ∉ n := fun hmem =>
  absurd (List.all_eq_true.mp (isMetricName_iff.mp h).2.1 _ hmem) (by decide)

theorem newline_notMem_of_isLabelName {k : Str} (h : isLabelName k) : '\n' ∉ k := fun hmem =>
  absurd (List.all_eq_true.mp (isLabelName_iff.mp h).2.1 _ hmem) (by decide)

theorem NumberText.newline_notMem {s : Str} (h : NumberText s) : '\n' ∉ s := fun hmem =>
  absurd (List.all_eq_true.mp h.2 _ hmem) (by decide)

theorem newline_notMem_escape (v : Str) : '\n' ∉ v.flatMap escapeChar := by
  intro hmem
  obtain ⟨c, -, hc⟩ := List.mem_flatMap.mp hmem
  unfold escapeChar at hc
  split_ifs at hc with hbackslash hquote hbreak
  · exact absurd hc (by decide)
  · exact absurd hc (by decide)
  · exact absurd hc (by decide)
  · exact hbreak (List.mem_singleton.mp hc).symm

theorem newline_notMem_writeLabel {label : Str × Str} (h : isLabelName label.1) : '\n' ∉ writeLabel label := by
  rw [writeLabel, List.mem_append, List.mem_cons, List.mem_cons, List.mem_append, List.mem_singleton]
  have hkey := newline_notMem_of_isLabelName h
  have hvalue := newline_notMem_escape label.2
  simp [hkey, hvalue]

theorem notMem_intercalate {c : Char} {l : List Str} (h : ∀ s ∈ l, c ∉ s) (hc : c ≠ ',') : c ∉ [','].intercalate l := by
  induction l with
  | nil => simp
  | cons s l ih =>
    rw [List.forall_mem_cons] at h
    cases l with
    | nil => simpa using h.1
    | cons t l =>
      rw [List.intercalate_cons_cons, List.mem_append, List.mem_append, List.mem_singleton]
      have hrest := ih h.2
      simp [h.1, hc, hrest]

theorem newline_notMem_writeSample {s : Sample} (hname : isMetricName s.name)
    (hlabels : ∀ l ∈ s.labels, isLabelName l.1) (hvalue : NumberText s.value) : '\n' ∉ writeSample s := by
  have hseries : '\n' ∉ [','].intercalate (s.labels.map writeLabel) := by
    refine notMem_intercalate (fun t ht => ?_) (by decide)
    obtain ⟨label, hlabel, rfl⟩ := List.mem_map.mp ht
    exact newline_notMem_writeLabel (hlabels label hlabel)
  have hn := newline_notMem_of_isMetricName hname
  have hv := hvalue.newline_notMem
  rw [writeSample, writeSeries]
  split
  · simp [hn, hv]
  · simp [hn, hv, hseries]

theorem newline_notMem_writeType {name : Str} (hname : isMetricName name) (kind : MetricType) :
    '\n' ∉ writeType name kind := by
  have hn := newline_notMem_of_isMetricName hname
  have hword : '\n' ∉ "TYPE".toList := by decide
  have hkind : '\n' ∉ kind.text := by cases kind <;> decide
  rw [writeType, List.mem_cons, List.mem_cons, List.mem_append, List.mem_cons, List.mem_append, List.mem_cons]
  simp only [hn, hword, hkind, or_false, false_or]
  decide

theorem newline_notMem_writeHelp {name docstring : Str} (hname : isMetricName name) (h : '\n' ∉ docstring) :
    '\n' ∉ writeHelp name docstring := by
  have hn := newline_notMem_of_isMetricName hname
  have hword : '\n' ∉ "HELP".toList := by decide
  rw [writeHelp, List.mem_cons, List.mem_cons, List.mem_append, List.mem_cons, List.mem_append, List.mem_cons]
  simp only [hn, hword, h, or_false, false_or]
  decide

theorem unescapeHelp_cons {c : Char} (hc : c ≠ '\\') (s : Str) : unescapeHelp (c :: s) = (unescapeHelp s).map (c :: ·) := by
  rw [unescapeHelp]
  all_goals simp [hc]

theorem unescapeHelp_backslash {c : Char} (hc : c ≠ '\\') (hn : c ≠ 'n') (s : Str) :
    unescapeHelp ('\\' :: c :: s) = none := by
  rw [unescapeHelp]
  · simp [hc]
  · simp [hn]

/-- The blanks in front of a help text are no matter to its escapes. -/
theorem isSome_unescapeHelp_skip (s : Str) : (unescapeHelp (skip s)).isSome = (unescapeHelp s).isSome := by
  induction s with
  | nil => rfl
  | cons c s ih =>
    rw [skip, List.dropWhile_cons]
    split
    · rename_i hblank
      have hc : c ≠ '\\' := by
        rintro rfl
        exact absurd hblank (by decide)
      rw [unescapeHelp_cons hc, Option.isSome_map]
      exact ih
    · rfl

/-! ### Texts -/

/-- A sample that can be written. -/
structure Sample.Valid (s : Sample) : Prop where
  name : isMetricName s.name
  labels : ∀ l ∈ s.labels, isLabelName l.1
  text : NumberText s.value
  number : (F64.parse s.value).isSome
  timestamp : s.timestamp = none

/-- A line that can be written: a help text may have escapes there are none of. -/
def Line.Valid : Line → Prop
  | .comment => True
  | .help name docstring => isMetricName name ∧ '\n' ∉ docstring
  | .type name _ => isMetricName name
  | .sample s => s.Valid

/-- What a written line is read as. -/
def Line.read : Line → Line
  | .help name docstring => .help name ((unescapeHelp (skip docstring)).getD [])
  | l => l

/-- Whether a written line can be read. -/
def Line.readable : Line → Bool
  | .help _ docstring => (unescapeHelp docstring).isSome
  | _ => true

theorem parseLine_writeLine {l : Line} (h : l.Valid) :
    parseLine (writeLine l) = if l.readable then some l.read else none := by
  cases l with
  | comment => rfl
  | help name docstring =>
    rw [writeLine, parseLine_help h.1, Line.readable, ← isSome_unescapeHelp_skip, Line.read]
    cases unescapeHelp (skip docstring) <;> rfl
  | type name kind => exact parseLine_type h kind
  | sample s => exact parseLine_sample h.name h.labels h.text h.number h.timestamp

theorem newline_notMem_writeLine {l : Line} (h : l.Valid) : '\n' ∉ writeLine l := by
  cases l with
  | comment => decide
  | help name docstring => exact newline_notMem_writeHelp h.1 h.2
  | type name kind => exact newline_notMem_writeType h kind
  | sample s => exact newline_notMem_writeSample h.name h.labels h.text

theorem splitOn_write {lines : List Line} (h : ∀ l ∈ lines, l.Valid) :
    (write lines).splitOn '\n' = lines.map writeLine ++ [[]] := by
  induction lines with
  | nil => rfl
  | cons l lines ih =>
    rw [List.forall_mem_cons] at h
    have hrest := ih h.2
    rw [write] at hrest ⊢
    rw [List.flatMap_cons, List.append_assoc, List.singleton_append,
      List.splitOn_append_cons_self_of_not_mem (newline_notMem_writeLine h.1), hrest]
    rfl

theorem mapM_parseLine {lines : List Line} (h : ∀ l ∈ lines, l.Valid) :
    (lines.map writeLine).mapM parseLine = if lines.all Line.readable then some (lines.map Line.read) else none := by
  induction lines with
  | nil => rfl
  | cons l lines ih =>
    rw [List.forall_mem_cons] at h
    rw [List.map_cons, List.mapM_cons, parseLine_writeLine h.1, ih h.2, List.all_cons]
    cases l.readable <;> cases lines.all Line.readable <;> rfl

/-- A text is read line by line, if every line can be read. -/
theorem parse_write {lines : List Line} (h : ∀ l ∈ lines, l.Valid) :
    parse (write lines) = if lines.all Line.readable then some (lines.map Line.read) else none := by
  rw [parse, splitOn_write h]
  simp only [List.getLast?_append, List.getLast?_singleton, Option.some_or, if_true, List.dropLast_concat]
  exact mapM_parseLine h

/-! ### Samples of what is read -/

theorem samples_read (lines : List Line) : samples (lines.map Line.read) = samples lines := by
  rw [samples, List.filterMap_map]
  exact List.filterMap_congr fun l _ => by cases l <;> rfl

theorem types_read (lines : List Line) : types (lines.map Line.read) = types lines := by
  rw [types, List.filterMap_map]
  exact List.filterMap_congr fun l _ => by cases l <;> rfl

theorem typesOf_read (lines : List Line) (name : Str) : typesOf (lines.map Line.read) name = typesOf lines name := by
  rw [typesOf, types_read]
  rfl

theorem underTypes_read (t : Option (Str × MetricType)) (lines : List Line) :
    underTypes t (lines.map Line.read) = underTypes t lines := by
  induction lines generalizing t with
  | nil => rfl
  | cons l lines ih =>
    rw [List.map_cons]
    cases l with
    | comment => exact ih t
    | help name docstring => exact ih t
    | type name kind => exact ih (some (name, kind))
    | sample s => exact congrArg ((t, s) :: ·) (ih t)

theorem underTypes_samples (t : Option (Str × MetricType)) (l : List Sample) (lines : List Line) :
    underTypes t (l.map Line.sample ++ lines) = l.map (t, ·) ++ underTypes t lines := by
  induction l with
  | nil => rfl
  | cons s l ih => rw [List.map_cons, List.cons_append, underTypes, ih, List.map_cons, List.cons_append]

end Arcature.Lib.Exposition
