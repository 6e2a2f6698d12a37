import Arcature.Lib.Exposition
import Arcature.Observe.Recorded

/-! The text of the registry, line by line.

    Each name has a block: its help text if it has one, its type, and its samples (`render_eq`). A
    scraper reads the blocks back unless a help text has an escape there is none of, and finds in
    them the series of each name that have the kind of the name (`samples_lines`):

        # HELP wait_seconds How long.
        # TYPE wait_seconds histogram
        wait_seconds_bucket{le="0.5"} 1
        wait_seconds_bucket{le="+Inf"} 1
        wait_seconds_sum 0.3
        wait_seconds_count 1 -/

namespace Arcature.Observe.Metrics
open Arcature.Lib Arcature.Lib.Exposition

/-! ### Samples -/

/-- The type that is written for a kind. -/
def Kind.type : Kind → MetricType
  | counter => .counter
  | gauge => .gauge
  | histogram => .histogram

theorem Kind.text_type (k : Kind) : k.type.text = k.asStr := by
  cases k <;> rfl

/-- A sample of a series. -/
def Series.sample (s : Series) (suffix : Str) (extra : Option (Str × Str)) (value : Str) : Sample :=
  ⟨s.name ++ suffix, s.labels.entries ++ extra.toList, value, none⟩

theorem escapeLabel_eq (value : Str) : escapeLabel value = value.flatMap escapeChar := by
  refine List.flatMap_congr fun c _ => ?_
  rw [escapeChar]
  split
  · rfl
  · rfl
  · rfl
  · rename_i hbackslash hquote hbreak
    rw [if_neg hbackslash, if_neg hquote, if_neg hbreak]

theorem Series.render_eq (s : Series) (suffix : Str) (extra : Option (Str × Str)) :
    s.render suffix extra = writeSeries (s.name ++ suffix) (s.labels.entries ++ extra.toList) := by
  have hempty : (s.labels.entries = [] ∧ extra = none) ↔ s.labels.entries ++ extra.toList = [] := by
    cases extra <;> simp
  have hlabel : (fun label : Str × Str => label.1 ++ '=' :: '\x22' :: (escapeLabel label.2 ++ ['\x22'])) = writeLabel := by
    funext label
    rw [escapeLabel_eq, writeLabel]
  rw [Series.render, writeSeries, ← hlabel]
  simp only [hempty]

theorem Series.render_sample (s : Series) (suffix : Str) (extra : Option (Str × Str)) (value : Str) :
    s.render suffix extra ++ ' ' :: (value ++ ['\n']) = writeLine (.sample (s.sample suffix extra value)) ++ ['\n'] := by
  rw [render_eq, writeLine, writeSample, sample, List.append_assoc]
  rfl

/-- The samples of a histogram series. -/
def Histogram.samples (h : Histogram) (s : Series) : List Sample :=
  ((h.bounds.zip h.counts).map fun (bound, count) =>
    s.sample "_bucket".toList (some ("le".toList, formatFloat bound)) (Nat.toDigits 10 count.toNat)) ++
  [s.sample "_bucket".toList (some ("le".toList, "+Inf".toList)) (Nat.toDigits 10 h.count.toNat),
    s.sample "_sum".toList none (formatFloat h.sum),
    s.sample "_count".toList none (Nat.toDigits 10 h.count.toNat)]

theorem write_map_sample {α : Type} (l : List α) (f : α → Sample) :
    write ((l.map f).map .sample) = l.flatMap fun a => writeLine (.sample (f a)) ++ ['\n'] := by
  rw [write, List.map_map, List.flatMap_map]
  rfl

theorem Histogram.render_eq (h : Histogram) (s : Series) : h.render s = write ((h.samples s).map .sample) := by
  simp only [Histogram.render, Series.render_sample]
  rw [samples, List.map_append, write_append, write_map_sample, List.append_assoc, List.append_assoc]
  simp only [List.map_cons, List.map_nil, write_cons, List.append_assoc]
  congr 5

/-- The samples of a name, of the kind it has. -/
def Registry.samples (r : Registry) (name : Str) : Kind → List Sample
  | .counter => (r.counters.entries.filter (·.1.name = name)).map fun (s, value) =>
    s.sample [] none (Nat.toDigits 10 value.toNat)
  | .gauge => (r.gauges.entries.filter (·.1.name = name)).map fun (s, value) => s.sample [] none value.display
  | .histogram => (r.histograms.entries.filter (·.1.name = name)).flatMap fun (s, h) => h.samples s

theorem Registry.renderSeries_eq (r : Registry) (name : Str) (k : Kind) :
    r.renderSeries name k = write ((r.samples name k).map .sample) := by
  cases k with
  | counter =>
    simp only [renderSeries, Series.render_sample]
    rw [samples, write_map_sample]
  | gauge =>
    simp only [renderSeries, Series.render_sample]
    rw [samples, write_map_sample]
  | histogram =>
    simp only [renderSeries, Histogram.render_eq]
    rw [samples, List.map_flatMap, write_flatMap]

/-- The lines of a name. -/
def Registry.block (r : Registry) (e : Str × Kind × Str) : List Line :=
  (if e.2.2 = [] then [] else [.help e.1 (oneLine e.2.2)]) ++ .type e.1 e.2.1.type :: (r.samples e.1 e.2.1).map .sample

/-- The lines of the registry. -/
def Registry.lines (r : Registry) : List Line := r.described.entries.flatMap r.block

/-- The registry is rendered line by line. -/
theorem Registry.render_eq (r : Registry) : r.render = write r.lines := by
  rw [render, lines, write_flatMap]
  refine List.flatMap_congr fun e _ => ?_
  have hhelp : "# HELP ".toList ++ e.1 ++ ' ' :: (oneLine e.2.2 ++ ['\n']) =
      writeLine (.help e.1 (oneLine e.2.2)) ++ ['\n'] := by
    have hword : "# HELP ".toList = '#' :: ' ' :: ("HELP".toList ++ [' ']) := by decide
    rw [hword, writeLine, writeHelp]
    simp only [List.cons_append, List.append_assoc, List.nil_append]
  have htype : "# TYPE ".toList ++ e.1 ++ ' ' :: (e.2.1.asStr ++ ['\n']) =
      writeLine (.type e.1 e.2.1.type) ++ ['\n'] := by
    have hword : "# TYPE ".toList = '#' :: ' ' :: ("TYPE".toList ++ [' ']) := by decide
    rw [hword, writeLine, writeType, Kind.text_type]
    simp only [List.cons_append, List.append_assoc, List.nil_append]
  obtain ⟨name, kind, help⟩ := e
  dsimp only at hhelp htype ⊢
  rw [hhelp, htype, renderSeries_eq, block, write_append, write_cons, List.append_assoc]
  split
  · rfl
  · rw [write_cons]
    simp [write]

/-! ### What is in the lines -/

theorem samples_block (r : Registry) (e : Str × Kind × Str) : samples (r.block e) = r.samples e.1 e.2.1 := by
  have hsamples : ∀ l : List Sample, samples (l.map .sample) = l := by
    intro l
    rw [samples, List.filterMap_map]
    exact List.filterMap_some
  rw [Registry.block]
  split
  · exact hsamples _
  · exact hsamples _

theorem types_block (r : Registry) (e : Str × Kind × Str) : types (r.block e) = [(e.1, e.2.1.type)] := by
  have hnone : ∀ l : List Sample, (l.map Line.sample).filterMap Line.type? = [] := by
    intro l
    rw [List.filterMap_map, List.filterMap_eq_nil_iff]
    exact fun s _ => rfl
  rw [Registry.block]
  split
  · exact congrArg _ (hnone _)
  · exact congrArg _ (hnone _)

theorem underTypes_block (r : Registry) (e : Str × Kind × Str) (t : Option (Str × MetricType)) (rest : List Line) :
    ∃ t', underTypes t (r.block e ++ rest) =
      (r.samples e.1 e.2.1).map (some (e.1, e.2.1.type), ·) ++ underTypes t' rest := by
  refine ⟨some (e.1, e.2.1.type), ?_⟩
  rw [Registry.block]
  split
  · exact underTypes_samples _ _ _
  · exact underTypes_samples _ _ _

/-- The samples are those of the names, each of the kind of the name. -/
theorem samples_lines (r : Registry) :
    samples r.lines = r.described.entries.flatMap fun e => r.samples e.1 e.2.1 := by
  rw [samples, Registry.lines, List.filterMap_flatMap]
  exact List.flatMap_congr fun e _ => samples_block r e

/-- Every name has one type. -/
theorem types_lines (r : Registry) : types r.lines = r.described.entries.map fun e => (e.1, e.2.1.type) := by
  rw [types, Registry.lines, List.filterMap_flatMap, List.map_eq_flatMap]
  exact List.flatMap_congr fun e _ => types_block r e

/-- Every sample is below the type of the name it is rendered for. -/
theorem underTypes_lines (r : Registry) (t : Option (Str × MetricType)) :
    underTypes t r.lines =
      r.described.entries.flatMap fun e => (r.samples e.1 e.2.1).map (some (e.1, e.2.1.type), ·) := by
  rw [Registry.lines]
  induction r.described.entries generalizing t with
  | nil => rfl
  | cons e l ih =>
    obtain ⟨t', ht⟩ := underTypes_block r e t (l.flatMap r.block)
    rw [List.flatMap_cons, ht, ih, List.flatMap_cons]

/-- Only a help text can be unreadable. -/
theorem all_readable_lines_iff {r : Registry} :
    r.lines.all Line.readable ↔ ∀ e ∈ r.described.entries, (unescapeHelp (oneLine e.2.2)).isSome := by
  have hblock : ∀ e, (r.block e).all Line.readable = (unescapeHelp (oneLine e.2.2)).isSome := by
    intro e
    have hsamples : ∀ l : List Sample, (l.map Line.sample).all Line.readable = true := by
      intro l
      rw [List.all_map, List.all_eq_true]
      exact fun s _ => rfl
    rw [Registry.block, List.all_append, List.all_cons, hsamples]
    split
    · rename_i hempty
      rw [hempty]
      rfl
    · simp [Line.readable]
  rw [Registry.lines, List.all_flatMap, List.all_eq_true]
  exact forall₂_congr fun e _ => by rw [hblock e]

/-! ### Valid names -/

/-- A series whose name and labels are valid. -/
structure Series.Valid (s : Series) : Prop where
  name : isMetricName s.name
  labels : ∀ l ∈ s.labels.entries, isLabelName l.1 ∧ l.1 ≠ "le".toList

theorem isMetricName_append {n suffix : Str} (h : isMetricName n) (hsuffix : suffix.all isNameChar) :
    isMetricName (n ++ suffix) := by
  obtain ⟨hne, hchars, hdigit⟩ := isMetricName_iff.mp h
  obtain ⟨c, t, rfl⟩ := List.exists_cons_of_ne_nil hne
  refine isMetricName_iff.mpr ⟨List.cons_ne_nil _ _, ?_, hdigit⟩
  rw [List.all_append, hchars, hsuffix]
  rfl

theorem Series.Valid.sample {s : Series} (h : s.Valid) {suffix : Str} (hsuffix : suffix.all isNameChar)
    {extra : Option (Str × Str)} (hextra : ∀ l ∈ extra, isLabelName l.1) {value : Str} (htext : NumberText value)
    (hvalue : (F64.parse value).isSome) : (s.sample suffix extra value).Valid where
  name := isMetricName_append h.name hsuffix
  labels := by
    intro l hl
    rcases List.mem_append.mp hl with hl | hl
    · exact (h.labels l hl).1
    · exact hextra l (Option.mem_toList.mp hl)
  text := htext
  number := hvalue
  timestamp := rfl

theorem isSome_parse_toDigits (n : ℕ) : (F64.parse (Nat.toDigits 10 n)).isSome := by
  rw [(F64.parse_toDigits n).1]
  rfl

/-- A formatted number is read as the number. -/
theorem parse_formatFloat (x : F64) : ∃ y, F64.parse (formatFloat x) = some y ∧ y.Same x := by
  rw [formatFloat]
  split
  · rename_i h
    rw [Bool.and_eq_true] at h
    obtain ⟨y, hy, heq⟩ := F64.parse_intText h.1 h.2
    exact ⟨y, hy, .inl heq⟩
  · exact F64.parse_display x

theorem numberText_formatFloat (x : F64) : NumberText (formatFloat x) := by
  rw [formatFloat]
  split
  · exact numberText_intText _
  · exact numberText_display x

theorem isSome_of_reads {t : Str} {x : F64} (h : ∃ y, F64.parse t = some y ∧ y.Same x) : (F64.parse t).isSome := by
  obtain ⟨y, hy, -⟩ := h
  rw [hy]
  rfl

theorem isLabelName_le : isLabelName "le".toList := by decide

theorem Histogram.valid_samples (h : Histogram) {s : Series} (hs : s.Valid) : ∀ x ∈ h.samples s, x.Valid := by
  have hle : ∀ text : Str, ∀ l ∈ some ("le".toList, text), isLabelName l.1 := by
    rintro text l hl
    obtain rfl := Option.mem_some_iff.mp hl
    exact isLabelName_le
  have hnone : ∀ l ∈ (none : Option (Str × Str)), isLabelName l.1 := fun l hl => (nomatch hl)
  intro x hx
  rw [samples, List.mem_append, List.mem_map, List.mem_cons, List.mem_cons, List.mem_singleton] at hx
  rcases hx with ⟨b, -, rfl⟩ | rfl | rfl | rfl
  · exact hs.sample (by decide) (hle _) (numberText_toDigits _) (isSome_parse_toDigits _)
  · exact hs.sample (by decide) (hle _) (numberText_toDigits _) (isSome_parse_toDigits _)
  · exact hs.sample (by decide) hnone (numberText_formatFloat _) (isSome_of_reads (parse_formatFloat _))
  · exact hs.sample (by decide) hnone (numberText_toDigits _) (isSome_parse_toDigits _)

theorem valid_samples {r : Registry} (h : ∀ k, ∀ s ∈ r.series k, s.Valid) (n : Str) (k : Kind) :
    ∀ x ∈ r.samples n k, x.Valid := by
  have hnone : ∀ l ∈ (none : Option (Str × Str)), isLabelName l.1 := fun l hl => (nomatch hl)
  intro x hx
  cases k with
  | counter =>
    obtain ⟨e, he, rfl⟩ := List.mem_map.mp hx
    have hs := h .counter e.1 (List.mem_map_of_mem (List.mem_filter.mp he).1)
    exact hs.sample rfl hnone (numberText_toDigits _) (isSome_parse_toDigits _)
  | gauge =>
    obtain ⟨e, he, rfl⟩ := List.mem_map.mp hx
    have hs := h .gauge e.1 (List.mem_map_of_mem (List.mem_filter.mp he).1)
    exact hs.sample rfl hnone (numberText_display _) (isSome_of_reads (F64.parse_display _))
  | histogram =>
    obtain ⟨e, he, hx⟩ := List.mem_flatMap.mp hx
    have hs := h .histogram e.1 (List.mem_map_of_mem (List.mem_filter.mp he).1)
    exact e.2.valid_samples hs x hx

theorem newline_notMem_oneLine (help : Str) : '\n' ∉ oneLine help := by
  intro h
  obtain ⟨c, -, hc⟩ := List.mem_map.mp h
  split at hc
  · exact absurd hc (by decide)
  · rename_i hne
    exact hne hc

/-- What is rendered can be written. -/
theorem valid_lines {r : Registry} (hnames : ∀ e ∈ r.described.entries, isMetricName e.1)
    (hseries : ∀ k, ∀ s ∈ r.series k, s.Valid) : ∀ l ∈ r.lines, l.Valid := by
  intro l hl
  obtain ⟨e, he, hl⟩ := List.mem_flatMap.mp hl
  rw [Registry.block, List.mem_append, List.mem_cons, List.mem_map] at hl
  rcases hl with hl | rfl | ⟨x, hx, rfl⟩
  · split at hl
    · cases hl
    · obtain rfl := List.mem_singleton.mp hl
      exact ⟨hnames e he, newline_notMem_oneLine _⟩
  · exact hnames e he
  · exact valid_samples hseries _ _ x hx

end Arcature.Observe.Metrics
