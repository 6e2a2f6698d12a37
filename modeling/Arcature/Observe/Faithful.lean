import Arcature.Observe.Exposed

/-! A scraper finds in the text of the registry what the calls recorded.

    The text is faithful if it is read by the text format, its samples are those that are to be found,
    each stands below the one type of its name, and no two are of one name and label set (`Faithful`).
    The registry does not see to all of this. The text is faithful just when (`faithful_iff`)

        every name is recorded as the kind it has         else its series are left out
        the backslashes of help texts are escapes         else the text cannot be read
        no finite bound comes twice                       else two buckets are one series
        no name is that of a part of a histogram          else the part has the type of the other
        no histogram has 2⁶⁴ observations                 else its counts begin anew -/

namespace Arcature.Observe.Metrics
open Arcature.Lib Arcature.Lib.Exposition

/-! ### A faithful text -/

/-- Lines that have the samples, each once and below the one type of its name. -/
structure Exposes (lines : List Line) (l : List Exposed) : Prop where
  exactly : ∃ l', l'.Perm l ∧ List.Forall₂ Finds (samples lines) l'
  types : ∀ p ∈ underTypes none lines, ∃ t, p.1 = some t ∧ typesOf lines p.2.name = [t]
  distinct : ((samples lines).map Sample.series).Nodup

/-- The text of the registry after calls has what they recorded. -/
def Faithful (bounds : List F64) (calls : List Call) : Prop :=
  ∃ lines, parse (run bounds calls).render = some lines ∧ Exposes lines (expected bounds calls)

/-! ### When it is found -/

/-- Whether every backslash begins an escape of help texts. -/
def wellEscaped : Str → Bool
  | [] => true
  | '\\' :: '\\' :: rest => wellEscaped rest
  | '\\' :: 'n' :: rest => wellEscaped rest
  | '\\' :: _ => false
  | _ :: rest => wellEscaped rest

/-- Every help text that is rendered has no other escapes. -/
def HelpsReadable (calls : List Call) : Prop := ∀ n, ∀ d ∈ (descriptions calls n).getLast?, wellEscaped d.2

/-- Bounds and calls whose text is faithful. -/
structure Exposable (bounds : List F64) (calls : List Call) : Prop where
  kinds : OfOneKind calls
  helps : HelpsReadable calls
  bounds : (∃ s, (.histogram, s) ∈ recordings calls) → (bounds.filter F64.isFinite).Pairwise fun a b => ¬ a.eq b
  names : PartsUnnamed calls
  counts : ∀ s, (observations calls s).length < 2 ^ 64

/-- A call with valid names. -/
def Call.Valid : Call → Prop
  | .describe name .. => isMetricName name
  | .increment name labels _ => isMetricName name ∧ ∀ l ∈ labels, isLabelName l.1 ∧ l.1 ≠ "le".toList
  | .set name labels _ => isMetricName name ∧ ∀ l ∈ labels, isLabelName l.1 ∧ l.1 ≠ "le".toList
  | .observe name labels _ => isMetricName name ∧ ∀ l ∈ labels, isLabelName l.1 ∧ l.1 ≠ "le".toList

section
variable {bounds : List F64} {calls : List Call}

/-! ### Bounds -/

theorem formatFloat_zero {x : F64} (h : x.magnitude = 0) : formatFloat x = ['0'] := by
  rw [← F64.ofParts_eta x, h]
  cases x.negative <;> decide +kernel

/-- Two finite bounds are formatted alike just when they are one number. -/
theorem formatFloat_eq_iff {x y : F64} (hx : x.isFinite) (hy : y.isFinite) : formatFloat x = formatFloat y ↔ x.eq y := by
  constructor
  · intro h
    obtain ⟨z, hz, hzx⟩ := parse_formatFloat x
    obtain ⟨z', hz', hzy⟩ := parse_formatFloat y
    rw [← h, hz, Option.some_inj] at hz'
    subst hz'
    obtain ⟨-, hxnan, hxrank⟩ := F64.eq_iff.mp (hzx.eq hx)
    obtain ⟨-, hynan, hyrank⟩ := F64.eq_iff.mp (hzy.eq hy)
    exact F64.eq_iff.mpr ⟨hxnan, hynan, hxrank.symm.trans hyrank⟩
  · intro h
    obtain ⟨-, -, hrank⟩ := F64.eq_iff.mp h
    rw [F64.rank, F64.rank] at hrank
    rcases eq_or_ne x.negative y.negative with hsign | hsign
    · have hmagnitude : x.magnitude = y.magnitude := by
        rw [hsign] at hrank
        split at hrank <;> omega
      rw [← F64.ofParts_eta x, ← F64.ofParts_eta y, hsign, hmagnitude]
    · -- only the zeros are one number with two signs
      have hzero : x.magnitude = 0 ∧ y.magnitude = 0 := by
        cases hxs : x.negative <;> cases hys : y.negative <;> simp_all
      rw [formatFloat_zero hzero.1, formatFloat_zero hzero.2]

theorem nodup_formatFloat_iff : ((withBuckets bounds).buckets.map formatFloat).Nodup ↔
    (bounds.filter F64.isFinite).Pairwise fun a b => ¬ a.eq b := by
  have hfinite : ∀ b ∈ bounds.filter F64.isFinite, b.isFinite := fun b hb => (List.mem_filter.mp hb).2
  rw [((perm_buckets bounds).map formatFloat).nodup_iff, List.Nodup, List.pairwise_map]
  refine List.Pairwise.iff_of_mem fun {a b} ha hb => not_congr (formatFloat_eq_iff (hfinite a ha) (hfinite b hb))

theorem formatFloat_ne_inf {x : F64} (hx : x.isFinite) : formatFloat x ≠ "+Inf".toList := by
  intro h
  obtain ⟨y, hy, hsame⟩ := parse_formatFloat x
  rw [h, parse_plusInf, Option.some_inj] at hy
  subst hy
  obtain ⟨-, -, hrank⟩ := F64.eq_iff.mp (hsame.eq hx)
  have hinfinity : infinity.rank = infinityBits := by decide
  have hlt := of_decide_eq_true hx
  rw [hinfinity, F64.rank] at hrank
  split at hrank <;> omega

/-- The name and the label set of a bucket. -/
def Series.bucket (s : Series) (text : Str) : Str × Multiset (Str × Str) :=
  (s.name ++ "_bucket".toList, (s.labels.entries ++ [("le".toList, text)] : List (Str × Str)))

theorem Series.bucket_injective (s : Series) : Function.Injective s.bucket := by
  intro text text' h
  have hperm := (List.perm_append_left_iff _).mp (Multiset.coe_eq_coe.mp (Prod.mk.inj h).2)
  exact (Prod.mk.inj (List.singleton_perm_singleton.mp hperm)).2

theorem map_series_histogram (s : Series) :
    (shown bounds calls (.histogram, s)).map Sample.series =
      (((withBuckets bounds).buckets.map formatFloat ++ ["+Inf".toList]).map s.bucket) ++
      ["_sum".toList, "_count".toList].map fun suffix => (s.name ++ suffix, (s.labels.entries : Multiset (Str × Str))) := by
  have hplain : ∀ suffix value, (s.sample suffix none value).series =
      (s.name ++ suffix, (s.labels.entries : Multiset (Str × Str))) := by
    intro suffix value
    rw [Sample.series, Series.sample, Option.toList_none, List.append_nil]
  rw [shown, Histogram.samples_ofList, List.map_append, List.map_append, List.map_map, List.map_map, List.append_assoc]
  simp only [List.map_cons, List.map_nil, hplain]
  rfl

/-- The samples of a histogram series are of different series if its bounds are different. -/
theorem nodup_series_histogram (s : Series) (h : ((withBuckets bounds).buckets.map formatFloat).Nodup) :
    ((shown bounds calls (.histogram, s)).map Sample.series).Nodup := by
  have hfinite : ∀ b ∈ (withBuckets bounds).buckets, b.isFinite := fun b hb =>
    (List.mem_filter.mp ((perm_buckets bounds).mem_iff.mp hb)).2
  have htexts : ((withBuckets bounds).buckets.map formatFloat ++ ["+Inf".toList]).Nodup := by
    refine List.nodup_append.mpr ⟨h, List.nodup_singleton _, ?_⟩
    rintro text htext text' htext' rfl
    obtain ⟨b, hb, rfl⟩ := List.mem_map.mp htext
    exact formatFloat_ne_inf (hfinite b hb) (List.mem_singleton.mp htext')
  rw [map_series_histogram]
  refine List.nodup_append.mpr ⟨htexts.map s.bucket_injective, ?_, ?_⟩
  · refine List.Nodup.map (fun suffix suffix' h => ?_) (by decide)
    exact List.append_cancel_left (Prod.mk.inj h).1
  · rintro x hx y hy rfl
    obtain ⟨text, -, rfl⟩ := List.mem_map.mp hx
    obtain ⟨suffix, hsuffix, heq⟩ := List.mem_map.mp hy
    have hname := List.append_cancel_left (Prod.mk.inj heq).1
    subst hname
    exact absurd hsuffix (by decide)

/-- The samples are of different series. -/
theorem nodup_series (hkinds : Exposable bounds calls) (hvalid : ∀ p ∈ recordings calls, p.2.Valid) :
    ((samples (run bounds calls).lines).map Sample.series).Nodup := by
  rw [samples_lines_eq, List.map_flatMap]
  refine List.nodup_flatMap.mpr ⟨?_, ?_⟩
  · rintro ⟨k, s⟩ hp
    cases k with
    | counter => exact List.nodup_singleton _
    | gauge => exact List.nodup_singleton _
    | histogram =>
      exact nodup_series_histogram s (nodup_formatFloat_iff.mpr (hkinds.bounds ⟨s, (mem_shownSeries_iff.mp hp).1⟩))
  · refine List.Pairwise.imp_of_mem ?_ (Registry.nodup_shownSeries _)
    rintro p q hp hq hne x hx hy
    obtain ⟨a, ha, rfl⟩ := List.mem_map.mp hx
    obtain ⟨b, hb, hab⟩ := List.mem_map.mp hy
    exact hne (eq_of_series_eq hkinds.names hvalid hp hq ha hb hab.symm)

/-! ### Types -/

theorem filter_types (r : Registry) (n : Str) :
    (types r.lines).filter (·.1 = n) = (r.described.get? n).toList.map fun d => (n, d.1.type) := by
  rw [types_lines, List.filter_map]
  have hentries : r.described.entries.filter ((·.1 = n) ∘ fun e => (e.1, e.2.1.type)) =
      (r.described.get? n).toList.map (n, ·) :=
    (List.filter_congr fun e _ => decide_eq_decide.mpr Iff.rfl).trans (r.described.filter_key n)
  rw [hentries, List.map_map]
  rfl

/-- A name that has a kind has its own type. -/
theorem typesOf_of_described {r : Registry} {n : Str} {d : Kind × Str} (h : r.described.get? n = some d) :
    typesOf r.lines n = [(n, d.1.type)] := by
  have hown := filter_types r n
  rw [h, Option.toList_some, List.map_singleton] at hown
  rw [typesOf, hown, if_neg (List.cons_ne_nil _ _)]

/-- A part of a histogram that has no kind by itself has the type of the histogram. -/
theorem typesOf_of_part {r : Registry} {n suffix : Str} {help : Str} (hsuffix : suffix ∈ MetricType.histogram.suffixes)
    (h : r.described.get? (n ++ suffix) = none) (hn : r.described.get? n = some (.histogram, help)) :
    typesOf r.lines (n ++ suffix) = [(n, .histogram)] := by
  have hown := filter_types r (n ++ suffix)
  have hbase := filter_types r n
  rw [h, Option.toList_none, List.map_nil] at hown
  rw [hn, Option.toList_some, List.map_singleton] at hbase
  rw [typesOf, hown, if_pos rfl]
  refine (List.filter_congr fun t ht => ?_).trans hbase
  rw [decide_eq_decide, List.mem_map]
  constructor
  · rintro ⟨suffix', hsuffix', heq⟩
    have hhistogram : suffix' ∈ MetricType.histogram.suffixes := by
      rw [types_lines, List.mem_map] at ht
      obtain ⟨⟨m, k, help'⟩, -, rfl⟩ := ht
      cases k with
      | counter => cases hsuffix'
      | gauge => cases hsuffix'
      | histogram => exact hsuffix'
    exact (eq_of_append_suffix hhistogram hsuffix heq).1
  · intro hname
    have hmem : t ∈ (types r.lines).filter (·.1 = n) := List.mem_filter.mpr ⟨ht, decide_eq_true hname⟩
    rw [hbase] at hmem
    obtain rfl := List.mem_singleton.mp hmem
    exact ⟨suffix, hsuffix, rfl⟩

/-- A sample stands below the type of the series it is of. -/
theorem mem_underTypes_iff {q : Option (Str × MetricType) × Sample} :
    q ∈ underTypes none (run bounds calls).lines ↔
      ∃ p ∈ (run bounds calls).shownSeries, q.1 = some (p.2.name, p.1.type) ∧ q.2 ∈ shown bounds calls p := by
  rw [underTypes_lines, List.mem_flatMap, Registry.shownSeries]
  constructor
  · rintro ⟨e, he, hq⟩
    obtain ⟨x, hx, rfl⟩ := List.mem_map.mp hq
    rw [samples_eq, List.mem_flatMap] at hx
    obtain ⟨s, hs, hx⟩ := hx
    have hname := of_decide_eq_true (List.mem_filter.mp hs).2
    refine ⟨(e.2.1, s), List.mem_flatMap.mpr ⟨e, he, List.mem_map_of_mem hs⟩, ?_, hx⟩
    rw [hname]
  · rintro ⟨p, hp, hq, hx⟩
    obtain ⟨e, he, hp⟩ := List.mem_flatMap.mp hp
    obtain ⟨s, hs, rfl⟩ := List.mem_map.mp hp
    have hname := of_decide_eq_true (List.mem_filter.mp hs).2
    refine ⟨e, he, List.mem_map.mpr ⟨q.2, ?_, ?_⟩⟩
    · rw [samples_eq]
      exact List.mem_flatMap.mpr ⟨s, hs, hx⟩
    · rw [← hname, ← hq]

theorem get?_described_of_mem {p : Kind × Series} (hp : p ∈ (run bounds calls).shownSeries) :
    ∃ help, (run bounds calls).described.get? p.2.name = some (p.1, help) := by
  have hkind := (mem_shownSeries_iff.mp hp).2
  rw [kindOf_eq bounds] at hkind
  obtain ⟨d, hd, hk⟩ := Option.map_eq_some_iff.mp hkind
  exact ⟨d.2, hd.trans (by rw [← hk])⟩

/-- Every sample stands below the one type of its name, unless another name is that of a part. -/
theorem typesOf_of_mem_underTypes
    (hnames : PartsUnnamed calls)
    (hvalid : ∀ p ∈ recordings calls, p.2.Valid) {q : Option (Str × MetricType) × Sample}
    (hq : q ∈ underTypes none (run bounds calls).lines) :
    ∃ t, q.1 = some t ∧ typesOf (run bounds calls).lines q.2.name = [t] := by
  obtain ⟨⟨k, s⟩, hp, htype, hx⟩ := mem_underTypes_iff.mp hq
  have hrecorded := (mem_shownSeries_iff.mp hp).1
  obtain ⟨help, hdescribed⟩ := get?_described_of_mem hp
  obtain ⟨suffix, hsuffix, hname, -⟩ := series_of_mem_shown (hvalid _ hrecorded) hx
  refine ⟨_, htype, ?_⟩
  rw [hname]
  rcases mem_suffixes_or_eq_nil hsuffix with ⟨rfl, hsuffix⟩ | rfl
  · refine typesOf_of_part hsuffix ?_ hdescribed
    rw [← Option.not_isSome_iff_eq_none, isSome_described_iff]
    rintro ⟨c, hc, hc'⟩
    exact hnames s hrecorded suffix hsuffix c hc hc'
  · rw [List.append_nil]
    exact typesOf_of_described hdescribed

theorem exists_mem_shown_histogram (s : Series) {suffix : Str} (h : suffix ∈ MetricType.histogram.suffixes) :
    ∃ x ∈ shown bounds calls (.histogram, s), x.name = s.name ++ suffix := by
  rw [shown, Histogram.samples_ofList]
  rcases mem_suffixes_iff.mp h with rfl | rfl | rfl
  · exact ⟨_, List.mem_append_right _ List.mem_cons_self, rfl⟩
  · exact ⟨_, List.mem_append_right _ (List.mem_cons_of_mem _ List.mem_cons_self), rfl⟩
  · exact ⟨_, List.mem_append_right _ (List.mem_cons_of_mem _ (List.mem_cons_of_mem _ List.mem_cons_self)), rfl⟩

/-- A part of a histogram with a kind by itself would have two types. -/
theorem names_of_typesOf (hkinds : OfOneKind calls)
    (htypes : ∀ q ∈ underTypes none (run bounds calls).lines,
      ∃ t, q.1 = some t ∧ typesOf (run bounds calls).lines q.2.name = [t])
    {s : Series} (hs : (.histogram, s) ∈ recordings calls) {suffix : Str}
    (hsuffix : suffix ∈ MetricType.histogram.suffixes) {c : Call} (hc : c ∈ calls) : c.name ≠ s.name ++ suffix := by
  intro hname
  obtain ⟨x, hx, hxname⟩ := exists_mem_shown_histogram s hsuffix
  have hp : (.histogram, s) ∈ (run bounds calls).shownSeries := mem_shownSeries_iff.mpr ⟨hs, hkinds _ hs⟩
  obtain ⟨t, ht, htypes⟩ := htypes (some (s.name, .histogram), x) (mem_underTypes_iff.mpr ⟨_, hp, rfl, hx⟩)
  obtain ⟨d, hd⟩ := Option.isSome_iff_exists.mp ((@isSome_described_iff bounds).mpr ⟨c, hc, hname⟩)
  dsimp only at ht htypes
  rw [hxname, typesOf_of_described hd, ← Option.some.inj ht, List.singleton_inj] at htypes
  have hnil : suffix = [] := List.append_right_eq_self.mp (Prod.mk.inj htypes).1
  rw [hnil] at hsuffix
  exact absurd hsuffix (by decide)

/-! ### Help texts -/

theorem isSome_unescapeHelp_oneLine (help : Str) : (unescapeHelp (oneLine help)).isSome = wellEscaped help := by
  fun_induction wellEscaped help with
  | case1 => rfl
  | case2 rest ih => simpa [oneLine, unescapeHelp] using ih
  | case3 rest ih => simpa [oneLine, unescapeHelp] using ih
  | case4 rest hbackslash hbreak =>
    have htext : oneLine ('\\' :: rest) = '\\' :: oneLine rest := rfl
    rw [htext]
    rcases rest with _ | ⟨c, rest⟩
    · rfl
    · have hc : c ≠ '\\' := fun h => hbackslash rest (by rw [h])
      have hn : c ≠ 'n' := fun h => hbreak rest (by rw [h])
      rw [oneLine, List.map_cons, unescapeHelp_backslash]
      · rfl
      · split
        · decide
        · exact hc
      · split
        · decide
        · exact hn
  | case5 c rest _ _ hc ih =>
    rw [oneLine, List.map_cons, unescapeHelp_cons, Option.isSome_map]
    · exact ih
    · split
      · decide
      · exact hc

/-- The text is read if the last description of every name has a help text that is. -/
theorem all_readable_iff : (run bounds calls).lines.all Line.readable ↔
    HelpsReadable calls := by
  rw [all_readable_lines_iff]
  simp only [isSome_unescapeHelp_oneLine]
  constructor
  · intro h n d hd
    have hget : (run bounds calls).described.get? n = some d := by
      rw [get?_described, Option.mem_def.mp hd, Option.some_or]
    exact h (n, d) (OrdMap.mem_entries_iff.mpr hget)
  · rintro h ⟨n, d⟩ he
    have hget := OrdMap.mem_entries_iff.mp he
    rw [get?_described] at hget
    rcases Option.or_eq_some_iff.mp hget with hd | ⟨-, hd⟩
    · exact h n d hd
    · obtain ⟨p, -, rfl⟩ := Option.map_eq_some_iff.mp hd
      rfl

/-! ### All samples -/

theorem forall₂_flatMap {α β γ : Type} {R : β → γ → Prop} {f : α → List β} {g : α → List γ} {l : List α}
    (h : ∀ a ∈ l, List.Forall₂ R (f a) (g a)) : List.Forall₂ R (l.flatMap f) (l.flatMap g) := by
  induction l with
  | nil => exact .nil
  | cons a l ih =>
    rw [List.forall_mem_cons] at h
    exact List.rel_append h.1 (ih h.2)

theorem exists_of_forall₂ {α β : Type} {R : α → β → Prop} {l : List α} {l' : List β} (h : List.Forall₂ R l l') {a : α}
    (ha : a ∈ l) : ∃ b ∈ l', R a b := by
  induction h with
  | nil => cases ha
  | cons hab _ ih =>
    rcases List.mem_cons.mp ha with rfl | ha
    · exact ⟨_, List.mem_cons_self, hab⟩
    · obtain ⟨b, hb, hr⟩ := ih ha
      exact ⟨b, List.mem_cons_of_mem _ hb, hr⟩

theorem exactly_of_exposable (h : Exposable bounds calls) (htotal : ∀ s, (increments calls s).sum < 2 ^ 64) :
    ∃ l, l.Perm (expected bounds calls) ∧ List.Forall₂ Finds (samples (run bounds calls).lines) l := by
  refine ⟨(run bounds calls).shownSeries.flatMap (exposed (withBuckets bounds).buckets calls), ?_, ?_⟩
  · have hall : ((recordings calls).dedup.filter fun p => kindOf calls p.2.name = some p.1) = (recordings calls).dedup :=
      List.filter_eq_self.mpr fun p hp => decide_eq_true (h.kinds p (List.mem_dedup.mp hp))
    exact (hall ▸ perm_shownSeries).flatMap fun p _ => perm_exposed (perm_buckets bounds) p
  · rw [samples_lines_eq]
    exact forall₂_flatMap fun p _ => forall₂_shown p (htotal p.2) (h.counts p.2)

theorem length_exposed_pos (l : List F64) (calls : List Call) (p : Kind × Series) : 0 < (exposed l calls p).length := by
  obtain ⟨k, s⟩ := p
  cases k with
  | counter => exact Nat.one_pos
  | gauge => exact Nat.one_pos
  | histogram => rw [exposed]; simp

/-- A series that is not shown is missing. -/
theorem kinds_of_length (h : (samples (run bounds calls).lines).length = (expected bounds calls).length) :
    ∀ p ∈ recordings calls, kindOf calls p.2.name = some p.1 := by
  have hlength : ∀ p, (shown bounds calls p).length = (exposed (bounds.filter F64.isFinite) calls p).length := fun p =>
    (length_shown p).trans (perm_exposed (perm_buckets bounds) p).length_eq
  have hshown : (samples (run bounds calls).lines).length =
      (((recordings calls).dedup.filter fun p => kindOf calls p.2.name = some p.1).flatMap
        (exposed (bounds.filter F64.isFinite) calls)).length := by
    rw [samples_lines_eq, List.length_flatMap, ← (perm_shownSeries.flatMap_right _).length_eq, List.length_flatMap]
    exact congrArg List.sum (List.map_congr_left fun p _ => hlength p)
  have hsplit := ((List.filter_append_perm (fun p : Kind × Series => decide (kindOf calls p.2.name = some p.1))
    (recordings calls).dedup).flatMap_right (exposed (bounds.filter F64.isFinite) calls)).length_eq
  rw [List.flatMap_append, List.length_append, ← hshown, h, expected] at hsplit
  have hnil : ((recordings calls).dedup.filter fun p => !decide (kindOf calls p.2.name = some p.1)).flatMap
      (exposed (bounds.filter F64.isFinite) calls) = [] := List.eq_nil_of_length_eq_zero (by omega)
  intro p hp
  by_contra hne
  have hmem : p ∈ (recordings calls).dedup.filter fun p => !decide (kindOf calls p.2.name = some p.1) :=
    List.mem_filter.mpr ⟨List.mem_dedup.mpr hp, by simpa using hne⟩
  have hempty := List.flatMap_eq_nil_iff.mp hnil p hmem
  exact absurd (length_exposed_pos (bounds.filter F64.isFinite) calls p) (by rw [hempty]; exact Nat.lt_irrefl 0)

/-- What is to be found is named after its series, and what is named a count is one. -/
theorem series_of_mem_exposed {l : List F64} {q : Kind × Series} {e : Exposed} (he : e ∈ exposed l calls q) :
    ∃ suffix ∈ q.1.suffixes, e.name = q.2.name ++ suffix ∧ e.labels = q.2.labels ∧
      (suffix = "_count".toList → e.bound = none ∧ e.reading = .count (observations calls q.2).length) := by
  obtain ⟨k, s⟩ := q
  cases k with
  | counter =>
    obtain rfl := List.mem_singleton.mp he
    exact ⟨[], List.mem_singleton_self _, (List.append_nil _).symm, rfl, fun h => absurd h (by decide)⟩
  | gauge =>
    obtain rfl := List.mem_singleton.mp he
    exact ⟨[], List.mem_singleton_self _, (List.append_nil _).symm, rfl, fun h => absurd h (by decide)⟩
  | histogram =>
    rw [exposed, List.mem_append, List.mem_map, List.mem_cons, List.mem_cons, List.mem_singleton] at he
    rcases he with ⟨bound, -, rfl⟩ | rfl | rfl | rfl
    · exact ⟨_, List.mem_cons_self, rfl, rfl, fun h => absurd h (by decide)⟩
    · exact ⟨_, List.mem_cons_self, rfl, rfl, fun h => absurd h (by decide)⟩
    · exact ⟨_, List.mem_cons_of_mem _ List.mem_cons_self, rfl, rfl, fun h => absurd h (by decide)⟩
    · exact ⟨_, List.mem_cons_of_mem _ (List.mem_cons_of_mem _ List.mem_cons_self), rfl, rfl, fun _ => ⟨rfl, rfl⟩⟩

/-- A count that began anew is not found. -/
theorem counts_of_exactly (hkinds : OfOneKind calls)
    (hnames : PartsUnnamed calls)
    (hexactly : ∃ l, l.Perm (expected bounds calls) ∧ List.Forall₂ Finds (samples (run bounds calls).lines) l)
    (s : Series) : (observations calls s).length < 2 ^ 64 := by
  rcases eq_or_ne (observations calls s) [] with hnil | hne
  · rw [hnil]
    exact Nat.two_pow_pos 64
  have hs : (.histogram, s) ∈ recordings calls := observations_ne_nil_iff.mp hne
  have hcount : "_count".toList ∈ MetricType.histogram.suffixes := mem_suffixes_iff.mpr (.inr (.inr rfl))
  -- the sample that is shown is found among what is expected
  obtain ⟨l, hperm, hfinds⟩ := hexactly
  have hmem : s.sample "_count".toList none (Nat.toDigits 10 (UInt64.ofNat (observations calls s).length).toNat) ∈
      samples (run bounds calls).lines := by
    rw [samples_lines_eq]
    refine List.mem_flatMap.mpr ⟨_, mem_shownSeries_iff.mpr ⟨hs, hkinds _ hs⟩, ?_⟩
    rw [shown, Histogram.samples_ofList]
    exact List.mem_append_right _ (List.mem_cons_of_mem _ (List.mem_cons_of_mem _ List.mem_cons_self))
  obtain ⟨e, he, hfound⟩ := exists_of_forall₂ hfinds hmem
  obtain ⟨q, hq, he⟩ := List.mem_flatMap.mp (hperm.mem_iff.mp he)
  obtain ⟨suffix, hsuffix, hname, hlabels, hreading⟩ := series_of_mem_exposed he
  -- and it can only be the count of the series itself
  obtain ⟨hsame, rfl⟩ := name_eq_of_append_suffix hnames hs (List.mem_dedup.mp hq) hcount hsuffix
    (hfound.name.trans hname)
  obtain ⟨hbound, hreading⟩ := hreading rfl
  have heq : q.2 = s := by
    have hperm := hfound.labels
    rw [Exposed.Labels, hbound] at hperm
    dsimp only at hperm
    rw [Series.sample, Option.toList_none, List.append_nil, hlabels] at hperm
    exact Series.ext hsame.symm (OrdMap.eq_of_perm hperm.symm)
  have hvalue := hfound.value
  rw [hreading, heq] at hvalue
  have hdigits := hvalue.2.2
  rw [Series.sample] at hdigits
  dsimp only at hdigits
  rw [digitsValue_toDigits] at hdigits
  exact hdigits ▸ UInt64.toNat_lt _

theorem bounds_of_distinct (hkinds : OfOneKind calls)
    (hdistinct : ((samples (run bounds calls).lines).map Sample.series).Nodup)
    {s : Series} (hs : (.histogram, s) ∈ recordings calls) :
    (bounds.filter F64.isFinite).Pairwise fun a b => ¬ a.eq b := by
  rw [samples_lines_eq, List.map_flatMap] at hdistinct
  have hinner := (List.nodup_flatMap.mp hdistinct).1 _ (mem_shownSeries_iff.mpr ⟨hs, hkinds _ hs⟩)
  rw [map_series_histogram] at hinner
  have htexts := List.Nodup.of_map _ (List.nodup_append.mp hinner).1
  exact nodup_formatFloat_iff.mp (List.nodup_append.mp htexts).1

/-! ### Valid calls -/

theorem valid_of_mem_recordings (h : ∀ c ∈ calls, c.Valid) {p : Kind × Series} (hp : p ∈ recordings calls) : p.2.Valid := by
  have hnew : ∀ {name : Str} {labels : List (Str × Str)}, isMetricName name →
      (∀ l ∈ labels, isLabelName l.1 ∧ l.1 ≠ "le".toList) → (Series.new name labels).Valid := by
    intro name labels hname hlabels
    exact ⟨hname, fun l hl => hlabels l (OrdMap.mem_of_mem_ofList hl)⟩
  obtain ⟨c, hc, heq⟩ := mem_recordings_iff.mp hp
  have hcall := h c hc
  cases c with
  | describe => cases heq
  | increment => obtain rfl := Option.some.inj heq; exact hnew hcall.1 hcall.2
  | set => obtain rfl := Option.some.inj heq; exact hnew hcall.1 hcall.2
  | observe => obtain rfl := Option.some.inj heq; exact hnew hcall.1 hcall.2

theorem isMetricName_of_valid {c : Call} (h : c.Valid) : isMetricName c.name := by
  cases c with
  | describe => exact h
  | increment => exact h.1
  | set => exact h.1
  | observe => exact h.1

theorem valid_lines_run (h : ∀ c ∈ calls, c.Valid) : ∀ l ∈ (run bounds calls).lines, l.Valid := by
  refine valid_lines (fun e he => ?_) fun k s hs => ?_
  · have hsome : ((run bounds calls).described.get? e.1).isSome := by
      rw [OrdMap.mem_entries_iff.mp he]
      rfl
    obtain ⟨c, hc, hname⟩ := isSome_described_iff.mp hsome
    exact hname ▸ isMetricName_of_valid (h c hc)
  · exact valid_of_mem_recordings h (mem_series_iff.mp hs)

/-- The lines are those that were rendered, but for the escapes of help texts. -/
theorem faithful_iff_lines (h : ∀ c ∈ calls, c.Valid) :
    Faithful bounds calls ↔
      HelpsReadable calls ∧
      Exposes (run bounds calls).lines (expected bounds calls) := by
  have hread : ∀ l, Exposes ((run bounds calls).lines.map Line.read) l ↔ Exposes (run bounds calls).lines l := by
    intro l
    constructor
    · rintro ⟨hexactly, htypes, hdistinct⟩
      rw [samples_read] at hexactly hdistinct
      simp only [underTypes_read, typesOf_read] at htypes
      exact ⟨hexactly, htypes, hdistinct⟩
    · rintro ⟨hexactly, htypes, hdistinct⟩
      refine ⟨?_, ?_, ?_⟩
      · rwa [samples_read]
      · simpa only [underTypes_read, typesOf_read] using htypes
      · rwa [samples_read]
  rw [Faithful, Registry.render_eq, parse_write (valid_lines_run h), ← @all_readable_iff bounds]
  split
  · rename_i hall
    simp [hall, hread]
  · rename_i hall
    simp [hall]

/-- What is to hold for a faithful text, but for the help texts. -/
theorem exposable_of_exposes (hhelps : HelpsReadable calls)
    (h : Exposes (run bounds calls).lines (expected bounds calls)) : Exposable bounds calls := by
  have hkinds : OfOneKind calls := by
    obtain ⟨l, hperm, hfinds⟩ := h.exactly
    exact kinds_of_length (hfinds.length_eq.trans hperm.length_eq)
  have hnames : PartsUnnamed calls :=
    fun s hs suffix hsuffix c hc => names_of_typesOf hkinds h.types hs hsuffix hc
  exact ⟨hkinds, hhelps, fun ⟨s, hs⟩ => bounds_of_distinct hkinds h.distinct hs, hnames,
    counts_of_exactly hkinds hnames h.exactly⟩

theorem exposes_of_exposable (h : Exposable bounds calls) (hvalid : ∀ p ∈ recordings calls, p.2.Valid)
    (htotal : ∀ s, (increments calls s).sum < 2 ^ 64) : Exposes (run bounds calls).lines (expected bounds calls) where
  exactly := exactly_of_exposable h htotal
  types := fun _ hq => typesOf_of_mem_underTypes h.names hvalid hq
  distinct := nodup_series h hvalid

end

/-- After every run of calls with valid names and counter totals below 2⁶⁴, the text of the registry has
    what the calls recorded just when the calls and the bounds are `Exposable`. -/
theorem faithful_iff (bounds : List F64) (calls : List Call) (hvalid : ∀ c ∈ calls, c.Valid)
    (htotal : ∀ s, (increments calls s).sum < 2 ^ 64) : Faithful bounds calls ↔ Exposable bounds calls := by
  rw [faithful_iff_lines hvalid]
  constructor
  · rintro ⟨hhelps, h⟩
    exact exposable_of_exposes hhelps h
  · intro h
    exact ⟨h.helps, exposes_of_exposable h (fun p hp => valid_of_mem_recordings hvalid hp) htotal⟩

theorem length_observations_le (calls : List Call) (s : Series) : (observations calls s).length ≤ calls.length :=
  List.length_filterMap_le _ _

/-- A described counter and a histogram with two bounds. -/
def twoMetrics : List Call :=
  [.describe "hits_total".toList .counter "Hits.".toList,
    .increment "hits_total".toList [("route".toList, "a\"b".toList)] 2,
    .observe "wait_seconds".toList [] (F64.ofNat 3)]

theorem isMetricName_hits : isMetricName "hits_total".toList := by decide

theorem faithful_twoMetrics : (∀ c ∈ twoMetrics, c.Valid) ∧ (∀ s, (increments twoMetrics s).sum < 2 ^ 64) ∧
    Faithful [F64.ofNat 1, F64.ofNat 10] twoMetrics := by
  have hvalid : ∀ c ∈ twoMetrics, c.Valid := by
    intro c hc
    rw [twoMetrics, List.mem_cons, List.mem_cons, List.mem_singleton] at hc
    rcases hc with rfl | rfl | rfl
    · exact isMetricName_hits
    · exact ⟨isMetricName_hits, fun l hl => by rw [List.mem_singleton.mp hl]; decide⟩
    · exact ⟨by decide, fun l hl => (nomatch hl)⟩
  have htotal : ∀ s, (increments twoMetrics s).sum < 2 ^ 64 := by
    intro s
    rw [increments, twoMetrics]
    simp only [List.filterMap_cons, List.filterMap_nil, Call.increment?]
    split
    · exact Nat.two_pow_pos 64
    · rename_i heq
      split at heq
      · rw [← Option.some.inj heq]
        decide
      · cases heq
  refine ⟨hvalid, htotal, (faithful_iff _ _ hvalid htotal).mpr ⟨?_, ?_, ?_, ?_, ?_⟩⟩
  · decide
  · intro n d hd
    obtain ⟨c, hc, heq⟩ := List.mem_filterMap.mp (List.mem_of_getLast? hd)
    rw [twoMetrics, List.mem_cons, List.mem_cons, List.mem_singleton] at hc
    rcases hc with rfl | rfl | rfl
    · rw [Call.description?] at heq
      split at heq
      · rw [← Option.some.inj heq]
        decide
      · cases heq
    · cases heq
    · cases heq
  · intro _
    decide
  · intro s hs
    obtain rfl : Series.new "wait_seconds".toList [] = s := by
      rcases List.mem_cons.mp hs with h | h
      · cases (Prod.mk.inj h).1
      · exact (Prod.mk.inj (List.mem_singleton.mp h)).2.symm
    decide
  · exact fun s => (length_observations_le _ s).trans_lt (by decide)

/-- A histogram whose bounds are 1 and 1 has two samples of one series. -/
theorem one_bound_twice : (∀ c ∈ [Call.observe "wait_seconds".toList [] F64.zero], c.Valid) ∧
    (∀ s, (increments [.observe "wait_seconds".toList [] F64.zero] s).sum < 2 ^ 64) ∧
    ¬ Faithful [F64.ofNat 1, F64.ofNat 1] [.observe "wait_seconds".toList [] F64.zero] := by
  have hvalid : ∀ c ∈ [Call.observe "wait_seconds".toList [] F64.zero], c.Valid := by
    intro c hc
    obtain rfl := List.mem_singleton.mp hc
    exact ⟨by decide, fun l hl => (nomatch hl)⟩
  refine ⟨hvalid, fun s => Nat.two_pow_pos 64, fun h => ?_⟩
  obtain ⟨hhelps, h⟩ := (faithful_iff_lines hvalid).mp h
  have hbounds := (exposable_of_exposes hhelps h).bounds ⟨_, List.mem_cons_self⟩
  exact absurd hbounds (by decide)

end Arcature.Observe.Metrics
