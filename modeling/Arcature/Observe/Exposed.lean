import Arcature.Observe.Scrape

/-! What a scraper is to find in the text of the registry, and what is shown there.

    What is to be found is told from the calls: a sample for each counter and gauge series, and for
    each histogram series one for each finite bound, one for all, the sum and the count (`expected`).
    What is shown are the samples of the series that have the kind of their name (`samples_lines_eq`),
    and each is found as it is to be unless its counts begin anew (`forall₂_shown`). Its name and label
    set tell the series it is of, unless a name is that of a part of a histogram (`eq_of_series_eq`). -/

namespace Arcature.Observe.Metrics
open Arcature.Lib Arcature.Lib.Exposition

/-! ### What is to be found -/

/-- What the text of a value stands for. -/
inductive Reading where
  | count (n : ℕ)
  | number (x : F64)

/-- A sample that is to be found: the bound is that of a bucket. -/
structure Exposed where
  name : Str
  labels : OrdMap Str Str
  bound : Option F64
  reading : Reading

/-- Whether a text is read as a number. -/
def ReadsAs (text : Str) (x : F64) : Prop := ∃ y, F64.parse text = some y ∧ y.Same x

/-- Whether a text is that of a value. -/
def Reading.Of (text : Str) : Reading → Prop
  | .count n => text ≠ [] ∧ text.all Char.isDigit ∧ digitsValue text = n
  | .number x => ReadsAs text x

/-- Whether labels are those of a sample: a bucket has one more. -/
def Exposed.Labels (labels : List (Str × Str)) (e : Exposed) : Prop :=
  match e.bound with
  | none => labels.Perm e.labels.entries
  | some bound => ∃ text, labels.Perm (("le".toList, text) :: e.labels.entries) ∧ ReadsAs text bound

/-- Whether a sample is the one that is to be found. -/
structure Finds (s : Sample) (e : Exposed) : Prop where
  name : s.name = e.name
  labels : e.Labels s.labels
  value : e.reading.Of s.value
  timestamp : s.timestamp = none

/-- `f64::INFINITY`. -/
def infinity : F64 := F64.ofParts false infinityBits

/-- The samples of a series, for the given finite bounds. -/
def exposed (bounds : List F64) (calls : List Call) : Kind × Series → List Exposed
  | (.counter, s) => [⟨s.name, s.labels, none, .count (increments calls s).sum⟩]
  | (.gauge, s) => [⟨s.name, s.labels, none, .number ((settings calls s).getLast?.getD F64.zero)⟩]
  | (.histogram, s) =>
    let values := observations calls s
    (bounds.map fun bound => ⟨s.name ++ "_bucket".toList, s.labels, some bound, .count (values.countP (·.le bound))⟩) ++
    [⟨s.name ++ "_bucket".toList, s.labels, some infinity, .count values.length⟩,
      ⟨s.name ++ "_sum".toList, s.labels, none, .number (values.foldl F64.add F64.zero)⟩,
      ⟨s.name ++ "_count".toList, s.labels, none, .count values.length⟩]

/-- The samples of all that was recorded. -/
def expected (bounds : List F64) (calls : List Call) : List Exposed :=
  (recordings calls).dedup.flatMap (exposed (bounds.filter F64.isFinite) calls)

/-! ### What is shown -/

/-- The samples the registry shows of a series. -/
def shown (bounds : List F64) (calls : List Call) : Kind × Series → List Sample
  | (.counter, s) => [s.sample [] none (Nat.toDigits 10 (UInt64.ofNat (increments calls s).sum).toNat)]
  | (.gauge, s) => [s.sample [] none ((settings calls s).getLast?.getD F64.zero).display]
  | (.histogram, s) => (Histogram.ofList (withBuckets bounds).buckets (observations calls s)).samples s

/-- The series the registry shows. -/
def Registry.shownSeries (r : Registry) : List (Kind × Series) :=
  r.described.entries.flatMap fun e => ((r.series e.2.1).filter (·.name = e.1)).map (e.2.1, ·)

section
variable {bounds : List F64} {calls : List Call}

theorem samples_eq (n : Str) (k : Kind) :
    (run bounds calls).samples n k =
      (((run bounds calls).series k).filter (·.name = n)).flatMap fun s => shown bounds calls (k, s) := by
  cases k with
  | counter =>
    rw [Registry.samples, Registry.series, List.filter_map, List.flatMap_map, List.map_eq_flatMap]
    refine List.flatMap_congr fun e he => ?_
    have hget := OrdMap.mem_entries_iff.mp (List.mem_filter.mp he).1
    rw [get?_counters] at hget
    split at hget
    · cases hget
    · rw [shown, Option.some.inj hget]
  | gauge =>
    rw [Registry.samples, Registry.series, List.filter_map, List.flatMap_map, List.map_eq_flatMap]
    refine List.flatMap_congr fun e he => ?_
    have hget := OrdMap.mem_entries_iff.mp (List.mem_filter.mp he).1
    rw [get?_gauges] at hget
    rw [shown, hget, Option.getD_some]
  | histogram =>
    rw [Registry.samples, Registry.series, List.filter_map, List.flatMap_map]
    refine List.flatMap_congr fun e he => ?_
    have hget := OrdMap.mem_entries_iff.mp (List.mem_filter.mp he).1
    rw [get?_histograms] at hget
    split at hget
    · cases hget
    · rw [shown, Option.some.inj hget]

theorem samples_lines_eq :
    samples (run bounds calls).lines = (run bounds calls).shownSeries.flatMap (shown bounds calls) := by
  rw [samples_lines, Registry.shownSeries, List.flatMap_assoc]
  refine List.flatMap_congr fun e _ => ?_
  rw [samples_eq, List.flatMap_map]

/-- What is shown was recorded, as the kind its name has. -/
theorem mem_shownSeries_iff {p : Kind × Series} :
    p ∈ (run bounds calls).shownSeries ↔ p ∈ recordings calls ∧ kindOf calls p.2.name = some p.1 := by
  obtain ⟨k, s⟩ := p
  rw [Registry.shownSeries, List.mem_flatMap, kindOf_eq bounds, Option.map_eq_some_iff, ← mem_series_iff]
  constructor
  · rintro ⟨e, he, hp⟩
    obtain ⟨t, ht, heq⟩ := List.mem_map.mp hp
    obtain ⟨rfl, rfl⟩ := Prod.mk.inj heq
    obtain ⟨hmem, hname⟩ := List.mem_filter.mp ht
    rw [decide_eq_true_eq] at hname
    exact ⟨hmem, e.2, hname ▸ OrdMap.mem_entries_iff.mp he, rfl⟩
  · rintro ⟨hmem, d, hd, rfl⟩
    refine ⟨(s.name, d), OrdMap.mem_entries_iff.mpr hd, List.mem_map.mpr ⟨s, ?_, rfl⟩⟩
    exact List.mem_filter.mpr ⟨hmem, decide_eq_true rfl⟩

theorem Registry.nodup_shownSeries (r : Registry) : r.shownSeries.Nodup := by
  refine List.nodup_flatMap.mpr ⟨fun e _ => ?_, ?_⟩
  · exact ((r.nodup_series _).filter _).map (fun s t h => (Prod.mk.inj h).2)
  · refine r.described.sorted.imp fun {d e} hlt => ?_
    rintro p hd he
    obtain ⟨s, hs, rfl⟩ := List.mem_map.mp hd
    obtain ⟨t, ht, heq⟩ := List.mem_map.mp he
    obtain ⟨-, rfl⟩ := Prod.mk.inj heq
    have hname := of_decide_eq_true (List.mem_filter.mp hs).2
    have hname' := of_decide_eq_true (List.mem_filter.mp ht).2
    exact hlt.ne (hname.symm.trans hname')

theorem perm_shownSeries :
    (run bounds calls).shownSeries.Perm ((recordings calls).dedup.filter fun p => kindOf calls p.2.name = some p.1) := by
  refine (List.perm_ext_iff_of_nodup (Registry.nodup_shownSeries _) ((List.nodup_dedup _).filter _)).mpr fun p => ?_
  rw [mem_shownSeries_iff, List.mem_filter, List.mem_dedup, decide_eq_true_eq]

/-! ### What is shown is what is to be found -/

theorem zip_map_self {α β : Type} (g : α → β) (l : List α) : l.zip (l.map g) = l.map fun a => (a, g a) := by
  induction l with
  | nil => rfl
  | cons a l ih => rw [List.map_cons, List.zip_cons_cons, ih, List.map_cons]

theorem Histogram.samples_ofList (buckets values : List F64) (s : Series) :
    (Histogram.ofList buckets values).samples s =
      (buckets.map fun bound => s.sample "_bucket".toList (some ("le".toList, formatFloat bound))
        (Nat.toDigits 10 (UInt64.ofNat (values.countP (·.le bound))).toNat)) ++
      [s.sample "_bucket".toList (some ("le".toList, "+Inf".toList)) (Nat.toDigits 10 (UInt64.ofNat values.length).toNat),
        s.sample "_sum".toList none (formatFloat (values.foldl F64.add F64.zero)),
        s.sample "_count".toList none (Nat.toDigits 10 (UInt64.ofNat values.length).toNat)] := by
  rw [samples, bounds_ofList, counts_ofList, sum_ofList, count_ofList, zip_map_self, List.map_map]
  rfl

theorem of_toDigits {n : ℕ} (h : n < 2 ^ 64) : (Reading.count n).Of (Nat.toDigits 10 (UInt64.ofNat n).toNat) := by
  rw [UInt64.toNat_ofNat', Nat.mod_eq_of_lt h]
  exact ⟨Nat.toDigits_ne_nil, all_isDigit_toDigits n, digitsValue_toDigits n⟩

theorem finds_plain (s : Series) (suffix : Str) {value : Str} {reading : Reading} (h : reading.Of value) :
    Finds (s.sample suffix none value) ⟨s.name ++ suffix, s.labels, none, reading⟩ where
  name := rfl
  labels := List.Perm.of_eq (List.append_nil _)
  value := h
  timestamp := rfl

theorem finds_bucket (s : Series) (suffix : Str) {text value : Str} {bound : F64} (hbound : ReadsAs text bound)
    {reading : Reading} (h : reading.Of value) :
    Finds (s.sample suffix (some ("le".toList, text)) value) ⟨s.name ++ suffix, s.labels, some bound, reading⟩ where
  name := rfl
  labels := ⟨text, List.perm_append_singleton _ _, hbound⟩
  value := h
  timestamp := rfl

theorem parse_plusInf : F64.parse "+Inf".toList = some infinity := by decide

theorem readsAs_plusInf : ReadsAs "+Inf".toList infinity := ⟨infinity, parse_plusInf, F64.Same.refl _⟩

/-- The samples of a series are found, unless its counts begin anew. -/
theorem forall₂_shown (p : Kind × Series) (htotal : (increments calls p.2).sum < 2 ^ 64)
    (hcount : (observations calls p.2).length < 2 ^ 64) :
    List.Forall₂ Finds (shown bounds calls p) (exposed (withBuckets bounds).buckets calls p) := by
  obtain ⟨k, s⟩ := p
  cases k with
  | counter =>
    have hfinds := finds_plain s [] (of_toDigits htotal)
    rw [List.append_nil] at hfinds
    exact .cons hfinds .nil
  | gauge =>
    have hread : (Reading.number ((settings calls s).getLast?.getD F64.zero)).Of
        ((settings calls s).getLast?.getD F64.zero).display := F64.parse_display _
    have hfinds := finds_plain s [] hread
    rw [List.append_nil] at hfinds
    exact .cons hfinds .nil
  | histogram =>
    rw [shown, Histogram.samples_ofList, exposed]
    refine List.rel_append ?_ ?_
    · rw [List.forall₂_map_left_iff, List.forall₂_map_right_iff, List.forall₂_same]
      exact fun bound _ => finds_bucket s _ (parse_formatFloat bound) (of_toDigits (List.countP_le_length.trans_lt hcount))
    · exact .cons (finds_bucket s _ readsAs_plusInf (of_toDigits hcount))
        (.cons (finds_plain s _ (parse_formatFloat _)) (.cons (finds_plain s _ (of_toDigits hcount)) .nil))

theorem length_shown (p : Kind × Series) :
    (shown bounds calls p).length = (exposed (withBuckets bounds).buckets calls p).length := by
  obtain ⟨k, s⟩ := p
  cases k with
  | counter => rfl
  | gauge => rfl
  | histogram => rw [shown, Histogram.samples_ofList, exposed]; simp

/-- The registry has the finite bounds, in order. -/
theorem perm_buckets (bounds : List F64) : (withBuckets bounds).buckets.Perm (bounds.filter F64.isFinite) :=
  List.perm_insertionSort _ _

theorem perm_exposed {l l' : List F64} (h : l.Perm l') (p : Kind × Series) :
    (exposed l calls p).Perm (exposed l' calls p) := by
  obtain ⟨k, s⟩ := p
  cases k with
  | counter => exact .refl _
  | gauge => exact .refl _
  | histogram => exact (h.map _).append_right _

/-! ### Names and label sets -/

/-- Every name is recorded as the kind it has. -/
def OfOneKind (calls : List Call) : Prop := ∀ p ∈ recordings calls, kindOf calls p.2.name = some p.1

instance (calls : List Call) : Decidable (OfOneKind calls) :=
  inferInstanceAs (Decidable (∀ p ∈ recordings calls, kindOf calls p.2.name = some p.1))

/-- No name is that of a part of a histogram. -/
def PartsUnnamed (calls : List Call) : Prop :=
  ∀ s, (.histogram, s) ∈ recordings calls → ∀ suffix ∈ MetricType.histogram.suffixes, ∀ c ∈ calls, c.name ≠ s.name ++ suffix

/-- How the samples of a kind are named after the series. -/
def Kind.suffixes : Kind → List Str
  | counter => [[]]
  | gauge => [[]]
  | histogram => MetricType.histogram.suffixes

theorem filter_labels_sample {s : Series} (hs : s.Valid) (suffix : Str) {extra : Option (Str × Str)}
    (hextra : ∀ l ∈ extra, l.1 = "le".toList) (value : Str) :
    (s.sample suffix extra value).labels.filter (·.1 ≠ "le".toList) = s.labels.entries := by
  have hlabels : s.labels.entries.filter (·.1 ≠ "le".toList) = s.labels.entries :=
    List.filter_eq_self.mpr fun l hl => decide_eq_true (hs.labels l hl).2
  have hrest : extra.toList.filter (·.1 ≠ "le".toList) = [] :=
    List.filter_eq_nil_iff.mpr fun l hl h => of_decide_eq_true h (hextra l (Option.mem_toList.mp hl))
  rw [Series.sample, List.filter_append, hlabels, hrest, List.append_nil]

/-- A sample is named after its series, and has its labels. -/
theorem series_of_mem_shown {p : Kind × Series} (hs : p.2.Valid) {x : Sample} (hx : x ∈ shown bounds calls p) :
    ∃ suffix ∈ p.1.suffixes, x.name = p.2.name ++ suffix ∧
      x.labels.filter (·.1 ≠ "le".toList) = p.2.labels.entries := by
  have hle : ∀ text : Str, ∀ l ∈ some ("le".toList, text), l.1 = "le".toList := by
    rintro text l hl
    rw [Option.mem_some_iff.mp hl |>.symm]
  have hnone : ∀ l ∈ (none : Option (Str × Str)), l.1 = "le".toList := fun l hl => (nomatch hl)
  obtain ⟨k, s⟩ := p
  cases k with
  | counter =>
    obtain rfl := List.mem_singleton.mp hx
    exact ⟨[], List.mem_singleton_self _, rfl, filter_labels_sample hs _ hnone _⟩
  | gauge =>
    obtain rfl := List.mem_singleton.mp hx
    exact ⟨[], List.mem_singleton_self _, rfl, filter_labels_sample hs _ hnone _⟩
  | histogram =>
    rw [shown, Histogram.samples_ofList, List.mem_append, List.mem_map, List.mem_cons, List.mem_cons,
      List.mem_singleton] at hx
    rcases hx with ⟨bound, -, rfl⟩ | rfl | rfl | rfl
    · exact ⟨_, List.mem_cons_self, rfl, filter_labels_sample hs _ (hle _) _⟩
    · exact ⟨_, List.mem_cons_self, rfl, filter_labels_sample hs _ (hle _) _⟩
    · exact ⟨_, List.mem_cons_of_mem _ List.mem_cons_self, rfl, filter_labels_sample hs _ hnone _⟩
    · exact ⟨_, List.mem_cons_of_mem _ (List.mem_cons_of_mem _ List.mem_cons_self), rfl,
        filter_labels_sample hs _ hnone _⟩

theorem mem_suffixes_iff {suffix : Str} : suffix ∈ MetricType.histogram.suffixes ↔
    suffix = "_bucket".toList ∨ suffix = "_sum".toList ∨ suffix = "_count".toList := by
  rw [MetricType.suffixes, List.mem_cons, List.mem_cons, List.mem_singleton]

/-- No part of a histogram is named with the end of another. -/
theorem suffix_eq_of_isSuffix {suffix suffix' : Str} (hs : suffix ∈ MetricType.histogram.suffixes)
    (hs' : suffix' ∈ MetricType.histogram.suffixes) (h : suffix <:+ suffix') : suffix = suffix' := by
  rw [mem_suffixes_iff] at hs hs'
  rcases hs with rfl | rfl | rfl <;> rcases hs' with rfl | rfl | rfl <;> first | rfl | exact absurd h (by decide)

/-- The parts of a histogram cannot be taken for one another. -/
theorem eq_of_append_suffix {n n' suffix suffix' : Str} (hs : suffix ∈ MetricType.histogram.suffixes)
    (hs' : suffix' ∈ MetricType.histogram.suffixes) (h : n ++ suffix = n' ++ suffix') : n = n' ∧ suffix = suffix' := by
  have hsuffix : suffix = suffix' := by
    rcases List.suffix_or_suffix_of_suffix (List.suffix_append n suffix) (h ▸ List.suffix_append n' suffix') with h | h
    · exact suffix_eq_of_isSuffix hs hs' h
    · exact (suffix_eq_of_isSuffix hs' hs h).symm
  subst hsuffix
  exact ⟨List.append_cancel_right h, rfl⟩

theorem exists_call_of_mem_recordings {p : Kind × Series} (hp : p ∈ recordings calls) :
    ∃ c ∈ calls, c.name = p.2.name := by
  obtain ⟨c, hc, heq⟩ := mem_recordings_iff.mp hp
  refine ⟨c, hc, ?_⟩
  cases c with
  | describe => cases heq
  | increment => rw [← Option.some.inj heq]; rfl
  | set => rw [← Option.some.inj heq]; rfl
  | observe => rw [← Option.some.inj heq]; rfl

theorem mem_suffixes_or_eq_nil {k : Kind} {suffix : Str} (h : suffix ∈ k.suffixes) :
    (k = .histogram ∧ suffix ∈ MetricType.histogram.suffixes) ∨ suffix = [] := by
  cases k with
  | counter => exact .inr (List.mem_singleton.mp h)
  | gauge => exact .inr (List.mem_singleton.mp h)
  | histogram => exact .inl ⟨rfl, h⟩

/-- The name of a sample tells the name of its series. -/
theorem name_eq_of_append_suffix
    (hnames : PartsUnnamed calls)
    {p q : Kind × Series} (hp : p ∈ recordings calls) (hq : q ∈ recordings calls) {suffix suffix' : Str}
    (hs : suffix ∈ p.1.suffixes) (hs' : suffix' ∈ q.1.suffixes) (h : p.2.name ++ suffix = q.2.name ++ suffix') :
    p.2.name = q.2.name ∧ suffix = suffix' := by
  have hpart : ∀ {p q : Kind × Series} {suffix : Str}, p ∈ recordings calls → q ∈ recordings calls → p.1 = .histogram →
      suffix ∈ MetricType.histogram.suffixes → q.2.name ≠ p.2.name ++ suffix := by
    rintro ⟨k, s⟩ q suffix hp hq rfl hsuffix h
    obtain ⟨c, hc, hname⟩ := exists_call_of_mem_recordings hq
    exact hnames s hp suffix hsuffix c hc (hname.trans h)
  rcases mem_suffixes_or_eq_nil hs with ⟨hk, hs⟩ | rfl
  · rcases mem_suffixes_or_eq_nil hs' with ⟨hk', hs'⟩ | rfl
    · exact eq_of_append_suffix hs hs' h
    · rw [List.append_nil] at h
      exact absurd h.symm (hpart hp hq hk hs)
  · rw [List.append_nil] at h
    rcases mem_suffixes_or_eq_nil hs' with ⟨hk', hs'⟩ | rfl
    · exact absurd h (hpart hq hp hk' hs')
    · rw [List.append_nil] at h
      exact ⟨h, rfl⟩

/-- The name and the label set of a sample tell its series. -/
theorem eq_of_series_eq
    (hnames : PartsUnnamed calls)
    (hvalid : ∀ p ∈ recordings calls, p.2.Valid) {p q : Kind × Series}
    (hp : p ∈ (run bounds calls).shownSeries) (hq : q ∈ (run bounds calls).shownSeries) {x y : Sample}
    (hx : x ∈ shown bounds calls p) (hy : y ∈ shown bounds calls q) (h : x.series = y.series) : p = q := by
  obtain ⟨hp, hkp⟩ := mem_shownSeries_iff.mp hp
  obtain ⟨hq, hkq⟩ := mem_shownSeries_iff.mp hq
  obtain ⟨suffix, hs, hname, hlabels⟩ := series_of_mem_shown (hvalid p hp) hx
  obtain ⟨suffix', hs', hname', hlabels'⟩ := series_of_mem_shown (hvalid q hq) hy
  obtain ⟨hxy, hperm⟩ := Prod.mk.inj h
  have heq := (name_eq_of_append_suffix hnames hp hq hs hs' (by rw [← hname, ← hname', hxy])).1
  have hmaps : p.2.labels = q.2.labels := by
    refine OrdMap.eq_of_perm ?_
    rw [← hlabels, ← hlabels']
    exact (Multiset.coe_eq_coe.mp hperm).filter _
  have hkind : some p.1 = some q.1 := by rw [← hkp, ← hkq, heq]
  exact Prod.ext (Option.some.inj hkind) (Series.ext heq hmaps)

end

end Arcature.Observe.Metrics
