import Arcature.Lib.Double
import Arcature.Lib.OrdMap
import Mathlib.Data.Char

/-! The metrics registry and its text (`observe/metrics.rs`).

    Counters, gauges and histograms are three maps by series, that is by name and label set. A fourth
    map has the kind and the help text of each name, and it alone decides what is rendered:

        increment hits {route=/a} 2      counters     hits{route=/a}    2
        observe   wait {} 0.3            histograms   wait              bounds, counts, sum, count
        describe  hits counter "Hits."   described    hits              counter, "Hits."
                                                      wait              histogram, ""

    A name gets its kind from the first recording of it, unless it was described before, and from
    every description of it. -/

namespace Arcature.Observe.Metrics
open Arcature.Lib

/-! ### Series -/

/-- A metric name plus its label set. -/
@[ext] structure Series where
  name : Str
  labels : OrdMap Str Str

namespace Series

/-- What series are ordered by: the name, then the labels. -/
def key (s : Series) : Str ×ₗ List (Str ×ₗ Str) := toLex (s.name, s.labels.entries.map toLex)

theorem key_injective : Function.Injective key := by
  intro s t h
  obtain ⟨hname, hlabels⟩ := Prod.mk.inj (toLex.injective h)
  exact Series.ext hname (OrdMap.ext (toLex.injective.list_map hlabels))

instance : LinearOrder Series := LinearOrder.lift' key key_injective

/-- `Series::new`. -/
def new (name : Str) (labels : List (Str × Str)) : Series := ⟨name, OrdMap.ofList labels⟩

end Series

/-- `escape_label`. -/
def escapeLabel (value : Str) : Str :=
  value.flatMap fun
    | '\\' => ['\\', '\\']
    | '\x22' => ['\\', '\x22']
    | '\n' => ['\\', 'n']
    | other => [other]

/-- `Series::render`. -/
def Series.render (s : Series) (suffix : Str) (extra : Option (Str × Str)) : Str :=
  s.name ++ suffix ++
    if s.labels.entries = [] ∧ extra = none then []
    else
      let labels := (s.labels.entries ++ extra.toList).map fun (key, value) =>
        key ++ '=' :: '\x22' :: (escapeLabel value ++ ['\x22'])
      '\x7b' :: ([','].intercalate labels ++ ['\x7d'])

/-! ### The registry -/

/-- `Kind`. -/
inductive Kind where
  | counter
  | gauge
  | histogram
  deriving DecidableEq

/-- `Kind::as_str`. -/
def Kind.asStr : Kind → Str
  | counter => "counter".toList
  | gauge => "gauge".toList
  | histogram => "histogram".toList

/-- The accumulated observations for one histogram series: there is a count for each bound. -/
@[ext] structure Histogram where
  bounds : List F64
  counts : List UInt64
  sum : F64
  count : UInt64
  sized : counts.length = bounds.length

/-- `Histogram::new`. -/
def Histogram.new (bounds : List F64) : Histogram where
  bounds := bounds
  counts := List.replicate bounds.length 0
  sum := F64.zero
  count := 0
  sized := List.length_replicate

/-- `Histogram::record`. -/
def Histogram.record (h : Histogram) (value : F64) : Histogram where
  bounds := h.bounds
  counts := List.zipWith (fun bound n => if value.le bound then n + 1 else n) h.bounds h.counts
  sum := h.sum.add value
  count := h.count + 1
  sized := by rw [List.length_zipWith, h.sized, min_self]

/-- The shared state behind a `Metrics` handle. -/
structure Registry where
  counters : OrdMap Series UInt64
  gauges : OrdMap Series F64
  histograms : OrdMap Series Histogram
  described : OrdMap Str (Kind × Str)
  buckets : List F64

/-- Whether one bound may stand before another: what cannot be compared is equal. -/
def boundLe (a b : F64) : Bool := (a.partialCmp b).getD .eq ≠ .gt

/-- `Metrics::with_buckets`. -/
def withBuckets (bounds : List F64) : Registry where
  counters := .empty
  gauges := .empty
  histograms := .empty
  described := .empty
  buckets := (bounds.filter F64.isFinite).insertionSort fun a b => boundLe a b

namespace Registry

/-- `Metrics::describe`. -/
def describe (r : Registry) (name : Str) (kind : Kind) (help : Str) : Registry :=
  { r with described := r.described.insert name (kind, help) }

/-- The kind a recording gives to a name that has none. -/
def touch (r : Registry) (name : Str) (kind : Kind) : Registry :=
  { r with described := r.described.alter name (·.getD (kind, [])) }

/-- `Metrics::increment`. -/
def increment (r : Registry) (name : Str) (labels : List (Str × Str)) (amount : UInt64) : Registry :=
  let r := r.touch name .counter
  { r with counters := r.counters.alter (.new name labels) (·.getD 0 + amount) }

/-- `Metrics::set`. -/
def set (r : Registry) (name : Str) (labels : List (Str × Str)) (value : F64) : Registry :=
  let r := r.touch name .gauge
  { r with gauges := r.gauges.insert (.new name labels) value }

/-- `Metrics::observe`. -/
def observe (r : Registry) (name : Str) (labels : List (Str × Str)) (value : F64) : Registry :=
  let r := r.touch name .histogram
  { r with histograms := r.histograms.alter (.new name labels) fun h => (h.getD (.new r.buckets)).record value }

end Registry

/-- A call on the handle. -/
inductive Call where
  | describe (name : Str) (kind : Kind) (help : Str)
  | increment (name : Str) (labels : List (Str × Str)) (amount : UInt64)
  | set (name : Str) (labels : List (Str × Str)) (value : F64)
  | observe (name : Str) (labels : List (Str × Str)) (value : F64)

/-- What a call does to the registry. -/
def step (r : Registry) : Call → Registry
  | .describe name kind help => r.describe name kind help
  | .increment name labels amount => r.increment name labels amount
  | .set name labels value => r.set name labels value
  | .observe name labels value => r.observe name labels value

/-- The registry after calls. -/
def run (bounds : List F64) (calls : List Call) : Registry := calls.foldl step (withBuckets bounds)

/-! ### The text -/

/-- `format_float`. -/
def formatFloat (value : F64) : Str :=
  if value.eq value.trunc && value.abs.lt (F64.ofNat (10 ^ 15)) then intText value.toI64 else value.display

/-- A help text on one line. -/
def oneLine (help : Str) : Str := help.map fun c => if c = '\n' then ' ' else c

/-- The samples of a histogram series. -/
def Histogram.render (h : Histogram) (s : Series) : Str :=
  ((h.bounds.zip h.counts).flatMap fun (bound, count) =>
    s.render "_bucket".toList (some ("le".toList, formatFloat bound)) ++ ' ' :: (Nat.toDigits 10 count.toNat ++ ['\n'])) ++
  (s.render "_bucket".toList (some ("le".toList, "+Inf".toList)) ++ ' ' :: (Nat.toDigits 10 h.count.toNat ++ ['\n'])) ++
  (s.render "_sum".toList none ++ ' ' :: (formatFloat h.sum ++ ['\n'])) ++
  (s.render "_count".toList none ++ ' ' :: (Nat.toDigits 10 h.count.toNat ++ ['\n']))

/-- The samples of a name, of the kind it has. -/
def Registry.renderSeries (r : Registry) (name : Str) : Kind → Str
  | .counter => (r.counters.entries.filter (·.1.name = name)).flatMap fun (s, value) =>
    s.render [] none ++ ' ' :: (Nat.toDigits 10 value.toNat ++ ['\n'])
  | .gauge => (r.gauges.entries.filter (·.1.name = name)).flatMap fun (s, value) =>
    s.render [] none ++ ' ' :: (value.display ++ ['\n'])
  | .histogram => (r.histograms.entries.filter (·.1.name = name)).flatMap fun (s, h) => h.render s

/-- `Metrics::render`. -/
def Registry.render (r : Registry) : Str :=
  r.described.entries.flatMap fun (name, kind, help) =>
    (if help = [] then [] else "# HELP ".toList ++ name ++ ' ' :: (oneLine help ++ ['\n'])) ++
    ("# TYPE ".toList ++ name ++ ' ' :: (kind.asStr ++ ['\n'])) ++
    r.renderSeries name kind

end Arcature.Observe.Metrics
