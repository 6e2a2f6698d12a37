import Arcature.Observe.Metrics

/-! What the calls on a metrics handle recorded, and that the registry has it.

    Each map of the registry is told from the calls alone: a counter series has the sum of its
    increments (`get?_counters`), a gauge series what it was set to last (`get?_gauges`), a histogram
    series all it observed (`get?_histograms`), and a name the kind and help of its last description,
    or the kind of its first recording if there is none (`get?_described`). -/

namespace Arcature.Observe.Metrics
open Arcature.Lib

/-! ### Calls -/

namespace Call

/-- What a call adds to a counter series. -/
def increment? (s : Series) : Call → Option ℕ
  | .increment name labels amount => if Series.new name labels = s then some amount.toNat else none
  | _ => none

/-- What a call sets a gauge series to. -/
def setting? (s : Series) : Call → Option F64
  | .set name labels value => if Series.new name labels = s then some value else none
  | _ => none

/-- What a call observes in a histogram series. -/
def observation? (s : Series) : Call → Option F64
  | .observe name labels value => if Series.new name labels = s then some value else none
  | _ => none

/-- How a call describes a name. -/
def description? (n : Str) : Call → Option (Kind × Str)
  | .describe name kind help => if name = n then some (kind, help) else none
  | _ => none

/-- The name a call is about. -/
def name : Call → Str
  | .describe name .. => name
  | .increment name .. => name
  | .set name .. => name
  | .observe name .. => name

/-- The series a call records, and as what. -/
def recording? : Call → Option (Kind × Series)
  | .describe .. => none
  | .increment name labels _ => some (.counter, .new name labels)
  | .set name labels _ => some (.gauge, .new name labels)
  | .observe name labels _ => some (.histogram, .new name labels)

end Call

/-- What was added to a counter series. -/
def increments (calls : List Call) (s : Series) : List ℕ := calls.filterMap (Call.increment? s)

/-- What a gauge series was set to. -/
def settings (calls : List Call) (s : Series) : List F64 := calls.filterMap (Call.setting? s)

/-- What was observed in a histogram series. -/
def observations (calls : List Call) (s : Series) : List F64 := calls.filterMap (Call.observation? s)

/-- How a name was described. -/
def descriptions (calls : List Call) (n : Str) : List (Kind × Str) := calls.filterMap (Call.description? n)

/-- What was recorded. -/
def recordings (calls : List Call) : List (Kind × Series) := calls.filterMap Call.recording?

/-- The kind of a name: that of its last description, or that of its first recording. -/
def kindOf (calls : List Call) (n : Str) : Option Kind :=
  ((descriptions calls n).getLast?.map Prod.fst).or (((recordings calls).find? (·.2.name = n)).map Prod.fst)

/-! ### The registry -/

theorem run_concat (bounds : List F64) (calls : List Call) (c : Call) :
    run bounds (calls ++ [c]) = step (run bounds calls) c := List.foldl_concat _ _ _ _

theorem filterMap_concat {α β : Type} (f : α → Option β) (l : List α) (a : α) :
    (l ++ [a]).filterMap f = l.filterMap f ++ (f a).toList := by
  rw [List.filterMap_append]
  cases h : f a <;> simp [h]

theorem get?_counters_step (r : Registry) (c : Call) (s : Series) :
    (step r c).counters.get? s =
      (c.increment? s).elim (r.counters.get? s) fun n => some ((r.counters.get? s).getD 0 + UInt64.ofNat n) := by
  cases c with
  | increment name labels amount =>
    rw [step, Registry.increment, Call.increment?]
    dsimp only [Registry.touch]
    rw [OrdMap.get?_alter]
    rcases eq_or_ne (Series.new name labels) s with rfl | hs
    · rw [if_pos rfl, if_pos rfl, Option.elim_some, UInt64.ofNat_toNat]
    · rw [if_neg hs.symm, if_neg hs, Option.elim_none]
  | _ => rfl

/-- A counter series has the sum of its increments. -/
theorem get?_counters (bounds : List F64) (calls : List Call) (s : Series) :
    (run bounds calls).counters.get? s =
      if increments calls s = [] then none else some (UInt64.ofNat (increments calls s).sum) := by
  induction calls using List.reverseRecOn with
  | nil => rfl
  | append_singleton calls c ih =>
    rw [run_concat, get?_counters_step, increments, filterMap_concat, ih, increments]
    rcases c.increment? s with _ | n
    · simp
    · rcases calls.filterMap (Call.increment? s) with _ | ⟨m, ns⟩
      · simp
      · simp [UInt64.ofNat_add, UInt64.add_assoc]

theorem get?_gauges_step (r : Registry) (c : Call) (s : Series) :
    (step r c).gauges.get? s = (c.setting? s).or (r.gauges.get? s) := by
  cases c with
  | set name labels value =>
    rw [step, Registry.set, Call.setting?]
    dsimp only [Registry.touch]
    rw [OrdMap.get?_insert]
    rcases eq_or_ne (Series.new name labels) s with rfl | hs
    · rw [if_pos rfl, if_pos rfl, Option.some_or]
    · rw [if_neg hs.symm, if_neg hs, Option.none_or]
  | _ => rfl

/-- A gauge series has what it was set to last. -/
theorem get?_gauges (bounds : List F64) (calls : List Call) (s : Series) :
    (run bounds calls).gauges.get? s = (settings calls s).getLast? := by
  induction calls using List.reverseRecOn with
  | nil => rfl
  | append_singleton calls c ih =>
    rw [run_concat, get?_gauges_step, settings, filterMap_concat, ih, settings]
    cases c.setting? s <;> simp

theorem buckets_step (r : Registry) (c : Call) : (step r c).buckets = r.buckets := by
  cases c <;> rfl

theorem buckets_run (bounds : List F64) (calls : List Call) :
    (run bounds calls).buckets = (withBuckets bounds).buckets := by
  induction calls using List.reverseRecOn with
  | nil => rfl
  | append_singleton calls c ih => rw [run_concat, buckets_step, ih]

/-- The histogram of observations. -/
def Histogram.ofList (bounds values : List F64) : Histogram := values.foldl Histogram.record (.new bounds)

theorem Histogram.ofList_concat (bounds values : List F64) (value : F64) :
    ofList bounds (values ++ [value]) = (ofList bounds values).record value := List.foldl_concat _ _ _ _

theorem get?_histograms_step (r : Registry) (c : Call) (s : Series) :
    (step r c).histograms.get? s =
      (c.observation? s).elim (r.histograms.get? s) fun value =>
        some (((r.histograms.get? s).getD (.new r.buckets)).record value) := by
  cases c with
  | observe name labels value =>
    rw [step, Registry.observe, Call.observation?]
    dsimp only [Registry.touch]
    rw [OrdMap.get?_alter]
    rcases eq_or_ne (Series.new name labels) s with rfl | hs
    · rw [if_pos rfl, if_pos rfl, Option.elim_some]
    · rw [if_neg hs.symm, if_neg hs, Option.elim_none]
  | _ => rfl

/-- A histogram series has all it observed. -/
theorem get?_histograms (bounds : List F64) (calls : List Call) (s : Series) :
    (run bounds calls).histograms.get? s =
      if observations calls s = [] then none
      else some (.ofList (withBuckets bounds).buckets (observations calls s)) := by
  induction calls using List.reverseRecOn with
  | nil => rfl
  | append_singleton calls c ih =>
    rw [run_concat, get?_histograms_step, buckets_run, observations, filterMap_concat, ih, observations]
    rcases c.observation? s with _ | value
    · simp
    · rw [Option.toList_some, Histogram.ofList_concat, if_neg (List.append_ne_nil_of_right_ne_nil _ (List.cons_ne_nil _ _)),
        Option.elim_some]
      rcases calls.filterMap (Call.observation? s) with _ | ⟨v, vs⟩
      · rfl
      · simp

theorem get?_described_step (r : Registry) (c : Call) (n : Str) :
    (step r c).described.get? n =
      (c.description? n).or ((r.described.get? n).or
        ((c.recording?.filter (·.2.name = n)).map fun p => (p.1, []))) := by
  have htouch : ∀ (name : Str) (kind : Kind) (labels : List (Str × Str)),
      (r.touch name kind).described.get? n = (r.described.get? n).or
        (((some (kind, Series.new name labels)).filter (·.2.name = n)).map fun p => (p.1, [])) := by
    intro name kind labels
    rw [Registry.touch, OrdMap.get?_alter, Option.filter_some]
    rcases eq_or_ne name n with rfl | hn
    · rw [if_pos rfl, if_pos (by simp [Series.new])]
      cases r.described.get? name <;> rfl
    · rw [if_neg hn.symm, if_neg (by simp [Series.new, hn]), Option.map_none, Option.or_none]
  cases c with
  | describe name kind help =>
    rw [step, Registry.describe, OrdMap.get?_insert, Call.description?, Call.recording?]
    rcases eq_or_ne name n with rfl | hn
    · rw [if_pos rfl, if_pos rfl, Option.some_or]
    · rw [if_neg hn.symm, if_neg hn, Option.none_or]
      simp
  | increment name labels amount => exact htouch name .counter labels
  | set name labels value => exact htouch name .gauge labels
  | observe name labels value => exact htouch name .histogram labels

/-- A name has the kind and the help of its last description, or the kind of its first recording. -/
theorem get?_described (bounds : List F64) (calls : List Call) (n : Str) :
    (run bounds calls).described.get? n =
      (descriptions calls n).getLast?.or (((recordings calls).find? (·.2.name = n)).map fun p => (p.1, [])) := by
  induction calls using List.reverseRecOn with
  | nil => rfl
  | append_singleton calls c ih =>
    have hdescriptions : descriptions (calls ++ [c]) n = descriptions calls n ++ (c.description? n).toList :=
      filterMap_concat _ _ _
    have hrecordings : recordings (calls ++ [c]) = recordings calls ++ c.recording?.toList := filterMap_concat _ _ _
    have hlast : (c.description? n).toList.getLast? = c.description? n := by cases c.description? n <;> rfl
    have hfirst : c.recording?.toList.find? (·.2.name = n) = c.recording?.filter (·.2.name = n) := by
      rcases c.recording? with _ | p
      · rfl
      · rw [Option.toList_some, List.find?_singleton, Option.filter_some]
    rw [run_concat, get?_described_step, ih, hdescriptions, hrecordings, List.getLast?_append, List.find?_append, hlast,
      hfirst, Option.map_or, Option.or_assoc, Option.or_assoc]

/-! ### Histograms -/

namespace Histogram

theorem bounds_ofList (bounds values : List F64) : (ofList bounds values).bounds = bounds := by
  induction values using List.reverseRecOn with
  | nil => rfl
  | append_singleton values value ih => rw [ofList_concat, record, ih]

theorem count_ofList (bounds values : List F64) : (ofList bounds values).count = UInt64.ofNat values.length := by
  induction values using List.reverseRecOn with
  | nil => rfl
  | append_singleton values value ih =>
    rw [ofList_concat, record, ih, List.length_append, UInt64.ofNat_add]
    rfl

theorem sum_ofList (bounds values : List F64) : (ofList bounds values).sum = values.foldl F64.add F64.zero := by
  induction values using List.reverseRecOn with
  | nil => rfl
  | append_singleton values value ih => rw [ofList_concat, record, ih, List.foldl_concat]

/-- A bound has as many as are not above it. -/
theorem counts_ofList (bounds values : List F64) :
    (ofList bounds values).counts = bounds.map fun bound => UInt64.ofNat (values.countP (·.le bound)) := by
  induction values using List.reverseRecOn with
  | nil => simp [ofList, new, List.map_const']
  | append_singleton values value ih =>
    rw [ofList_concat, record]
    dsimp only
    rw [ih, bounds_ofList, List.zipWith_map_right, List.zipWith_self]
    refine List.map_congr_left fun bound _ => ?_
    rw [List.countP_append, List.countP_singleton]
    split
    · rw [UInt64.ofNat_add]
      rfl
    · rw [Nat.add_zero]

end Histogram

/-! ### Names and series -/

/-- The series of a kind, in order. -/
def Registry.series (r : Registry) : Kind → List Series
  | .counter => r.counters.entries.map Prod.fst
  | .gauge => r.gauges.entries.map Prod.fst
  | .histogram => r.histograms.entries.map Prod.fst

theorem Registry.nodup_series (r : Registry) (k : Kind) : (r.series k).Nodup := by
  cases k with
  | counter => exact r.counters.nodup_keys
  | gauge => exact r.gauges.nodup_keys
  | histogram => exact r.histograms.nodup_keys

theorem filterMap_ne_nil_iff {α β : Type} {f : α → Option β} {l : List α} :
    l.filterMap f ≠ [] ↔ ∃ a ∈ l, (f a).isSome := by
  rw [ne_eq, List.filterMap_eq_nil_iff]
  simp [Option.isSome_iff_ne_none]

theorem mem_recordings_iff {calls : List Call} {p : Kind × Series} :
    p ∈ recordings calls ↔ ∃ c ∈ calls, c.recording? = some p := List.mem_filterMap

theorem increments_ne_nil_iff {calls : List Call} {s : Series} :
    increments calls s ≠ [] ↔ (.counter, s) ∈ recordings calls := by
  rw [increments, filterMap_ne_nil_iff, mem_recordings_iff]
  refine exists_congr fun c => and_congr_right fun _ => ?_
  cases c <;> simp [Call.increment?, Call.recording?]

theorem settings_ne_nil_iff {calls : List Call} {s : Series} :
    settings calls s ≠ [] ↔ (.gauge, s) ∈ recordings calls := by
  rw [settings, filterMap_ne_nil_iff, mem_recordings_iff]
  refine exists_congr fun c => and_congr_right fun _ => ?_
  cases c <;> simp [Call.setting?, Call.recording?]

theorem observations_ne_nil_iff {calls : List Call} {s : Series} :
    observations calls s ≠ [] ↔ (.histogram, s) ∈ recordings calls := by
  rw [observations, filterMap_ne_nil_iff, mem_recordings_iff]
  refine exists_congr fun c => and_congr_right fun _ => ?_
  cases c <;> simp [Call.observation?, Call.recording?]

/-- The registry has the series that were recorded. -/
theorem mem_series_iff {bounds : List F64} {calls : List Call} {k : Kind} {s : Series} :
    s ∈ (run bounds calls).series k ↔ (k, s) ∈ recordings calls := by
  cases k with
  | counter =>
    rw [Registry.series, OrdMap.mem_keys_iff, get?_counters, ← increments_ne_nil_iff]
    split <;> simp_all
  | gauge =>
    rw [Registry.series, OrdMap.mem_keys_iff, get?_gauges, ← settings_ne_nil_iff, List.getLast?_isSome]
  | histogram =>
    rw [Registry.series, OrdMap.mem_keys_iff, get?_histograms, ← observations_ne_nil_iff]
    split <;> simp_all

/-- The registry has a kind for the names it was called with. -/
theorem isSome_described_iff {bounds : List F64} {calls : List Call} {n : Str} :
    ((run bounds calls).described.get? n).isSome ↔ ∃ c ∈ calls, c.name = n := by
  induction calls using List.reverseRecOn with
  | nil => simp [run, withBuckets]
  | append_singleton calls c ih =>
    have hcall : (c.description? n).isSome ∨ ((c.recording?.filter (·.2.name = n)).map fun p => (p.1, ([] : Str))).isSome ↔
        c.name = n := by
      cases c <;> simp [Call.description?, Call.recording?, Call.name, Series.new, Option.filter_some]
    rw [run_concat, get?_described_step, Option.isSome_or, Option.isSome_or, Bool.or_eq_true, Bool.or_eq_true, ih,
      or_left_comm, hcall]
    simp [or_and_right, exists_or]

theorem kindOf_eq (bounds : List F64) (calls : List Call) (n : Str) :
    kindOf calls n = ((run bounds calls).described.get? n).map Prod.fst := by
  rw [get?_described, Option.map_or, Option.map_map, kindOf]
  rfl

end Arcature.Observe.Metrics
