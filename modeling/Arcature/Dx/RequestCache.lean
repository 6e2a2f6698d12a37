import Arcature.Lib.Json
import Arcature.Lib.Machine

/-! The memo of a request, with any number of calls in flight.

    `#[request_cache]` wraps a resolver: look the key up, run the body, and store what it returned if
    that was a success (`macros/request_cache.rs`, `dx/request_cache_store.rs`). The three are steps of
    their own, and other calls of the request get in between:

        call 1   get ── miss ── body ───────── insert      two bodies ran
        call 2               get ── miss ── body ── insert

    No call ever sees a value of another key. A body succeeds once for a key, and that is the value of
    every call that succeeds, where the calls of a key have one type and no two of them that both
    succeed overlap (`memoized_iff_noOverlap`); and not in general (`resolved_twice`). -/

namespace Arcature.Dx
open Arcature.Lib

/-! ### Keys -/

/-- `RequestCacheKey`. -/
structure RequestCacheKey where
  resolver : Str
  fields : Str
  deriving DecidableEq

/-- `RequestCacheKey::new`. -/
def RequestCacheKey.new (resolver : Str) : RequestCacheKey := ⟨resolver, []⟩

/-- The text of a key field: its name, the length of its value, and the value. -/
def fieldText (name rendered : Str) : Str :=
  name ++ '=' :: (Nat.toDigits 10 rendered.len ++ ':' :: (rendered ++ [';']))

/-- `RequestCacheKey::field`, with the text of the value. -/
def RequestCacheKey.field (key : RequestCacheKey) (name rendered : Str) : RequestCacheKey :=
  { key with fields := key.fields ++ fieldText name rendered }

/-- A call of a wrapped resolver: the resolver's name, the names and texts of its key fields, and the
    type of its success. The key fields are parameters, and so no name has an equals sign. -/
structure Call (τ : Type) where
  resolver : Str
  fields : List (Str × Str)
  names_ok : ∀ f ∈ fields, '=' ∉ f.1
  type : τ

/-- The key of a call. -/
def Call.key {τ : Type} (call : Call τ) : RequestCacheKey :=
  call.fields.foldl (fun key f => key.field f.1 f.2) (.new call.resolver)

theorem eq_of_len_eq {a b s t : Str} (hlen : a.len = b.len) (h : a ++ s = b ++ t) : a = b ∧ s = t := by
  have hbytes : (Str.bytes a).length = (Str.bytes b).length := by rw [Str.length_bytes, Str.length_bytes, hlen]
  have happend : Str.bytes a ++ Str.bytes s = Str.bytes b ++ Str.bytes t := by
    rw [← Str.bytes_append, ← Str.bytes_append, h]
  obtain ⟨ha, hs⟩ := List.append_inj happend hbytes
  exact ⟨Str.bytes_injective ha, Str.bytes_injective hs⟩

theorem colon_notMem_toDigits (n : ℕ) : ':' ∉ Nat.toDigits 10 n := by
  intro h
  have hdigit := Nat.isDigit_of_mem_toDigits (by decide) le_rfl h
  exact absurd hdigit (by decide)

/-- No value forges the boundary of a field: what follows the text of a field is known. -/
theorem fieldText_injective {name name' rendered rendered' rest rest' : Str} (hname : '=' ∉ name)
    (hname' : '=' ∉ name') (h : fieldText name rendered ++ rest = fieldText name' rendered' ++ rest') :
    name = name' ∧ rendered = rendered' ∧ rest = rest' := by
  simp only [fieldText, List.append_assoc, List.cons_append] at h
  obtain ⟨hnames, h⟩ := Str.append_sep_inj hname hname' h
  obtain ⟨hdigits, h⟩ := Str.append_sep_inj (colon_notMem_toDigits _) (colon_notMem_toDigits _) h
  have hlen : rendered.len = rendered'.len := by
    have hread := congrArg (fun digits => Nat.ofDigitChars 10 digits 0) hdigits
    simpa [Nat.ofDigitChars_ten_toDigits] using hread
  obtain ⟨hrendered, h⟩ := eq_of_len_eq hlen h
  rw [List.nil_append, List.nil_append, List.cons.injEq] at h
  exact ⟨hnames, hrendered, h.2⟩

theorem fieldTexts_injective : ∀ {fields fields' : List (Str × Str)}, (∀ f ∈ fields, '=' ∉ f.1) →
    (∀ f ∈ fields', '=' ∉ f.1) →
    (fields.flatMap fun f => fieldText f.1 f.2) = (fields'.flatMap fun f => fieldText f.1 f.2) →
    fields = fields'
  | [], [], _, _, _ => rfl
  | [], f :: fields, _, _, h => by simp [fieldText] at h
  | f :: fields, [], _, _, h => by simp [fieldText] at h
  | f :: fields, f' :: fields', hf, hf', h => by
    rw [List.forall_mem_cons] at hf hf'
    rw [List.flatMap_cons, List.flatMap_cons] at h
    obtain ⟨hname, hrendered, hrest⟩ := fieldText_injective hf.1 hf'.1 h
    rw [fieldTexts_injective hf.2 hf'.2 hrest, Prod.ext hname hrendered]

theorem foldl_field (fields : List (Str × Str)) (key : RequestCacheKey) :
    fields.foldl (fun key f => key.field f.1 f.2) key =
      ⟨key.resolver, key.fields ++ fields.flatMap fun f => fieldText f.1 f.2⟩ := by
  induction fields generalizing key with
  | nil => rw [List.foldl_nil, List.flatMap_nil, List.append_nil]
  | cons f fields ih =>
    rw [List.foldl_cons, ih, List.flatMap_cons]
    simp [RequestCacheKey.field]

/-- The key of a resolver's name and any key fields, made by `new` and then `field` for each. -/
def RequestCacheKey.build (resolver : Str) (fields : List (Str × Str)) : RequestCacheKey :=
  fields.foldl (fun key f => key.field f.1 f.2) (.new resolver)

/-- Two keys are equal exactly when the resolvers and the key fields are, where no name of a field has
    an equals sign: an identifier has none, and the values may be any texts. -/
theorem build_eq_iff {resolver resolver' : Str} {fields fields' : List (Str × Str)}
    (hnames : ∀ f ∈ fields, '=' ∉ f.1) (hnames' : ∀ f ∈ fields', '=' ∉ f.1) :
    RequestCacheKey.build resolver fields = RequestCacheKey.build resolver' fields' ↔
      resolver = resolver' ∧ fields = fields' := by
  constructor
  · intro h
    rw [RequestCacheKey.build, RequestCacheKey.build, foldl_field, foldl_field, RequestCacheKey.mk.injEq] at h
    obtain ⟨hresolver, htexts⟩ := h
    exact ⟨hresolver, fieldTexts_injective hnames hnames' (by simpa [RequestCacheKey.new] using htexts)⟩
  · rintro ⟨rfl, rfl⟩
    rfl

/-- One value that spells a second field, and two fields. -/
theorem build_ne_forged :
    RequestCacheKey.build "load".toList [("a".toList, "1;b=1:2;".toList)] ≠
      .build "load".toList [("a".toList, "1".toList), ("b".toList, "2".toList)] := by
  intro h
  have hfields := ((build_eq_iff (by simp) (by simp)).mp h).2
  simp at hfields

/-- A key names the resolver and the texts of the key fields. -/
theorem eq_of_key_eq {τ : Type} {call call' : Call τ} (h : call.key = call'.key) :
    call.resolver = call'.resolver ∧ call.fields = call'.fields := by
  rw [Call.key, Call.key, foldl_field, foldl_field, RequestCacheKey.mk.injEq] at h
  exact ⟨h.1, fieldTexts_injective call.names_ok call'.names_ok (by simpa [RequestCacheKey.new] using h.2)⟩

/-! ### The store -/

section Store

variable {τ : Type} [DecidableEq τ] {α : τ → Type}

/-- The entries of a request, each a value with its type. -/
abbrev RequestCache (α : τ → Type) := Map RequestCacheKey (Σ t, α t)

/-- A value, if it is of this type. -/
def downcast (t : τ) (entry : Σ t, α t) : Option (α t) :=
  if h : entry.1 = t then some (h ▸ entry.2) else none

/-- `RequestCache::get`. -/
def RequestCache.lookup (cache : RequestCache α) (t : τ) (key : RequestCacheKey) : Option (α t) :=
  (cache.get? key).bind (downcast t)

/-- `RequestCache::insert`. -/
def RequestCache.store (cache : RequestCache α) (t : τ) (key : RequestCacheKey) (value : α t) :
    RequestCache α :=
  cache.insert key ⟨t, value⟩

end Store

/-! ### Calls in flight -/

/-- How far a call is. -/
inductive Phase (ε β : Type) where
  | waiting
  | running
  | completed (outcome : Except ε β)
  | returned (outcome : Except ε β)

section Calls

variable {τ : Type} [DecidableEq τ] {α : τ → Type} {ε : Type} (calls : ℕ → Call τ)

/-- The store, and how far the calls are. -/
structure State (α : τ → Type) (ε : Type) (calls : ℕ → Call τ) where
  cache : RequestCache α
  phases : (n : ℕ) → Phase ε (α (calls n).type)

/-- A step of the call `n` of the wrapper. -/
inductive Event (α : τ → Type) (ε : Type) (calls : ℕ → Call τ) where
  | get (n : ℕ)
  | body (n : ℕ) (outcome : Except ε (α (calls n).type))
  | insert (n : ℕ)

/-- The call that returned, and what. -/
abbrev Answer (α : τ → Type) (ε : Type) := Option (ℕ × Except ε (Σ t, α t))

variable {calls}

/-- A call goes on to a phase. -/
def State.enter (s : State α ε calls) (n : ℕ) (phase : Phase ε (α (calls n).type)) : State α ε calls :=
  { s with phases := Function.update s.phases n phase }

/-- One step of the wrapper, in `expand_wrapper`. A step that is not next does nothing. -/
def step (s : State α ε calls) : Event α ε calls → State α ε calls × Answer α ε
  | .get n =>
    match s.phases n with
    | .waiting =>
      match s.cache.lookup (calls n).type (calls n).key with
      | some hit => (s.enter n (.returned (.ok hit)), some (n, .ok ⟨_, hit⟩))
      | none => (s.enter n .running, none)
    | _ => (s, none)
  | .body n outcome =>
    match s.phases n with
    | .running => (s.enter n (.completed outcome), none)
    | _ => (s, none)
  | .insert n =>
    match s.phases n with
    | .completed (.ok value) =>
      ({ s with cache := s.cache.store (calls n).type (calls n).key value }.enter n (.returned (.ok value)),
        some (n, .ok ⟨_, value⟩))
    | .completed (.error e) => (s.enter n (.returned (.error e)), some (n, .error e))
    | _ => (s, none)

variable (α ε calls) in
/-- The calls of a request. -/
def machine : Machine (State α ε calls) (Event α ε calls) (Answer α ε) where
  init := ⟨.empty, fun _ => .waiting⟩
  step := step

/-! ### Once for a key -/

/-- The body of a call completes with a success. -/
def Completes (n : ℕ) (value : Σ t, α t) (s : State α ε calls) (e : Event α ε calls) : Prop :=
  ∃ v, e = .body n (.ok v) ∧ s.phases n = .running ∧ value = ⟨_, v⟩

/-- A call returns a success. -/
def Returns (n : ℕ) (value : Σ t, α t) (s : State α ε calls) (e : Event α ε calls) : Prop :=
  (step s e).2 = some (n, .ok value)

/-- For each key the body succeeds at most once, all calls that return a success return that value,
    and the value comes from a call of the same resolver with the same key fields. -/
structure Memoized (es : List (Event α ε calls)) : Prop where
  once : ∀ i j n m v w, (calls n).key = (calls m).key → (machine α ε calls).Fires es i (Completes n v) →
    (machine α ε calls).Fires es j (Completes m w) → i = j
  same : ∀ i j n m v w, (calls n).key = (calls m).key → (machine α ε calls).Fires es i (Completes n v) →
    (machine α ε calls).Fires es j (Returns m w) → w = v
  own : ∀ j m w, (machine α ε calls).Fires es j (Returns m w) →
    ∃ i n, i < j ∧ (machine α ε calls).Fires es i (Completes n w) ∧
      (calls n).resolver = (calls m).resolver ∧ (calls n).fields = (calls m).fields

/-- A call has looked its key up and not returned. -/
def InFlight (s : State α ε calls) (n : ℕ) : Prop :=
  match s.phases n with
  | .running => True
  | .completed _ => True
  | _ => False

/-- The body of a call succeeds in this run. -/
def Succeeds (es : List (Event α ε calls)) (n : ℕ) : Prop :=
  ∃ i v, (machine α ε calls).Fires es i (Completes n v)

/-- No call looks its key up while another of that key is in flight, if both succeed. -/
def NoOverlap (es : List (Event α ε calls)) : Prop :=
  ∀ g n m, es[g]? = some (.get n) → ((machine α ε calls).run (es.take g)).phases n = .waiting →
    (calls m).key = (calls n).key → InFlight ((machine α ε calls).run (es.take g)) m →
    ¬ (Succeeds es n ∧ Succeeds es m)

/-! ### What a step can do -/

/-- The steps of a call: it looks its key up and hits or misses, its body completes, it stores a
    success or passes an error on. Everything else is idle. -/
inductive Moves : State α ε calls → Event α ε calls → State α ε calls → Answer α ε → Prop where
  | hit {s : State α ε calls} {n : ℕ} {v : α (calls n).type} : s.phases n = .waiting →
      s.cache.lookup (calls n).type (calls n).key = some v →
      Moves s (.get n) (s.enter n (.returned (.ok v))) (some (n, .ok ⟨_, v⟩))
  | miss {s : State α ε calls} {n : ℕ} : s.phases n = .waiting →
      s.cache.lookup (calls n).type (calls n).key = none →
      Moves s (.get n) (s.enter n .running) none
  | complete {s : State α ε calls} {n : ℕ} {outcome : Except ε (α (calls n).type)} : s.phases n = .running →
      Moves s (.body n outcome) (s.enter n (.completed outcome)) none
  | stored {s : State α ε calls} {n : ℕ} {v : α (calls n).type} : s.phases n = .completed (.ok v) →
      Moves s (.insert n)
        ({ s with cache := s.cache.store (calls n).type (calls n).key v }.enter n (.returned (.ok v)))
        (some (n, .ok ⟨_, v⟩))
  | failed {s : State α ε calls} {n : ℕ} {e : ε} : s.phases n = .completed (.error e) →
      Moves s (.insert n) (s.enter n (.returned (.error e))) (some (n, .error e))
  | idle {s : State α ε calls} {e : Event α ε calls} :
      (∀ n, e = .get n → s.phases n ≠ .waiting) → (∀ n outcome, e = .body n outcome → s.phases n ≠ .running) →
      Moves s e s none

theorem step_moves (s : State α ε calls) (e : Event α ε calls) : Moves s e (step s e).1 (step s e).2 := by
  cases e with
  | get n =>
    simp only [step]
    cases hphase : s.phases n with
    | waiting =>
      cases hlookup : s.cache.lookup (calls n).type (calls n).key with
      | some v => exact .hit hphase hlookup
      | none => exact .miss hphase hlookup
    | running => exact .idle (by rintro _ ⟨⟩; simp [hphase]) (by simp)
    | completed outcome => exact .idle (by rintro _ ⟨⟩; simp [hphase]) (by simp)
    | returned outcome => exact .idle (by rintro _ ⟨⟩; simp [hphase]) (by simp)
  | body n outcome =>
    simp only [step]
    cases hphase : s.phases n with
    | running => exact .complete hphase
    | waiting => exact .idle (by simp) (by rintro _ _ ⟨⟩; simp [hphase])
    | completed outcome => exact .idle (by simp) (by rintro _ _ ⟨⟩; simp [hphase])
    | returned outcome => exact .idle (by simp) (by rintro _ _ ⟨⟩; simp [hphase])
  | insert n =>
    simp only [step]
    cases hphase : s.phases n with
    | completed outcome =>
      cases outcome with
      | ok v => exact .stored hphase
      | error e => exact .failed hphase
    | waiting => exact .idle (by simp) (by simp)
    | running => exact .idle (by simp) (by simp)
    | returned outcome => exact .idle (by simp) (by simp)

/-- The order of the phases. -/
def Phase.rank {β : Type} : Phase ε β → ℕ
  | .waiting => 0
  | .running => 1
  | .completed _ => 2
  | .returned _ => 3

omit [DecidableEq τ] in
theorem enter_self (s : State α ε calls) (n : ℕ) (phase : Phase ε (α (calls n).type)) :
    (s.enter n phase).phases n = phase := Function.update_self ..

omit [DecidableEq τ] in
theorem enter_of_ne (s : State α ε calls) {n m : ℕ} (h : m ≠ n) (phase : Phase ε (α (calls n).type)) :
    (s.enter n phase).phases m = s.phases m := Function.update_of_ne h _ _

omit [DecidableEq τ] in
/-- A call that moves goes on to a later phase, and the others stay. -/
theorem rank_enter {s : State α ε calls} {n : ℕ} {phase : Phase ε (α (calls n).type)}
    (h : (s.phases n).rank ≤ phase.rank) (m : ℕ) : (s.phases m).rank ≤ ((s.enter n phase).phases m).rank := by
  by_cases hm : m = n
  · subst hm
    rw [enter_self]
    exact h
  · rw [enter_of_ne s hm]

omit [DecidableEq τ] in
/-- The phase of a call after one is entered: it was that before, or it is the one entered. -/
theorem phases_of_enter {s : State α ε calls} {n m : ℕ} {phase : Phase ε (α (calls m).type)}
    {q : Phase ε (α (calls n).type)} (h : (s.enter m phase).phases n = q) :
    s.phases n = q ∨ ∃ hn : m = n, hn ▸ phase = q := by
  by_cases hn : m = n
  · subst hn
    rw [enter_self] at h
    exact Or.inr ⟨rfl, h⟩
  · rw [enter_of_ne s (Ne.symm hn)] at h
    exact Or.inl h

omit [DecidableEq τ] in
theorem take_succ_of_none {es : List (Event α ε calls)} {j : ℕ} (h : es[j]? = none) :
    es.take (j + 1) = es.take j := by
  have hlen : es.length ≤ j := List.getElem?_eq_none_iff.mp h
  rw [List.take_of_length_le hlen, List.take_of_length_le (Nat.le_succ_of_le hlen)]

theorem rank_next (s : State α ε calls) (e : Event α ε calls) (m : ℕ) :
    (s.phases m).rank ≤ (((machine α ε calls).next s e).phases m).rank := by
  have hmoves := step_moves s e
  show _ ≤ ((step s e).1.phases m).rank
  generalize (step s e).1 = s', (step s e).2 = answer at hmoves
  cases hmoves with
  | hit hphase _ => exact rank_enter (by rw [hphase]; simp [Phase.rank]) m
  | miss hphase _ => exact rank_enter (by rw [hphase]; simp [Phase.rank]) m
  | complete hphase => exact rank_enter (by rw [hphase]; simp [Phase.rank]) m
  | @stored n v hphase =>
    exact @rank_enter _ _ _ _ { s with cache := s.cache.store (calls n).type (calls n).key v } n
      (.returned (.ok v)) (by rw [hphase]; simp [Phase.rank]) m
  | failed hphase => exact rank_enter (by rw [hphase]; simp [Phase.rank]) m
  | idle _ _ => exact le_rfl

theorem rank_run {es : List (Event α ε calls)} {i j : ℕ} (hij : i ≤ j) (n : ℕ) :
    (((machine α ε calls).run (es.take i)).phases n).rank ≤
      (((machine α ε calls).run (es.take j)).phases n).rank := by
  induction j, hij using Nat.le_induction with
  | base => exact le_rfl
  | succ j hij ih =>
    cases he : es[j]? with
    | none => rwa [take_succ_of_none he]
    | some e =>
      rw [Machine.run_take_succ he]
      exact ih.trans (rank_next _ e n)

/-! ### Runs -/

variable {es : List (Event α ε calls)}

/-- A call whose body is running has looked its key up and missed. -/
theorem missed_of_running {n : ℕ} (h : ((machine α ε calls).run es).phases n = .running) :
    ∃ g, (machine α ε calls).Fires es g fun s e => e = .get n ∧ s.phases n = .waiting ∧
      s.cache.lookup (calls n).type (calls n).key = none := by
  induction es using List.reverseRecOn with
  | nil => cases h
  | append_singleton es e ih =>
    rw [Machine.run_concat] at h
    have hmoves := step_moves ((machine α ε calls).run es) e
    have h : (step ((machine α ε calls).run es) e).1.phases n = .running := h
    have hearlier : ((machine α ε calls).run es).phases n = .running →
        ∃ g, (machine α ε calls).Fires (es ++ [e]) g fun s e => e = .get n ∧ s.phases n = .waiting ∧
          s.cache.lookup (calls n).type (calls n).key = none := by
      intro hrunning
      obtain ⟨g, hg⟩ := ih hrunning
      exact ⟨g, Machine.fires_concat.mpr (Or.inl hg)⟩
    generalize (step ((machine α ε calls).run es) e).1 = s', (step ((machine α ε calls).run es) e).2 = answer
      at hmoves h
    cases hmoves with
    | hit _ _ =>
      rcases phases_of_enter h with h | ⟨rfl, h⟩
      · exact hearlier h
      · cases h
    | miss hwaiting hlookup =>
      rcases phases_of_enter h with h | ⟨rfl, -⟩
      · exact hearlier h
      · exact ⟨es.length, Machine.fires_last.mpr ⟨rfl, hwaiting, hlookup⟩⟩
    | complete _ =>
      rcases phases_of_enter h with h | ⟨rfl, h⟩
      · exact hearlier h
      · cases h
    | stored _ =>
      rcases phases_of_enter h with h | ⟨rfl, h⟩
      · exact hearlier h
      · cases h
    | failed _ =>
      rcases phases_of_enter h with h | ⟨rfl, h⟩
      · exact hearlier h
      · cases h
    | idle _ _ => exact hearlier h

/-- A call whose body has succeeded is on its way to return that value, or has returned it. -/
def Settled (s : State α ε calls) (n : ℕ) (v : α (calls n).type) : Prop :=
  s.phases n = .completed (.ok v) ∨ s.phases n = .returned (.ok v)

theorem Settled.next {s : State α ε calls} {n : ℕ} {v : α (calls n).type} (h : Settled s n v)
    (e : Event α ε calls) : Settled ((machine α ε calls).next s e) n v := by
  have hmoves := step_moves s e
  show Settled (step s e).1 n v
  have hother : ∀ (s' : State α ε calls) (m : ℕ) (phase : Phase ε (α (calls m).type)), n ≠ m →
      s'.phases = s.phases → Settled (s'.enter m phase) n v := by
    intro s' m phase hn hphases
    rw [Settled, enter_of_ne _ hn, hphases]
    exact h
  generalize (step s e).1 = s', (step s e).2 = answer at hmoves
  cases hmoves with
  | @hit m _ hphase _ =>
    refine hother _ _ _ ?_ rfl
    rintro rfl
    rcases h with h | h <;> simp [h] at hphase
  | @miss m hphase _ =>
    refine hother _ _ _ ?_ rfl
    rintro rfl
    rcases h with h | h <;> simp [h] at hphase
  | @complete m _ hphase =>
    refine hother _ _ _ ?_ rfl
    rintro rfl
    rcases h with h | h <;> simp [h] at hphase
  | @stored m w hphase =>
    by_cases hn : n = m
    · subst hn
      right
      rw [enter_self]
      rcases h with h | h
      · rw [h, Phase.completed.injEq, Except.ok.injEq] at hphase
        rw [hphase]
      · simp [h] at hphase
    · exact hother _ _ _ hn rfl
  | @failed m _ hphase =>
    refine hother _ _ _ ?_ rfl
    rintro rfl
    rcases h with h | h <;> simp [h] at hphase
  | idle _ _ => exact h

theorem settled_of_completes {i j n : ℕ} {value : Σ t, α t} (hij : i < j)
    (h : (machine α ε calls).Fires es i (Completes n value)) :
    ∃ v, value = ⟨_, v⟩ ∧ Settled ((machine α ε calls).run (es.take j)) n v := by
  obtain ⟨e, he, v, rfl, hrunning, rfl⟩ := h
  refine ⟨v, rfl, ?_⟩
  induction j, hij using Nat.le_induction with
  | base =>
    rw [Nat.succ_eq_add_one, Machine.run_take_succ he]
    left
    show (step ((machine α ε calls).run (es.take i)) (.body n (.ok v))).1.phases n = _
    simp only [step, hrunning]
    exact enter_self ..
  | succ j hij ih =>
    cases hj : es[j]? with
    | none => rwa [take_succ_of_none hj]
    | some e =>
      rw [Machine.run_take_succ hj]
      exact ih.next e

/-- Where values come from: a stored one from a body of that key, and one that is to be stored from the
    body of that call. -/
theorem origin (es : List (Event α ε calls)) :
    (∀ key value, ((machine α ε calls).run es).cache.get? key = some value →
      ∃ i n, (machine α ε calls).Fires es i (Completes n value) ∧ (calls n).key = key) ∧
    ∀ n v, ((machine α ε calls).run es).phases n = .completed (.ok v) →
      ∃ i, (machine α ε calls).Fires es i (Completes n ⟨_, v⟩) := by
  induction es using List.reverseRecOn with
  | nil => exact ⟨fun key value h => by simp [machine] at h, fun n v h => by cases h⟩
  | append_singleton es e ih =>
    obtain ⟨hcache, hcompleted⟩ := ih
    have hcache' : ∀ key value, ((machine α ε calls).run es).cache.get? key = some value →
        ∃ i n, (machine α ε calls).Fires (es ++ [e]) i (Completes n value) ∧ (calls n).key = key := by
      intro key value h
      obtain ⟨i, n, hfires, hkey⟩ := hcache key value h
      exact ⟨i, n, Machine.fires_concat.mpr (Or.inl hfires), hkey⟩
    have hcompleted' : ∀ n v, ((machine α ε calls).run es).phases n = .completed (.ok v) →
        ∃ i, (machine α ε calls).Fires (es ++ [e]) i (Completes n ⟨_, v⟩) := by
      intro n v h
      obtain ⟨i, hfires⟩ := hcompleted n v h
      exact ⟨i, Machine.fires_concat.mpr (Or.inl hfires)⟩
    rw [Machine.run_concat]
    have hmoves := step_moves ((machine α ε calls).run es) e
    show (∀ key value, (step ((machine α ε calls).run es) e).1.cache.get? key = some value → _) ∧
      ∀ n v, (step ((machine α ε calls).run es) e).1.phases n = .completed (.ok v) → _
    generalize (step ((machine α ε calls).run es) e).1 = s', (step ((machine α ε calls).run es) e).2 = answer
      at hmoves
    cases hmoves with
    | hit _ _ =>
      refine ⟨hcache', fun n v h => ?_⟩
      rcases phases_of_enter h with h | ⟨rfl, h⟩
      · exact hcompleted' n v h
      · cases h
    | miss _ _ =>
      refine ⟨hcache', fun n v h => ?_⟩
      rcases phases_of_enter h with h | ⟨rfl, h⟩
      · exact hcompleted' n v h
      · cases h
    | failed _ =>
      refine ⟨hcache', fun n v h => ?_⟩
      rcases phases_of_enter h with h | ⟨rfl, h⟩
      · exact hcompleted' n v h
      · cases h
    | idle _ _ => exact ⟨hcache', hcompleted'⟩
    | complete hrunning =>
      refine ⟨hcache', fun n v h => ?_⟩
      rcases phases_of_enter h with h | ⟨rfl, h⟩
      · exact hcompleted' n v h
      · cases h
        exact ⟨es.length, Machine.fires_last.mpr ⟨v, rfl, hrunning, rfl⟩⟩
    | @stored m w hphase =>
      refine ⟨fun key value h => ?_, fun n v h => ?_⟩
      rotate_left
      · rcases phases_of_enter h with h | ⟨rfl, h⟩
        · exact hcompleted' n v h
        · cases h
      have h : (((machine α ε calls).run es).cache.insert (calls m).key ⟨_, w⟩).get? key = some value := h
      rw [Map.get?_insert] at h
      by_cases hkey : key = (calls m).key
      · rw [if_pos hkey, Option.some_inj] at h
        obtain ⟨i, hfires⟩ := hcompleted' m w hphase
        exact ⟨i, m, h ▸ hfires, hkey.symm⟩
      · rw [if_neg hkey] at h
        exact hcache' key value h

/-- A call that returned a success left an entry of its type, if the calls of a key have one type. -/
theorem entry_of_returned (htypes : ∀ n m, (calls n).key = (calls m).key → (calls n).type = (calls m).type)
    (es : List (Event α ε calls)) : ∀ n v, ((machine α ε calls).run es).phases n = .returned (.ok v) →
      ∃ w : α (calls n).type, ((machine α ε calls).run es).cache.get? (calls n).key = some ⟨_, w⟩ := by
  induction es using List.reverseRecOn with
  | nil => exact fun n v h => by cases h
  | append_singleton es e ih =>
    rw [Machine.run_concat]
    have hmoves := step_moves ((machine α ε calls).run es) e
    show ∀ n v, (step ((machine α ε calls).run es) e).1.phases n = .returned (.ok v) →
      ∃ w : α (calls n).type, (step ((machine α ε calls).run es) e).1.cache.get? (calls n).key = some ⟨_, w⟩
    generalize (step ((machine α ε calls).run es) e).1 = s', (step ((machine α ε calls).run es) e).2 = answer
      at hmoves
    cases hmoves with
    | miss _ _ =>
      intro n v h
      rcases phases_of_enter h with h | ⟨rfl, h⟩
      · exact ih n v h
      · cases h
    | complete _ =>
      intro n v h
      rcases phases_of_enter h with h | ⟨rfl, h⟩
      · exact ih n v h
      · cases h
    | failed _ =>
      intro n v h
      rcases phases_of_enter h with h | ⟨rfl, h⟩
      · exact ih n v h
      · cases h
    | idle _ _ => exact ih
    | hit _ hlookup =>
      intro n v h
      rcases phases_of_enter h with h | ⟨rfl, -⟩
      · exact ih n v h
      · obtain ⟨⟨t, x⟩, hentry, hdowncast⟩ := Option.bind_eq_some_iff.mp hlookup
        rw [downcast] at hdowncast
        split at hdowncast
        · rename_i ht
          have ht : t = _ := ht
          subst ht
          exact ⟨x, hentry⟩
        · cases hdowncast
    | @stored m w hphase =>
      intro n v h
      have hget : ∀ key, (((machine α ε calls).run es).cache.store (calls m).type (calls m).key w).get? key =
          if key = (calls m).key then some ⟨_, w⟩ else ((machine α ε calls).run es).cache.get? key :=
        fun key => Map.get?_insert _ _ _ _
      by_cases hkey : (calls n).key = (calls m).key
      · refine ⟨(htypes n m hkey).symm ▸ w, ?_⟩
        show (((machine α ε calls).run es).cache.store (calls m).type (calls m).key w).get? _ = _
        rw [hget, if_pos hkey, Option.some_inj]
        refine Sigma.ext (htypes n m hkey).symm ?_
        exact (eqRec_heq _ _).symm
      · have hn : n ≠ m := fun hn => hkey (by rw [hn])
        rw [enter_of_ne _ hn] at h
        obtain ⟨x, hx⟩ := ih n v h
        refine ⟨x, ?_⟩
        show (((machine α ε calls).run es).cache.store (calls m).type (calls m).key w).get? _ = _
        rw [hget, if_neg hkey]
        exact hx

/-- A lookup finds an entry of its type. -/
theorem lookup_of_get? {cache : RequestCache α} {t : τ} {key : RequestCacheKey} {v : α t}
    (h : cache.get? key = some ⟨t, v⟩) : cache.lookup t key = some v := by
  rw [RequestCache.lookup, h]
  simp [downcast]

/-- Of two calls of a key that both succeed, the later one cannot have missed. -/
theorem not_missed_later (htypes : ∀ n m, (calls n).key = (calls m).key → (calls n).type = (calls m).type)
    (h : NoOverlap es) {g g' i j n m : ℕ} {v w : Σ t, α t} (hkey : (calls n).key = (calls m).key)
    (hn : (machine α ε calls).Fires es i (Completes n v)) (hm : (machine α ε calls).Fires es j (Completes m w))
    (hg : (machine α ε calls).Fires es g fun s e => e = .get n ∧ s.phases n = .waiting ∧
      s.cache.lookup (calls n).type (calls n).key = none)
    (hg' : (machine α ε calls).Fires es g' fun s e => e = .get m ∧ s.phases m = .waiting ∧
      s.cache.lookup (calls m).type (calls m).key = none) : ¬ g < g' := by
  intro hlt
  obtain ⟨_, he, rfl, hwaiting, hmiss⟩ := hg
  obtain ⟨_, he', rfl, hwaiting', hmiss'⟩ := hg'
  have hflight : ¬ InFlight ((machine α ε calls).run (es.take g')) n := fun hflight =>
    h g' m n he' hwaiting' hkey hflight ⟨⟨j, w, hm⟩, ⟨i, v, hn⟩⟩
  have hstarted : ((machine α ε calls).run (es.take (g + 1))).phases n = .running := by
    rw [Machine.run_take_succ he]
    show (step ((machine α ε calls).run (es.take g)) (.get n)).1.phases n = _
    simp only [step, hwaiting, hmiss]
    exact enter_self ..
  have hrank := @rank_run _ _ α ε calls es _ _ (Nat.succ_le_of_lt hlt) n
  rw [Nat.succ_eq_add_one, hstarted] at hrank
  cases hphase : ((machine α ε calls).run (es.take g')).phases n with
  | waiting =>
    rw [hphase] at hrank
    exact absurd hrank (by simp [Phase.rank])
  | running => exact hflight (by rw [InFlight, hphase]; trivial)
  | completed outcome => exact hflight (by rw [InFlight, hphase]; trivial)
  | returned outcome =>
    -- the call has stored its value before the lookup
    have hbefore : i < g' := by
      by_contra hle
      have hlater := @rank_run _ _ α ε calls es _ _ (not_lt.mp hle) n
      obtain ⟨_, -, x, rfl, hrunning, -⟩ := hn
      rw [hphase, hrunning] at hlater
      exact absurd hlater (by simp [Phase.rank])
    obtain ⟨x, -, hsettled⟩ := settled_of_completes hbefore hn
    rcases hsettled with hsettled | hsettled
    · rw [hsettled] at hphase
      cases hphase
    · obtain ⟨y, hentry⟩ := entry_of_returned htypes (es.take g') n x hsettled
      rw [hkey] at hentry
      have htype := htypes n m hkey
      have hfound : ∀ t (y : α t), t = (calls m).type →
          ((machine α ε calls).run (es.take g')).cache.get? (calls m).key = some ⟨t, y⟩ → False := by
        rintro t y rfl hget
        rw [lookup_of_get? hget] at hmiss'
        cases hmiss'
      exact hfound _ y htype hentry

/-- The body of a call completes once. -/
theorem completes_once {i j n : ℕ} {v w : Σ t, α t} (hi : (machine α ε calls).Fires es i (Completes n v))
    (hj : (machine α ε calls).Fires es j (Completes n w)) : ¬ i < j := by
  intro hlt
  obtain ⟨x, -, hsettled⟩ := settled_of_completes hlt hi
  obtain ⟨_, -, y, -, hrunning, -⟩ := hj
  rcases hsettled with hsettled | hsettled <;> simp [hsettled] at hrunning

/-- What a call returns was completed by a call of the same key. -/
theorem completed_of_returns {j m : ℕ} {w : Σ t, α t} (h : (machine α ε calls).Fires es j (Returns m w)) :
    ∃ i n, i < j ∧ (machine α ε calls).Fires es i (Completes n w) ∧ (calls n).key = (calls m).key := by
  obtain ⟨e, he, hreturns⟩ := h
  obtain ⟨hcache, hcompleted⟩ := origin (es.take j)
  have hmoves := step_moves ((machine α ε calls).run (es.take j)) e
  rw [Returns] at hreturns
  generalize (step ((machine α ε calls).run (es.take j)) e).1 = s' at hmoves
  rw [hreturns] at hmoves
  have hearlier : ∀ {i n}, (machine α ε calls).Fires (es.take j) i (Completes n w) → (calls n).key = (calls m).key →
      ∃ i n, i < j ∧ (machine α ε calls).Fires es i (Completes n w) ∧ (calls n).key = (calls m).key :=
    fun {i n} hfires hkey => ⟨i, n, hfires.of_take.1, hfires.of_take.2, hkey⟩
  cases hmoves with
  | hit _ hlookup =>
    obtain ⟨⟨t, x⟩, hentry, hdowncast⟩ := Option.bind_eq_some_iff.mp hlookup
    rw [downcast] at hdowncast
    split at hdowncast
    · rename_i ht
      have ht : t = _ := ht
      subst ht
      cases hdowncast
      obtain ⟨i, n, hfires, hkey⟩ := hcache _ _ hentry
      exact hearlier hfires hkey
    · cases hdowncast
  | stored hphase =>
    obtain ⟨i, hfires⟩ := hcompleted _ _ hphase
    exact hearlier hfires rfl

/-- Without an overlap, two successes of a key are one. -/
theorem once_of_noOverlap (htypes : ∀ n m, (calls n).key = (calls m).key → (calls n).type = (calls m).type)
    (h : NoOverlap es) {i j n m : ℕ} {v w : Σ t, α t} (hkey : (calls n).key = (calls m).key)
    (hn : (machine α ε calls).Fires es i (Completes n v)) (hm : (machine α ε calls).Fires es j (Completes m w)) :
    i = j := by
  by_cases hnm : n = m
  · subst hnm
    have hij := completes_once hn hm
    have hji := completes_once hm hn
    omega
  · obtain ⟨_, -, x, rfl, hrunning, -⟩ := id hn
    obtain ⟨_, -, y, rfl, hrunning', -⟩ := id hm
    obtain ⟨g, hg⟩ := missed_of_running hrunning
    obtain ⟨g', hg'⟩ := missed_of_running hrunning'
    have hlt := not_missed_later htypes h hkey hn hm hg.of_take.2 hg'.of_take.2
    have hgt := not_missed_later htypes h hkey.symm hm hn hg'.of_take.2 hg.of_take.2
    obtain rfl : g = g' := by omega
    obtain ⟨_, he, rfl, -⟩ := hg.of_take.2
    obtain ⟨_, he', rfl, -⟩ := hg'.of_take.2
    rw [he, Option.some_inj, Event.get.injEq] at he'
    exact absurd he' hnm

/-- Where a body succeeds at one place only, all successes are of one call with one value. -/
theorem completes_eq {i n m : ℕ} {v w : Σ t, α t} (hn : (machine α ε calls).Fires es i (Completes n v))
    (hm : (machine α ε calls).Fires es i (Completes m w)) : n = m ∧ v = w := by
  obtain ⟨_, he, x, rfl, -, rfl⟩ := hn
  obtain ⟨_, he', y, rfl, -, rfl⟩ := hm
  rw [he, Option.some_inj] at he'
  cases he'
  exact ⟨rfl, rfl⟩

/-- Where the calls of a key have one type, a run is memoized (a body succeeds once for each key, all
    calls of the key return its value, and a call returns only values of its own key) exactly when no
    two calls of a key that both succeed overlap. -/
theorem memoized_iff_noOverlap (calls : ℕ → Call τ)
    (htypes : ∀ n m, (calls n).key = (calls m).key → (calls n).type = (calls m).type)
    (es : List (Event α ε calls)) : Memoized es ↔ NoOverlap es := by
  constructor
  · rintro h g n m hget hwaiting hkey hflight ⟨⟨i, v, hn⟩, ⟨j, w, hm⟩⟩
    obtain rfl := h.once i j n m v w hkey.symm hn hm
    obtain ⟨rfl, -⟩ := completes_eq hn hm
    rw [InFlight, hwaiting] at hflight
    exact hflight
  · intro h
    refine ⟨fun i j n m v w hkey hn hm => once_of_noOverlap htypes h hkey hn hm, ?_, ?_⟩
    · intro i j n m v w hkey hn hm
      obtain ⟨i', n', -, hfires, hkey'⟩ := completed_of_returns hm
      obtain rfl := once_of_noOverlap htypes h (hkey.trans hkey'.symm) hn hfires
      exact (completes_eq hn hfires).2.symm
    · intro j m w hm
      obtain ⟨i, n, hij, hfires, hkey⟩ := completed_of_returns hm
      obtain ⟨hresolver, hfields⟩ := eq_of_key_eq hkey
      exact ⟨i, n, hij, hfires, hresolver, hfields⟩

end Calls

/-! ### Two calls for one profile -/

/-- Calls of one resolver with one key. -/
def profileCall (_ : ℕ) : Call Unit where
  resolver := "load_profile".toList
  fields := [("user_id".toList, "7".toList)]
  names_ok := by simp
  type := ()

/-- The calls of a request, with numbers for profiles. -/
abbrev ProfileEvent := Event (fun _ : Unit => ℕ) Unit profileCall

/-- One call after the other. -/
def inTurn : List ProfileEvent := [.get 0, .body 0 (.ok 10), .insert 0, .get 1]

/-- Two calls that look up before either has stored. -/
def atOnce : List ProfileEvent :=
  [.get 0, .get 1, .body 0 (.ok 10), .body 1 (.ok 20), .insert 0, .insert 1]

/-- The second call returns the value of the first. -/
theorem memoized_inTurn :
    (machine _ _ profileCall).out ((machine _ _ profileCall).run (inTurn.take 3)) (.get 1) =
      some (1, .ok ⟨(), 10⟩) ∧
    Memoized inTurn := by
  refine ⟨rfl, (memoized_iff_noOverlap profileCall (fun _ _ _ => rfl) inTurn).mpr ?_⟩
  rintro (_ | _ | _ | _ | g) n m he hwaiting hkey hflight -
  · exact hflight
  · cases he
  · cases he
  · -- the first call has returned
    rcases m with _ | m
    · exact hflight
    · exact hflight
  · cases he

/-- Both bodies succeed, each with a value of its own. -/
theorem resolved_twice :
    (machine _ _ profileCall).out ((machine _ _ profileCall).run (atOnce.take 4)) (.insert 0) =
      some (0, .ok ⟨(), 10⟩) ∧
    (machine _ _ profileCall).out ((machine _ _ profileCall).run (atOnce.take 5)) (.insert 1) =
      some (1, .ok ⟨(), 20⟩) ∧
    ¬ Memoized atOnce := by
  refine ⟨rfl, rfl, fun h => ?_⟩
  have hfirst : (machine _ _ profileCall).Fires atOnce 2 (Completes 0 ⟨(), 10⟩) := ⟨_, rfl, 10, rfl, rfl, rfl⟩
  have hsecond : (machine _ _ profileCall).Fires atOnce 3 (Completes 1 ⟨(), 20⟩) := ⟨_, rfl, 20, rfl, rfl, rfl⟩
  exact absurd (h.once 2 3 0 1 _ _ rfl hfirst hsecond) (by decide)

end Arcature.Dx
