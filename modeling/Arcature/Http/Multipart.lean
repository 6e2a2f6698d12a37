import Arcature.Lib.Text

/-! Bounds on a multipart body (`http/multipart.rs`).

    The parser under the bounds is the list of the parts still to come, and a part the list of its
    chunks. `next_field` counts a part, `chunk` adds a chunk to the count of its part and to the count
    of the body, and both counts stop at `u64::MAX`:

        next_field   fields = limit ──▶ TooManyFields     (before it looks whether a part is left)
        chunk        part  > limit  ──▶ FieldTooLarge
                     total > limit  ──▶ BodyTooLarge
        drain        next_field, chunk until none, next_field, …, until none -/

namespace Arcature.Http.Multipart
open Arcature.Lib

/-- `u64::MAX`. -/
def u64Max : ℕ := 2 ^ 64 - 1

/-- A cap on a number of bytes: a `u64`. -/
abbrev Cap := {n : ℕ // n ≤ u64Max}

/-- `saturating_add`. -/
def saturatingAdd (a b : ℕ) : ℕ := min (a + b) u64Max

/-- `MultipartLimits`, without its clock. -/
structure MultipartLimits where
  totalBytes : Cap
  fieldBytes : Cap
  fields : ℕ

/-- `MultipartLimits::new`. -/
def MultipartLimits.new : MultipartLimits where
  totalBytes := ⟨16 * 1024 * 1024, by decide⟩
  fieldBytes := ⟨8 * 1024 * 1024, by decide⟩
  fields := 32

/-- `with_fields`. -/
def MultipartLimits.withFields (limits : MultipartLimits) (fields : ℕ) : MultipartLimits := { limits with fields }

/-- `MultipartError`, as far as the bounds raise it. -/
inductive MultipartError where
  | tooManyFields (limit : ℕ)
  | fieldTooLarge (limit : ℕ)
  | bodyTooLarge (limit : ℕ)
  deriving DecidableEq

/-- `Counters`. -/
structure Counters where
  fields : ℕ
  total : ℕ

/-- `BoundedMultipart`: the parts the parser has left, the limits and the counters. -/
structure BoundedMultipart where
  inner : List (List Bytes)
  limits : MultipartLimits
  counters : Counters

/-- `BoundedField`: the chunks its part has left, over the multipart it borrows. -/
structure BoundedField where
  field : List Bytes
  fieldBytes : ℕ
  parent : BoundedMultipart

/-- `BoundedMultipart::new`. -/
def BoundedMultipart.new (inner : List (List Bytes)) (limits : MultipartLimits) : BoundedMultipart :=
  ⟨inner, limits, ⟨0, 0⟩⟩

/-- `next_field`. -/
def BoundedMultipart.nextField (m : BoundedMultipart) : Except MultipartError (Option BoundedField) :=
  if m.limits.fields ≤ m.counters.fields then .error (.tooManyFields m.limits.fields)
  else
    match m.inner with
    | [] => .ok none
    | field :: inner =>
      let counters := { m.counters with fields := m.counters.fields + 1 }
      .ok (some ⟨field, 0, { m with inner, counters }⟩)

/-- `chunk`. A chunk is counted before it is refused. -/
def BoundedField.chunk (f : BoundedField) : Except MultipartError (Option Bytes) × BoundedField :=
  match f.field with
  | [] => (.ok none, f)
  | chunk :: field =>
    let limits := f.parent.limits
    let f := { f with field, fieldBytes := saturatingAdd f.fieldBytes chunk.length }
    if limits.fieldBytes.val < f.fieldBytes then (.error (.fieldTooLarge limits.fieldBytes), f)
    else
      let total := saturatingAdd f.parent.counters.total chunk.length
      let f := { f with parent.counters.total := total }
      if limits.totalBytes.val < total then (.error (.bodyTooLarge limits.totalBytes), f)
      else (.ok (some chunk), f)

/-! ### Draining -/

/-- `chunk` until there is none, in at most `n` calls: what was returned, and how it ended. -/
def BoundedField.drain : ℕ → BoundedField → List Bytes × Except MultipartError BoundedMultipart
  | 0, f => ([], .ok f.parent)
  | n + 1, f =>
    match f.chunk with
    | (.error e, _) => ([], .error e)
    | (.ok none, f) => ([], .ok f.parent)
    | (.ok (some chunk), f) =>
      let (chunks, result) := f.drain n
      (chunk :: chunks, result)

/-- `next_field` until there is none, in at most `n` calls, and every part to its end: the chunks
    that were returned, part by part, and the error that ended it. -/
def BoundedMultipart.drain : ℕ → BoundedMultipart → List (List Bytes) × Option MultipartError
  | 0, _ => ([], none)
  | n + 1, m =>
    match m.nextField with
    | .error e => ([], some e)
    | .ok none => ([], none)
    | .ok (some f) =>
      match f.drain (f.field.length + 1) with
      | (chunks, .error e) => ([chunks], some e)
      | (chunks, .ok m) =>
        let (parts, result) := m.drain n
        (chunks :: parts, result)

/-- Drain a whole body. -/
def drain (limits : MultipartLimits) (body : List (List Bytes)) : List (List Bytes) × Option MultipartError :=
  (BoundedMultipart.new body limits).drain (body.length + 1)

/-! ### What the bounds are for -/

/-- The bytes of a part. -/
def partSize (part : List Bytes) : ℕ := (part.map List.length).sum

/-- The bytes of a body. -/
def bodySize (body : List (List Bytes)) : ℕ := (body.map partSize).sum

/-- The body keeps to every bound. -/
structure Within (limits : MultipartLimits) (body : List (List Bytes)) : Prop where
  fields : body.length ≤ limits.fields
  field : ∀ part ∈ body, partSize part ≤ limits.fieldBytes.val
  total : bodySize body ≤ limits.totalBytes.val

/-- The bounds are exact on a body: it is drained if and only if it keeps to them, and is otherwise
    refused by one of them, and in every case no part and no body beyond a cap is returned. -/
structure Exact (limits : MultipartLimits) (body : List (List Bytes)) : Prop where
  drained : (drain limits body).2 = none ↔ Within limits body
  refused : ∀ e, (drain limits body).2 = some e → e = .tooManyFields limits.fields ∨
    e = .fieldTooLarge limits.fieldBytes ∨ e = .bodyTooLarge limits.totalBytes
  capped : (∀ part ∈ (drain limits body).1, partSize part ≤ limits.fieldBytes.val) ∧
    bodySize (drain limits body).1 ≤ limits.totalBytes.val

/-- The parts a reader may have had of a body when it stopped: whole ones, and a beginning. -/
inductive Opening : List (List Bytes) → List (List Bytes) → Prop where
  | none (body : List (List Bytes)) : Opening [] body
  | within {read part : List Bytes} (body : List (List Bytes)) : read <+: part → Opening [read] (part :: body)
  | past (part : List Bytes) {read body : List (List Bytes)} : Opening read body → Opening (part :: read) (part :: body)

/-- What a count that stops at `u64::MAX` does not find too much. -/
def Fits (cap : Cap) (n : ℕ) : Prop := min n u64Max ≤ cap.val

/-- The body has all the parts it may have, and keeps to the caps on its bytes. -/
def Brimming (limits : MultipartLimits) (body : List (List Bytes)) : Prop :=
  body.length = limits.fields ∧ Within limits body

/-- More than `u64::MAX` bytes are to be had of the body under a total cap of `u64::MAX`. -/
def Flooding (limits : MultipartLimits) (body : List (List Bytes)) : Prop :=
  limits.totalBytes.val = u64Max ∧ ∃ read, Opening read body ∧ read.length ≤ limits.fields ∧
    (∀ part ∈ read, Fits limits.fieldBytes (partSize part)) ∧ u64Max < bodySize read

/-! ### A part -/

@[simp] theorem partSize_nil : partSize [] = 0 := rfl

@[simp] theorem partSize_cons (chunk : Bytes) (part : List Bytes) :
    partSize (chunk :: part) = chunk.length + partSize part := by
  simp [partSize]

@[simp] theorem partSize_append (pre post : List Bytes) : partSize (pre ++ post) = partSize pre + partSize post := by
  simp [partSize]

@[simp] theorem bodySize_nil : bodySize [] = 0 := rfl

@[simp] theorem bodySize_cons (part : List Bytes) (body : List (List Bytes)) :
    bodySize (part :: body) = partSize part + bodySize body := by
  simp [bodySize]

theorem partSize_le_bodySize {part : List Bytes} {body : List (List Bytes)} (h : part ∈ body) :
    partSize part ≤ bodySize body :=
  List.le_sum_of_mem (List.mem_map_of_mem h)

theorem Fits.mono {cap : Cap} {m n : ℕ} (h : Fits cap n) (hmn : m ≤ n) : Fits cap m := by
  unfold Fits at *
  omega

theorem saturatingAdd_min (a b : ℕ) : saturatingAdd (min a u64Max) b = min (a + b) u64Max := by
  unfold saturatingAdd
  omega

/-- The caps refuse a chunk: the part up to it has `a` bytes, and the body up to it `t`. -/
inductive Refuses (limits : MultipartLimits) (a t n : ℕ) : MultipartError → Prop where
  | field : ¬ Fits limits.fieldBytes (a + n) → Refuses limits a t n (.fieldTooLarge limits.fieldBytes)
  | body : Fits limits.fieldBytes (a + n) → ¬ Fits limits.totalBytes (t + n) →
    Refuses limits a t n (.bodyTooLarge limits.totalBytes)

/-- The multipart with a count of `t` bytes for the body. -/
def BoundedMultipart.counted (m : BoundedMultipart) (t : ℕ) : BoundedMultipart :=
  { m with counters := ⟨m.counters.fields, min t u64Max⟩ }

/-- How a part is drained: to its end, or up to the first chunk that the caps refuse. -/
inductive FieldDrains (m : BoundedMultipart) (a t : ℕ) :
    List Bytes → List Bytes × Except MultipartError BoundedMultipart → Prop where
  | all (part : List Bytes) : Fits m.limits.fieldBytes (a + partSize part) →
    Fits m.limits.totalBytes (t + partSize part) → FieldDrains m a t part (part, .ok (m.counted (t + partSize part)))
  | upTo (pre post : List Bytes) (chunk : Bytes) {e : MultipartError} :
    Fits m.limits.fieldBytes (a + partSize pre) → Fits m.limits.totalBytes (t + partSize pre) →
    Refuses m.limits (a + partSize pre) (t + partSize pre) chunk.length e →
    FieldDrains m a t (pre ++ chunk :: post) (pre, .error e)

/-- One chunk that the caps let through, and then the rest. -/
theorem FieldDrains.cons {m : BoundedMultipart} {a t : ℕ} {chunk : Bytes} {part : List Bytes}
    {r : List Bytes × Except MultipartError BoundedMultipart}
    (h : FieldDrains m (a + chunk.length) (t + chunk.length) part r) :
    FieldDrains m a t (chunk :: part) (chunk :: r.1, r.2) := by
  cases h with
  | all _ hf ht =>
    have hall := FieldDrains.all (m := m) (a := a) (t := t) (chunk :: part)
      (by rwa [partSize_cons, ← add_assoc]) (by rwa [partSize_cons, ← add_assoc])
    rwa [partSize_cons, ← add_assoc] at hall
  | upTo pre post c hf ht href =>
    rw [add_assoc, ← partSize_cons] at hf ht href
    rw [add_assoc, ← partSize_cons] at href
    exact .upTo (chunk :: pre) post c hf ht href

theorem fieldDrains (part : List Bytes) {m : BoundedMultipart} {a t : ℕ} (hfa : Fits m.limits.fieldBytes a)
    (hft : Fits m.limits.totalBytes t) :
    FieldDrains m a t part (BoundedField.drain (part.length + 1) ⟨part, min a u64Max, m.counted t⟩) := by
  induction part generalizing a t with
  | nil => exact .all [] hfa hft
  | cons chunk part ih =>
    rw [List.length_cons, BoundedField.drain, BoundedField.chunk]
    simp only [BoundedMultipart.counted, saturatingAdd_min]
    by_cases hfield : Fits m.limits.fieldBytes (a + chunk.length)
    · rw [if_neg (not_lt.mpr hfield)]
      by_cases hbody : Fits m.limits.totalBytes (t + chunk.length)
      · rw [if_neg (not_lt.mpr hbody)]
        exact .cons (ih hfield hbody)
      · rw [if_pos (not_le.mp hbody)]
        exact .upTo [] part chunk hfa hft (.body hfield hbody)
    · rw [if_pos (not_le.mp hfield)]
      exact .upTo [] part chunk hfa hft (.field hfield)

/-! ### A body -/

/-- How a body is drained, after `k` parts and `t` bytes. -/
inductive Drains (limits : MultipartLimits) : ℕ → ℕ → List (List Bytes) →
    List (List Bytes) × Option MultipartError → Prop where
  | full {k t : ℕ} {body : List (List Bytes)} : limits.fields ≤ k →
    Drains limits k t body ([], some (.tooManyFields limits.fields))
  | done {k t : ℕ} : k < limits.fields → Drains limits k t [] ([], none)
  | refused {k t : ℕ} {pre post : List Bytes} {chunk : Bytes} {body : List (List Bytes)} {e : MultipartError} :
    k < limits.fields → Fits limits.fieldBytes (partSize pre) → Fits limits.totalBytes (t + partSize pre) →
    Refuses limits (partSize pre) (t + partSize pre) chunk.length e →
    Drains limits k t ((pre ++ chunk :: post) :: body) ([pre], some e)
  | part {k t : ℕ} {part : List Bytes} {body read : List (List Bytes)} {result : Option MultipartError} :
    k < limits.fields → Fits limits.fieldBytes (partSize part) → Fits limits.totalBytes (t + partSize part) →
    Drains limits (k + 1) (t + partSize part) body (read, result) →
    Drains limits k t (part :: body) (part :: read, result)

theorem drains_from (limits : MultipartLimits) (body : List (List Bytes)) {k t : ℕ}
    (ht : Fits limits.totalBytes t) :
    Drains limits k t body (BoundedMultipart.drain (body.length + 1) ⟨body, limits, ⟨k, min t u64Max⟩⟩) := by
  induction body generalizing k t with
  | nil =>
    rw [BoundedMultipart.drain, BoundedMultipart.nextField]
    by_cases hk : limits.fields ≤ k
    · rw [if_pos hk]
      exact .full hk
    · rw [if_neg hk]
      exact .done (not_le.mp hk)
  | cons part body ih =>
    rw [List.length_cons, BoundedMultipart.drain, BoundedMultipart.nextField]
    by_cases hk : limits.fields ≤ k
    · rw [if_pos hk]
      exact .full hk
    · rw [if_neg hk]
      have hpart := fieldDrains part (m := ⟨body, limits, ⟨k + 1, 0⟩⟩) (a := 0) (t := t) (by simp [Fits]) ht
      simp only [BoundedMultipart.counted, Nat.zero_min] at hpart ⊢
      generalize BoundedField.drain (part.length + 1) _ = result at hpart ⊢
      cases hpart with
      | all _ hf hft =>
        rw [zero_add] at hf
        exact .part (not_le.mp hk) hf hft (ih hft)
      | upTo pre post chunk hf hft href =>
        rw [zero_add] at hf href
        exact .refused (not_le.mp hk) hf hft href

theorem drains (limits : MultipartLimits) (body : List (List Bytes)) :
    Drains limits 0 0 body ((drain limits body).1, (drain limits body).2) :=
  drains_from limits body (by simp [Fits])

section Drained

variable {limits : MultipartLimits} {k t : ℕ} {body read : List (List Bytes)} {result : Option MultipartError}

/-- A body is drained exactly while there are fewer parts than allowed and no count is too much. -/
theorem Drains.none_iff (h : Drains limits k t body (read, result)) (ht : Fits limits.totalBytes t) : result = none ↔
    k + body.length < limits.fields ∧ (∀ part ∈ body, Fits limits.fieldBytes (partSize part)) ∧
      Fits limits.totalBytes (t + bodySize body) := by
  generalize hr : (read, result) = r at h
  induction h generalizing read result with
  | full hk =>
    obtain ⟨rfl, rfl⟩ := Prod.mk.inj hr
    simp only [reduceCtorEq, false_iff, not_and]
    omega
  | done hk =>
    obtain ⟨rfl, rfl⟩ := Prod.mk.inj hr
    simpa using ⟨hk, ht⟩
  | @refused k t pre post chunk body e hk hf hft href =>
    obtain ⟨rfl, rfl⟩ := Prod.mk.inj hr
    simp only [reduceCtorEq, false_iff, not_and, List.forall_mem_cons, bodySize_cons, partSize_append, partSize_cons]
    rintro - ⟨hfield, -⟩ htotal
    cases href with
    | field hnot => exact hnot (hfield.mono (by omega))
    | body _ hnot => exact hnot (htotal.mono (by omega))
  | @part k t part body read' result' hk hf hft _ ih =>
    obtain ⟨rfl, rfl⟩ := Prod.mk.inj hr
    rw [ih hft rfl, List.length_cons, List.forall_mem_cons, bodySize_cons, add_assoc, add_assoc, add_comm 1]
    tauto

/-- What a drained body returns is the body. -/
theorem Drains.read_eq (h : Drains limits k t body (read, none)) : read = body := by
  generalize hr : (read, none) = r at h
  induction h generalizing read with
  | full _ => simp at hr
  | done _ => exact (Prod.mk.inj hr).1
  | refused _ _ _ _ => simp at hr
  | part _ _ _ _ ih =>
    obtain ⟨rfl, rfl⟩ := Prod.mk.inj hr
    rw [ih rfl]

/-- An error is one of the three bounds. -/
theorem Drains.error {e : MultipartError} (h : Drains limits k t body (read, some e)) :
    e = .tooManyFields limits.fields ∨ e = .fieldTooLarge limits.fieldBytes ∨ e = .bodyTooLarge limits.totalBytes := by
  generalize hr : (read, some e) = r at h
  induction h generalizing read with
  | full _ =>
    obtain ⟨-, he⟩ := Prod.mk.inj hr
    exact Or.inl (Option.some.inj he)
  | done _ => simp at hr
  | refused _ _ _ href =>
    obtain ⟨-, he⟩ := Prod.mk.inj hr
    obtain rfl := Option.some.inj he
    cases href with
    | field _ => exact Or.inr (Or.inl rfl)
    | body _ _ => exact Or.inr (Or.inr rfl)
  | part _ _ _ _ ih =>
    obtain ⟨-, rfl⟩ := Prod.mk.inj hr
    exact ih rfl

/-- What is returned is an opening of the body that no count finds too much. -/
theorem Drains.opening (h : Drains limits k t body (read, result)) (ht : Fits limits.totalBytes t) :
    Opening read body ∧ read.length ≤ limits.fields - k ∧ (∀ part ∈ read, Fits limits.fieldBytes (partSize part)) ∧
      Fits limits.totalBytes (t + bodySize read) := by
  generalize hr : (read, result) = r at h
  induction h generalizing read result with
  | full hk =>
    obtain ⟨rfl, -⟩ := Prod.mk.inj hr
    exact ⟨.none _, Nat.zero_le _, by simp, by simpa using ht⟩
  | done hk =>
    obtain ⟨rfl, -⟩ := Prod.mk.inj hr
    exact ⟨.none _, Nat.zero_le _, by simp, by simpa using ht⟩
  | refused hk hf hft _ =>
    obtain ⟨rfl, -⟩ := Prod.mk.inj hr
    exact ⟨.within _ (List.prefix_append _ _), by simp; omega, by simpa using hf, by simpa using hft⟩
  | @part k t part body read' result' hk hf hft _ ih =>
    obtain ⟨rfl, rfl⟩ := Prod.mk.inj hr
    obtain ⟨hopen, hlen, hfields, htotal⟩ := ih hft rfl
    exact ⟨.past part hopen, by simp; omega, by simpa using ⟨hf, hfields⟩, by rwa [bodySize_cons, ← add_assoc]⟩

/-- Where the total cap refuses nothing, no opening that keeps to the other bounds has more bytes. -/
theorem Drains.longest (h : Drains limits k t body (read, result)) (hcap : limits.totalBytes.val = u64Max)
    {other : List (List Bytes)} (ho : Opening other body) (hlen : other.length ≤ limits.fields - k)
    (hfields : ∀ part ∈ other, Fits limits.fieldBytes (partSize part)) : bodySize other ≤ bodySize read := by
  generalize hr : (read, result) = r at h
  induction h generalizing read result other with
  | full hk =>
    have hnil : other = [] := List.eq_nil_of_length_eq_zero (by omega)
    simp [hnil]
  | done hk => cases ho with
    | none _ => simp
  | @refused k t pre post chunk body e hk hf hft href =>
    obtain ⟨rfl, -⟩ := Prod.mk.inj hr
    have hnot : ¬ Fits limits.fieldBytes (partSize pre + chunk.length) := by
      cases href with
      | field hnot => exact hnot
      | body _ hnot =>
        rw [Fits, hcap] at hnot
        exact absurd (min_le_right _ _) hnot
    cases ho with
    | none _ => simp
    | past _ _ => exact absurd ((hfields _ List.mem_cons_self).mono (by simp)) hnot
    | @within beginning _ _ hpre =>
      have hwhole : pre ++ [chunk] <+: pre ++ chunk :: post := ⟨post, by simp⟩
      have hfits := hfields beginning List.mem_cons_self
      -- past the refused chunk the beginning would be too much for the part
      have hshort : ¬ pre ++ [chunk] <+: beginning := by
        rintro ⟨more, rfl⟩
        exact hnot (hfits.mono (by simp))
      rcases List.prefix_or_prefix_of_prefix hpre hwhole with h | h
      · rcases List.prefix_concat_iff.mp h with rfl | ⟨more, rfl⟩
        · exact absurd (List.prefix_refl _) hshort
        · simp
      · exact absurd h hshort
  | @part k t part body read' result' hk hf hft _ ih =>
    obtain ⟨rfl, rfl⟩ := Prod.mk.inj hr
    cases ho with
    | none _ => simp
    | within _ hpre =>
      obtain ⟨post, rfl⟩ := hpre
      simp only [bodySize_cons, bodySize_nil, partSize_append]
      omega
    | past _ ho =>
      rw [bodySize_cons, bodySize_cons]
      have := ih ho (by simp at hlen; omega) (fun p hp => hfields p (List.mem_cons_of_mem _ hp)) rfl
      omega

end Drained

/-! ### When the bounds are exact -/

theorem Within.fits {limits : MultipartLimits} {body : List (List Bytes)} (h : Within limits body) :
    (∀ part ∈ body, Fits limits.fieldBytes (partSize part)) ∧ Fits limits.totalBytes (0 + bodySize body) := by
  refine ⟨fun part hpart => (min_le_left _ _).trans (h.field part hpart), ?_⟩
  rw [zero_add]
  exact (min_le_left _ _).trans h.total

/-- A count that does not reach `u64::MAX` is compared as it is. -/
theorem Fits.le {cap : Cap} {n : ℕ} (h : Fits cap n) (hn : n ≤ u64Max) : n ≤ cap.val := by
  rwa [Fits, min_eq_left hn] at h

theorem flooding_iff (limits : MultipartLimits) (body : List (List Bytes)) :
    Flooding limits body ↔ u64Max < bodySize (drain limits body).1 := by
  have hdrains := drains limits body
  obtain ⟨hopen, hlen, hfields, htotal⟩ := hdrains.opening (by simp [Fits])
  constructor
  · rintro ⟨hcap, other, ho, hlen', hfields', hmore⟩
    exact hmore.trans_le (hdrains.longest hcap ho hlen' hfields')
  · intro hmore
    refine ⟨le_antisymm limits.totalBytes.property ?_, _, hopen, hlen, hfields, hmore⟩
    rwa [Fits, zero_add, min_eq_right hmore.le] at htotal

/-- The bounds are exact on a body unless it has exactly the parts it may have, within its caps, or
    the count of its bytes stops at `u64::MAX` unnoticed. -/
theorem exact_iff (limits : MultipartLimits) (body : List (List Bytes)) :
    Exact limits body ↔ ¬ Brimming limits body ∧ ¬ Flooding limits body := by
  have hdrains := drains limits body
  have hnone := hdrains.none_iff (by simp [Fits])
  obtain ⟨-, -, hfields, htotal⟩ := hdrains.opening (by simp [Fits])
  rw [zero_add] at hnone htotal
  constructor
  · rintro ⟨hdrained, -, -, hcapped⟩
    refine ⟨fun ⟨hlen, hwithin⟩ => ?_, fun hflood => ?_⟩
    · have hlt := (hnone.mp (hdrained.mpr hwithin)).1
      exact absurd hlen hlt.ne
    · have hmore := (flooding_iff limits body).mp hflood
      exact absurd (hcapped.trans limits.totalBytes.property) (not_le.mpr hmore)
  · rintro ⟨hbrim, hflood⟩
    rw [flooding_iff, not_lt] at hflood
    have hpart : ∀ part ∈ (drain limits body).1, partSize part ≤ limits.fieldBytes.val :=
      fun part hp => (hfields part hp).le ((partSize_le_bodySize hp).trans hflood)
    refine ⟨⟨fun h => ?_, fun h => ?_⟩, fun e he => ?_, hpart, htotal.le hflood⟩
    · have hread : (drain limits body).1 = body := by
        rw [h] at hdrains
        exact hdrains.read_eq
      rw [hread] at hpart hflood htotal
      exact ⟨(hnone.mp h).1.le, hpart, htotal.le hflood⟩
    · exact hnone.mpr ⟨lt_of_le_of_ne h.fields fun hlen => hbrim ⟨hlen, h⟩, h.fits⟩
    · rw [he] at hdrains
      exact hdrains.error

/-- The empty body is refused where no part is allowed, and a body of one part where one is. -/
theorem brimming_refused : ¬ Exact (MultipartLimits.new.withFields 0) [] ∧
    ¬ Exact (MultipartLimits.new.withFields 1) [[[0x61]]] := by
  refine ⟨fun h => ?_, fun h => ?_⟩
  · have hdrained := h.drained.mpr ⟨le_rfl, by simp, Nat.zero_le _⟩
    exact absurd hdrained (by decide)
  · have hdrained := h.drained.mpr ⟨le_rfl, by decide, by decide⟩
    exact absurd hdrained (by decide)

end Arcature.Http.Multipart
