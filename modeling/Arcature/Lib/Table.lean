import Mathlib.Data.List.Nodup
import Mathlib.Tactic

/-! Keyed tables: what a SQL table with a primary key and row checks is to the statements run on it,
    and what a hash map is to the code that holds one.

    A `Table` carries its two invariants, so that no table with a duplicated key or a row that fails
    its check can be built. Every operation comes with the equation that says what `get?` reads
    afterwards; proofs about a program use these and never look at the row list. -/

namespace Arcature.Lib

/-- How a row names its key, and which rows the table admits. -/
structure Schema (ρ κ : Type*) where
  key : ρ → κ
  check : ρ → Bool := fun _ => true

/-- A finite list of admitted rows with pairwise distinct keys. -/
structure Table {ρ κ : Type*} (S : Schema ρ κ) where
  rows : List ρ
  nodup : (rows.map S.key).Nodup
  checked : ∀ r ∈ rows, S.check r = true

/-- The `SET` list of an update: what it makes of a row, whose key it keeps. -/
structure SetList {ρ κ : Type*} (S : Schema ρ κ) where
  fn : ρ → ρ
  key : ∀ r, S.key (fn r) = S.key r

/-- A `SET` list that turns admitted rows into admitted rows. -/
structure SafeSetList {ρ κ : Type*} (S : Schema ρ κ) extends SetList S where
  check : ∀ r, S.check r = true → S.check (fn r) = true

namespace Table

variable {ρ κ : Type*} {S : Schema ρ κ} [DecidableEq κ]

/-- The table with no rows. -/
def empty : Table S := ⟨[], List.nodup_nil, by simp⟩

/-- The row under a key. -/
def get? (t : Table S) (k : κ) : Option ρ := t.rows.find? fun r => S.key r = k

/-- How many rows satisfy `p`: the count a statement reports as affected. -/
def affected (t : Table S) (p : ρ → Bool) : ℕ := t.rows.countP p

/-- How many rows there are. -/
def size (t : Table S) : ℕ := t.rows.length

/-- `UPDATE .. SET f WHERE p` on a table whose affected rows all pass the check afterwards. -/
def rewrite (t : Table S) (p : ρ → Bool) (f : SetList S)
    (h : ∀ r ∈ t.rows, p r = true → S.check (f.fn r) = true) : Table S where
  rows := t.rows.map fun r => if p r then f.fn r else r
  nodup := by
    have : (S.key ∘ fun r => if p r then f.fn r else r) = S.key := by
      funext r
      by_cases h : p r <;> simp [h, f.key]
    rw [List.map_map, this]
    exact t.nodup
  checked := by
    intro r hr
    obtain ⟨r₀, hr₀, rfl⟩ := List.mem_map.mp hr
    by_cases hp : p r₀ <;> simp only [hp, if_true, if_false, Bool.false_eq_true]
    · exact h r₀ hr₀ hp
    · exact t.checked r₀ hr₀

/-- `UPDATE .. SET f WHERE p`, for an `f` that keeps the check. -/
def modify (t : Table S) (p : ρ → Bool) (f : SafeSetList S) : Table S :=
  t.rewrite p f.toSetList fun r hr _ => f.check r (t.checked r hr)

/-- `UPDATE .. SET f WHERE p`, for an `f` that may break the check: then the statement fails. -/
def update? (t : Table S) (p : ρ → Bool) (f : SetList S) : Option (Table S) :=
  if h : ∀ r ∈ t.rows, p r = true → S.check (f.fn r) = true then some (t.rewrite p f h) else none

/-- `DELETE .. WHERE p`. -/
def delete (t : Table S) (p : ρ → Bool) : Table S where
  rows := t.rows.filter fun r => !p r
  nodup := t.nodup.sublist ((List.filter_sublist).map S.key)
  checked := fun r hr => t.checked r (List.mem_filter.mp hr).1

/-- `INSERT`: refused when the key is taken or the row fails its check. -/
def insert? (t : Table S) (r : ρ) : Option (Table S) :=
  if h : S.key r ∉ t.rows.map S.key ∧ S.check r = true then
    some ⟨t.rows ++ [r], by
      rw [List.map_append, List.nodup_append]
      refine ⟨t.nodup, by simp, ?_⟩
      rintro a ha b hb rfl
      simp only [List.map_cons, List.map_nil, List.mem_singleton] at hb
      exact h.1 (hb ▸ ha),
      fun r' hr' => (List.mem_append.mp hr').elim (t.checked r')
        (fun h' => (List.mem_singleton.mp h') ▸ h.2)⟩
  else none

/-- Write a row under its key, whether or not the key was there: a map's `insert`. -/
def put (t : Table S) (r : ρ) (hc : S.check r = true) : Table S where
  rows := t.rows.filter (fun r' => S.key r' ≠ S.key r) ++ [r]
  nodup := by
    rw [List.map_append, List.nodup_append]
    refine ⟨t.nodup.sublist ((List.filter_sublist).map S.key), by simp, ?_⟩
    rintro a ha b hb rfl
    simp only [List.map_cons, List.map_nil, List.mem_singleton] at hb
    obtain ⟨r', hr', hk⟩ := List.mem_map.mp ha
    have := (List.mem_filter.mp hr').2
    simp [hk, hb] at this
  checked := fun r' hr' => (List.mem_append.mp hr').elim
    (fun h => t.checked r' (List.mem_filter.mp h).1) (fun h => (List.mem_singleton.mp h) ▸ hc)

/-! ### Reading a table -/

theorem key_of_get? {t : Table S} {k : κ} {r : ρ} (h : t.get? k = some r) : S.key r = k := by
  simpa using List.find?_some h

/-- A row is in the table exactly when its own key reads it. -/
theorem get?_eq_some_iff {t : Table S} {k : κ} {r : ρ} :
    t.get? k = some r ↔ r ∈ t.rows ∧ S.key r = k := by
  constructor
  · intro h
    exact ⟨List.mem_of_find?_eq_some h, key_of_get? h⟩
  · rintro ⟨hr, rfl⟩
    cases h : t.get? (S.key r) with
    | none =>
      rw [get?, List.find?_eq_none] at h
      exact absurd (h r hr) (by simp)
    | some r' =>
      have hk := key_of_get? h
      have hr' : r' ∈ t.rows := List.mem_of_find?_eq_some h
      rw [List.inj_on_of_nodup_map t.nodup hr' hr hk]

theorem get?_of_mem {t : Table S} {r : ρ} (h : r ∈ t.rows) : t.get? (S.key r) = some r :=
  get?_eq_some_iff.mpr ⟨h, rfl⟩

theorem mem_of_get? {t : Table S} {k : κ} {r : ρ} (h : t.get? k = some r) : r ∈ t.rows :=
  (get?_eq_some_iff.mp h).1

theorem get?_eq_none_iff {t : Table S} {k : κ} : t.get? k = none ↔ k ∉ t.rows.map S.key := by
  simp [get?, List.find?_eq_none]

@[simp] theorem get?_empty (k : κ) : (empty : Table S).get? k = none := rfl

omit [DecidableEq κ] in
@[simp] theorem size_empty : (empty : Table S).size = 0 := rfl

/-- Some row is affected exactly when some key reads one that satisfies the condition. -/
theorem affected_pos {t : Table S} {p : ρ → Bool} :
    0 < t.affected p ↔ ∃ k r, t.get? k = some r ∧ p r = true := by
  rw [affected, List.countP_pos_iff]
  constructor
  · rintro ⟨r, hr, hp⟩
    exact ⟨_, r, get?_of_mem hr, hp⟩
  · rintro ⟨k, r, hr, hp⟩
    exact ⟨r, mem_of_get? hr, hp⟩

theorem affected_eq_zero {t : Table S} {p : ρ → Bool} :
    t.affected p = 0 ↔ ∀ k r, t.get? k = some r → p r = false := by
  rw [← not_iff_not, ← Ne.eq_def, ← Nat.pos_iff_ne_zero, affected_pos]
  push Not
  simp

/-- A condition that pins the key affects a row exactly when that key's row satisfies it. -/
theorem affected_key_pos {t : Table S} {k : κ} {p : ρ → Bool} :
    0 < t.affected (fun r => decide (S.key r = k) && p r) ↔ ∃ r, t.get? k = some r ∧ p r = true := by
  rw [affected_pos]
  constructor
  · rintro ⟨k', r, hr, hp⟩
    simp only [Bool.and_eq_true, decide_eq_true_eq] at hp
    have hk' := key_of_get? hr
    exact ⟨r, by rwa [← hp.1, hk'], hp.2⟩
  · rintro ⟨r, hr, hp⟩
    exact ⟨k, r, hr, by simp [key_of_get? hr, hp]⟩

/-! ### Writing a table -/

/-- An update leaves each row where it was, rewritten if the condition met it. -/
theorem get?_rewrite (t : Table S) (p : ρ → Bool) (f : SetList S) (h) (k : κ) :
    (t.rewrite p f h).get? k = (t.get? k).map fun r => if p r then f.fn r else r := by
  simp only [get?, rewrite]
  rw [List.find?_map]
  congr 2
  funext r
  by_cases h : p r <;> simp [h, f.key]

@[simp] theorem get?_modify (t : Table S) (p : ρ → Bool) (f : SafeSetList S) (k : κ) :
    (t.modify p f).get? k = (t.get? k).map fun r => if p r then f.fn r else r :=
  get?_rewrite t p f.toSetList _ k

theorem get?_update? {t t' : Table S} {p : ρ → Bool} {f : SetList S} (h : t.update? p f = some t')
    (k : κ) : t'.get? k = (t.get? k).map fun r => if p r then f.fn r else r := by
  unfold update? at h
  split at h
  · cases h
    exact get?_rewrite t p f _ k
  · cases h

@[simp] theorem get?_delete (t : Table S) (p : ρ → Bool) (k : κ) :
    (t.delete p).get? k = (t.get? k).filter fun r => !p r := by
  ext r
  rw [get?_eq_some_iff, Option.filter_eq_some_iff, get?_eq_some_iff]
  simp only [delete, List.mem_filter]
  tauto

theorem get?_insert? {t t' : Table S} {r : ρ} (h : t.insert? r = some t') (k : κ) :
    t'.get? k = if k = S.key r then some r else t.get? k := by
  unfold insert? at h
  split at h
  · rename_i hr
    cases h
    simp only [get?, List.find?_append]
    split
    · rename_i hk
      have hnone : t.get? k = none := get?_eq_none_iff.mpr (hk ▸ hr.1)
      rw [hk] at hnone ⊢
      rw [get?] at hnone
      simp [hnone]
    · rename_i hk
      simp [Ne.symm hk]
  · cases h

theorem insert?_eq_none {t : Table S} {r : ρ} :
    t.insert? r = none ↔ (∃ r', t.get? (S.key r) = some r') ∨ S.check r = false := by
  unfold insert?
  rw [← Option.isSome_iff_exists, Option.isSome_iff_ne_none, ne_eq, get?_eq_none_iff]
  split
  · rename_i h
    simp [h.1, h.2]
  · rename_i h
    simp only [not_and_or, Bool.not_eq_true] at h
    simpa using h

/-- The key of a row that was inserted was free. -/
theorem free_of_insert? {t t' : Table S} {r : ρ} (h : t.insert? r = some t') : t.get? (S.key r) = none := by
  by_contra hne
  obtain ⟨r', hr'⟩ := Option.ne_none_iff_exists'.mp hne
  rw [insert?_eq_none.mpr (.inl ⟨r', hr'⟩)] at h
  cases h

@[simp] theorem get?_put (t : Table S) (r : ρ) (hc) (k : κ) :
    (t.put r hc).get? k = if k = S.key r then some r else t.get? k := by
  ext r'
  rw [get?_eq_some_iff]
  simp only [put, List.mem_append, List.mem_filter, List.mem_singleton, ne_eq, decide_not,
    Bool.not_eq_eq_eq_not, Bool.not_true, decide_eq_false_iff_not]
  split
  · rename_i hk
    constructor
    · rintro ⟨h | rfl, hk'⟩
      · exact absurd (hk'.trans hk) h.2
      · rfl
    · rintro h
      cases h
      exact ⟨Or.inr rfl, hk.symm⟩
  · rename_i hk
    rw [get?_eq_some_iff]
    constructor
    · rintro ⟨h | rfl, hk'⟩
      · exact ⟨h.1, hk'⟩
      · exact absurd hk'.symm hk
    · rintro ⟨h, hk'⟩
      exact ⟨Or.inl ⟨h, fun hc' => hk (hk'.symm.trans hc')⟩, hk'⟩

/-- A row under a new key makes the table one longer. -/
theorem size_put_of_get?_eq_none {t : Table S} {r : ρ} (hc : S.check r = true)
    (h : t.get? (S.key r) = none) : (t.put r hc).size = t.size + 1 := by
  have hkeep : t.rows.filter (fun r' => decide (S.key r' ≠ S.key r)) = t.rows := by
    rw [List.filter_eq_self]
    intro r' hr'
    have hne := get?_eq_none_iff.mp h
    simp only [ne_eq, decide_eq_true_eq]
    exact fun hk => hne (hk ▸ List.mem_map_of_mem hr')
  simp only [size, put, hkeep, List.length_append, List.length_singleton]

end Table

end Arcature.Lib
