import Mathlib.Data.List.Lex
import Mathlib.Data.Prod.Lex
import Mathlib.Tactic

/-! Maps that are gone through in the order of their keys, as Rust's `BTreeMap` is.

    The entries of an `OrdMap` are sorted by key and no key comes twice, so a map is its entries and
    two maps that read alike are one. An entry is changed by `alter`, which is told what stood there:

        insert k v                     alter k fun _ => v
        entry k .or_insert v           alter k (·.getD v)
        *entry k .or_insert 0 += n     alter k (·.getD 0 + n) -/

namespace Arcature.Lib

/-- A map with ordered keys. -/
@[ext] structure OrdMap (κ α : Type) [LinearOrder κ] where
  entries : List (κ × α)
  sorted : entries.Pairwise fun a b => a.1 < b.1

namespace OrdMap

variable {κ α : Type} [LinearOrder κ]

/-- The value of the first entry of a key. -/
def lookup (k : κ) (l : List (κ × α)) : Option α := (l.find? (·.1 = k)).map Prod.snd

/-- The value under a key. -/
def get? (m : OrdMap κ α) (k : κ) : Option α := lookup k m.entries

/-- The map without entries. -/
def empty : OrdMap κ α := ⟨[], List.Pairwise.nil⟩

/-- Entries with the value of one key changed. -/
def alterEntries (k : κ) (f : Option α → α) : List (κ × α) → List (κ × α)
  | [] => [(k, f none)]
  | e :: l =>
    if k < e.1 then (k, f none) :: e :: l
    else if k = e.1 then (e.1, f (some e.2)) :: l
    else e :: alterEntries k f l

theorem mem_alterEntries_key {k : κ} {f : Option α → α} {l : List (κ × α)} {e : κ × α} (h : e ∈ alterEntries k f l) :
    e.1 = k ∨ ∃ e' ∈ l, e'.1 = e.1 := by
  induction l with
  | nil => exact .inl (congrArg Prod.fst (List.mem_singleton.mp h))
  | cons d l ih =>
    rw [alterEntries] at h
    split_ifs at h with hlt heq
    · rcases List.mem_cons.mp h with rfl | h
      · exact .inl rfl
      · exact .inr ⟨e, h, rfl⟩
    · rcases List.mem_cons.mp h with rfl | h
      · exact .inl heq.symm
      · exact .inr ⟨e, List.mem_cons_of_mem _ h, rfl⟩
    · rcases List.mem_cons.mp h with rfl | h
      · exact .inr ⟨e, List.mem_cons_self, rfl⟩
      · rcases ih h with h | ⟨e', he', h⟩
        · exact .inl h
        · exact .inr ⟨e', List.mem_cons_of_mem _ he', h⟩

theorem pairwise_alterEntries {k : κ} {f : Option α → α} {l : List (κ × α)} (h : l.Pairwise fun a b => a.1 < b.1) :
    (alterEntries k f l).Pairwise fun a b => a.1 < b.1 := by
  induction l with
  | nil => exact List.pairwise_singleton _ _
  | cons d l ih =>
    obtain ⟨hhead, htail⟩ := List.pairwise_cons.mp h
    rw [alterEntries]
    split_ifs with hlt heq
    · refine List.pairwise_cons.mpr ⟨fun e he => ?_, h⟩
      rcases List.mem_cons.mp he with rfl | he
      · exact hlt
      · exact hlt.trans (hhead e he)
    · exact List.pairwise_cons.mpr ⟨hhead, htail⟩
    · refine List.pairwise_cons.mpr ⟨fun e he => ?_, ih htail⟩
      rcases mem_alterEntries_key he with h | ⟨e', he', h⟩
      · exact h ▸ lt_of_le_of_ne (not_lt.mp hlt) (Ne.symm heq)
      · exact h ▸ hhead e' he'

/-- The map with the value of one key changed: the new value is told the old one. -/
def alter (m : OrdMap κ α) (k : κ) (f : Option α → α) : OrdMap κ α :=
  ⟨alterEntries k f m.entries, pairwise_alterEntries m.sorted⟩

/-- `insert`. -/
def insert (m : OrdMap κ α) (k : κ) (v : α) : OrdMap κ α := m.alter k fun _ => v

/-- The map of pairs, where a later one replaces an earlier one of its key. -/
def ofList (l : List (κ × α)) : OrdMap κ α := l.foldl (fun m e => m.insert e.1 e.2) empty

/-! ### Reading -/

theorem lookup_cons (k : κ) (e : κ × α) (l : List (κ × α)) :
    lookup k (e :: l) = if e.1 = k then some e.2 else lookup k l := by
  rw [lookup, List.find?_cons]
  split
  · rename_i h
    rw [if_pos (of_decide_eq_true h), Option.map_some]
  · rename_i h
    rw [if_neg (of_decide_eq_false h), lookup]

theorem lookup_eq_none {k : κ} {l : List (κ × α)} (h : ∀ e ∈ l, k < e.1) : lookup k l = none := by
  rw [lookup, Option.map_eq_none_iff, List.find?_eq_none]
  intro e he
  simpa using (h e he).ne'

theorem lookup_alterEntries {l : List (κ × α)} (hl : l.Pairwise fun a b => a.1 < b.1) (k x : κ) (f : Option α → α) :
    lookup x (alterEntries k f l) = if x = k then some (f (lookup k l)) else lookup x l := by
  induction l with
  | nil =>
    rw [alterEntries, lookup_cons]
    rcases eq_or_ne k x with rfl | hx
    · rw [if_pos rfl, if_pos rfl]
      rfl
    · rw [if_neg hx, if_neg hx.symm]
  | cons d l ih =>
    obtain ⟨hhead, htail⟩ := List.pairwise_cons.mp hl
    rw [alterEntries]
    rcases lt_trichotomy k d.1 with hlt | heq | hgt
    · -- the key comes before every entry
      have hnone : lookup k (d :: l) = none := by
        refine lookup_eq_none fun e he => ?_
        rcases List.mem_cons.mp he with rfl | he
        · exact hlt
        · exact hlt.trans (hhead e he)
      rw [if_pos hlt, lookup_cons, hnone]
      rcases eq_or_ne x k with rfl | hx
      · rw [if_pos rfl]
      · rw [if_neg hx.symm, if_neg hx]
    · rw [if_neg heq.not_lt, if_pos heq, lookup_cons, lookup_cons, lookup_cons, if_pos heq.symm, ← heq]
      rcases eq_or_ne x k with rfl | hx
      · rw [if_pos rfl, if_pos rfl]
      · rw [if_neg hx.symm, if_neg hx, if_neg hx.symm]
    · rw [if_neg hgt.not_gt, if_neg hgt.ne', lookup_cons, lookup_cons, lookup_cons, ih htail, if_neg hgt.ne]
      rcases eq_or_ne x k with rfl | hx
      · rw [if_neg hgt.ne, if_pos rfl, if_pos rfl]
      · rw [if_neg hx, if_neg hx]

@[simp] theorem get?_empty (k : κ) : (empty : OrdMap κ α).get? k = none := rfl

@[simp] theorem get?_alter (m : OrdMap κ α) (k x : κ) (f : Option α → α) :
    (m.alter k f).get? x = if x = k then some (f (m.get? k)) else m.get? x :=
  lookup_alterEntries m.sorted k x f

@[simp] theorem get?_insert (m : OrdMap κ α) (k x : κ) (v : α) :
    (m.insert k v).get? x = if x = k then some v else m.get? x := get?_alter m k x _

/-! ### Entries -/

theorem nodup_keys (m : OrdMap κ α) : (m.entries.map Prod.fst).Nodup :=
  List.pairwise_map.mpr (m.sorted.imp fun h => h.ne)

theorem nodup_entries (m : OrdMap κ α) : m.entries.Nodup := List.Nodup.of_map _ m.nodup_keys

theorem mem_entries_iff {m : OrdMap κ α} {e : κ × α} : e ∈ m.entries ↔ m.get? e.1 = some e.2 := by
  obtain ⟨l, hl⟩ := m
  simp only [get?]
  induction l with
  | nil => simp [lookup]
  | cons d l ih =>
    obtain ⟨hhead, htail⟩ := List.pairwise_cons.mp hl
    rw [List.mem_cons, lookup_cons, ih htail]
    constructor
    · rintro (rfl | h)
      · exact if_pos rfl
      · have hmem := (ih htail).mpr h
        rw [if_neg (hhead e hmem).ne, h]
    · intro h
      split at h
      · rename_i hkey
        exact .inl (Prod.ext hkey.symm (Option.some.inj h).symm)
      · exact .inr h

/-- What is in the map of pairs is one of them. -/
theorem mem_of_mem_ofList {l : List (κ × α)} {e : κ × α} (h : e ∈ (ofList l).entries) : e ∈ l := by
  rw [mem_entries_iff] at h
  induction l using List.reverseRecOn with
  | nil => cases h
  | append_singleton l d ih =>
    rw [ofList, List.foldl_concat, get?_insert] at h
    rw [List.mem_append, List.mem_singleton]
    split at h
    · rename_i hkey
      exact .inr (Prod.ext hkey (Option.some.inj h).symm)
    · exact .inl (ih h)

/-- What is in the map of pairs with different keys is what they are. -/
theorem mem_ofList_iff {l : List (κ × α)} (hl : (l.map Prod.fst).Nodup) {e : κ × α} :
    e ∈ (ofList l).entries ↔ e ∈ l := by
  refine ⟨mem_of_mem_ofList, fun he => ?_⟩
  rw [mem_entries_iff]
  induction l using List.reverseRecOn with
  | nil => cases he
  | append_singleton l d ih =>
    rw [List.map_append, List.nodup_append] at hl
    obtain ⟨hl, -, hdisjoint⟩ := hl
    rw [ofList, List.foldl_concat, get?_insert]
    rcases List.mem_append.mp he with he | he
    · have hne : e.1 ≠ d.1 := hdisjoint e.1 (List.mem_map_of_mem he) d.1 (by simp)
      rw [if_neg hne]
      exact ih hl he
    · rw [List.mem_singleton.mp he, if_pos rfl]

/-- The keys that are there. -/
theorem mem_keys_iff {m : OrdMap κ α} {k : κ} : k ∈ m.entries.map Prod.fst ↔ (m.get? k).isSome := by
  rw [List.mem_map, Option.isSome_iff_exists]
  constructor
  · rintro ⟨e, he, rfl⟩
    exact ⟨e.2, mem_entries_iff.mp he⟩
  · rintro ⟨v, hv⟩
    exact ⟨(k, v), mem_entries_iff.mpr hv, rfl⟩

/-- The entries of one key. -/
theorem filter_key (m : OrdMap κ α) (k : κ) : m.entries.filter (·.1 = k) = (m.get? k).toList.map (k, ·) := by
  have hmem : ∀ e, e ∈ m.entries.filter (·.1 = k) ↔ e ∈ (m.get? k).toList.map (k, ·) := by
    intro e
    rw [List.mem_filter, mem_entries_iff, decide_eq_true_eq, List.mem_map]
    constructor
    · rintro ⟨h, rfl⟩
      exact ⟨e.2, Option.mem_toList.mpr h, rfl⟩
    · rintro ⟨v, hv, rfl⟩
      exact ⟨Option.mem_toList.mp hv, rfl⟩
  have hnodup := m.nodup_entries.filter (·.1 = k)
  cases h : m.get? k with
  | none =>
    rw [h] at hmem
    exact List.eq_nil_iff_forall_not_mem.mpr fun e he => List.not_mem_nil ((hmem e).mp he)
  | some v =>
    rw [h] at hmem
    exact List.perm_singleton.mp ((List.perm_ext_iff_of_nodup hnodup (List.nodup_singleton _)).mpr hmem)

/-- Entries that are one list up to order are one list. -/
theorem eq_of_perm {m n : OrdMap κ α} (h : m.entries.Perm n.entries) : m = n :=
  OrdMap.ext (h.eq_of_pairwise (fun _ _ _ _ hab hba => absurd (hab.trans hba) (lt_irrefl _)) m.sorted n.sorted)

end OrdMap

end Arcature.Lib
