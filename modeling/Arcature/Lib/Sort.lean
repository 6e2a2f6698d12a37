import Mathlib.Data.List.Sort
import Mathlib.Tactic

/-! Lists sorted by a key, and the first of each key.

    A stable sort keeps the order of the elements of one key, and nothing else of the list it is given
    (`sortByKey_eq_iff`). Dropping every element whose key is that of the one before leaves, in a
    sorted list, the first of each key (`find?_dedupByKey`). -/

namespace Arcature.Lib

variable {α κ : Type*} [LinearOrder κ] (key : α → κ)

/-- A stable sort by a key. -/
def sortByKey (l : List α) : List α := l.insertionSort fun a b => key a ≤ key b

/-- The elements after one of a key, without those of the key of the one before. -/
def dedupAfter : κ → List α → List α
  | _, [] => []
  | last, a :: l => if key a = last then dedupAfter last l else a :: dedupAfter (key a) l

/-- Drop every element whose key is that of the one before. -/
def dedupByKey : List α → List α
  | [] => []
  | a :: l => a :: dedupAfter key (key a) l

theorem perm_sortByKey (l : List α) : (sortByKey key l).Perm l := List.perm_insertionSort _ l

theorem pairwise_sortByKey (l : List α) : (sortByKey key l).Pairwise fun a b => key a ≤ key b := by
  have htotal : Std.Total fun a b : α => key a ≤ key b := ⟨fun a b => le_total (key a) (key b)⟩
  have htrans : IsTrans α fun a b => key a ≤ key b := ⟨fun _ _ _ => le_trans⟩
  exact List.pairwise_insertionSort _ l

/-- Elements of one key keep whatever holds of an earlier and a later one. -/
theorem pairwise_sortByKey_stable {l : List α} {R : α → α → Prop} (h : l.Pairwise R) :
    (sortByKey key l).Pairwise fun a b => key a < key b ∨ (key a = key b ∧ R a b) := by
  induction l with
  | nil => exact List.Pairwise.nil
  | cons a l ih =>
    obtain ⟨ha, hl⟩ := List.pairwise_cons.mp h
    have hsorted := ih hl
    have hafter : ∀ b ∈ sortByKey key l, R a b := fun b hb => ha b ((perm_sortByKey key l).mem_iff.mp hb)
    have hkeys := pairwise_sortByKey key l
    rw [sortByKey, List.insertionSort_cons, ← sortByKey]
    generalize sortByKey key l = sorted at hsorted hafter hkeys
    induction sorted with
    | nil => exact List.pairwise_singleton _ _
    | cons b sorted ihs =>
      obtain ⟨hb, hrest⟩ := List.pairwise_cons.mp hsorted
      obtain ⟨hbkeys, hrestkeys⟩ := List.pairwise_cons.mp hkeys
      rw [List.orderedInsert]
      split_ifs with hab
      · refine List.pairwise_cons.mpr ⟨fun c hc => ?_, hsorted⟩
        have hac : key a ≤ key c := by
          rcases List.mem_cons.mp hc with rfl | hc
          · exact hab
          · exact hab.trans (hbkeys c hc)
        exact (lt_or_eq_of_le hac).imp_right fun heq => ⟨heq, hafter c hc⟩
      · -- what is inserted has a greater key than what it is inserted behind
        refine List.pairwise_cons.mpr ⟨fun c hc => ?_,
          ihs hrest (fun c hc => hafter c (List.mem_cons_of_mem b hc)) hrestkeys⟩
        rcases List.mem_orderedInsert _ |>.mp hc with rfl | hc
        · exact .inl (not_le.mp hab)
        · exact hb c hc

theorem sortByKey_pair {key : α → κ} {a b : α} (h : key a ≤ key b) : sortByKey key [a, b] = [a, b] := by
  simp [sortByKey, h]

/-- What is found first in a sorted list has the least key of all that could be found. -/
theorem le_of_find?_eq_some {key : α → κ} {l : List α} (hl : l.Pairwise fun a b => key a ≤ key b) {p : α → Bool} {a b : α}
    (ha : l.find? p = some a) (hb : b ∈ l) (hp : p b) : key a ≤ key b := by
  obtain ⟨-, front, back, rfl, hfront⟩ := List.find?_eq_some_iff_append.mp ha
  rcases List.mem_append.mp hb with hb | hb
  · exact absurd hp (by simpa using hfront b hb)
  · rcases List.mem_cons.mp hb with rfl | hb
    · exact le_rfl
    · exact (List.pairwise_cons.mp (List.pairwise_append.mp hl).2.1).1 b hb

variable [DecidableEq κ]

theorem filter_orderedInsert (a : α) (l : List α) (k : κ) :
    (l.orderedInsert (fun a b => key a ≤ key b) a).filter (key · = k) =
      if key a = k then a :: l.filter (key · = k) else l.filter (key · = k) := by
  induction l with
  | nil => by_cases ha : key a = k <;> simp [ha]
  | cons b l ih =>
    rw [List.orderedInsert]
    by_cases hab : key a ≤ key b
    · rw [if_pos hab]
      by_cases ha : key a = k <;> simp [ha]
    · -- what stands before the inserted element has a smaller key
      rw [if_neg hab, List.filter_cons, ih]
      by_cases ha : key a = k
      · have hb : key b ≠ k := fun hb => hab (by rw [ha, hb])
        simp [ha, hb]
      · simp [ha, List.filter_cons]

/-- The elements of one key keep their order. -/
theorem filter_sortByKey (l : List α) (k : κ) :
    (sortByKey key l).filter (key · = k) = l.filter (key · = k) := by
  induction l with
  | nil => rfl
  | cons a l ih =>
    rw [sortByKey, List.insertionSort_cons, filter_orderedInsert, ← sortByKey, ih, List.filter_cons]
    by_cases ha : key a = k <;> simp [ha]

variable {key}

/-- A sorted list is what it holds of each key. -/
theorem eq_of_filter_eq {l l' : List α} (hl : l.Pairwise fun a b => key a ≤ key b)
    (hl' : l'.Pairwise fun a b => key a ≤ key b)
    (h : ∀ k, l.filter (key · = k) = l'.filter (key · = k)) : l = l' := by
  induction l generalizing l' with
  | nil =>
    cases l' with
    | nil => rfl
    | cons b l' => simpa using h (key b)
  | cons a l ih =>
    have hmem : ∀ {x : α} {xs ys : List α}, (∀ k, xs.filter (key · = k) = ys.filter (key · = k)) →
        x ∈ xs → x ∈ ys := by
      intro x xs ys hxs hx
      have hx' : x ∈ xs.filter (key · = key x) := List.mem_filter.mpr ⟨hx, by simp⟩
      rw [hxs] at hx'
      exact (List.mem_filter.mp hx').1
    cases l' with
    | nil => simpa using (h (key a)).symm
    | cons b l' =>
      rw [List.pairwise_cons] at hl hl'
      have hle : ∀ {x y : α} {ys : List α}, (∀ z ∈ ys, key y ≤ key z) → x ∈ y :: ys → key y ≤ key x := by
        intro x y ys hys hx
        rcases List.mem_cons.mp hx with rfl | hx
        · exact le_rfl
        · exact hys x hx
      have hab : key a = key b := by
        refine le_antisymm (hle hl.1 ?_) (hle hl'.1 ?_)
        · exact hmem (fun k => (h k).symm) List.mem_cons_self
        · exact hmem h List.mem_cons_self
      have hfirst := h (key a)
      rw [List.filter_cons_of_pos (by simp), List.filter_cons_of_pos (by simp [hab]), List.cons.injEq] at hfirst
      obtain ⟨rfl, -⟩ := hfirst
      refine congrArg (a :: ·) (ih hl.2 hl'.2 fun k => ?_)
      have hk := h k
      by_cases ha : key a = k
      · rw [List.filter_cons_of_pos (by simp [ha]), List.filter_cons_of_pos (by simp [ha]), List.cons.injEq] at hk
        exact hk.2
      · rwa [List.filter_cons_of_neg (by simp [ha]), List.filter_cons_of_neg (by simp [ha])] at hk

theorem find?_eq_none_of_lt {l : List α} {k : κ} (h : ∀ a ∈ l, k < key a) : l.find? (key · = k) = none := by
  rw [List.find?_eq_none]
  intro a ha
  simpa using (h a ha).ne'

theorem find?_dedupAfter {l : List α} {last : κ} (hl : l.Pairwise fun a b => key a ≤ key b)
    (hlast : ∀ a ∈ l, last ≤ key a) (k : κ) :
    (dedupAfter key last l).find? (key · = k) = if k = last then none else l.find? (key · = k) := by
  induction l generalizing last with
  | nil => simp [dedupAfter]
  | cons a l ih =>
    rw [List.pairwise_cons] at hl
    rw [List.forall_mem_cons] at hlast
    rw [dedupAfter]
    by_cases ha : key a = last
    · rw [if_pos ha, ih hl.2 hlast.2]
      by_cases hk : k = last
      · rw [if_pos hk, if_pos hk]
      · have hka : key a ≠ k := fun h => hk (by rw [← h, ha])
        rw [if_neg hk, if_neg hk, List.find?_cons_of_neg (by simpa using hka)]
    · rw [if_neg ha]
      by_cases hka : key a = k
      · have hk : k ≠ last := fun h => ha (by rw [hka, h])
        rw [if_neg hk, List.find?_cons_of_pos (by simpa using hka), List.find?_cons_of_pos (by simpa using hka)]
      · rw [List.find?_cons_of_neg (by simpa using hka), ih hl.2 hl.1, if_neg (Ne.symm hka),
          List.find?_cons_of_neg (by simpa using hka)]
        by_cases hk : k = last
        · have hlt : last < key a := lt_of_le_of_ne hlast.1 (Ne.symm ha)
          rw [if_pos hk, hk]
          exact find?_eq_none_of_lt fun b hb => hlt.trans_le (hl.1 b hb)
        · rw [if_neg hk]

/-- What is left of a key is its first element. -/
theorem find?_dedupByKey {l : List α} (hl : l.Pairwise fun a b => key a ≤ key b) (k : κ) :
    (dedupByKey key l).find? (key · = k) = l.find? (key · = k) := by
  cases l with
  | nil => rfl
  | cons a l =>
    rw [List.pairwise_cons] at hl
    rw [dedupByKey]
    by_cases ha : key a = k
    · rw [List.find?_cons_of_pos (by simpa using ha), List.find?_cons_of_pos (by simpa using ha)]
    · rw [List.find?_cons_of_neg (by simpa using ha), List.find?_cons_of_neg (by simpa using ha),
        find?_dedupAfter hl.2 hl.1, if_neg (Ne.symm ha)]

theorem pairwise_dedupAfter {l : List α} {last : κ} (hl : l.Pairwise fun a b => key a ≤ key b)
    (hlast : ∀ a ∈ l, last ≤ key a) :
    (dedupAfter key last l).Pairwise (fun a b => key a < key b) ∧ ∀ a ∈ dedupAfter key last l, last < key a := by
  induction l generalizing last with
  | nil => simp [dedupAfter]
  | cons a l ih =>
    rw [List.pairwise_cons] at hl
    rw [List.forall_mem_cons] at hlast
    rw [dedupAfter]
    by_cases ha : key a = last
    · rw [if_pos ha]
      exact ih hl.2 hlast.2
    · rw [if_neg ha, List.pairwise_cons, List.forall_mem_cons]
      obtain ⟨hpairwise, hlt⟩ := ih hl.2 hl.1
      have hfirst : last < key a := lt_of_le_of_ne hlast.1 (Ne.symm ha)
      exact ⟨⟨hlt, hpairwise⟩, hfirst, fun b hb => hfirst.trans (hlt b hb)⟩

/-- No key is left twice. -/
theorem pairwise_dedupByKey {l : List α} (hl : l.Pairwise fun a b => key a ≤ key b) :
    (dedupByKey key l).Pairwise fun a b => key a < key b := by
  cases l with
  | nil => exact List.Pairwise.nil
  | cons a l =>
    rw [List.pairwise_cons] at hl
    obtain ⟨hpairwise, hlt⟩ := pairwise_dedupAfter hl.2 hl.1
    exact List.pairwise_cons.mpr ⟨hlt, hpairwise⟩

/-- What is left of a sorted list are the first elements of their keys. -/
theorem mem_dedupByKey_iff {l : List α} (hl : l.Pairwise fun a b => key a ≤ key b) {a : α} :
    a ∈ dedupByKey key l ↔ l.find? (key · = key a) = some a := by
  rw [← find?_dedupByKey hl]
  constructor
  · intro ha
    cases hfind : (dedupByKey key l).find? (key · = key a) with
    | none =>
      rw [List.find?_eq_none] at hfind
      exact absurd (hfind a ha) (by simp)
    | some b =>
      have hb := List.mem_of_find?_eq_some hfind
      have hkey : key b = key a := by simpa using List.find?_some hfind
      have hinj : ((dedupByKey key l).map key).Nodup :=
        List.pairwise_map.mpr ((pairwise_dedupByKey hl).imp fun h => h.ne)
      rw [List.inj_on_of_nodup_map hinj hb ha hkey]
  · exact List.mem_of_find?_eq_some

/-- The first of a key is found by a stable sort as well. -/
theorem find?_sortByKey (l : List α) (k : κ) :
    (sortByKey key l).find? (key · = k) = l.find? (key · = k) := by
  rw [← List.head?_filter, filter_sortByKey, List.head?_filter]

/-- Sorting what is picked is picking from what is sorted. -/
theorem sortByKey_filter (l : List α) (p : α → Bool) :
    sortByKey key (l.filter p) = (sortByKey key l).filter p := by
  refine eq_of_filter_eq (pairwise_sortByKey key _) ((pairwise_sortByKey key l).filter p) fun k => ?_
  rw [filter_sortByKey, List.filter_comm, List.filter_comm _ p, filter_sortByKey]

variable {β : Type*} (f : β → α)

theorem sortByKey_map (l : List β) : sortByKey key (l.map f) = (sortByKey (key ∘ f) l).map f := by
  refine eq_of_filter_eq (pairwise_sortByKey key _) ?_ fun k => ?_
  · exact List.pairwise_map.mpr (pairwise_sortByKey (key ∘ f) l)
  · have hl := filter_sortByKey (key ∘ f) l k
    rw [filter_sortByKey, List.filter_map, List.filter_map]
    exact congrArg (List.map f) hl.symm

theorem dedupAfter_map (last : κ) (l : List β) :
    dedupAfter key last (l.map f) = (dedupAfter (key ∘ f) last l).map f := by
  induction l generalizing last with
  | nil => rfl
  | cons b l ih =>
    rw [List.map_cons, dedupAfter, dedupAfter, ih, ih, Function.comp_apply]
    by_cases hb : key (f b) = last
    · rw [if_pos hb, if_pos hb]
    · rw [if_neg hb, if_neg hb, List.map_cons]

theorem dedupByKey_map (l : List β) : dedupByKey key (l.map f) = (dedupByKey (key ∘ f) l).map f := by
  cases l with
  | nil => rfl
  | cons b l => rw [List.map_cons, dedupByKey, dedupByKey, dedupAfter_map, List.map_cons, Function.comp_apply]

/-! ### Searching what is in order -/

/-- What is found first in a list that is in order comes before whatever else could be found. -/
theorem find?_eq_some_iff_before {R : α → α → Prop} (hasymm : ∀ a b, R a b → ¬ R b a) {l : List α}
    (hl : l.Pairwise R) {p : α → Bool} {a : α} :
    l.find? p = some a ↔ a ∈ l ∧ p a = true ∧ ∀ b ∈ l, p b = true → b = a ∨ R a b := by
  have hfound : ∀ {a}, l.find? p = some a → a ∈ l ∧ p a = true ∧ ∀ b ∈ l, p b = true → b = a ∨ R a b := by
    intro a h
    obtain ⟨hp, front, back, hsplit, hfront⟩ := List.find?_eq_some_iff_append.mp h
    refine ⟨hsplit ▸ List.mem_append_right front List.mem_cons_self, hp, fun b hb hpb => ?_⟩
    rw [hsplit] at hb hl
    rcases List.mem_append.mp hb with hb | hb
    · exact absurd hpb (by simpa using hfront b hb)
    · rcases List.mem_cons.mp hb with rfl | hb
      · exact .inl rfl
      · exact .inr ((List.pairwise_cons.mp (List.pairwise_append.mp hl).2.1).1 b hb)
  refine ⟨hfound, fun ⟨hmem, hp, hbefore⟩ => ?_⟩
  obtain ⟨found, hfind⟩ := Option.isSome_iff_exists.mp (List.find?_isSome.mpr ⟨a, hmem, hp⟩)
  obtain ⟨hmem', hp', hbefore'⟩ := hfound hfind
  rcases hbefore found hmem' hp' with rfl | hlt
  · exact hfind
  · rcases hbefore' a hmem hp with rfl | hlt'
    · exact hfind
    · exact absurd hlt' (hasymm a found hlt)

/-- What the first of a list comes to is that of the first that comes to anything. -/
theorem findSome?_eq_bind_find? {β : Type*} (f : α → Option β) (l : List α) :
    l.findSome? f = (l.find? fun a => (f a).isSome).bind f := by
  induction l with
  | nil => rfl
  | cons a l ih =>
    rw [List.findSome?_cons, List.find?_cons]
    cases h : f a with
    | none => exact ih
    | some b => exact h.symm

end Arcature.Lib
