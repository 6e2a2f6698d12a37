import Mathlib.Tactic
import Arcature.Lib.Traverse

/-! Pages of a query (`database/query.rs`).

    A page is a window on the rows that match, set by the limit and the offset of the statement:

        rows        a b c d e f g
        page 0, 1   a b c
        page 2            d e f
        page 3                  g

    The window takes the place of a limit and an offset that were set before, and the total is counted
    without either. So the pages cut the matching rows, with none lost or repeated, whatever the query was
    limited to (`pages_cut`). The offset is a product that may overflow, far beyond the last page. -/

namespace Arcature.Database
open Arcature.Lib

/-- The rows that match a query, in its order. A database counts them in a signed 64-bit number. -/
structure Matching (α : Type) where
  rows : List α
  counted : rows.length < 2 ^ 63

/-- `Query`: what it selects, and its limit and offset. -/
structure Query (α : Type) where
  select : Matching α
  limit : Option UInt64
  offset : Option UInt64

namespace Query
variable {α : Type}

/-- `new`, with all the conditions and orders that were put to it. -/
def new (select : Matching α) : Query α := ⟨select, none, none⟩

/-- `limit`. -/
def withLimit (q : Query α) (n : UInt64) : Query α := { q with limit := some n }

/-- `offset`. -/
def withOffset (q : Query α) (n : UInt64) : Query α := { q with offset := some n }

/-- `all`: `OFFSET` skips rows, and `LIMIT` takes so many of what is left. -/
def all (q : Query α) : List α :=
  let rows := q.select.rows.drop (q.offset.map UInt64.toNat |>.getD 0)
  match q.limit with
  | some n => rows.take n.toNat
  | none => rows

/-- `count`, which resets limit and offset. -/
def count (q : Query α) : UInt64 := UInt64.ofNat q.select.rows.length

end Query

/-- `Paginated`. -/
structure Paginated (α : Type) where
  query : Query α
  perPage : UInt64

/-- `paginate`. -/
def Query.paginate {α : Type} (q : Query α) (perPage : UInt64) : Paginated α := ⟨q, perPage⟩

/-- `*` on `u64`: where overflow is checked it panics, else it wraps. -/
def mulU64 (checks : Bool) (a b : UInt64) : Option UInt64 :=
  if checks && decide (2 ^ 64 ≤ a.toNat * b.toNat) then none else some (a * b)

/-- `saturating_sub`. -/
def saturatingSub (a b : UInt64) : UInt64 := if b ≤ a then a - b else 0

namespace Paginated
variable {α : Type} (checks : Bool) (p : Paginated α)

/-- `page`; `none` is a panic. -/
def page (n : UInt64) : Option (List α) :=
  if p.perPage = 0 then some []
  else (mulU64 checks (saturatingSub n 1) p.perPage).map fun offset =>
    ((p.query.withOffset offset).withLimit p.perPage).all

/-- `page_with_count`. -/
def pageWithCount (n : UInt64) : Option (List α × UInt64) := (p.page checks n).map (·, p.query.count)

end Paginated

/-! ### Windows on a list -/

/-- A window on a list. -/
def window {α : Type} (rows : List α) (size k : ℕ) : List α := (rows.drop (k * size)).take size

/-- Windows one after the other are the list up to their end. -/
theorem flatMap_window {α : Type} (rows : List α) (size m : ℕ) :
    (List.range m).flatMap (window rows size) = rows.take (m * size) := by
  induction m with
  | zero => simp
  | succ m ih => rw [List.range_succ, List.flatMap_append, ih, List.flatMap_singleton, window, Nat.succ_mul, List.take_add]

/-- So many windows as the list needs are the list. -/
theorem flatMap_window_all {α : Type} (rows : List α) {size : ℕ} (h : 0 < size) :
    (List.range ((rows.length + size - 1) / size)).flatMap (window rows size) = rows := by
  rw [flatMap_window, List.take_of_length_le]
  have hdiv := Nat.div_add_mod (rows.length + size - 1) size
  have hmod := Nat.mod_lt (rows.length + size - 1) h
  rw [Nat.mul_comm] at hdiv
  omega

/-! ### Pages -/

section Pages
variable {α : Type} {p : Paginated α}

/-- The number of whole pages before a page. -/
def pagesBefore (n : UInt64) : ℕ := max n.toNat 1 - 1

theorem toNat_saturatingSub (n : UInt64) : (saturatingSub n 1).toNat = pagesBefore n := by
  rw [saturatingSub, pagesBefore]
  split_ifs with h
  · rw [UInt64.toNat_sub_of_le _ _ h]
    have hn : 1 ≤ n.toNat := h
    simp [max_eq_left hn]
  · have hn : ¬ 1 ≤ n.toNat := h
    simp
    omega

/-- A page whose offset is a 64-bit number is the window of its number. -/
theorem page_eq (checks : Bool) (hpos : 0 < p.perPage) {n : UInt64}
    (hfit : pagesBefore n * p.perPage.toNat < 2 ^ 64) :
    p.page checks n = some (window p.query.select.rows p.perPage.toNat (pagesBefore n)) := by
  have hne : p.perPage ≠ 0 := fun h => by simp [h] at hpos
  have hmul : mulU64 checks (saturatingSub n 1) p.perPage = some (saturatingSub n 1 * p.perPage) := by
    rw [mulU64, toNat_saturatingSub, decide_eq_false (Nat.not_le.mpr hfit), Bool.and_false, if_neg Bool.false_ne_true]
  have hoffset : (saturatingSub n 1 * p.perPage).toNat = pagesBefore n * p.perPage.toNat := by
    rw [UInt64.toNat_mul, toNat_saturatingSub, Nat.mod_eq_of_lt hfit]
  rw [Paginated.page, if_neg hne, hmul, Option.map_some, Query.all]
  simp [Query.withOffset, Query.withLimit, hoffset, window]

/-- Where overflow is checked, a page whose offset is no 64-bit number panics. -/
theorem page_eq_none (hpos : 0 < p.perPage) {n : UInt64} (hover : 2 ^ 64 ≤ pagesBefore n * p.perPage.toNat) :
    p.page true n = none := by
  have hne : p.perPage ≠ 0 := fun h => by simp [h] at hpos
  rw [Paginated.page, if_neg hne, mulU64, toNat_saturatingSub, decide_eq_true hover]
  rfl

/-- A query counts the rows that match, whatever it is limited to. -/
theorem toNat_count (q : Query α) : q.count.toNat = q.select.rows.length :=
  UInt64.toNat_ofNat_of_lt' (lt_trans q.select.counted (by norm_num [UInt64.size]))

/-- Each page, up to the last offset that is a 64-bit number, is its window on the rows that match; the
    total is their number; and the pages up to the last row, one after the other, are those rows. What limit
    and offset were set before does not matter. -/
theorem pages_cut (checks : Bool) (q : Query α) {perPage : UInt64} (hpos : 0 < perPage) :
    (∀ n, pagesBefore n * perPage.toNat < 2 ^ 64 →
      (q.paginate perPage).page checks n = some (window q.select.rows perPage.toNat (pagesBefore n)) ∧
        (q.paginate perPage).pageWithCount checks n =
          some (window q.select.rows perPage.toNat (pagesBefore n), q.count)) ∧
      q.count.toNat = q.select.rows.length ∧
      ∃ pages, (List.range ((q.select.rows.length + perPage.toNat - 1) / perPage.toNat)).mapM
          (fun k => (q.paginate perPage).page checks (UInt64.ofNat (k + 1))) = some pages ∧
        pages.flatten = q.select.rows := by
  have hsize : 0 < perPage.toNat := hpos
  refine ⟨fun n hfit => ?_, toNat_count q, ?_⟩
  · have hpage := page_eq (p := q.paginate perPage) checks hpos hfit
    refine ⟨hpage, ?_⟩
    rw [Paginated.pageWithCount, hpage]
    rfl
  · refine ⟨_, mapM_eq_some_map (g := window q.select.rows perPage.toNat) fun k hk => ?_, ?_⟩
    · -- A page with rows begins before the last of them, of which there are less than 2 ^ 63.
      have hcounted := q.select.counted
      have hk := List.mem_range.mp hk
      have hbefore : k * perPage.toNat < q.select.rows.length := by
        have hle := Nat.mul_le_mul_right perPage.toNat (Nat.succ_le_of_lt hk)
        have hdiv := Nat.div_mul_le_self (q.select.rows.length + perPage.toNat - 1) perPage.toNat
        rw [Nat.succ_mul] at hle
        omega
      have hsmall : k ≤ k * perPage.toNat := Nat.le_mul_of_pos_right k hsize
      have hn : pagesBefore (UInt64.ofNat (k + 1)) = k := by
        rw [pagesBefore, UInt64.toNat_ofNat_of_lt' (by norm_num [UInt64.size]; omega)]
        omega
      have hpage := page_eq (p := q.paginate perPage) (n := UInt64.ofNat (k + 1)) checks hpos (by
        rw [hn]
        exact hbefore.trans (hcounted.trans (by norm_num)))
      rw [hpage, hn]
      rfl
    · rw [← List.flatMap_def, flatMap_window_all _ hsize]

end Pages

/-- Seven rows, of which the first two are asked for, in pages of three. -/
def firstTwo : Query Char := (Query.new ⟨['a', 'b', 'c', 'd', 'e', 'f', 'g'], by simp⟩).withLimit 2

/-- The third page holds the last of the seven rows. -/
theorem firstTwo_third_page : (firstTwo.paginate 3).pageWithCount true 3 = some (['g'], 7) := by
  have hpage := ((@pages_cut Char true firstTwo 3 (by decide)).1 3 (by decide)).2
  rw [hpage]
  decide +kernel

/-- The pages do not cut the rows that the query was limited to, nor is the total their number. -/
theorem limit_ignored : ¬ ∀ (checks : Bool) (q : Query Char) (perPage n : UInt64), 0 < perPage →
    (q.paginate perPage).pageWithCount checks n =
      some (window q.all perPage.toNat (pagesBefore n), UInt64.ofNat q.all.length) := by
  intro h
  exact absurd (h true firstTwo 3 1 (by decide)) (by decide +kernel)

end Arcature.Database
