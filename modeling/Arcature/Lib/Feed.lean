import Mathlib.Data.List.ReduceOption
import Mathlib.Order.Basic
import Mathlib.Order.Nat

/-! A bounded broadcast channel, as one of its receivers sees it.

    Values are numbered in the order they are sent, and the channel keeps the last `kept` of them. A receiver
    knows the number of the value it reads next; where that is not kept any more it is told so once, and goes on
    with the oldest that is:

        sent        v₀  v₁  v₂ │ v₃  v₄  v₅              kept = 3
        receive     ▲ lagged ──▶ ▲
                                 ▲ v₃ ─▶ ▲ v₄ ─▶ …  empty, or closed when nobody can send

    `Reads` is what a receiver has been told from its first value on. Values are read in order, each once
    (`Reads.sublist`), and without a gap where none was told (`Reads.eq_window`). -/

namespace Arcature.Lib.Feed

variable {α : Type*}

/-- What a receiver is told. -/
inductive Received (α : Type*) where
  | value (a : α)
  | lagged
  | empty
  | closed

/-- One reception, with the number of the value to be read after it. `live` if somebody can still send. -/
def receive (kept : ℕ) (live : Bool) (sent : List α) (next : ℕ) : Received α × ℕ :=
  if next + kept < sent.length then (.lagged, sent.length - kept)
  else
    match sent[next]? with
    | some a => (.value a, next + 1)
    | none => (if live then .empty else .closed, next)

/-- A reception skips what is gone, reads a value, or comes to the end. -/
theorem receive_cases (kept : ℕ) (live : Bool) (sent : List α) (next : ℕ) :
    (next + kept < sent.length ∧ receive kept live sent next = (.lagged, sent.length - kept)) ∨
      (∃ a, sent[next]? = some a ∧ receive kept live sent next = (.value a, next + 1)) ∨
      (sent.length ≤ next ∧ receive kept live sent next = (if live then .empty else .closed, next)) := by
  by_cases hlag : next + kept < sent.length
  · exact .inl ⟨hlag, if_pos hlag⟩
  · cases hnext : sent[next]? with
    | some a => exact .inr (.inl ⟨a, rfl, by rw [receive, if_neg hlag, hnext]⟩)
    | none => exact .inr (.inr ⟨List.getElem?_eq_none_iff.mp hnext, by rw [receive, if_neg hlag, hnext]⟩)

/-- What a receiver whose first value is `first` was told until it came to `next`: values, and gaps. Where there
    is a gap, the values that were left out were not kept any more. -/
inductive Reads (kept : ℕ) (sent : List α) (first : ℕ) : List (Option α) → ℕ → Prop
  | nil (h : first ≤ sent.length) : Reads kept sent first [] first
  | value {told : List (Option α)} {next : ℕ} {a : α} (h : Reads kept sent first told next)
      (hnext : sent[next]? = some a) : Reads kept sent first (told ++ [some a]) (next + 1)
  | lagged {told : List (Option α)} {next oldest : ℕ} (h : Reads kept sent first told next) (hlt : next < oldest)
      (hkept : oldest + kept ≤ sent.length) : Reads kept sent first (told ++ [none]) oldest

namespace Reads

variable {kept first next : ℕ} {sent : List α} {told : List (Option α)}

theorem first_le (h : Reads kept sent first told next) : first ≤ next := by
  induction h with
  | nil _ => exact le_rfl
  | value _ _ ih => exact Nat.le_succ_of_le ih
  | lagged _ hlt _ ih => exact ih.trans hlt.le

theorem next_le (h : Reads kept sent first told next) : next ≤ sent.length := by
  cases h with
  | nil hle => exact hle
  | value _ hnext => exact (List.getElem?_eq_some_iff.mp hnext).1
  | lagged _ _ hkept => exact (Nat.le_add_right _ _).trans hkept

/-- What is sent later does not change what was read. -/
theorem append (h : Reads kept sent first told next) (later : List α) :
    Reads kept (sent ++ later) first told next := by
  induction h with
  | nil hle => exact .nil (by rw [List.length_append]; omega)
  | value _ hnext ih => exact ih.value (by rw [List.getElem?_append_left (List.getElem?_eq_some_iff.mp hnext).1, hnext])
  | lagged _ hlt hkept ih => exact ih.lagged hlt (by rw [List.length_append]; omega)

/-- A window that is read one value further. -/
theorem window_succ {a : α} (hfirst : first ≤ next) (hnext : sent[next]? = some a) :
    (sent.take (next + 1)).drop first = (sent.take next).drop first ++ [a] := by
  obtain ⟨hlt, rfl⟩ := List.getElem?_eq_some_iff.mp hnext
  rw [List.take_succ_eq_append_getElem hlt, List.drop_append_of_le_length (by rw [List.length_take]; omega)]

/-- Values are read in the order they were sent, each at most once. -/
theorem sublist (h : Reads kept sent first told next) :
    told.reduceOption.Sublist ((sent.take next).drop first) := by
  induction h with
  | nil hle => simp
  | value h hnext ih =>
    rw [window_succ h.first_le hnext, List.reduceOption_append]
    exact ih.append (List.Sublist.refl _)
  | lagged h hlt hkept ih =>
    rw [List.reduceOption_append]
    simp only [List.reduceOption_cons_of_none, List.reduceOption_nil, List.append_nil]
    exact ih.trans ((List.take_prefix_take_left hlt.le).sublist.drop _)

/-- Where no gap was told there is none. -/
theorem eq_window (h : Reads kept sent first told next) (hgap : none ∉ told) :
    told.reduceOption = (sent.take next).drop first := by
  induction h with
  | nil hle => simp
  | value h hnext ih =>
    rw [window_succ h.first_le hnext, List.reduceOption_append, ih fun hmem => hgap (List.mem_append_left _ hmem)]
    rfl
  | lagged h hlt hkept ih => exact absurd (List.mem_append_right _ (List.mem_singleton.mpr rfl)) hgap

end Reads

end Arcature.Lib.Feed
