import Mathlib.Tactic

/-! Futures, as what polling them answers: `Pending` so many times, and then an outcome.

    A future knows nothing of the others that are polled along with it, so what is left of it, what
    it has given and what it has answered are functions of how often it was polled
    (`Future.slotAfter`, `Future.outcomeAfter`, `Future.answersAfter`); one more poll steps all three
    (`Future.poll_slotAfter`). -/

namespace Arcature.Lib

/-- A future that answers `Pending` so many times before its outcome. -/
structure Future (ρ : Type) where
  pending : ℕ
  outcome : ρ

/-- What a poll answers. -/
inductive Poll (ρ : Type) where
  | pending
  | ready (outcome : ρ)

namespace Future
variable {ρ : Type}

/-- Poll a future: the answer, and the future as it is left. -/
def poll (f : Future ρ) : Poll ρ × Future ρ :=
  match f.pending with
  | 0 => (.ready f.outcome, f)
  | n + 1 => (.pending, ⟨n, f.outcome⟩)

/-- What is left of a future after `k` polls, if it is let go when it is ready. -/
def slotAfter (k : ℕ) (f : Future ρ) : Option (Future ρ) :=
  if f.pending < k then none else some ⟨f.pending - k, f.outcome⟩

/-- What a future has given after `k` polls. -/
def outcomeAfter (k : ℕ) (f : Future ρ) : Option ρ := if f.pending < k then some f.outcome else none

/-- The answers of a future that is let go when it is ready: whether each was `Ready`. -/
def answersAfter (k : ℕ) (f : Future ρ) : List Bool :=
  List.replicate (min k f.pending) false ++ if f.pending < k then [true] else []

/-- A future that is still there: one more poll either ends it or leaves it there. -/
theorem poll_slotAfter {k : ℕ} {f g : Future ρ} (h : f.slotAfter k = some g) :
    (g.poll.1 = .ready f.outcome ∧ f.slotAfter (k + 1) = none ∧
      f.outcomeAfter (k + 1) = some f.outcome ∧ f.answersAfter (k + 1) = f.answersAfter k ++ [true]) ∨
    (g.poll.1 = .pending ∧ f.slotAfter (k + 1) = some g.poll.2 ∧
      f.outcomeAfter (k + 1) = f.outcomeAfter k ∧
      f.answersAfter (k + 1) = f.answersAfter k ++ [false]) := by
  obtain ⟨n, outcome⟩ := f
  simp only [slotAfter] at h
  split_ifs at h with hlt
  cases h
  rcases Nat.eq_or_lt_of_le (not_lt.mp hlt) with rfl | hk
  · left
    simp [poll, slotAfter, outcomeAfter, answersAfter]
  · right
    obtain ⟨d, rfl⟩ := Nat.exists_eq_add_of_lt hk
    have hpoll : k + d + 1 - k = d + 1 := by omega
    have hleft : k + d + 1 - (k + 1) = d := by omega
    have hmin : min (k + 1) (k + d + 1) = k + 1 ∧ min k (k + d + 1) = k := by omega
    simp [poll, slotAfter, outcomeAfter, answersAfter, hpoll, hleft, hmin, hlt,
      List.replicate_succ']

/-- A future that was let go stays as it is. -/
theorem slotAfter_succ_of_none {k : ℕ} {f : Future ρ} (h : f.slotAfter k = none) :
    f.slotAfter (k + 1) = none ∧ f.outcomeAfter (k + 1) = f.outcomeAfter k ∧
      f.answersAfter (k + 1) = f.answersAfter k := by
  have hlt : f.pending < k := by
    by_contra hge
    simp [slotAfter, hge] at h
  have hlt' : f.pending < k + 1 := by omega
  have hmin : min (k + 1) f.pending = f.pending ∧ min k f.pending = f.pending := by omega
  simp [slotAfter, outcomeAfter, answersAfter, hlt, hlt', hmin]

end Future

end Arcature.Lib
