import Mathlib.Data.Fintype.Card
import Mathlib.Tactic.Common

/-! How deep something goes that may contain itself.

    Over finitely many things, what is inside a thing ends exactly if nothing reached from it is inside
    itself; and what each of finitely many things needs, one bound is enough for. -/

namespace Arcature.Lib

variable {α : Type} {r : α → α → Prop}

theorem not_rel_of_acc {a : α} (h : Acc r a) : ¬ r a a := by
  induction h with
  | intro a _ ih => exact fun ha => ih a ha ha

/-- What is reached from an element that is accessible is accessible. -/
theorem acc_of_reachable {a b : α} (h : Acc (fun x y => r y x) a) (hb : Relation.ReflTransGen r a b) :
    Acc (fun x y => r y x) b := by
  induction hb with
  | refl => exact h
  | tail _ hstep ih => exact ih.inv hstep

/-- Two that are reached from an element, the first from the second. -/
def Within (r : α → α → Prop) (a x y : α) : Prop := Relation.TransGen r y x ∧ Relation.ReflTransGen r a y

theorem acc_of_within {a b : α} (h : Acc (Within r a) b) (hb : Relation.ReflTransGen r a b) :
    Acc (fun x y => r y x) b := by
  induction h with
  | intro b _ ih => exact Acc.intro b fun c hc => ih c ⟨.single hc, hb⟩ (hb.tail hc)

/-- Without a cycle there is an end. -/
theorem acc_iff_no_cycle [Finite α] {a : α} : Acc (fun x y => r y x) a ↔
    ∀ b, Relation.ReflTransGen r a b → ¬ Relation.TransGen r b b := by
  constructor
  · intro h b hb hcycle
    have hacc := (acc_of_reachable h hb).transGen
    exact not_rel_of_acc hacc (Relation.transGen_swap.mpr hcycle)
  · intro h
    have htrans : IsTrans α (Within r a) := ⟨fun x y z hxy hyz => ⟨hyz.1.trans hxy.1, hyz.2⟩⟩
    have hirrefl : Std.Irrefl (Within r a) := ⟨fun x hx => h x hx.2 hx.1⟩
    have hwf : WellFounded (Within r a) := Finite.wellFounded_of_trans_of_irrefl _
    exact acc_of_within (hwf.apply a) .refl

/-- A bound for each of finitely many, one bound for all. -/
theorem exists_bound {p : ℕ → α → Prop} (hmono : ∀ a m n, m ≤ n → p m a → p n a) {l : List α}
    (h : ∀ a ∈ l, ∃ n, p n a) : ∃ n, ∀ a ∈ l, p n a := by
  induction l with
  | nil => exact ⟨0, nofun⟩
  | cons a l ih =>
    obtain ⟨m, hm⟩ := h a List.mem_cons_self
    obtain ⟨n, hn⟩ := ih fun b hb => h b (List.mem_cons_of_mem a hb)
    refine ⟨max m n, fun b hb => ?_⟩
    rcases List.mem_cons.mp hb with rfl | hb
    · exact hmono b m _ (le_max_left m n) hm
    · exact hmono b n _ (le_max_right m n) (hn b hb)

end Arcature.Lib
