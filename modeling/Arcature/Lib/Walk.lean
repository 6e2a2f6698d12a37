import Mathlib.Data.List.Chain
import Mathlib.Logic.Relation

/-! Walks of a relation that end where they began.

    A search that keeps the walk it is on finds a cycle when an edge leads back to the walk: what the
    walk has from there on, with the edge, is the cycle. That there is none is seen from the nodes that
    it is done with, each of which is accessible by its edges. -/

namespace Arcature.Lib.Walk

variable {α : Type} (E : α → α → Prop)

/-- A walk of one edge at least, back to where it began. -/
structure IsCycle (walk : List α) : Prop where
  two_le : 2 ≤ walk.length
  closed : walk.head? = walk.getLast?
  edges : walk.IsChain E

/-- No node leads back to itself. -/
def Acyclic : Prop := ∀ a, ¬ Relation.TransGen E a a

/-- A node from which only finite walks start, by the nodes its edges lead to. -/
abbrev Done (a : α) : Prop := Acc (fun b a => E a b) a

variable {E}

/-- A walk leads from its first node to each later one. -/
theorem transGen_of_isChain {a : α} {walk : List α} (h : (a :: walk).IsChain E) :
    ∀ b ∈ walk, Relation.TransGen E a b := by
  induction walk generalizing a with
  | nil => exact fun b hb => absurd hb List.not_mem_nil
  | cons c walk ih =>
    obtain ⟨hedge, hrest⟩ := List.isChain_cons_cons.mp h
    intro b hb
    rcases List.mem_cons.mp hb with rfl | hb
    · exact .single hedge
    · exact (ih hrest b hb).head hedge

theorem IsCycle.not_acyclic {walk : List α} (h : IsCycle E walk) : ¬ Acyclic E := by
  obtain ⟨hlen, hclosed, hedges⟩ := h
  match walk, hlen with
  | a :: b :: walk, _ =>
    intro hacyclic
    have hlast : (b :: walk).getLast? = some a := by
      rw [← List.getLast?_cons_cons (a := a)]
      exact hclosed.symm
    exact hacyclic a (transGen_of_isChain hedges a (List.mem_of_getLast? hlast))

/-- Nothing leads back to a node that is done. -/
theorem Done.not_transGen {a : α} (h : Done E a) : ¬ Relation.TransGen E a a := by
  induction h with
  | intro a _ ih =>
    intro hback
    obtain ⟨b, hedge, hrest⟩ := Relation.TransGen.head'_iff.mp hback
    exact ih b hedge (Relation.TransGen.tail'_iff.mpr ⟨a, hrest, hedge⟩)

theorem acyclic_of_done (h : ∀ a b, E a b → Done E a) : Acyclic E := by
  intro a hback
  obtain ⟨b, hedge, -⟩ := Relation.TransGen.head'_iff.mp hback
  exact (h a b hedge).not_transGen hback

/-- An edge from the end of a walk back to it closes a cycle. -/
theorem isCycle_of_back_edge [DecidableEq α] {walk : List α} {next : α} (hwalk : walk.IsChain E)
    (hlast : ∀ last ∈ walk.getLast?, E last next) (hmem : next ∈ walk) :
    IsCycle E (walk.dropWhile (· ≠ next) ++ [next]) := by
  obtain ⟨before, behind, rfl, hfirst⟩ := List.eq_append_cons_of_mem hmem
  have hdrop : (before ++ next :: behind).dropWhile (· ≠ next) = next :: behind := by
    have hne : ∀ a ∈ before, decide (a ≠ next) = true := by
      intro a ha
      refine decide_eq_true fun heq => hfirst ?_
      rwa [← heq]
    rw [List.dropWhile_append_of_pos hne, List.dropWhile_cons_of_neg (by simp)]
  have hback : (next :: behind ++ [next]).IsChain E := by
    refine (hwalk.right_of_append).append (List.isChain_singleton next) fun last hin b hb => ?_
    obtain rfl := Option.some.inj hb
    exact hlast last (by rw [List.getLast?_append_of_ne_nil _ (List.cons_ne_nil _ _)]; exact hin)
  rw [hdrop]
  exact ⟨by simp, by rw [List.getLast?_concat]; rfl, hback⟩

end Arcature.Lib.Walk
