import Mathlib.Data.List.Basic
import Mathlib.Data.List.Dedup
import Mathlib.Logic.Relation

/-! The order in which things are required.

    A node of a graph requires what its edges lead to, in the order they are listed, and then itself. A
    node that is being required already is not required again, so that cycles come to an end:

        a → b, c          required a:  c b c a
        b → c             each once:   c b a

    All that a node leads to is required (`mem_required`), and what a node has an edge to is required
    before the node, unless there is a way back (`required_before`). -/

namespace Arcature.Lib.Requirement

/-! ### Each thing once -/

section addNew

variable {β : Type} [DecidableEq β]

/-- Things put behind others, each where it comes first. -/
def addNew (out : List β) (l : List β) : List β := l.foldl (fun out b => if b ∈ out then out else out ++ [b]) out

theorem addNew_cons (out : List β) (b : β) (l : List β) :
    addNew out (b :: l) = addNew (if b ∈ out then out else out ++ [b]) l := rfl

theorem addNew_append (out l m : List β) : addNew out (l ++ m) = addNew (addNew out l) m := List.foldl_append

theorem mem_addNew {out l : List β} {b : β} : b ∈ addNew out l ↔ b ∈ out ∨ b ∈ l := by
  induction l generalizing out with
  | nil => simp [addNew]
  | cons d l ih =>
    rw [addNew_cons, ih]
    split_ifs with hd
    · constructor
      · exact Or.imp_right (List.mem_cons_of_mem _)
      · rintro (hb | hb)
        · exact .inl hb
        · obtain rfl | hb := List.mem_cons.mp hb
          · exact .inl hd
          · exact .inr hb
    · rw [List.mem_append, List.mem_singleton, List.mem_cons, or_assoc]

theorem nodup_addNew {out : List β} (h : out.Nodup) (l : List β) : (addNew out l).Nodup := by
  induction l generalizing out with
  | nil => exact h
  | cons d l ih =>
    rw [addNew_cons]
    split_ifs with hd
    · exact ih h
    · exact ih (List.nodup_append.mpr ⟨h, List.nodup_singleton d, fun a ha b hb hab =>
        hd (List.mem_singleton.mp hb ▸ hab ▸ ha)⟩)

/-- What is there already is not added. -/
theorem addNew_of_subset {out l : List β} (h : l ⊆ out) : addNew out l = out := by
  induction l with
  | nil => rfl
  | cons d l ih => rw [addNew_cons, if_pos (h List.mem_cons_self), ih fun _ hb => h (List.mem_cons_of_mem _ hb)]

/-- What is there stays in front. -/
theorem prefix_addNew (out l : List β) : out <+: addNew out l := by
  induction l generalizing out with
  | nil => exact List.prefix_refl out
  | cons d l ih =>
    rw [addNew_cons]
    split_ifs with hd
    · exact ih out
    · exact (List.prefix_append out [d]).trans (ih (out ++ [d]))

theorem head?_addNew (out l : List β) : (addNew out l).head? = (out ++ l).head? := by
  induction l generalizing out with
  | nil => rw [List.append_nil]; rfl
  | cons d l ih =>
    rw [addNew_cons, ih]
    cases out with
    | nil => rfl
    | cons a out => split_ifs <;> rfl

variable {κ : Type} {items : κ → List β}

/-- Nodes without things add none, and the things of one node are added once. -/
theorem addNew_flatMap_single {l : List κ} {k : κ} (hk : k ∈ l) (h : ∀ x ∈ l, x ≠ k → items x = []) :
    addNew [] (l.flatMap items) = addNew [] (items k) := by
  -- Once the things of the node have been added, nothing is.
  have hlater : ∀ (m : List κ) (out : List β), m ⊆ l → items k ⊆ out → addNew out (m.flatMap items) = out := by
    intro m out hm hout
    refine addNew_of_subset fun b hb => ?_
    obtain ⟨x, hx, hb⟩ := List.mem_flatMap.mp hb
    by_cases hxk : x = k
    · exact hout (hxk ▸ hb)
    · rw [h x (hm hx) hxk] at hb
      exact absurd hb List.not_mem_nil
  induction l with
  | nil => exact absurd hk List.not_mem_nil
  | cons x l ih =>
    rw [List.flatMap_cons, addNew_append]
    by_cases hxk : x = k
    · rw [hxk]
      exact hlater l _ (fun _ hy => List.mem_cons_of_mem _ hy) fun b hb => mem_addNew.mpr (.inr hb)
    · rw [h x List.mem_cons_self hxk]
      have hkl : k ∈ l := (List.mem_cons.mp hk).resolve_left (Ne.symm hxk)
      exact ih hkl (fun y hy => h y (List.mem_cons_of_mem _ hy)) fun m out hm =>
        hlater m out fun _ hy => List.mem_cons_of_mem _ (hm hy)

/-- Where at most one node has things, it does not matter in which order the nodes come. -/
theorem addNew_flatMap_congr {l m : List κ} (hlm : ∀ k, k ∈ l ↔ k ∈ m)
    (h : ∀ x ∈ l, ∀ y ∈ l, items x ≠ [] → items y ≠ [] → x = y) :
    addNew [] (l.flatMap items) = addNew [] (m.flatMap items) := by
  by_cases hsome : ∃ k ∈ l, items k ≠ []
  · obtain ⟨k, hk, hitems⟩ := hsome
    have hothers : ∀ x ∈ l, x ≠ k → items x = [] := fun x hx hne => by
      by_contra hx'
      exact hne (h x hx k hk hx' hitems)
    rw [addNew_flatMap_single hk hothers,
      addNew_flatMap_single ((hlm k).mp hk) fun x hx => hothers x ((hlm x).mpr hx)]
  · push Not at hsome
    rw [List.flatMap_eq_nil_iff.mpr hsome, List.flatMap_eq_nil_iff.mpr fun x hx => hsome x ((hlm x).mpr hx)]

end addNew

/-! ### What is required -/

/-- A graph with finitely many nodes that have edges. -/
structure Graph (κ : Type) where
  nodes : List κ
  edges : κ → List κ
  edges_eq_nil : ∀ k, k ∉ nodes → edges k = []

namespace Graph

variable {κ : Type} [DecidableEq κ] (G : Graph κ)

/-- A node has an edge to another. -/
def Edge (a b : κ) : Prop := b ∈ G.edges a

/-- A node leads to another. -/
def Reaches (a b : κ) : Prop := Relation.ReflTransGen G.Edge a b

/-- How many nodes are not on a path. -/
def left (path : List κ) : ℕ := (G.nodes.filter (· ∉ path)).length

theorem left_cons_lt {path : List κ} {k : κ} (hnode : k ∈ G.nodes) (hpath : k ∉ path) :
    G.left (k :: path) < G.left path := by
  have hsub : (G.nodes.filter (· ∉ k :: path)).Sublist (G.nodes.filter (· ∉ path)) := by
    refine List.monotone_filter_right _ fun x hx => ?_
    simp only [List.mem_cons, not_or, decide_eq_true_eq] at hx ⊢
    exact hx.2
  refine Nat.lt_of_le_of_ne hsub.length_le fun hlen => ?_
  have hmem : k ∈ G.nodes.filter (· ∉ path) := List.mem_filter.mpr ⟨hnode, decide_eq_true hpath⟩
  rw [← hsub.eq_of_length hlen] at hmem
  have hk := (List.mem_filter.mp hmem).2
  simp at hk

theorem left_cons_eq {path : List κ} {k : κ} (hnode : k ∉ G.nodes) : G.left (k :: path) = G.left path := by
  refine congrArg List.length (List.filter_congr fun x hx => ?_)
  have hne : x ≠ k := fun heq => hnode (heq ▸ hx)
  simp [hne]

/-- What a node requires, in order, when a path of nodes is being required. -/
def required (path : List κ) (k : κ) : List κ :=
  if k ∈ path then []
  else if k ∈ G.nodes then (G.edges k).flatMap (fun d => required (k :: path) d) ++ [k]
  else [k]
termination_by G.left path
decreasing_by exact G.left_cons_lt ‹_› ‹_›

theorem required_of_mem {path : List κ} {k : κ} (h : k ∈ path) : G.required path k = [] := by
  rw [required, if_pos h]

theorem required_of_notMem {path : List κ} {k : κ} (h : k ∉ path) :
    G.required path k = (G.edges k).flatMap (G.required (k :: path)) ++ [k] := by
  rw [required, if_neg h]
  split_ifs with hnode
  · rfl
  · rw [G.edges_eq_nil k hnode]
    rfl

/-- A node leads to another without coming by a path. -/
def Avoids (path : List κ) (a b : κ) : Prop :=
  a ∉ path ∧ Relation.ReflTransGen (fun x y => G.Edge x y ∧ y ∉ path) a b

/-- A way that avoids a path, and comes by a node, goes on from the node without coming by it again. -/
theorem avoids_or {path : List κ} {a b k : κ} (h : G.Avoids path a b) :
    G.Avoids (k :: path) a b ∨ k = b ∨ ∃ d ∈ G.edges k, G.Avoids (k :: path) d b := by
  obtain ⟨ha, hway⟩ := h
  induction hway using Relation.ReflTransGen.head_induction_on with
  | refl =>
    by_cases hk : k = b
    · exact .inr (.inl hk)
    · exact .inl ⟨List.not_mem_cons_of_ne_of_not_mem (Ne.symm hk) ha, .refl⟩
  | @head a c hac _ ih =>
    rcases ih hac.2 with hc | hrest
    · by_cases hk : a = k
      · exact .inr (.inr ⟨c, hk ▸ hac.1, hc⟩)
      · exact .inl ⟨List.not_mem_cons_of_ne_of_not_mem hk ha, hc.2.head ⟨hac.1, hc.1⟩⟩
    · exact .inr hrest

/-- All that a node leads to without coming by the path is required, and nothing else is. -/
theorem mem_required {path : List κ} {k x : κ} : x ∈ G.required path k ↔ G.Avoids path k x := by
  fun_induction required G path k with
  | case1 path k hk => exact ⟨fun hx => absurd hx List.not_mem_nil, fun hx => absurd hk hx.1⟩
  | case2 path k hk hnode ih =>
    rw [List.mem_append, List.mem_flatMap, List.mem_singleton]
    constructor
    · rintro (⟨d, hd, hx⟩ | rfl)
      · obtain ⟨hdpath, hway⟩ := (ih d).mp hx
        have hout : ∀ y, y ∉ k :: path → y ∉ path := fun y hy hmem => hy (List.mem_cons_of_mem _ hmem)
        exact ⟨hk, .head ⟨hd, hout d hdpath⟩
          (Relation.ReflTransGen.mono (fun _ y hy => ⟨hy.1, hout y hy.2⟩) _ _ hway)⟩
      · exact ⟨hk, .refl⟩
    · intro hx
      rcases G.avoids_or (k := k) hx with hself | rfl | ⟨d, hd, hx⟩
      · exact absurd List.mem_cons_self hself.1
      · exact .inr rfl
      · exact .inl ⟨d, hd, (ih d).mpr hx⟩
  | case3 path k hk hnode =>
    rw [List.mem_singleton]
    constructor
    · rintro rfl
      exact ⟨hk, .refl⟩
    · rintro ⟨-, hway⟩
      rcases Relation.ReflTransGen.cases_head hway with rfl | ⟨d, hd, -⟩
      · rfl
      · rw [Edge, G.edges_eq_nil k hnode] at hd
        exact absurd hd.1 List.not_mem_nil

/-- Nothing on the path is required. -/
theorem notMem_required {path : List κ} {k x : κ} (hx : x ∈ path) : x ∉ G.required path k := by
  rw [mem_required]
  rintro ⟨hk, hway⟩
  rcases Relation.ReflTransGen.cases_tail hway with rfl | ⟨_, -, hlast⟩
  · exact hk hx
  · exact hlast.2 hx

theorem mem_required_nil {k x : κ} : x ∈ G.required [] k ↔ G.Reaches k x := by
  rw [mem_required]
  constructor
  · exact fun h => Relation.ReflTransGen.mono (fun _ _ hxy => hxy.1) _ _ h.2
  · exact fun h => ⟨List.not_mem_nil, Relation.ReflTransGen.mono (fun _ _ hxy => ⟨hxy, List.not_mem_nil⟩) _ _ h⟩

/-- What a node has an edge to is required before it, unless there is a way back. -/
theorem required_before {c d : κ} (hedge : G.Edge c d) (hback : ¬ G.Reaches d c) {path : List κ} {k : κ}
    (hpath : ∀ p ∈ path, G.Reaches p k) {before after : List κ} (h : G.required path k = before ++ c :: after) :
    d ∈ before := by
  induction hn : G.left path using Nat.strongRecOn generalizing path k before after with
  | _ n ih =>
    subst hn
    by_cases hk : k ∈ path
    · rw [G.required_of_mem hk] at h
      simp at h
    rw [G.required_of_notMem hk] at h
    rcases List.eq_nil_or_concat after with rfl | ⟨after, last, rfl⟩
    · -- The node is required last, after all that it has an edge to.
      obtain ⟨hbefore, hlast⟩ := List.append_inj' h rfl
      obtain rfl := List.singleton_inj.mp hlast
      have hd : d ∉ k :: path := by
        rw [List.mem_cons, not_or]
        exact ⟨fun hdk => hback (hdk ▸ .refl), fun hmem => hback (hpath d hmem)⟩
      rw [← hbefore]
      exact List.mem_flatMap.mpr ⟨d, hedge, G.mem_required.mpr ⟨hd, .refl⟩⟩
    · -- The node is required by something that the last one has an edge to.
      rw [List.concat_eq_append, ← List.cons_append, ← List.append_assoc] at h
      obtain ⟨hflat, -⟩ := List.append_inj' h rfl
      have hnode : k ∈ G.nodes := by
        by_contra hnode
        rw [G.edges_eq_nil k hnode] at hflat
        simp at hflat
      have hnext : ∀ e ∈ G.edges k, ∀ p ∈ k :: path, G.Reaches p e := by
        intro e he p hp
        obtain rfl | hp := List.mem_cons.mp hp
        · exact .single he
        · exact (hpath p hp).tail he
      have hsplit : ∀ (es : List κ) (before : List κ), es ⊆ G.edges k →
          es.flatMap (G.required (k :: path)) = before ++ c :: after → d ∈ before := by
        intro es
        induction es with
        | nil => intro before _ heq; simp at heq
        | cons e es ihes =>
          intro before hes heq
          have he := hes List.mem_cons_self
          rw [List.flatMap_cons] at heq
          rcases List.append_eq_append_iff.mp heq with ⟨skipped, rfl, hrest⟩ | ⟨inside, hfirst, hafter⟩
          · exact List.mem_append_right _ (ihes skipped (fun x hx => hes (List.mem_cons_of_mem _ hx)) hrest)
          · cases inside with
            | nil =>
              rw [List.append_nil] at hfirst
              have hrest : es.flatMap (G.required (k :: path)) = [] ++ c :: after := hafter.symm
              exact absurd (ihes [] (fun x hx => hes (List.mem_cons_of_mem _ hx)) hrest) List.not_mem_nil
            | cons x inside =>
              obtain ⟨rfl, -⟩ := List.cons.inj hafter
              exact ih _ (G.left_cons_lt hnode hk) (hnext e he) hfirst rfl
      exact hsplit _ before (List.Subset.refl _) hflat

end Graph

end Arcature.Lib.Requirement
