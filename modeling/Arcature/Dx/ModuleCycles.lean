import Arcature.Dx.ApplicationGraph
import Arcature.Lib.Walk

/-! The search for a cycle of imports.

    The search walks from module to module along the imports. It keeps the walk it is on, and what it has
    visited; a module that is visited but not on the walk is done with, and so is everything it imports:

        Shop -> Accounts -> Mail                   walk  Shop Accounts Mail
        Mail imports nothing, Accounts no more     walk  Shop
        Shop -> Cart -> Shop                       walk  Shop Cart,    cycle  Shop Cart Shop

    Each call within another visits a module that was not visited, so the calls end (`dfs_spec`). A search
    that finds nothing leaves the walk as it was and every module it visited done, and what it finds is a
    cycle: a list of modules is accepted exactly if no module imports itself in the end
    (`applicationGraph_acyclic`). -/

namespace Arcature.Dx
open Arcature.Lib Arcature.Lib.Walk

/-! ### One module -/

/-- A module imports another one. -/
def Edge (nodes : Map Str (List Str)) (a b : Str) : Prop := b ∈ (nodes.get? a).getD []

/-- The search enters a module. -/
def enter (node : Str) (s : Search) : Search :=
  ⟨insert node s.visited, s.stack ++ [node], insert node s.onStack⟩

/-- An import of the module at the end of the walk, and how the search goes on from there. -/
def follow (search : Str → Search → Search × Option (List Str)) :
    Search × Option (List Str) → Str → Search × Option (List Str) :=
  fun (s, found) next =>
    if found.isSome then (s, found)
    else if next ∉ s.visited then search next s
    else if next ∈ s.onStack then (s, some (s.stack.dropWhile (· ≠ next) ++ [next]))
    else (s, none)

/-- The search leaves a module, unless it has found a cycle. -/
def leave (node : Str) : Search × Option (List Str) → Search × Option (List Str) :=
  fun (s, found) =>
    if found.isSome then (s, found) else (⟨s.visited, s.stack.dropLast, s.onStack.erase node⟩, none)

variable {nodes : Map Str (List Str)}

/-- A call enters its module, follows the imports and leaves it. -/
theorem dfsFindCycle_succ (nodes : Map Str (List Str)) (depth : ℕ) (node : Str) (s : Search) :
    dfsFindCycle nodes (depth + 1) node s =
      leave node (((nodes.get? node).getD []).foldl (follow (dfsFindCycle nodes depth)) (enter node s, none)) := rfl

theorem foldl_follow_some (search : Str → Search → Search × Option (List Str)) (imports : List Str) (s : Search)
    (cycle : List Str) : imports.foldl (follow search) (s, some cycle) = (s, some cycle) := by
  induction imports with
  | nil => rfl
  | cons next imports ih => exact ih

/-! ### What holds of the search -/

/-- The walk is one, its modules are visited, and what is visited besides is done. -/
structure Searching (nodes : Map Str (List Str)) (s : Search) : Prop where
  onStack : ∀ n, n ∈ s.onStack ↔ n ∈ s.stack
  nodup : s.stack.Nodup
  visited : ∀ n ∈ s.stack, n ∈ s.visited
  walk : s.stack.IsChain (Edge nodes)
  done : ∀ n ∈ s.visited, n ∉ s.stack → Done (Edge nodes) n

theorem searching_start (nodes : Map Str (List Str)) : Searching nodes ⟨∅, [], ∅⟩ where
  onStack n := by simp
  nodup := List.nodup_nil
  visited n hn := absurd hn List.not_mem_nil
  walk := List.isChain_nil
  done n hn := absurd hn (Finset.notMem_empty n)

/-- An import of the last module of the walk, not visited yet, makes the walk longer. -/
theorem Searching.enter {s : Search} (h : Searching nodes s) {node : Str} (hnew : node ∉ s.visited)
    (hlast : ∀ last ∈ s.stack.getLast?, Edge nodes last node) : Searching nodes (enter node s) where
  onStack n := by
    rw [Dx.enter, Finset.mem_insert, h.onStack, List.mem_append, List.mem_singleton, or_comm]
  nodup := by
    refine List.Nodup.append h.nodup (List.nodup_singleton node) (List.disjoint_singleton.mpr ?_)
    exact fun hmem => hnew (h.visited node hmem)
  visited n hn := by
    rcases List.mem_append.mp hn with hn | hn
    · exact Finset.mem_insert_of_mem (h.visited n hn)
    · rw [List.mem_singleton.mp hn]
      exact Finset.mem_insert_self node s.visited
  walk := by
    refine h.walk.append (List.isChain_singleton node) fun last hin b hb => ?_
    obtain rfl := Option.some.inj hb
    exact hlast last hin
  done n hn hwalk := by
    rw [Dx.enter, List.mem_append, List.mem_singleton, not_or] at hwalk
    exact h.done n ((Finset.mem_insert.mp hn).resolve_left hwalk.2) hwalk.1

/-- A module whose imports are all done is left, and is done. -/
theorem Searching.leave {s : Search} (h : Searching nodes s) {node : Str} {walk : List Str}
    (hstack : s.stack = walk ++ [node]) (hnode : Done (Edge nodes) node) :
    Searching nodes ⟨s.visited, s.stack.dropLast, s.onStack.erase node⟩ := by
  have hnodup := h.nodup
  rw [hstack] at hnodup
  have hnotmem : node ∉ walk := fun hmem => List.disjoint_of_nodup_append hnodup hmem (List.mem_singleton.mpr rfl)
  have hmem : ∀ n, n ∈ s.stack ↔ n ∈ walk ∨ n = node := fun n => by
    rw [hstack, List.mem_append, List.mem_singleton]
  have hdrop : s.stack.dropLast = walk := by rw [hstack, List.dropLast_concat]
  refine ⟨fun n => ?_, ?_, fun n hn => ?_, ?_, fun n hn hwalk => ?_⟩
  · rw [Finset.mem_erase, h.onStack, hmem, hdrop]
    refine ⟨fun ⟨hne, hn⟩ => hn.resolve_right hne, fun hn => ⟨?_, .inl hn⟩⟩
    rintro rfl
    exact hnotmem hn
  · rw [hdrop]
    exact hnodup.of_append_left
  · rw [hdrop] at hn
    exact h.visited n ((hmem n).mpr (.inl hn))
  · exact h.walk.dropLast
  · rw [hdrop] at hwalk
    by_cases heq : n = node
    · exact heq ▸ hnode
    · exact h.done n hn fun hin => ((hmem n).mp hin).elim hwalk heq

/-! ### A search -/

/-- What a search comes to: it has found a cycle, or it leaves the walk as it was, and what it was asked for is
    visited and done. -/
def Comes (nodes : Map Str (List Str)) (asked : List Str) (s : Search) : Search × Option (List Str) → Prop
  | (_, some cycle) => IsCycle (Edge nodes) cycle
  | (s', none) => Searching nodes s' ∧ s'.stack = s.stack ∧ s.visited ⊆ s'.visited ∧
      ∀ n ∈ asked, n ∈ s'.visited ∧ n ∉ s'.stack

/-- The modules that are left to visit; an import of one is one. -/
structure Within (nodes : Map Str (List Str)) (names : Finset Str) : Prop where
  closed : ∀ a ∈ names, ∀ b, Edge nodes a b → b ∈ names

section search

variable {names : Finset Str} {search : Str → Search → Search × Option (List Str)} {depth : ℕ}

/-- The loop over the imports, as long as calls come to what they should. -/
theorem foldl_follow_spec {node : Str} {walk : List Str} {imports : List Str} {s : Search}
    (hsearch : ∀ next s, Searching nodes s → next ∈ names → next ∉ s.visited →
      (∀ last ∈ s.stack.getLast?, Edge nodes last next) → (names \ s.visited).card ≤ depth →
        Comes nodes [next] s (search next s))
    (hnames : ∀ next ∈ imports, next ∈ names) (himports : ∀ next ∈ imports, Edge nodes node next)
    (hs : Searching nodes s) (hstack : s.stack = walk ++ [node]) (hdepth : (names \ s.visited).card ≤ depth) :
    Comes nodes imports s (imports.foldl (follow search) (s, none)) := by
  induction imports generalizing s with
  | nil => exact ⟨hs, rfl, subset_rfl, fun n hn => absurd hn List.not_mem_nil⟩
  | cons next imports ih =>
    have hlast : ∀ last ∈ s.stack.getLast?, Edge nodes last next := by
      rw [hstack, List.getLast?_concat]
      rintro last hin
      exact Option.some.inj hin ▸ himports next List.mem_cons_self
    have hstep : Comes nodes [next] s (follow search (s, none) next) := by
      rw [follow]
      simp only [Option.isSome_none, Bool.false_eq_true, if_false]
      split_ifs with hvisited hwalk
      · exact isCycle_of_back_edge hs.walk hlast ((hs.onStack next).mp hwalk)
      · refine ⟨hs, rfl, subset_rfl, fun n hn => ?_⟩
        obtain rfl := List.mem_singleton.mp hn
        exact ⟨hvisited, fun hmem => hwalk ((hs.onStack n).mpr hmem)⟩
      · exact hsearch next s hs (hnames next List.mem_cons_self) hvisited hlast hdepth
    rw [List.foldl_cons]
    generalize follow search (s, none) next = outcome at hstep ⊢
    obtain ⟨s', _ | cycle⟩ := outcome
    · obtain ⟨hs', hstack', hgrows, hasked⟩ := hstep
      have hrest : Comes nodes imports s' (imports.foldl (follow search) (s', none)) :=
        ih (fun n hn => hnames n (List.mem_cons_of_mem next hn)) (fun n hn => himports n (List.mem_cons_of_mem next hn))
          hs' (hstack'.trans hstack) ((Finset.card_le_card (Finset.sdiff_subset_sdiff subset_rfl hgrows)).trans hdepth)
      generalize imports.foldl (follow search) (s', none) = outcome at hrest ⊢
      obtain ⟨s'', _ | cycle⟩ := outcome
      · obtain ⟨hs'', hstack'', hgrows', hasked'⟩ := hrest
        refine ⟨hs'', hstack''.trans hstack', hgrows.trans hgrows', fun n hn => ?_⟩
        rcases List.mem_cons.mp hn with rfl | hn
        · obtain ⟨hvisited, hout⟩ := hasked n (List.mem_singleton.mpr rfl)
          exact ⟨hgrows' hvisited, hstack''.symm ▸ hout⟩
        · exact hasked' n hn
      · exact hrest
    · rw [foldl_follow_some]
      exact hstep

/-- A module that is entered is not left to visit. -/
theorem card_enter_lt {node : Str} {s : Search} (hnode : node ∈ names) (hnew : node ∉ s.visited) :
    (names \ (enter node s).visited).card < (names \ s.visited).card := by
  refine Finset.card_lt_card ⟨Finset.sdiff_subset_sdiff subset_rfl (Finset.subset_insert node s.visited), ?_⟩
  intro hsub
  have hmem := hsub (Finset.mem_sdiff.mpr ⟨hnode, hnew⟩)
  exact (Finset.mem_sdiff.mp hmem).2 (Finset.mem_insert_self node s.visited)

/-- A call from the end of the walk, with a depth for each module that is not visited yet. -/
theorem dfs_spec (hwithin : Within nodes names) : ∀ (depth : ℕ) (node : Str) (s : Search), Searching nodes s →
    node ∈ names → node ∉ s.visited → (∀ last ∈ s.stack.getLast?, Edge nodes last node) →
      (names \ s.visited).card ≤ depth → Comes nodes [node] s (dfsFindCycle nodes depth node s) := by
  intro depth
  induction depth with
  | zero =>
    intro node s hs hnode hnew hlast hdepth
    have hempty := Finset.card_eq_zero.mp (Nat.le_zero.mp hdepth)
    exact absurd (Finset.mem_sdiff.mpr ⟨hnode, hnew⟩) (by rw [hempty]; exact Finset.notMem_empty node)
  | succ depth ih =>
    intro node s hs hnode hnew hlast hdepth
    have hless : (names \ (enter node s).visited).card ≤ depth := by
      have hlt := card_enter_lt hnode hnew
      omega
    have hloop : Comes nodes ((nodes.get? node).getD []) (enter node s)
        (((nodes.get? node).getD []).foldl (follow (dfsFindCycle nodes depth)) (enter node s, none)) :=
      foldl_follow_spec ih (fun next hnext => hwithin.closed node hnode next hnext) (fun next hnext => hnext)
        (hs.enter hnew hlast) rfl hless
    rw [dfsFindCycle_succ]
    generalize ((nodes.get? node).getD []).foldl (follow (dfsFindCycle nodes depth)) (enter node s, none) =
      outcome at hloop ⊢
    obtain ⟨s', _ | cycle⟩ := outcome
    · obtain ⟨hs', hstack, hgrows, hasked⟩ := hloop
      have hdone : Done (Edge nodes) node := .intro node fun next hnext =>
        hs'.done next (hasked next hnext).1 (hasked next hnext).2
      have hwalk : s'.stack.dropLast = s.stack := by rw [hstack, enter, List.dropLast_concat]
      refine ⟨hs'.leave hstack hdone, hwalk, (Finset.subset_insert node s.visited).trans hgrows, fun n hn => ?_⟩
      obtain rfl := List.mem_singleton.mp hn
      refine ⟨hgrows (Finset.mem_insert_self n s.visited), fun hmem => hnew (hs.visited n ?_)⟩
      rwa [hwalk] at hmem
    · exact hloop

/-! ### The depth -/

theorem visited_foldl_follow (hsearch : ∀ next s, s.visited ⊆ (search next s).1.visited) (imports : List Str)
    (outcome : Search × Option (List Str)) :
    outcome.1.visited ⊆ (imports.foldl (follow search) outcome).1.visited := by
  induction imports generalizing outcome with
  | nil => exact subset_rfl
  | cons next imports ih =>
    obtain ⟨s, found⟩ := outcome
    have hstep : s.visited ⊆ (follow search (s, found) next).1.visited := by
      rw [follow]
      split_ifs
      · exact subset_rfl
      · exact subset_rfl
      · exact subset_rfl
      · exact hsearch next s
    exact hstep.trans (ih _)

/-- What is visited stays so. -/
theorem visited_dfs (nodes : Map Str (List Str)) (depth : ℕ) (node : Str) (s : Search) :
    s.visited ⊆ (dfsFindCycle nodes depth node s).1.visited := by
  induction depth generalizing node s with
  | zero => exact subset_rfl
  | succ depth ih =>
    have hloop := visited_foldl_follow ih ((nodes.get? node).getD []) (enter node s, none)
    rw [dfsFindCycle_succ]
    generalize ((nodes.get? node).getD []).foldl (follow (dfsFindCycle nodes depth)) (enter node s, none) =
      outcome at hloop ⊢
    obtain ⟨s', _ | cycle⟩ := outcome <;> exact (Finset.subset_insert node s.visited).trans hloop

theorem foldl_follow_congr {search' : Str → Search → Search × Option (List Str)} {imports : List Str}
    {base : Finset Str} {outcome : Search × Option (List Str)}
    (hgrows : ∀ next s, s.visited ⊆ (search next s).1.visited)
    (h : ∀ next s, next ∈ imports → base ⊆ s.visited → next ∉ s.visited → search' next s = search next s)
    (hbase : base ⊆ outcome.1.visited) :
    imports.foldl (follow search') outcome = imports.foldl (follow search) outcome := by
  induction imports generalizing outcome with
  | nil => rfl
  | cons next imports ih =>
    have hstep : follow search' outcome next = follow search outcome next := by
      rw [follow, follow]
      split_ifs with hfound hnew
      · rfl
      · rfl
      · rfl
      · exact h next outcome.1 List.mem_cons_self hbase hnew
    rw [List.foldl_cons, List.foldl_cons, hstep]
    exact ih (fun n s hn => h n s (List.mem_cons_of_mem next hn))
      (hbase.trans (visited_foldl_follow hgrows [next] outcome))

theorem dfs_succ (hwithin : Within nodes names) (depth : ℕ) (node : Str) (s : Search) (hnode : node ∈ names)
    (hnew : node ∉ s.visited) (hdepth : (names \ s.visited).card ≤ depth) :
    dfsFindCycle nodes (depth + 1) node s = dfsFindCycle nodes depth node s := by
  induction depth generalizing node s with
  | zero =>
    have hempty := Finset.card_eq_zero.mp (Nat.le_zero.mp hdepth)
    exact absurd (Finset.mem_sdiff.mpr ⟨hnode, hnew⟩) (by rw [hempty]; exact Finset.notMem_empty node)
  | succ depth ih =>
    have hless := card_enter_lt hnode hnew
    rw [dfsFindCycle_succ, dfsFindCycle_succ]
    refine congrArg (leave node) (foldl_follow_congr (visited_dfs nodes depth) ?_
      (subset_refl (enter node s).visited))
    intro next s' hnext hbase hnew'
    refine ih next s' (hwithin.closed node hnode next hnext) hnew' ?_
    have hle := Finset.card_le_card (Finset.sdiff_subset_sdiff (subset_refl names) hbase)
    omega

/-- As many calls within one another as modules are left are enough. -/
theorem dfs_enough (hwithin : Within nodes names) {enough depth : ℕ} {node : Str} {s : Search} (hnode : node ∈ names)
    (hnew : node ∉ s.visited) (henough : (names \ s.visited).card ≤ enough) (hdepth : enough ≤ depth) :
    dfsFindCycle nodes depth node s = dfsFindCycle nodes enough node s := by
  induction depth, hdepth using Nat.le_induction with
  | base => rfl
  | succ depth hle ih => exact (dfs_succ hwithin depth node s hnode hnew (henough.trans hle)).trans ih

end search

/-! ### All the modules -/

/-- The loop of `check_cycles` over the modules to start from. -/
def searchRoots (nodes : Map Str (List Str)) (depth : ℕ) (roots : List ModuleDescriptor) :
    Search × Option (List Str) :=
  roots.foldl
    (fun (s, found) m =>
      if found.isSome ∨ m.name ∈ s.visited then (s, found) else dfsFindCycle nodes depth m.name s)
    ((⟨∅, [], ∅⟩ : Search), none)

theorem checkCycles_eq (modules : List ModuleDescriptor) : checkCycles modules =
    match (searchRoots (moduleNodeMap modules) modules.length modules).2 with
    | some cycle => .error (.circularDependency cycle)
    | none => .ok () := rfl

section roots

variable {names : Finset Str} {depth : ℕ}

theorem searchRoots_concat (nodes : Map Str (List Str)) (depth : ℕ) (roots : List ModuleDescriptor)
    (m : ModuleDescriptor) : searchRoots nodes depth (roots ++ [m]) =
      if (searchRoots nodes depth roots).2.isSome ∨ m.name ∈ (searchRoots nodes depth roots).1.visited then
        searchRoots nodes depth roots
      else dfsFindCycle nodes depth m.name (searchRoots nodes depth roots).1 := by
  rw [searchRoots, List.foldl_append, ← searchRoots]
  rfl

/-- After each of the modules the walk is empty, or a cycle is found. -/
theorem searchRoots_spec (hwithin : Within nodes names) (hdepth : names.card ≤ depth)
    (roots : List ModuleDescriptor) (hroots : ∀ m ∈ roots, m.name ∈ names) :
    Comes nodes (roots.map (·.name)) ⟨∅, [], ∅⟩ (searchRoots nodes depth roots) := by
  induction roots using List.reverseRecOn with
  | nil => exact ⟨searching_start nodes, rfl, subset_rfl, fun n hn => absurd hn List.not_mem_nil⟩
  | append_singleton roots m ih =>
    have hbefore := ih fun r hr => hroots r (List.mem_append_left [m] hr)
    have hm : m.name ∈ names := hroots m (List.mem_append_right roots List.mem_cons_self)
    rw [searchRoots_concat]
    generalize searchRoots nodes depth roots = outcome at hbefore ⊢
    obtain ⟨s, _ | cycle⟩ := outcome
    · obtain ⟨hs, hstack, hgrows, hasked⟩ := hbefore
      have hstack : s.stack = [] := hstack
      simp only [Option.isSome_none, Bool.false_eq_true, false_or]
      split_ifs with hvisited
      · refine ⟨hs, hstack, hgrows, fun n hn => ?_⟩
        rw [List.map_append, List.mem_append, List.map_singleton, List.mem_singleton] at hn
        rcases hn with hn | rfl
        · exact hasked n hn
        · exact ⟨hvisited, by rw [hstack]; exact List.not_mem_nil⟩
      · have hlast : ∀ last ∈ s.stack.getLast?, Edge nodes last m.name := by
          rw [hstack]
          exact fun _ h => absurd h (by simp)
        have hcall := dfs_spec hwithin depth m.name s hs hm hvisited hlast
          ((Finset.card_le_card Finset.sdiff_subset).trans hdepth)
        generalize dfsFindCycle nodes depth m.name s = outcome at hcall ⊢
        obtain ⟨s', _ | cycle⟩ := outcome
        · obtain ⟨hs', hstack', hgrows', hasked'⟩ := hcall
          refine ⟨hs', hstack'.trans hstack, hgrows.trans hgrows', fun n hn => ?_⟩
          rw [List.map_append, List.mem_append, List.map_singleton, List.mem_singleton] at hn
          rcases hn with hn | rfl
          · exact ⟨hgrows' (hasked n hn).1, by rw [hstack', hstack]; exact List.not_mem_nil⟩
          · exact hasked' _ (List.mem_singleton.mpr rfl)
        · exact hcall
    · exact hbefore

theorem searchRoots_enough (hwithin : Within nodes names) (hdepth : names.card ≤ depth) {more : ℕ}
    (hmore : depth ≤ more) (roots : List ModuleDescriptor) (hroots : ∀ m ∈ roots, m.name ∈ names) :
    searchRoots nodes more roots = searchRoots nodes depth roots := by
  induction roots using List.reverseRecOn with
  | nil => rfl
  | append_singleton roots m ih =>
    have hm : m.name ∈ names := hroots m (List.mem_append_right roots List.mem_cons_self)
    rw [searchRoots_concat, searchRoots_concat, ih fun r hr => hroots r (List.mem_append_left [m] hr)]
    split_ifs with hdone
    · rfl
    · exact dfs_enough hwithin hm (fun hvisited => hdone (.inr hvisited))
        ((Finset.card_le_card Finset.sdiff_subset).trans hdepth) hmore

end roots

/-! ### The relation of imports -/

/-- A module of the list imports a name. -/
def Imports (modules : List ModuleDescriptor) (a b : Str) : Prop := ∃ m ∈ modules, m.name = a ∧ b ∈ m.imports

section imports

variable {modules : List ModuleDescriptor}

theorem get?_foldl_insert (modules : List ModuleDescriptor) (nodes : Map Str (List Str))
    (h : (modules.map (·.name)).Nodup) :
    (∀ m ∈ modules, (modules.foldl (fun nodes m => nodes.insert m.name m.imports) nodes).get? m.name =
      some m.imports) ∧
    ∀ a, a ∉ modules.map (·.name) →
      (modules.foldl (fun nodes m => nodes.insert m.name m.imports) nodes).get? a = nodes.get? a := by
  induction modules generalizing nodes with
  | nil => exact ⟨fun m hm => absurd hm List.not_mem_nil, fun a _ => rfl⟩
  | cons m modules ih =>
    rw [List.map_cons, List.nodup_cons] at h
    obtain ⟨hin, hout⟩ := ih (nodes.insert m.name m.imports) h.2
    refine ⟨fun m' hm' => ?_, fun a ha => ?_⟩
    · rcases List.mem_cons.mp hm' with rfl | hm'
      · rw [List.foldl_cons, hout m'.name h.1, Map.get?_insert, if_pos rfl]
      · exact hin m' hm'
    · rw [List.map_cons, List.mem_cons, not_or] at ha
      rw [List.foldl_cons, hout a ha.2, Map.get?_insert, if_neg ha.1]

/-- The map of the modules has their imports, as their names are different. -/
theorem edge_iff (hnames : (modules.map (·.name)).Nodup) (a b : Str) :
    Edge (moduleNodeMap modules) a b ↔ Imports modules a b := by
  obtain ⟨hin, hout⟩ := get?_foldl_insert modules .empty hnames
  rw [Edge, moduleNodeMap]
  constructor
  · intro h
    by_cases ha : a ∈ modules.map (·.name)
    · obtain ⟨m, hm, rfl⟩ := List.mem_map.mp ha
      rw [hin m hm] at h
      exact ⟨m, hm, rfl, h⟩
    · rw [hout a ha, Map.get?_empty] at h
      exact absurd h List.not_mem_nil
  · rintro ⟨m, hm, rfl, hb⟩
    rw [hin m hm]
    exact hb

theorem edge_eq (hnames : (modules.map (·.name)).Nodup) : Edge (moduleNodeMap modules) = Imports modules :=
  funext fun a => funext fun b => propext (edge_iff hnames a b)

theorem within_names (hnames : (modules.map (·.name)).Nodup)
    (himports : ∀ m ∈ modules, ∀ i ∈ m.imports, i ∈ modules.map (·.name)) :
    Within (moduleNodeMap modules) (modules.map (·.name)).toFinset where
  closed a _ b hedge := by
    obtain ⟨m, hm, -, hb⟩ := (edge_iff hnames a b).mp hedge
    exact List.mem_toFinset.mpr (himports m hm b hb)

theorem checkDuplicates_of_nodup {seen : Finset Str} (h : (modules.map (·.name)).Nodup)
    (hseen : ∀ m ∈ modules, m.name ∉ seen) : checkDuplicates seen modules = .ok () := by
  induction modules generalizing seen with
  | nil => rfl
  | cons m modules ih =>
    rw [List.map_cons, List.nodup_cons] at h
    rw [checkDuplicates, if_neg (hseen m List.mem_cons_self)]
    refine ih h.2 fun m' hm' hmem => ?_
    rcases Finset.mem_insert.mp hmem with heq | hmem
    · exact h.1 (heq ▸ List.mem_map_of_mem hm')
    · exact hseen m' (List.mem_cons_of_mem m hm') hmem

theorem checkUnknownImports_of_known (h : ∀ m ∈ modules, ∀ i ∈ m.imports, i ∈ modules.map (·.name)) :
    checkUnknownImports modules = .ok () := by
  have hnone : (modules.findSome? fun m =>
      (m.imports.find? (· ∉ (modules.map (·.name)).toFinset)).map (m.name, ·)) = none := by
    refine List.findSome?_eq_none_iff.mpr fun m hm => ?_
    rw [Option.map_eq_none_iff, List.find?_eq_none]
    intro i hi
    simpa using h m hm i hi
  rw [checkUnknownImports, hnone]

/-- What is left to check of modules with names of their own and imports that are names. -/
theorem applicationGraph_eq (hnames : (modules.map (·.name)).Nodup)
    (himports : ∀ m ∈ modules, ∀ i ∈ m.imports, i ∈ modules.map (·.name)) :
    applicationGraph modules = (checkCycles modules).map fun _ => modules := by
  rw [applicationGraph, checkDuplicates_of_nodup hnames fun m _ => Finset.notMem_empty m.name,
    checkUnknownImports_of_known himports]
  cases hcycles : checkCycles modules <;> simp [bind, Except.bind, pure, Except.pure, Except.map]

theorem card_names_le (modules : List ModuleDescriptor) :
    (modules.map (·.name)).toFinset.card ≤ modules.length := by
  simpa using (modules.map (·.name)).toFinset_card_le

/-- The search over the first modules of the list. -/
theorem searchRoots_comes (hnames : (modules.map (·.name)).Nodup)
    (himports : ∀ m ∈ modules, ∀ i ∈ m.imports, i ∈ modules.map (·.name)) {roots : List ModuleDescriptor}
    (hroots : roots <+: modules) : Comes (moduleNodeMap modules) (roots.map (·.name)) ⟨∅, [], ∅⟩
      (searchRoots (moduleNodeMap modules) modules.length roots) :=
  searchRoots_spec (within_names hnames himports) (card_names_le modules) roots fun _ hm =>
    List.mem_toFinset.mpr (List.mem_map_of_mem (hroots.subset hm))

/-- Accepted without a cycle, or refused with one. -/
theorem applicationGraph_cases (hnames : (modules.map (·.name)).Nodup)
    (himports : ∀ m ∈ modules, ∀ i ∈ m.imports, i ∈ modules.map (·.name)) :
    (applicationGraph modules = .ok modules ∧ Acyclic (Imports modules)) ∨
    ∃ cycle, applicationGraph modules = .error (.circularDependency cycle) ∧ IsCycle (Imports modules) cycle := by
  have hall := searchRoots_comes hnames himports List.prefix_rfl
  rw [applicationGraph_eq hnames himports, checkCycles_eq]
  generalize searchRoots (moduleNodeMap modules) modules.length modules = outcome at hall ⊢
  obtain ⟨s, _ | cycle⟩ := outcome
  · obtain ⟨hs, -, -, hvisited⟩ := hall
    refine .inl ⟨rfl, acyclic_of_done fun a b hedge => ?_⟩
    obtain ⟨m, hm, rfl, -⟩ := id hedge
    obtain ⟨hin, hout⟩ := hvisited m.name (List.mem_map_of_mem hm)
    exact edge_eq hnames ▸ hs.done m.name hin hout
  · exact .inr ⟨cycle, rfl, edge_eq hnames ▸ hall⟩

/-- For modules with names of their own that import each other: they are accepted exactly if no module leads
    back to itself, what is reported is a cycle of imports, and the search ends, after each module it starts
    from, with an empty walk or a cycle, with no call deeper than there are modules. -/
theorem applicationGraph_acyclic (hnames : (modules.map (·.name)).Nodup)
    (himports : ∀ m ∈ modules, ∀ i ∈ m.imports, i ∈ modules.map (·.name)) :
    (applicationGraph modules = .ok modules ↔ Acyclic (Imports modules)) ∧
    (∀ error, applicationGraph modules = .error error → ∃ cycle, error = .circularDependency cycle ∧
      2 ≤ cycle.length ∧ cycle.head? = cycle.getLast? ∧ cycle.IsChain (Imports modules)) ∧
    ∀ roots, roots <+: modules →
      (∀ depth, modules.length ≤ depth → searchRoots (moduleNodeMap modules) depth roots =
        searchRoots (moduleNodeMap modules) modules.length roots) ∧
      ((searchRoots (moduleNodeMap modules) modules.length roots).2 = none →
        (searchRoots (moduleNodeMap modules) modules.length roots).1.stack = []) := by
  refine ⟨?_, ?_, fun roots hroots => ⟨fun depth hdepth => ?_, fun hnone => ?_⟩⟩
  · rcases applicationGraph_cases hnames himports with ⟨heq, hacyclic⟩ | ⟨cycle, heq, hcycle⟩
    · exact ⟨fun _ => hacyclic, fun _ => heq⟩
    · exact ⟨fun h => absurd (heq.symm.trans h) nofun, fun h => absurd h hcycle.not_acyclic⟩
  · intro error herror
    rcases applicationGraph_cases hnames himports with ⟨heq, -⟩ | ⟨cycle, heq, hcycle⟩
    · exact absurd (heq.symm.trans herror) nofun
    · exact ⟨cycle, (Except.error.inj (heq.symm.trans herror)).symm, hcycle.two_le, hcycle.closed, hcycle.edges⟩
  · exact searchRoots_enough (within_names hnames himports) (card_names_le modules) hdepth roots fun m hm =>
      List.mem_toFinset.mpr (List.mem_map_of_mem (hroots.subset hm))
  · have hroot := searchRoots_comes hnames himports hroots
    generalize searchRoots (moduleNodeMap modules) modules.length roots = outcome at hroot hnone ⊢
    obtain ⟨s, found⟩ := outcome
    obtain rfl : found = none := hnone
    exact hroot.2.1

/-- Two modules that import each other, and one that imports both. -/
def shopModules : List ModuleDescriptor :=
  [{ name := "Site".toList, imports := ["Shop".toList, "Cart".toList] },
   { name := "Shop".toList, imports := ["Cart".toList] },
   { name := "Cart".toList, imports := ["Shop".toList] }]

/-- The second and the third lead back to themselves, so the list is not accepted. -/
theorem shop_refused : applicationGraph shopModules ≠ .ok shopModules := by
  have hnames : (shopModules.map (·.name)).Nodup := by decide
  have himports : ∀ m ∈ shopModules, ∀ i ∈ m.imports, i ∈ shopModules.map (·.name) := by decide
  have hexact := (applicationGraph_acyclic hnames himports).1
  refine fun hok => hexact.mp hok "Shop".toList (.tail (.single (b := "Cart".toList) ?_) ?_)
  · exact ⟨_, List.mem_cons_of_mem _ List.mem_cons_self, rfl, List.mem_cons_self⟩
  · exact ⟨_, List.mem_cons_of_mem _ (List.mem_cons_of_mem _ List.mem_cons_self), rfl, List.mem_cons_self⟩

end imports

end Arcature.Dx
