import Arcature.Lib.OrdMap
import Arcature.Lib.Requirement
import Arcature.Lib.Text
import Mathlib.Data.Char

/-! The stylesheets of a page (`assets.rs`).

    A manifest says which stylesheets a chunk has, and which chunks it imports. Those of an entry are
    collected along the imports, from a list of chunks that are still to be looked at:

        app → shared      collected:     app.css, shared.css
                          in the order of dependency:  shared.css, app.css

    Every stylesheet is found, and none twice (`collectCss_spec`). But a chunk is done with before what it
    imports, and the chunks it imports are taken from the end of the list, so that the order is the one
    that is promised only where one chunk has all the stylesheets (`css_collected`). -/

namespace Arcature
open Arcature.Lib Arcature.Lib.Requirement

/-- `Chunk`. -/
structure Assets.Chunk where
  file : Str
  css : List Str
  imports : List Str
  deriving DecidableEq

/-- `Resolver`. -/
inductive Assets.Resolver where
  | dev
  | manifest (chunks : OrdMap Str Assets.Chunk)

/-- `Assets`, as far as entries are resolved with it. -/
structure Assets where
  resolver : Assets.Resolver
  urlPrefix : Str

/-- `EntryAssets`. -/
structure Assets.EntryAssets where
  js : Str
  css : List Str
  deriving DecidableEq

namespace Assets

/-- The imports of a manifest as a graph. A key that is missing from it imports nothing. -/
def graph (chunks : OrdMap Str Chunk) : Graph Str where
  nodes := chunks.entries.map Prod.fst
  edges key := (chunks.get? key).elim [] Chunk.imports
  edges_eq_nil key h := by
    rw [OrdMap.mem_keys_iff, Bool.not_eq_true, Option.isSome_eq_false_iff, Option.isNone_iff_eq_none] at h
    rw [h, Option.elim_none]

/-- `url`. -/
def url (self : Assets) (file : Str) : Str := self.urlPrefix ++ "/".toList ++ file.dropWhile (· = '/')

/-- A stylesheet of a chunk is put behind the ones that are there, if it is not one of them. -/
def pushCss (self : Assets) (out : List Str) (css : Str) : List Str :=
  if self.url css ∈ out then out else out ++ [self.url css]

/-- The loop of `collect_css`. The end of `queue` is the head of the list. -/
def collectCssLoop (self : Assets) (chunks : OrdMap Str Chunk) (out seen : List Str) : List Str → List Str
  | [] => out
  | key :: queue =>
    if key ∈ seen then self.collectCssLoop chunks out seen queue
    else match _h : chunks.get? key with
      | none => self.collectCssLoop chunks out (key :: seen) queue
      | some chunk =>
        self.collectCssLoop chunks (chunk.css.foldl self.pushCss out) (key :: seen) (chunk.imports.reverse ++ queue)
termination_by queue => ((graph chunks).left seen, queue.length)
decreasing_by
  · exact Prod.Lex.right _ (Nat.lt_succ_self _)
  · rw [(graph chunks).left_cons_eq]
    · exact Prod.Lex.right _ (Nat.lt_succ_self _)
    · rw [graph, OrdMap.mem_keys_iff, _h]
      exact Bool.false_ne_true
  · refine Prod.Lex.left _ _ ((graph chunks).left_cons_lt ?_ ‹_›)
    rw [graph, OrdMap.mem_keys_iff, _h]
    rfl

/-- `collect_css`. -/
def collectCss (self : Assets) (chunks : OrdMap Str Chunk) (entry : Str) : List Str :=
  self.collectCssLoop chunks [] [] [entry]

/-- `resolve`. -/
def resolve (self : Assets) (entry : Str) : Option EntryAssets :=
  match self.resolver with
  | .dev => some ⟨"/".toList ++ entry.dropWhile (· = '/'), []⟩
  | .manifest chunks => (chunks.get? entry).map fun chunk => ⟨self.url chunk.file, self.collectCss chunks entry⟩

/-- The stylesheets of a chunk, as they are linked. -/
def urls (self : Assets) (chunks : OrdMap Str Chunk) (key : Str) : List Str :=
  (chunks.get? key).elim [] fun chunk => chunk.css.map self.url

/-- The stylesheets of an entry in the order of dependency: those of what a chunk imports in the order it lists it,
    then its own, and each where it is first required. -/
def inOrder (self : Assets) (chunks : OrdMap Str Chunk) (entry : Str) : List Str :=
  addNew [] (((graph chunks).required [] entry).flatMap (self.urls chunks))

/-- At most one of the chunks that an entry leads to has stylesheets. -/
def OneStyled (self : Assets) (chunks : OrdMap Str Chunk) (entry : Str) : Prop :=
  ∀ a b, (graph chunks).Reaches entry a → (graph chunks).Reaches entry b →
    self.urls chunks a ≠ [] → self.urls chunks b ≠ [] → a = b

/-! ### What has been collected -/

/-- What the loop of `collect_css` keeps to. -/
structure Collecting (assets : Assets) (chunks : OrdMap Str Chunk) (entry : Str) (out seen queue : List Str) :
    Prop where
  nodup : seen.Nodup
  out_eq : out = addNew [] (seen.reverse.flatMap (assets.urls chunks))
  reached : ∀ key ∈ seen ++ queue, (graph chunks).Reaches entry key
  followed : ∀ key ∈ seen, ∀ next ∈ (graph chunks).edges key, next ∈ seen ++ queue
  start : (seen.reverse ++ queue).head? = some entry

theorem Collecting.skip {assets : Assets} {chunks : OrdMap Str Chunk} {entry key : Str} {out seen queue : List Str}
    (h : Collecting assets chunks entry out seen (key :: queue)) (hseen : key ∈ seen) :
    Collecting assets chunks entry out seen queue := by
  have hmem : ∀ x ∈ seen ++ key :: queue, x ∈ seen ++ queue := by
    intro x hx
    obtain hx | hx := List.mem_append.mp hx
    · exact List.mem_append_left _ hx
    · obtain rfl | hx := List.mem_cons.mp hx
      · exact List.mem_append_left _ hseen
      · exact List.mem_append_right _ hx
  have hne : seen.reverse ≠ [] := List.reverse_ne_nil_iff.mpr (List.ne_nil_of_mem hseen)
  refine ⟨h.nodup, h.out_eq, fun x hx => h.reached x ?_,
    fun x hx next hnext => hmem next (h.followed x hx next hnext), ?_⟩
  · exact List.Sublist.subset (List.Sublist.append_left (List.sublist_cons_self _ _) _) hx
  · rw [List.head?_append_of_ne_nil _ hne, ← h.start, List.head?_append_of_ne_nil _ hne]

/-- A chunk is looked at that has not been. -/
theorem Collecting.look {assets : Assets} {chunks : OrdMap Str Chunk} {entry key : Str} {out seen queue : List Str}
    (h : Collecting assets chunks entry out seen (key :: queue)) (hseen : key ∉ seen) :
    Collecting assets chunks entry (addNew out (assets.urls chunks key)) (key :: seen)
      (((graph chunks).edges key).reverse ++ queue) := by
  have hkey : (graph chunks).Reaches entry key := h.reached key (List.mem_append_right _ List.mem_cons_self)
  refine ⟨List.nodup_cons.mpr ⟨hseen, h.nodup⟩, ?_, ?_, ?_, ?_⟩
  · rw [List.reverse_cons, List.flatMap_append, addNew_append, ← h.out_eq, List.flatMap_singleton]
  · intro x hx
    simp only [List.cons_append, List.mem_cons, List.mem_append, List.mem_reverse] at hx
    rcases hx with rfl | hx | hx | hx
    · exact hkey
    · exact h.reached x (List.mem_append_left _ hx)
    · exact hkey.tail hx
    · exact h.reached x (List.mem_append_right _ (List.mem_cons_of_mem _ hx))
  · intro x hx next hnext
    simp only [List.cons_append, List.mem_cons, List.mem_append, List.mem_reverse]
    obtain rfl | hx := List.mem_cons.mp hx
    · exact .inr (.inr (.inl hnext))
    · have hfollowed := h.followed x hx next hnext
      rw [List.mem_append, List.mem_cons] at hfollowed
      tauto
  · rw [← h.start, List.reverse_cons, List.append_assoc, List.singleton_append]
    cases seen.reverse <;> rfl

/-- What a turn of the loop adds, and what it puts into the queue. -/
theorem look_eq (assets : Assets) {chunks : OrdMap Str Chunk} {key : Str} {chunk : Chunk}
    (hget : chunks.get? key = some chunk) (out : List Str) :
    addNew out (assets.urls chunks key) = chunk.css.foldl assets.pushCss out ∧
      (graph chunks).edges key = chunk.imports := by
  refine ⟨?_, congrArg (Option.elim · [] Chunk.imports) hget⟩
  rw [urls, hget, Option.elim_some, addNew, List.foldl_map]
  congr! 3 with out css
  unfold pushCss
  congr

theorem look_eq_none (assets : Assets) {chunks : OrdMap Str Chunk} {key : Str} (hget : chunks.get? key = none)
    (out : List Str) : addNew out (assets.urls chunks key) = out ∧ (graph chunks).edges key = [] := by
  refine ⟨?_, congrArg (Option.elim · [] Chunk.imports) hget⟩
  rw [urls, hget, Option.elim_none]
  rfl

theorem collectCssLoop_look (assets : Assets) (chunks : OrdMap Str Chunk) (out : List Str) {key : Str}
    {seen : List Str} (queue : List Str) (hseen : key ∉ seen) :
    assets.collectCssLoop chunks out seen (key :: queue) =
      assets.collectCssLoop chunks (addNew out (assets.urls chunks key)) (key :: seen)
        (((graph chunks).edges key).reverse ++ queue) := by
  rw [collectCssLoop, if_neg hseen]
  split
  next hget =>
    obtain ⟨hout, hedges⟩ := look_eq_none assets hget out
    rw [hout, hedges, List.reverse_nil, List.nil_append]
  next chunk hget =>
    obtain ⟨hout, hedges⟩ := look_eq assets hget out
    rw [hout, hedges]

theorem collectCssLoop_spec {assets : Assets} {chunks : OrdMap Str Chunk} {entry : Str} {out seen queue : List Str}
    (h : Collecting assets chunks entry out seen queue) :
    ∃ order, Collecting assets chunks entry (assets.collectCssLoop chunks out seen queue) order [] := by
  fun_induction collectCssLoop assets chunks out seen queue with
  | case1 out seen => exact ⟨seen, h⟩
  | case2 out seen key queue hseen ih => exact ih (h.skip hseen)
  | case3 out seen key queue hseen hget ih =>
    have hlook := h.look hseen
    obtain ⟨hout, hedges⟩ := look_eq_none assets hget out
    rw [hout, hedges] at hlook
    exact ih hlook
  | case4 out seen key queue hseen chunk hget ih =>
    have hlook := h.look hseen
    obtain ⟨hout, hedges⟩ := look_eq assets hget out
    rw [hout, hedges] at hlook
    exact ih hlook

/-- What is collected are the stylesheets of the chunks that the entry leads to, each chunk once and the entry first. -/
theorem collectCss_spec (assets : Assets) (chunks : OrdMap Str Chunk) (entry : Str) :
    ∃ order : List Str, order.Nodup ∧ order.head? = some entry ∧
      (∀ key, key ∈ order ↔ (graph chunks).Reaches entry key) ∧
      assets.collectCss chunks entry = addNew [] (order.flatMap (assets.urls chunks)) := by
  have hstart : Collecting assets chunks entry [] [] [entry] :=
    ⟨List.nodup_nil, rfl, fun key hkey => List.mem_singleton.mp hkey ▸ .refl,
      fun key hkey => absurd hkey List.not_mem_nil, rfl⟩
  obtain ⟨order, hnodup, hout, hreached, hfollowed, hhead⟩ := collectCssLoop_spec hstart
  rw [List.append_nil] at hhead hreached hfollowed
  refine ⟨order.reverse, List.nodup_reverse.mpr hnodup, hhead, fun key => ?_, hout⟩
  rw [List.mem_reverse]
  constructor
  · exact hreached key
  · intro hkey
    induction hkey with
    | refl => exact List.mem_reverse.mp (List.mem_of_head? hhead)
    | tail _ hedge ih => exact hfollowed _ ih _ hedge

/-! ### The order -/

/-- A stylesheet that only one chunk has comes behind those of what the chunk imports, unless there is a way back. -/
theorem inOrder_before (assets : Assets) {chunks : OrdMap Str Chunk} {entry c d u v : Str}
    (hc : (graph chunks).Reaches entry c) (himport : (graph chunks).Edge c d) (hback : ¬ (graph chunks).Reaches d c)
    (hu : u ∈ assets.urls chunks d) (hv : v ∈ assets.urls chunks c)
    (honly : ∀ key, v ∈ assets.urls chunks key → key = c) :
    ∃ before after, assets.inOrder chunks entry = before ++ v :: after ∧ u ∈ before := by
  -- Where the chunk is first required, what it imports has been, and the stylesheet has not.
  obtain ⟨before, after, hsplit, hfirst⟩ := List.eq_append_cons_of_mem ((graph chunks).mem_required_nil.mpr hc)
  have hd : d ∈ before :=
    (graph chunks).required_before himport hback (fun p hp => absurd hp List.not_mem_nil) hsplit
  have hvbefore : v ∉ addNew [] (before.flatMap (assets.urls chunks)) := by
    rw [mem_addNew, List.mem_flatMap]
    rintro (hnil | ⟨key, hkey, hvkey⟩)
    · exact List.not_mem_nil hnil
    · exact hfirst (honly key hvkey ▸ hkey)
  obtain ⟨new, hnew⟩ := prefix_addNew (addNew [] (before.flatMap (assets.urls chunks)))
    ((c :: after).flatMap (assets.urls chunks))
  have horder : assets.inOrder chunks entry = addNew [] (before.flatMap (assets.urls chunks)) ++ new := by
    rw [hnew, inOrder, hsplit, List.flatMap_append, addNew_append]
  have hvorder : v ∈ assets.inOrder chunks entry := by
    rw [inOrder, mem_addNew, hsplit]
    exact .inr (List.mem_flatMap.mpr ⟨c, List.mem_append_right _ List.mem_cons_self, hv⟩)
  rw [horder, List.mem_append] at hvorder
  obtain ⟨skipped, rest, hrest⟩ := List.append_of_mem (hvorder.resolve_left hvbefore)
  refine ⟨addNew [] (before.flatMap (assets.urls chunks)) ++ skipped, rest, ?_, ?_⟩
  · rw [horder, hrest, List.append_assoc]
  · exact List.mem_append_left _ (mem_addNew.mpr (.inr (List.mem_flatMap.mpr ⟨d, hd, hu⟩)))

/-- In the order of dependency, a stylesheet that only the entry has does not come first where something else that is
    required has stylesheets. -/
theorem inOrder_head (assets : Assets) {chunks : OrdMap Str Chunk} {entry key v : Str}
    (hkey : (graph chunks).Reaches entry key) (hne : key ≠ entry) (hstyled : assets.urls chunks key ≠ [])
    (honly : ∀ key, (graph chunks).Reaches entry key → key ≠ entry → v ∉ assets.urls chunks key) :
    (assets.inOrder chunks entry).head? ≠ some v := by
  have hrequired := (graph chunks).mem_required_nil.mpr hkey
  have hreached := fun x => ((graph chunks).mem_required_nil (k := entry) (x := x)).mp
  rw [(graph chunks).required_of_notMem List.not_mem_nil] at hrequired hreached
  rw [inOrder, head?_addNew, List.nil_append, (graph chunks).required_of_notMem List.not_mem_nil,
    List.flatMap_append]
  have himported : key ∈ ((graph chunks).edges entry).flatMap ((graph chunks).required [entry]) :=
    (List.mem_append.mp hrequired).resolve_right fun h => hne (List.mem_singleton.mp h)
  have hnonempty : (((graph chunks).edges entry).flatMap ((graph chunks).required [entry])).flatMap
      (assets.urls chunks) ≠ [] := fun hnil => hstyled (List.flatMap_eq_nil_iff.mp hnil key himported)
  rw [List.head?_append_of_ne_nil _ hnonempty]
  intro hhead
  obtain ⟨x, hx, hv⟩ := List.mem_flatMap.mp (List.mem_of_head? hhead)
  have hxentry : x ≠ entry := by
    rintro rfl
    obtain ⟨d, -, hself⟩ := List.mem_flatMap.mp hx
    exact (graph chunks).notMem_required List.mem_cons_self hself
  exact honly x (hreached x (List.mem_append_left _ hx)) hxentry hv

/-- An entry of a manifest is resolved with every stylesheet of the chunks that it leads to, and none twice. They are
    in the order of dependency if one chunk has them all. Where the entry has a stylesheet of its own and is on no
    cycle, they are in that order only if no other chunk has one. -/
theorem css_collected (assets : Assets) (chunks : OrdMap Str Chunk) (entry : Str) (chunk : Chunk)
    (hresolver : assets.resolver = .manifest chunks) (hentry : chunks.get? entry = some chunk) :
    ∃ css, assets.resolve entry = some ⟨assets.url chunk.file, css⟩ ∧ css.Nodup ∧
      (∀ u, u ∈ css ↔ ∃ key, (graph chunks).Reaches entry key ∧ u ∈ assets.urls chunks key) ∧
      (assets.OneStyled chunks entry → css = assets.inOrder chunks entry) ∧
      ∀ v rest, assets.urls chunks entry = v :: rest →
        (∀ key, (graph chunks).Reaches entry key → key ≠ entry → v ∉ assets.urls chunks key) →
        (∀ key, (graph chunks).Edge entry key → ¬ (graph chunks).Reaches key entry) →
        (css = assets.inOrder chunks entry ↔ assets.OneStyled chunks entry) := by
  obtain ⟨order, -, hhead, hmem, hcss⟩ := assets.collectCss_spec chunks entry
  have hsame : assets.OneStyled chunks entry → assets.collectCss chunks entry = assets.inOrder chunks entry := by
    intro hone
    rw [hcss, inOrder]
    refine addNew_flatMap_congr (fun key => ?_) fun x hx y hy => hone x y ((hmem x).mp hx) ((hmem y).mp hy)
    rw [hmem, (graph chunks).mem_required_nil]
  refine ⟨assets.collectCss chunks entry, ?_, ?_, fun u => ?_, hsame, fun v rest hurls honly _ => ⟨?_, hsame⟩⟩
  · rw [resolve, hresolver]
    exact congrArg (Option.map _) hentry
  · rw [hcss]
    exact nodup_addNew List.nodup_nil _
  · rw [hcss, mem_addNew, List.mem_flatMap]
    simp only [List.not_mem_nil, false_or, hmem]
  · -- The stylesheet of the entry is the first that is collected.
    intro heq
    have hfirst : (assets.collectCss chunks entry).head? = some v := by
      obtain ⟨keys, rfl⟩ := List.head?_eq_some_iff.mp hhead
      rw [hcss, head?_addNew, List.nil_append, List.flatMap_cons, hurls]
      rfl
    rw [heq] at hfirst
    have hothers : ∀ key, (graph chunks).Reaches entry key → assets.urls chunks key ≠ [] → key = entry := by
      intro key hkey hstyled
      by_contra hne
      exact assets.inOrder_head hkey hne hstyled honly hfirst
    exact fun a b ha hb hastyled hbstyled => (hothers a ha hastyled).trans (hothers b hb hbstyled).symm

/-! ### A shared chunk -/

/-- The assets of a build. -/
def built (chunks : List (Str × Chunk)) : Assets := ⟨.manifest (OrdMap.ofList chunks), "/build".toList⟩

/-- An entry with a stylesheet, and a chunk that it imports. -/
def shared (css : List Str) : List (Str × Chunk) :=
  [("app".toList, ⟨"app.js".toList, ["app.css".toList], ["shared".toList]⟩),
    ("shared".toList, ⟨"shared.js".toList, css, []⟩)]

theorem app_alone : ∃ css, (built (shared [])).resolve "app".toList =
      some ⟨(built (shared [])).url "app.js".toList, css⟩ ∧
    css = (built (shared [])).inOrder (OrdMap.ofList (shared [])) "app".toList := by
  obtain ⟨css, hresolve, -, -, horder, -⟩ := css_collected (built (shared [])) (OrdMap.ofList (shared [])) "app".toList
    ⟨"app.js".toList, ["app.css".toList], ["shared".toList]⟩ rfl
    (by simp [shared, OrdMap.ofList, OrdMap.get?_insert])
  refine ⟨css, hresolve, horder ?_⟩
  have hstyled : ∀ key, (built (shared [])).urls (OrdMap.ofList (shared [])) key ≠ [] → key = "app".toList := by
    intro key hkey
    by_contra hne
    simp only [urls, shared, OrdMap.ofList, List.foldl_cons, List.foldl_nil, OrdMap.get?_insert, OrdMap.get?_empty,
      if_neg hne] at hkey
    split_ifs at hkey <;> exact hkey rfl
  exact fun a b _ _ ha hb => (hstyled a ha).trans (hstyled b hb).symm

/-- The stylesheet of the imported chunk comes last, though nothing leads back from it. -/
theorem shared_behind_app :
    (built (shared ["shared.css".toList])).resolve "app".toList =
        some ⟨"/build/app.js".toList, ["/build/app.css".toList, "/build/shared.css".toList]⟩ ∧
      (graph (OrdMap.ofList (shared ["shared.css".toList]))).Edge "app".toList "shared".toList ∧
      ¬ (graph (OrdMap.ofList (shared ["shared.css".toList]))).Reaches "shared".toList "app".toList ∧
      (built (shared ["shared.css".toList])).inOrder (OrdMap.ofList (shared ["shared.css".toList])) "app".toList =
        ["/build/shared.css".toList, "/build/app.css".toList] := by
  have hlast : (graph (OrdMap.ofList (shared ["shared.css".toList]))).edges "shared".toList = [] := by
    simp [graph, shared, OrdMap.ofList, OrdMap.get?_insert]
  refine ⟨?_, ?_, ?_, ?_⟩
  · simp [built, shared, resolve, collectCss, collectCssLoop, collectCssLoop_look, OrdMap.ofList, OrdMap.get?_insert,
      url, graph, addNew, urls]
  · simp [Graph.Edge, graph, shared, OrdMap.ofList, OrdMap.get?_insert]
  · intro hback
    rcases Relation.ReflTransGen.cases_head hback with heq | ⟨next, hedge, -⟩
    · simp at heq
    · rw [Graph.Edge, hlast] at hedge
      exact List.not_mem_nil hedge
  · simp [built, shared, inOrder, Graph.required_of_notMem, OrdMap.ofList, OrdMap.get?_insert, url, graph, addNew, urls]

end Assets

end Arcature
