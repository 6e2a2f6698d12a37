import Arcature.Lib.Json
import Arcature.Routing.Declaration

/-! The router function that `routes!` generates, and the routes it registers
    (`macros/routes/router_fn.rs`, `routing/mod.rs`).

    The macro walks the tree a second time and emits statements that push routes, wrapped in a
    `RouteGroup` with an empty prefix wherever there is middleware; what they do is done when the
    function runs, by the groups. Middleware is reversed when it is emitted and reversed again by
    the layers wrapping one another:

        middleware: [A, B]   emitted   .middleware(B).middleware(A)   request ──▶ A ──▶ B ──▶ handler

    Every place of the declaration becomes one route (`run_statements`): the flat list's, with the
    middleware of the groups around it from the outside in, and with a path that was sent through
    `join_path` once more if there is any. -/

namespace Arcature.Routing
open Arcature.Lib

/-! ### Routes and groups -/

/-- A handler for a method, with the middleware a request passes through before it. -/
structure MethodRouter where
  method : RouteMethodKind
  handler : SynPath
  layers : List SynPath
  deriving DecidableEq

/-- Wrap one more layer around a handler. -/
def MethodRouter.layer (router : MethodRouter) (middleware : SynPath) : MethodRouter :=
  { router with layers := middleware :: router.layers }

/-- A route: its path, its name and what serves it. -/
structure Route where
  path : Str
  name : Option Str
  methodRouter : MethodRouter
  deriving DecidableEq

/-- A group of routes under a prefix and middleware. -/
structure RouteGroup where
  pre : Str
  applyMw : List SynPath
  routes : List Route

namespace RouteGroup

def new (pre : Str) (routes : List Route) : RouteGroup := ⟨pre, [], routes⟩

def middleware (group : RouteGroup) (middleware : SynPath) : RouteGroup :=
  { group with applyMw := group.applyMw ++ [middleware] }

/-- The routes of a group: every path joined, every layer applied in the order it was attached. -/
def intoRoutes (group : RouteGroup) : List Route :=
  group.routes.map fun route =>
    { route with
      path := joinPath group.pre route.path
      methodRouter := group.applyMw.foldl MethodRouter.layer route.methodRouter }

end RouteGroup

/-- A collection of routes: those registered, in order, and the table of their names. -/
structure Routes where
  router : List (Str × MethodRouter)
  names : Map Str Str

/-- Register routes in order; a later name takes the place of an earlier one. -/
def Routes.new (routes : List Route) : Routes where
  router := routes.map fun route => (route.path, route.methodRouter)
  names := routes.foldl (fun names route =>
    match route.name with
    | some name => names.insert name route.path
    | none => names) .empty

/-! ### The generated function -/

/-- A statement of the generated function. -/
inductive Stmt where
  | push (method : RouteMethodKind) (path : Str) (handler : SynPath) (name : Str)
  | bindCheck (model : SynPath)
  | extend (inner : List Stmt) (layers : List SynPath)

/-- The statements in a group that carries middleware, attached in reverse. -/
def scopedIn (inner : List Stmt) (middleware : List SynPath) : Stmt := .extend inner middleware.reverse

def pushRoute (route : SingleRoute) (pre : Str) : List Stmt :=
  [.push route.method (join pre route.path) route.handler ((route.name.map Subtype.val).getD [])]

def bindCheck : Option SynPath → List Stmt
  | some model => [.bindCheck model]
  | none => []

def pushResource (res : ResourceDeclaration) (pre : Str) : List Stmt :=
  let inner := (selected res.only res.except).map fun action =>
    Stmt.push (actionRoute action res.param).1
      (join pre res.path ++ (actionRoute action res.param).2)
      (actionHandler res.controller action) (res.fullName action)
  bindCheck res.bind ++ if res.middleware = [] then inner else [scopedIn inner res.middleware]

mutual

/-- The statements that push a list of entries. -/
def statements (pre : Str) : List RouteEntry → List Stmt
  | [] => []
  | e :: es => statementsOf pre e ++ statements pre es

def statementsOf (pre : Str) : RouteEntry → List Stmt
  | .route route => pushRoute route pre
  | .group own middleware inner =>
    let inner := statements (join pre own) inner
    if middleware = [] then inner else [scopedIn inner middleware]
  | .resource res => pushResource res pre

end

/-- `Route::<method>(path, handler)`, named unless the name is empty. -/
def construct (method : RouteMethodKind) (path : Str) (handler : SynPath) (name : Str) : Route where
  path := path
  name := if name = [] then none else some name
  methodRouter := ⟨method, handler, []⟩

mutual

/-- Run statements on the routes collected so far. -/
def run : List Stmt → List Route → List Route
  | [], routes => routes
  | stmt :: stmts, routes => run stmts (runStmt stmt routes)

def runStmt : Stmt → List Route → List Route
  | .push method path handler name, routes => routes ++ [construct method path handler name]
  | .bindCheck _, routes => routes
  | .extend inner layers, routes =>
    routes ++ (layers.foldl RouteGroup.middleware (.new [] (run inner []))).intoRoutes

end

/-- The routes the generated function hands to `Routes::new`. -/
def routerFn (declaration : List RouteEntry) : List Route := run (statements [] declaration) []

/-! ### A route for every place -/

/-- The middleware of the groups around a place, from the outside in, and of the resource. -/
def Occurrence.middleware (o : Occurrence) : List SynPath := o.groups.flatMap Prod.snd ++ o.own

/-- The route registered for a place under a prefix. -/
def Occurrence.register (outer : Str) (o : Occurrence) : Route where
  path := if o.middleware = [] then (o.expand outer).path else joinPath [] (o.expand outer).path
  name := if o.declared.name = [] then none else some o.declared.name
  methodRouter := ⟨o.declared.method, o.declared.handler, o.middleware⟩

theorem name_register (outer : Str) (o : Occurrence) :
    (o.register outer).name.getD [] = o.declared.name := by
  by_cases hname : o.declared.name = []
  · simp [Occurrence.register, hname]
  · simp [Occurrence.register, hname]

/-- A route in a group without a prefix and with middleware. -/
def Route.wrap (middleware : List SynPath) (route : Route) : Route :=
  { route with
    path := joinPath [] route.path
    methodRouter := { route.methodRouter with layers := middleware ++ route.methodRouter.layers } }

theorem runStmt_eq (stmt : Stmt) (routes : List Route) :
    runStmt stmt routes = routes ++ runStmt stmt [] := by
  cases stmt <;> simp [runStmt]

/-- Statements only add to the routes there are. -/
theorem run_eq (stmts : List Stmt) (routes : List Route) :
    run stmts routes = routes ++ run stmts [] := by
  induction stmts generalizing routes with
  | nil => simp [run]
  | cons stmt stmts ih =>
    rw [run, run, ih (runStmt stmt routes), ih (runStmt stmt []), runStmt_eq stmt routes,
      List.append_assoc]

theorem run_append (stmts stmts' : List Stmt) :
    run (stmts ++ stmts') [] = run stmts [] ++ run stmts' [] := by
  induction stmts with
  | nil => simp [run]
  | cons stmt stmts ih =>
    rw [List.cons_append, run, run, run_eq _ (runStmt stmt []), run_eq stmts (runStmt stmt []), ih,
      List.append_assoc]

theorem foldl_layer (middleware : List SynPath) (router : MethodRouter) :
    middleware.reverse.foldl MethodRouter.layer router =
      { router with layers := middleware ++ router.layers } := by
  induction middleware with
  | nil => rfl
  | cons m middleware ih => simp [List.foldl_append, ih, MethodRouter.layer]

theorem foldl_middleware (layers : List SynPath) (group : RouteGroup) :
    layers.foldl RouteGroup.middleware group = { group with applyMw := group.applyMw ++ layers } := by
  induction layers generalizing group with
  | nil => simp
  | cons m layers ih => simp [ih, RouteGroup.middleware]

/-- A middleware scope wraps its own routes, the first listed middleware outermost. -/
theorem run_scopedIn (inner : List Stmt) (middleware : List SynPath) :
    run [scopedIn inner middleware] [] = (run inner []).map (Route.wrap middleware) := by
  rw [scopedIn, run, run, runStmt, foldl_middleware, List.nil_append]
  simp only [RouteGroup.intoRoutes, RouteGroup.new, List.nil_append, foldl_layer]
  rfl

theorem joinPath_nil (path : Str) : joinPath [] path = List.replicate (gap path) '/' ++ path := by
  rw [joinPath_eq]
  rfl

theorem joinPath_nil_joinPath_nil (path : Str) :
    joinPath [] (joinPath [] path) = joinPath [] path := by
  rw [joinPath_nil, joinPath_nil, gap_filled]
  rfl

theorem middleware_inside (pre : Str) (middleware : List SynPath) (o : Occurrence) :
    (o.inside (pre, middleware)).middleware = middleware ++ o.middleware := by
  simp [Occurrence.middleware, Occurrence.inside]

/-- A scope around a place. -/
theorem wrap_register (outer pre : Str) {middleware : List SynPath} (h : middleware ≠ [])
    (o : Occurrence) :
    (o.register (join outer pre)).wrap middleware = (o.inside (pre, middleware)).register outer := by
  have hlayers := middleware_inside pre middleware o
  have hdeclared : (o.inside (pre, middleware)).declared = o.declared := rfl
  by_cases hinner : o.middleware = []
  · simp [Route.wrap, Occurrence.register, hlayers, hdeclared, h, hinner, expand_inside]
  · simp [Route.wrap, Occurrence.register, hlayers, hdeclared, h, hinner, expand_inside,
      joinPath_nil_joinPath_nil]

theorem run_pushes {α : Type} (l : List α) (method : α → RouteMethodKind) (path : α → Str)
    (handler : α → SynPath) (name : α → Str) :
    run (l.map fun a => .push (method a) (path a) (handler a) (name a)) [] =
      l.map fun a => construct (method a) (path a) (handler a) (name a) := by
  induction l with
  | nil => simp [run]
  | cons a l ih => rw [List.map_cons, run, run_eq, ih, runStmt, List.nil_append]; rfl

theorem run_pushResource (res : ResourceDeclaration) (pre : Str) :
    run (pushResource res pre) [] = res.occurrences.map (Occurrence.register pre) := by
  have hbind : run (bindCheck res.bind) [] = [] := by
    cases res.bind <;> simp [bindCheck, run, runStmt]
  rw [pushResource, run_append, hbind, List.nil_append]
  split_ifs with hnone
  · rw [run_pushes]
    simp [ResourceDeclaration.occurrences, construct, Occurrence.register, Occurrence.middleware,
      Occurrence.expand, Occurrence.pre, hnone]
  · rw [run_scopedIn, run_pushes]
    simp [ResourceDeclaration.occurrences, construct, Occurrence.register, Occurrence.middleware,
      Occurrence.expand, Occurrence.pre, hnone, Route.wrap]

mutual

/-- The generated function registers one route for every place. -/
theorem run_statements (pre : Str) :
    ∀ es : List RouteEntry, run (statements pre es) [] = (occurrences es).map (Occurrence.register pre)
  | [] => by simp [statements, run, occurrences]
  | e :: es => by
    rw [statements, run_append, occurrences, List.map_append, run_statementsOf pre e,
      run_statements pre es]

theorem run_statementsOf (pre : Str) :
    ∀ e : RouteEntry,
      run (statementsOf pre e) [] = (occurrencesOf e).map (Occurrence.register pre)
  | .route route => by
    simp [statementsOf, pushRoute, run, runStmt, construct, occurrencesOf, Occurrence.register,
      Occurrence.middleware, Occurrence.expand, Occurrence.pre, single, join]
  | .group own middleware inner => by
    rw [statementsOf, occurrencesOf, List.map_map]
    split_ifs with hnone
    · rw [run_statements (join pre own) inner]
      refine List.map_congr_left fun o _ => ?_
      simp only [Function.comp_apply, Occurrence.register, middleware_inside, hnone,
        List.nil_append, expand_inside]
      rfl
    · rw [run_scopedIn, run_statements (join pre own) inner, List.map_map]
      exact List.map_congr_left fun o _ => wrap_register pre own hnone o
  | .resource res => by rw [statementsOf, run_pushResource, occurrencesOf]

end

/-! ### Middleware -/

/-- A group around a part of a declaration, with what stands before and behind it. -/
structure Frame where
  before : List RouteEntry
  pre : Str
  middleware : List SynPath
  after : List RouteEntry

/-- A part of a declaration in the groups around it, from the outside in. -/
def fill : List Frame → List RouteEntry → List RouteEntry
  | [], es => es
  | f :: frames, es => f.before ++ .group f.pre f.middleware (fill frames es) :: f.after

theorem occurrences_append (es es' : List RouteEntry) :
    occurrences (es ++ es') = occurrences es ++ occurrences es' := by
  induction es with
  | nil => simp [occurrences]
  | cons e es ih => simp [occurrences, ih]

/-- A group's middleware is around the places inside it and at no other. -/
theorem occurrences_fill (frames : List Frame) (before after inner : List RouteEntry) (pre : Str) :
    ∃ (left right : List Occurrence) (place : Occurrence → Occurrence), ∀ middleware,
      occurrences (fill frames (before ++ .group pre middleware inner :: after)) =
        left ++ (occurrences inner).map (fun o => place (o.inside (pre, middleware))) ++ right := by
  induction frames with
  | nil =>
    refine ⟨occurrences before, occurrences after, id, fun middleware => ?_⟩
    simp [fill, occurrences_append, occurrences, occurrencesOf]
  | cons f frames ih =>
    obtain ⟨left, right, place, hplaces⟩ := ih
    refine ⟨occurrences f.before ++ left.map (.inside (f.pre, f.middleware)),
      right.map (.inside (f.pre, f.middleware)) ++ occurrences f.after,
      fun o => (place o).inside (f.pre, f.middleware), fun middleware => ?_⟩
    simp [fill, occurrences_append, occurrences, occurrencesOf, hplaces middleware,
      Function.comp_def]

/-- A request passes through the middleware of the groups around its route, from the outermost group
    inwards and in each as declared, and last through the resource's own; and the middleware of a
    group, wherever it stands in the tree, is no matter to the routes outside it. -/
theorem layers_of_routes (declaration : List RouteEntry) :
    ((routerFn declaration).map fun r =>
      (r.methodRouter.method, r.methodRouter.handler, r.name.getD [], r.methodRouter.layers)) =
      ((occurrences declaration).map fun o =>
        (o.declared.method, o.declared.handler, o.declared.name,
          (o.groups.map Prod.snd).flatten ++ o.own)) ∧
    ∀ (frames : List Frame) (before after inner : List RouteEntry) (pre : Str),
      ∃ left right : List Route, ∀ middleware, ∃ inside : List Route,
        inside.length = (occurrences inner).length ∧
        routerFn (fill frames (before ++ .group pre middleware inner :: after)) =
          left ++ inside ++ right := by
  constructor
  · rw [routerFn, run_statements, List.map_map]
    refine List.map_congr_left fun o _ => ?_
    rw [Function.comp_apply, name_register]
    rfl
  · intro frames before after inner pre
    obtain ⟨left, right, place, hplaces⟩ := occurrences_fill frames before after inner pre
    refine ⟨left.map (Occurrence.register []), right.map (Occurrence.register []), fun middleware =>
      ⟨(occurrences inner).map fun o => (place (o.inside (pre, middleware))).register [], by simp, ?_⟩⟩
    rw [routerFn, run_statements, hplaces middleware]
    simp [Function.comp_def]

/-! ### The router and the metadata -/

/-- What a route is registered as: method, path, name, handler. -/
def Route.signature (r : Route) : RouteMethodKind × Str × Str × SynPath :=
  (r.methodRouter.method, r.path, r.name.getD [], r.methodRouter.handler)

/-- The same of a route of the metadata. -/
def ExpandedRoute.signature (r : ExpandedRoute) : RouteMethodKind × Str × Str × SynPath :=
  (r.method, r.path, r.name, r.handler)

/-- Wherever there is middleware around a route, the prefixes around it and its path make up a text
    that is empty or starts with a slash. -/
def Rooted (declaration : List RouteEntry) : Prop :=
  ∀ o ∈ occurrences declaration, o.middleware ≠ [] →
    gap ((o.groups.map Prod.fst).flatten ++ o.declared.path) = 0

theorem gap_eq_of_head? {s t : Str} (h : s.head? = t.head?) : gap s = gap t := by
  cases s <;> cases t <;> simp_all [gap]

theorem head?_join (pre path : Str) : (join pre path).head? = (pre ++ path).head? := by
  unfold join
  split_ifs with hpre hpath
  · rw [hpre, List.nil_append]
  · rw [List.head?_append_of_ne_nil _ hpre]
  · rfl

theorem head?_foldl_join (prefixes : List Str) (pre : Str) :
    (prefixes.foldl join pre).head? = (pre ++ prefixes.flatten).head? := by
  induction prefixes generalizing pre with
  | nil => simp
  | cons p prefixes ih =>
    rw [List.foldl_cons, ih, List.head?_append, head?_join, ← List.head?_append, List.flatten_cons,
      List.append_assoc]

theorem gap_append {s t : Str} (h : gap t = 0) : gap (s ++ t) = gap s := by
  cases s with
  | nil => simpa [gap] using h
  | cons c s => simp [gap]

theorem gap_actionRoute (action param : Str) : gap (actionRoute action param).2 = 0 := by
  unfold actionRoute
  split_ifs <;> simp [gap]

mutual

theorem gap_suffix_of_mem : ∀ (es : List RouteEntry), ∀ o ∈ occurrences es, gap o.suffix = 0
  | [], o, h => by simp [occurrences] at h
  | e :: es, o, h => by
    rw [occurrences, List.mem_append] at h
    exact h.elim (gap_suffix_of_mem' e o) (gap_suffix_of_mem es o)

theorem gap_suffix_of_mem' : ∀ (e : RouteEntry), ∀ o ∈ occurrencesOf e, gap o.suffix = 0
  | .route route, o, h => by
    rw [occurrencesOf, List.mem_singleton] at h
    rw [h]
    rfl
  | .group pre middleware inner, o, h => by
    rw [occurrencesOf] at h
    obtain ⟨o', ho', rfl⟩ := List.mem_map.mp h
    exact gap_suffix_of_mem inner o' ho'
  | .resource res, o, h => by
    rw [occurrencesOf, ResourceDeclaration.occurrences] at h
    obtain ⟨action, -, rfl⟩ := List.mem_map.mp h
    exact gap_actionRoute action res.param

end

/-- The flat path of a place needs a slash in front if its pieces do. -/
theorem gap_expand {o : Occurrence} (h : gap o.suffix = 0) :
    gap (o.expand []).path = gap ((o.groups.map Prod.fst).flatten ++ o.declared.path) := by
  rw [Occurrence.expand, gap_append h]
  refine gap_eq_of_head? ?_
  rw [head?_join, List.head?_append, Occurrence.pre, head?_foldl_join, List.nil_append,
    ← List.head?_append]

theorem joinPath_nil_eq_self_iff (path : Str) : joinPath [] path = path ↔ gap path = 0 := by
  rw [joinPath_nil, List.append_left_eq_self, List.replicate_eq_nil_iff]

/-- The router has the routes of the metadata exactly when every path inside a middleware scope is
    rooted. -/
theorem signatures_eq_iff (declaration : List RouteEntry) :
    (routerFn declaration).map Route.signature =
      (entries [] declaration).map ExpandedRoute.signature ↔ Rooted declaration := by
  rw [routerFn, run_statements, entries_eq, List.map_map, List.map_map, List.map_inj_left]
  refine forall₂_congr fun o ho => ?_
  have hsame : (o.register []).signature = (o.expand []).signature ↔
      (o.register []).path = (o.expand []).path := by
    simp only [Route.signature, ExpandedRoute.signature, Prod.mk.injEq, name_register]
    simp [Occurrence.register, Occurrence.expand]
  rw [Function.comp_apply, Function.comp_apply, hsame, ← gap_expand (gap_suffix_of_mem _ o ho),
    ← joinPath_nil_eq_self_iff, Occurrence.register]
  by_cases hscope : o.middleware = []
  · simp [hscope]
  · simp [hscope]

/-! ### Names -/

/-- Register the names of routes. -/
theorem get?_names_of_notMem {routes : List Route} {name : Str} (names : Map Str Str)
    (h : ∀ r ∈ routes, r.name ≠ some name) :
    (routes.foldl (fun names route =>
      match route.name with
      | some name => names.insert name route.path
      | none => names) names).get? name = names.get? name := by
  induction routes generalizing names with
  | nil => rfl
  | cons r routes ih =>
    rw [List.foldl_cons, ih _ fun r hr => h r (List.mem_cons_of_mem _ hr)]
    cases hname : r.name with
    | none => rfl
    | some other =>
      have hne : name ≠ other := fun heq => h r List.mem_cons_self (heq ▸ hname)
      simp [hne]

/-- A name that is registered once names the path it was registered with. -/
theorem get?_names {routes : List Route} {route : Route} {name : Str}
    (hnodup : (routes.filterMap Route.name).Nodup) (hroute : route ∈ routes)
    (hname : route.name = some name) : (Routes.new routes).names.get? name = some route.path := by
  obtain ⟨before, after, rfl⟩ := List.append_of_mem hroute
  have hafter : ∀ r ∈ after, r.name ≠ some name := by
    intro r hr heq
    rw [List.filterMap_append, List.filterMap_cons_some hname, List.nodup_append] at hnodup
    exact (List.nodup_cons.mp hnodup.2.1).1 (List.mem_filterMap.mpr ⟨r, hr, heq⟩)
  rw [Routes.new, List.foldl_append, List.foldl_cons, get?_names_of_notMem _ hafter]
  simp [hname]

theorem filterMap_names (declaration : List RouteEntry) :
    (routerFn declaration).filterMap Route.name = declaredNames (occurrences declaration) := by
  rw [routerFn, run_statements, declaredNames]
  induction occurrences declaration with
  | nil => rfl
  | cons o os ih =>
    by_cases hname : o.declared.name = []
    · simpa [Occurrence.register, hname] using ih
    · simpa [Occurrence.register, hname] using ih

/-- The router and the metadata of a declaration describe the same routes exactly when every path
    inside a middleware scope is rooted; and every name that a valid declaration declares leads to
    the path its route is registered under. -/
theorem router_matches_metadata (declaration : List RouteEntry) :
    ((routerFn declaration).map Route.signature =
      (entries [] declaration).map ExpandedRoute.signature ↔ Rooted declaration) ∧
    (validate declaration = .ok () → ∀ (i : ℕ) (e : ExpandedRoute) (r : Route),
      (entries [] declaration)[i]? = some e → (routerFn declaration)[i]? = some r → e.name ≠ [] →
        (Routes.new (routerFn declaration)).names.get? e.name = some r.path) := by
  refine ⟨signatures_eq_iff declaration, fun hvalid i e r he hr hname => ?_⟩
  have hnodup : ((routerFn declaration).filterMap Route.name).Nodup := by
    rw [filterMap_names]
    exact declaredNames_nodup hvalid
  refine get?_names hnodup (List.mem_of_getElem? hr) ?_
  rw [entries_eq, List.getElem?_map, Option.map_eq_some_iff] at he
  obtain ⟨o, ho, rfl⟩ := he
  rw [routerFn, run_statements, List.getElem?_map, ho, Option.map_some, Option.some_inj] at hr
  rw [← hr]
  exact if_neg hname

/-- A guarded group whose prefix has no slash in front. -/
def guardedApi : List RouteEntry :=
  [.group "api".toList [⟨false, ["Auth".toList]⟩]
    [.route { method := .get, path := "/users".toList, handler := ⟨false, ["index".toList]⟩, name := none }]]

/-- It is served under `/api/users` and described under `api/users`. -/
theorem guardedApi_apart :
    (routerFn guardedApi).map Route.path = ["/api/users".toList] ∧
      (entries [] guardedApi).map ExpandedRoute.path = ["api/users".toList] := by
  decide

end Arcature.Routing
