import Arcature.Lib.Traverse
import Arcature.Routing.Paths

/-! A `routes!` declaration, its flat list of routes and what is checked of it
    (`macros/routes/declaration.rs`, `action.rs`, `flatten.rs`, `validate.rs`).

    A declaration is a tree of groups with routes and resources in it. The metadata and the URL
    helpers are made from the flat list of its routes, in which every group prefix is applied
    (`entries`). A route of that list is a place in the tree: the groups around it, from the outside
    in, and what was declared there (`Occurrence`, `occurrences`):

        group /admin [Auth]
          get /panel                  ⟨[(/admin, [Auth])], get /panel⟩
          group /users []
            resource /users [Log]     ⟨[(/admin, [Auth]), (/users, [])], get /users + /new, [Log]⟩

    Both generated walks of the tree are functions of these places (`entries_eq` here, and
    `run_statements` for the router). -/

namespace Arcature.Routing
open Arcature.Lib

/-- A path of the source program, by its segments. -/
structure SynPath where
  leadingColon : Bool
  segments : List Str
  deriving DecidableEq

/-- A dotted name: one identifier at least. -/
abbrev Name := { s : Str // s ≠ [] }

inductive RouteMethodKind where
  | get
  | post
  | put
  | patch
  | delete
  | head
  | options
  deriving DecidableEq

/-- A method that changes state. -/
def RouteMethodKind.isUnsafe : RouteMethodKind → Bool
  | .post | .put | .patch | .delete => true
  | .get | .head | .options => false

/-- A single declared route. -/
structure SingleRoute where
  method : RouteMethodKind
  path : Str
  handler : SynPath
  name : Option Name
  pages : List Str := []
  action : Option SynPath := none
  query : Option Str := none
  queryString : Option SynPath := none
  policies : List Str := []

/-- A resource: one route for each of its actions. -/
structure ResourceDeclaration where
  path : Str
  controller : SynPath
  name : Name
  only : List Str := []
  except : List Str := []
  bind : Option SynPath := none
  middleware : List SynPath := []
  policies : List Str := []

/-- One entry of a declaration or a group. -/
inductive RouteEntry where
  | route (route : SingleRoute)
  | group (pre : Str) (middleware : List SynPath) (entries : List RouteEntry)
  | resource (resource : ResourceDeclaration)

/-! ### Actions and names -/

/-- Every resource action, in the order of declaration. -/
def allActions : List Str :=
  ["index".toList, "create".toList, "store".toList, "show".toList, "edit".toList, "update".toList,
    "destroy".toList]

/-- The actions to generate. -/
def selected (only except : List Str) : List Str :=
  (allActions.filter fun a => only = [] || only.contains a).filter fun a => !except.contains a

/-- The method of an action and what it adds to the resource's path. -/
def actionRoute (action param : Str) : RouteMethodKind × Str :=
  if action = "create".toList then (.get, "/new".toList)
  else if action = "store".toList then (.post, [])
  else if action = "show".toList then (.get, "/\x7b".toList ++ param ++ "\x7d".toList)
  else if action = "edit".toList then (.get, "/\x7b".toList ++ param ++ "\x7d/edit".toList)
  else if action = "update".toList then (.put, "/\x7b".toList ++ param ++ "\x7d".toList)
  else if action = "destroy".toList then (.delete, "/\x7b".toList ++ param ++ "\x7d".toList)
  else (.get, [])

/-- The last segment of a dotted name. -/
def lastSegment (name : Str) : Str := (name.splitOn '.').getLastD name

/-- A name without one trailing `s`. -/
def singularize (name : Str) : Str :=
  if name.getLast? = some 's' ∧ 1 < Str.len name then name.dropLast else name

/-- The handler of an action. -/
def actionHandler (controller : SynPath) (action : Str) : SynPath :=
  { controller with segments := controller.segments ++ [action] }

/-- The parameter of a resource's paths. -/
def ResourceDeclaration.param (resource : ResourceDeclaration) : Str :=
  singularize (lastSegment resource.name.val)

/-- The name of an action's route. -/
def ResourceDeclaration.fullName (resource : ResourceDeclaration) (action : Str) : Str :=
  resource.name.val ++ '.' :: action

/-! ### Flattening -/

/-- One fully resolved route; an unnamed one has the empty name. -/
structure ExpandedRoute where
  method : RouteMethodKind
  path : Str
  name : Str
  handler : SynPath
  pages : List Str
  action : Option SynPath
  query : Option Str
  queryString : Option SynPath
  policies : List Str

/-- A route under a prefix. -/
def single (route : SingleRoute) (pre : Str) : ExpandedRoute where
  method := route.method
  path := join pre route.path
  name := (route.name.map Subtype.val).getD []
  handler := route.handler
  pages := route.pages
  action := route.action
  query := route.query
  queryString := route.queryString
  policies := route.policies

/-- A resource under a prefix: one route for each selected action. -/
def resource (resource : ResourceDeclaration) (pre : Str) : List ExpandedRoute :=
  (selected resource.only resource.except).map fun action =>
    { method := (actionRoute action resource.param).1
      path := join pre resource.path ++ (actionRoute action resource.param).2
      name := resource.fullName action
      handler := actionHandler resource.controller action
      pages := []
      action := none
      query := none
      queryString := none
      policies := resource.policies }

mutual

/-- The routes of entries under a prefix. -/
def entries (pre : Str) : List RouteEntry → List ExpandedRoute
  | [] => []
  | e :: es => entry pre e ++ entries pre es

/-- The routes of one entry under a prefix. -/
def entry (pre : Str) : RouteEntry → List ExpandedRoute
  | .route route => [single route pre]
  | .group own _ inner => entries (join pre own) inner
  | .resource res => resource res pre

end

/-! ### Validation -/

inductive MacroErrorCode where
  | arcM002
  | arcM003
  deriving DecidableEq

/-- What the compiler is told of a declaration that cannot be honoured. -/
structure MacroError where
  code : MacroErrorCode
  message : Str
  deriving DecidableEq

def duplicateName (name : Str) : MacroError :=
  ⟨.arcM002, "duplicate route name `".toList ++ name ++ "`".toList⟩

def unsafeAction : MacroError :=
  ⟨.arcM002, "an `action:` route must use a non-safe method ".toList ++
    "(POST/PUT/PATCH/DELETE); GET is for `query:`".toList⟩

def unreadQuery : MacroError :=
  ⟨.arcM002, "a `query:` route must use GET; mutations are `action:`".toList⟩

def unknownAction (name list : Str) : MacroError :=
  ⟨.arcM003, "unknown resource action `".toList ++ name ++ "` in `".toList ++ list ++
    "`; expected one of: ".toList ++ (", ".toList).intercalate allActions⟩

/-- Add a name to those seen, unless it is one of them. -/
def claimName (name : Str) (seen : List Str) : Except MacroError (List Str) :=
  if name ∈ seen then .error (duplicateName name) else .ok (name :: seen)

/-- The checks of a route. -/
def checkRoute (route : SingleRoute) (seen : List Str) : Except MacroError (List Str) :=
  let named :=
    match route.name with
    | some name => claimName name.val seen
    | none => .ok seen
  named.bind fun seen =>
    if route.action.isSome && !route.method.isUnsafe then .error unsafeAction
    else if route.query.isSome && route.method ≠ .get then .error unreadQuery
    else .ok seen

/-- Only actions that there are may be listed. -/
def checkActionNames (names : List Str) (list : Str) : Except MacroError Unit :=
  match names.find? fun name => !allActions.contains name with
  | some name => .error (unknownAction name list)
  | none => .ok ()

/-- The checks of a resource. -/
def checkResource (resource : ResourceDeclaration) (seen : List Str) :
    Except MacroError (List Str) :=
  (checkActionNames resource.only "only".toList).bind fun _ =>
    (checkActionNames resource.except "except".toList).bind fun _ =>
      (selected resource.only resource.except).foldlM
        (fun seen action => claimName (resource.fullName action) seen) seen

mutual

def checkEntries : List RouteEntry → List Str → Except MacroError (List Str)
  | [], seen => .ok seen
  | e :: es, seen => (checkEntry e seen).bind (checkEntries es)

def checkEntry : RouteEntry → List Str → Except MacroError (List Str)
  | .route route, seen => checkRoute route seen
  | .group _ _ inner, seen => checkEntries inner seen
  | .resource resource, seen => checkResource resource seen

end

/-- Validate a declaration. -/
def validate (declaration : List RouteEntry) : Except MacroError Unit :=
  (checkEntries declaration []).map fun _ => ()

/-! ### Places -/

/-- A place in a declaration: the prefix and the middleware of each group around it, from the outside
    in, the route declared there, what an action adds to its path and the resource's own
    middleware. -/
structure Occurrence where
  groups : List (Str × List SynPath)
  declared : ExpandedRoute
  suffix : Str
  own : List SynPath

/-- The place as seen from outside a group. -/
def Occurrence.inside (group : Str × List SynPath) (o : Occurrence) : Occurrence :=
  { o with groups := group :: o.groups }

/-- The places of a resource. -/
def ResourceDeclaration.occurrences (res : ResourceDeclaration) : List Occurrence :=
  (selected res.only res.except).map fun action =>
    { groups := []
      declared := {
        method := (actionRoute action res.param).1
        path := res.path
        name := res.fullName action
        handler := actionHandler res.controller action
        pages := []
        action := none
        query := none
        queryString := none
        policies := res.policies }
      suffix := (actionRoute action res.param).2
      own := res.middleware }

mutual

/-- The places of a declaration, in order. -/
def occurrences : List RouteEntry → List Occurrence
  | [] => []
  | e :: es => occurrencesOf e ++ occurrences es

def occurrencesOf : RouteEntry → List Occurrence
  | .route route => [⟨[], single route [], [], []⟩]
  | .group pre middleware inner => (occurrences inner).map (.inside (pre, middleware))
  | .resource res => res.occurrences

end

/-- The prefixes around a place under a prefix, joined by the macro. -/
def Occurrence.pre (outer : Str) (o : Occurrence) : Str :=
  (o.groups.map Prod.fst).foldl join outer

/-- The route of a place under a prefix. -/
def Occurrence.expand (outer : Str) (o : Occurrence) : ExpandedRoute :=
  { o.declared with path := join (o.pre outer) o.declared.path ++ o.suffix }

theorem expand_inside (outer pre : Str) (middleware : List SynPath) (o : Occurrence) :
    (o.inside (pre, middleware)).expand outer = o.expand (join outer pre) := rfl

theorem resource_eq (res : ResourceDeclaration) (pre : Str) :
    resource res pre = res.occurrences.map (Occurrence.expand pre) := by
  simp [resource, ResourceDeclaration.occurrences, Occurrence.expand, Occurrence.pre]

mutual

/-- The flat list is what stands at the places. -/
theorem entries_eq (pre : Str) :
    ∀ es : List RouteEntry, entries pre es = (occurrences es).map (Occurrence.expand pre)
  | [] => rfl
  | e :: es => by rw [entries, occurrences, List.map_append, entry_eq pre e, entries_eq pre es]

theorem entry_eq (pre : Str) :
    ∀ e : RouteEntry, entry pre e = (occurrencesOf e).map (Occurrence.expand pre)
  | .route route => by
    simp [entry, occurrencesOf, Occurrence.expand, Occurrence.pre, single, join]
  | .group own middleware inner => by
    rw [entry, occurrencesOf, entries_eq, List.map_map]
    rfl
  | .resource res => resource_eq res pre

end

/-! ### Names -/

/-- The names that are declared, in order. -/
def declaredNames (os : List Occurrence) : List Str :=
  (os.map fun o => o.declared.name).filter (· ≠ [])

theorem declaredNames_append (os os' : List Occurrence) :
    declaredNames (os ++ os') = declaredNames os ++ declaredNames os' := by
  simp [declaredNames]

/-- The names seen after a check: those of before, and the declared ones, none of them twice. -/
def Claimed (names seen seen' : List Str) : Prop :=
  seen' = names.reverse ++ seen ∧ (seen.Nodup → seen'.Nodup)

theorem Claimed.trans {names names' seen seen' seen'' : List Str} (h : Claimed names seen seen')
    (h' : Claimed names' seen' seen'') : Claimed (names ++ names') seen seen'' := by
  refine ⟨?_, fun hnodup => h'.2 (h.2 hnodup)⟩
  rw [h'.1, h.1, List.reverse_append, List.append_assoc]

theorem claimName_ok {name : Str} {seen seen' : List Str} (h : claimName name seen = .ok seen') :
    Claimed [name] seen seen' := by
  unfold claimName at h
  split_ifs at h with hseen
  cases h
  exact ⟨rfl, fun hnodup => List.nodup_cons.mpr ⟨hseen, hnodup⟩⟩

theorem checkRoute_ok {route : SingleRoute} {seen seen' : List Str}
    (h : checkRoute route seen = .ok seen') :
    Claimed (declaredNames (occurrencesOf (.route route))) seen seen' := by
  obtain ⟨claimed, hnamed, hchecks⟩ := bind_eq_ok h
  obtain rfl : claimed = seen' := by
    split_ifs at hchecks
    exact Except.ok.inj hchecks
  cases hname : route.name with
  | none =>
    rw [hname] at hnamed
    cases hnamed
    simp [declaredNames, occurrencesOf, single, hname, Claimed]
  | some name =>
    rw [hname] at hnamed
    have hdeclared : declaredNames (occurrencesOf (.route route)) = [name.val] := by
      simp [declaredNames, occurrencesOf, single, hname, name.2]
    rw [hdeclared]
    exact claimName_ok hnamed

theorem foldlM_claimName_ok {names : List Str} {seen seen' : List Str}
    (h : names.foldlM (fun seen name => claimName name seen) seen = .ok seen') :
    Claimed names seen seen' := by
  induction names generalizing seen with
  | nil =>
    cases h
    exact ⟨rfl, id⟩
  | cons name names ih =>
    obtain ⟨claimed, hname, hrest⟩ := bind_eq_ok h
    exact (claimName_ok hname).trans (ih hrest)

theorem checkResource_ok {res : ResourceDeclaration} {seen seen' : List Str}
    (h : checkResource res seen = .ok seen') :
    Claimed (declaredNames (occurrencesOf (.resource res))) seen seen' := by
  obtain ⟨-, -, h⟩ := bind_eq_ok h
  obtain ⟨-, -, h⟩ := bind_eq_ok h
  have hdeclared : declaredNames (occurrencesOf (.resource res)) =
      (selected res.only res.except).map res.fullName := by
    have hmap : (occurrencesOf (.resource res)).map (fun o => o.declared.name) =
        (selected res.only res.except).map res.fullName := by
      simp [occurrencesOf, ResourceDeclaration.occurrences]
    rw [declaredNames, hmap, List.filter_eq_self]
    intro name hname
    obtain ⟨action, -, rfl⟩ := List.mem_map.mp hname
    simp [ResourceDeclaration.fullName]
  rw [hdeclared]
  exact foldlM_claimName_ok (by rw [List.foldlM_map]; exact h)

mutual

/-- A declaration that passes has no name twice. -/
theorem checkEntries_ok : ∀ (es : List RouteEntry) {seen seen' : List Str},
    checkEntries es seen = .ok seen' → Claimed (declaredNames (occurrences es)) seen seen'
  | [], seen, seen', h => by
    rw [checkEntries, Except.ok.injEq] at h
    exact ⟨h.symm, fun hnodup => h ▸ hnodup⟩
  | e :: es, seen, seen', h => by
    rw [checkEntries] at h
    obtain ⟨claimed, hfirst, hrest⟩ := bind_eq_ok h
    rw [occurrences, declaredNames_append]
    exact (checkEntry_ok e hfirst).trans (checkEntries_ok es hrest)

theorem checkEntry_ok : ∀ (e : RouteEntry) {seen seen' : List Str},
    checkEntry e seen = .ok seen' → Claimed (declaredNames (occurrencesOf e)) seen seen'
  | .route route, seen, seen', h => checkRoute_ok (by rwa [checkEntry] at h)
  | .group pre middleware inner, seen, seen', h => by
    rw [checkEntry] at h
    have hnames : declaredNames (occurrencesOf (.group pre middleware inner)) =
        declaredNames (occurrences inner) := by
      simp [declaredNames, occurrencesOf, Function.comp_def, Occurrence.inside]
    rw [hnames]
    exact checkEntries_ok inner h
  | .resource res, seen, seen', h => checkResource_ok (by rwa [checkEntry] at h)

end

/-- The names of a valid declaration are distinct. -/
theorem declaredNames_nodup {declaration : List RouteEntry} (h : validate declaration = .ok ()) :
    (declaredNames (occurrences declaration)).Nodup := by
  unfold validate at h
  cases hcheck : checkEntries declaration [] with
  | error e => simp [hcheck, Except.map] at h
  | ok seen =>
    obtain ⟨hseen, hnodup⟩ := checkEntries_ok declaration hcheck
    rw [hseen, List.append_nil, List.nodup_reverse] at hnodup
    exact hnodup List.nodup_nil

end Arcature.Routing
