import Arcature.Lib.Json

/-! The module descriptors of an application, and the checks of their graph
    (`dx/graph.rs`, `dx/route_metadata.rs`, `dx/controller_metadata.rs`, `dx/field_metadata.rs`,
    `dx/application_graph.rs`).

    An application is a list of modules, each with its routes and what else it declares. The list is
    accepted when no name is used twice, every import is the name of a module, and no module imports
    itself in the end:

        Shop  -> Accounts        accepted
        Shop  -> Accounts -> Shop    a cycle -/

namespace Arcature.Dx
open Arcature.Lib

/-- `RouteMethod`. -/
inductive RouteMethod where
  | get
  | post
  | put
  | patch
  | delete
  | head
  | options
  deriving DecidableEq

/-- `as_str`. -/
def RouteMethod.asStr : RouteMethod → Str
  | .get => "GET".toList
  | .post => "POST".toList
  | .put => "PUT".toList
  | .patch => "PATCH".toList
  | .delete => "DELETE".toList
  | .head => "HEAD".toList
  | .options => "OPTIONS".toList

/-- A field of a request or of a resource. -/
structure FieldShape where
  name : Str
  ty : Str
  validates : List Str
  deriving DecidableEq

/-- A route as the `routes!` macro records it. -/
structure RouteDescriptor where
  method : RouteMethod
  path : Str
  name : Str
  handler : Str
  pages : List Str
  actionFields : List FieldShape
  actionType : Str
  queryFields : List FieldShape
  queryType : Str
  queryArray : Bool
  queryStringFields : List FieldShape
  queryStringType : Str
  policies : List Str
  deriving DecidableEq

/-- A method of a controller, with the page it renders. -/
structure ControllerMethod where
  name : Str
  params : List Str
  page : Option Str
  deriving DecidableEq

/-- A listener of an event. -/
structure ListenerBinding where
  event : Str
  listener : Str
  deriving DecidableEq

/-- A job kind with its handler. -/
structure JobBinding where
  kind : Str
  version : Int16
  handler : Str
  deriving DecidableEq

/-- A command with its function. -/
structure CommandBinding where
  name : Str
  function : Str
  deriving DecidableEq

/-- How often a schedule fires. -/
inductive ScheduleCadence where
  | every (seconds : UInt64)
  | daily (hour minute : UInt8)
  deriving DecidableEq

/-- A job on a cadence. -/
structure ScheduleBinding where
  job : Str
  version : Int16
  cadence : ScheduleCadence
  deriving DecidableEq

/-- One feature module. -/
structure ModuleDescriptor where
  name : Str
  imports : List Str := []
  exports : List Str := []
  controllers : List Str := []
  controllerMethods : List (List ControllerMethod) := []
  services : List Str := []
  policies : List Str := []
  routes : List RouteDescriptor := []
  listeners : List ListenerBinding := []
  jobs : List JobBinding := []
  commands : List CommandBinding := []
  schedules : List ScheduleBinding := []
  pages : List Str := []
  deriving DecidableEq

/-- `GraphError`. -/
inductive GraphError where
  | duplicateModule (name : Str)
  | unknownImport (module unknownImport : Str)
  | circularDependency (cycle : List Str)
  deriving DecidableEq

/-- `check_duplicates`, with the names seen so far. -/
def checkDuplicates : Finset Str → List ModuleDescriptor → Except GraphError Unit
  | _, [] => .ok ()
  | seen, m :: modules =>
    if m.name ∈ seen then .error (.duplicateModule m.name) else checkDuplicates (insert m.name seen) modules

/-- `check_unknown_imports`. -/
def checkUnknownImports (modules : List ModuleDescriptor) : Except GraphError Unit :=
  let known := (modules.map (·.name)).toFinset
  match modules.findSome? fun m => (m.imports.find? (· ∉ known)).map (m.name, ·) with
  | some (module, unknown) => .error (.unknownImport module unknown)
  | none => .ok ()

/-- What the search for a cycle has seen. -/
structure Search where
  visited : Finset Str
  stack : List Str
  onStack : Finset Str

/-- `module_node_map`: the imports of each module. -/
def moduleNodeMap (modules : List ModuleDescriptor) : Map Str (List Str) :=
  modules.foldl (fun nodes m => nodes.insert m.name m.imports) .empty

/-- `dfs_find_cycle`. Every call visits a module that was not visited before, so that as many calls
    within one another as there are modules are enough. -/
def dfsFindCycle (nodes : Map Str (List Str)) : ℕ → Str → Search → Search × Option (List Str)
  | 0, _, s => (s, none)
  | depth + 1, node, s =>
    let s : Search := ⟨insert node s.visited, s.stack ++ [node], insert node s.onStack⟩
    let (s, found) := ((nodes.get? node).getD []).foldl
      (fun (s, found) next =>
        if found.isSome then (s, found)
        else if next ∉ s.visited then dfsFindCycle nodes depth next s
        else if next ∈ s.onStack then (s, some (s.stack.dropWhile (· ≠ next) ++ [next]))
        else (s, none)) (s, none)
    if found.isSome then (s, found)
    else (⟨s.visited, s.stack.dropLast, s.onStack.erase node⟩, none)

/-- `check_cycles`. -/
def checkCycles (modules : List ModuleDescriptor) : Except GraphError Unit :=
  let nodes := moduleNodeMap modules
  let (_, found) := modules.foldl
    (fun (s, found) m =>
      if found.isSome ∨ m.name ∈ s.visited then (s, found)
      else dfsFindCycle nodes modules.length m.name s) ((⟨∅, [], ∅⟩ : Search), none)
  match found with
  | some cycle => .error (.circularDependency cycle)
  | none => .ok ()

/-- `ApplicationGraph::new`: the modules in the order they were given. -/
def applicationGraph (modules : List ModuleDescriptor) : Except GraphError (List ModuleDescriptor) := do
  checkDuplicates ∅ modules
  checkUnknownImports modules
  checkCycles modules
  return modules

/-! ### An accepted list -/

end Arcature.Dx
