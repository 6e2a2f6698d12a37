import Arcature.Dx.ApplicationGraph
import Arcature.Uag.Codegen
import Arcature.Uag.OpenApi

/-! The artifact of a list of modules (`uag/from_graph.rs`), and what the order of the modules does
    to it.

    Modules go into a map by their names, and routes into one list that is sorted by path, method, name
    and handler. The sort is stable, so routes that agree in all four stay in the order of the modules
    that declare them:

        [Admin, Shop]    POST /links links LinksController::store  of Admin, then the one of Shop
        [Shop, Admin]    the one of Shop, then the one of Admin

    This is the only trace of the order (`outputs_eq_iff`). -/

namespace Arcature.Uag
open Arcature.Lib Arcature.Dx

/-- `controller_method_index`. -/
def controllerMethodIndex (descriptor : ModuleDescriptor) : Map Str (List ControllerMethod) :=
  (descriptor.controllers.zip descriptor.controllerMethods).foldl (fun m e => m.insert e.1 e.2) .empty

/-- `split_once("::")`. -/
def splitColons : Str → Option (Str × Str)
  | ':' :: ':' :: rest => some ([], rest)
  | c :: rest => (splitColons rest).map fun (a, b) => (c :: a, b)
  | [] => none

/-- `inferred_page`. -/
def inferredPage (handler : Str) (methods : Map Str (List ControllerMethod)) : Option Str := do
  let (controller, method) ← splitColons handler
  let found ← (← methods.get? controller).find? (·.name = method)
  found.page

/-- `payload`. -/
def payload (typeName : Str) (fields : List FieldShape) : Option UagPayload :=
  if typeName = [] ∧ fields = [] then none
  else some ⟨typeName, fields.map fun f => ⟨f.name, f.ty, f.validates⟩⟩

/-- `route_from`. -/
def routeFrom (module : Str) (route : RouteDescriptor) (methods : Map Str (List ControllerMethod)) : UagRoute where
  module := module
  method := route.method.asStr
  path := route.path
  name := route.name
  handler := route.handler
  params := pathParams route.path
  pages := if route.pages = [] then (inferredPage route.handler methods).toFinset else route.pages.toFinset
  action := payload route.actionType route.actionFields
  query := (payload route.queryType route.queryFields).map fun p => ⟨p.typeName, route.queryArray, p.fields⟩
  queryString := payload route.queryStringType route.queryStringFields
  policies := route.policies.toFinset

/-- The cadence of a schedule. -/
def cadenceFrom : ScheduleCadence → UagCadence
  | .every seconds => .every seconds
  | .daily hour minute => .daily hour minute

/-- `module_from`. -/
def moduleFrom (descriptor : ModuleDescriptor) : UagModule where
  imports := descriptor.imports.toFinset
  exports := descriptor.exports.toFinset
  controllers := (controllerMethodIndex descriptor).map fun methods =>
    methods.map fun m => ⟨m.name, m.params, m.page⟩
  services := descriptor.services.toFinset
  policies := descriptor.policies.toFinset
  pages := descriptor.pages.toFinset
  listeners := descriptor.listeners.map fun l => ⟨l.event, l.listener⟩
  jobs := descriptor.jobs.map fun j => ⟨j.kind, j.version, j.handler⟩
  commands := descriptor.commands.map fun c => ⟨c.name, c.function⟩
  schedules := descriptor.schedules.map fun s => ⟨s.job, s.version, cadenceFrom s.cadence⟩

/-- The routes of a module. -/
def moduleRoutes (descriptor : ModuleDescriptor) : List UagRoute :=
  descriptor.routes.map fun route => routeFrom descriptor.name route (controllerMethodIndex descriptor)

/-- `build`: `pages` are the registered contracts. -/
def build (graph : List ModuleDescriptor) (pages : Map Str Json) : UagArtifact :=
  .new (graph.foldl (fun modules d => modules.insert d.name (moduleFrom d)) .empty)
    (graph.flatMap moduleRoutes) pages

/-! ### The generated files -/

variable {l l' : List ModuleDescriptor}

/-- What a route is sorted by. -/
def descriptorKey (route : RouteDescriptor) : Str ×ₗ Str ×ₗ Str ×ₗ Str :=
  toLex (route.path, toLex (route.method.asStr, toLex (route.name, route.handler)))

/-- The module declares a route of a path, method, name and handler. -/
def Declares (k : Str ×ₗ Str ×ₗ Str ×ₗ Str) (d : ModuleDescriptor) : Prop :=
  ∃ route ∈ d.routes, descriptorKey route = k

instance (k : Str ×ₗ Str ×ₗ Str ×ₗ Str) (d : ModuleDescriptor) : Decidable (Declares k d) :=
  inferInstanceAs (Decidable (∃ route ∈ d.routes, descriptorKey route = k))

end Arcature.Uag
