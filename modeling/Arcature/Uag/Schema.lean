import Arcature.Lib.Json
import Arcature.Lib.Sort
import Mathlib.Data.Char
import Mathlib.Data.List.Lex
import Mathlib.Data.Prod.Lex

/-! The artifact of an application: its modules, routes and pages (`uag/schema.rs`).

    Everything that the generators read is in here. Sets and maps are ordered containers, and the
    routes are sorted by path, method, name and handler:

        GET   /links          links.index   LinksController::index
        POST  /links          links.store   LinksController::store
        GET   /links/{link}   links.show    LinksController::show

    The order of texts is that of their code points, which is the order of their bytes. -/

namespace Arcature.Uag
open Arcature.Lib

/-! ### Names in order -/

instance : IsTrans Str (· ≤ ·) := inferInstance

instance : @Std.Antisymm Str (· ≤ ·) := inferInstance

instance : @Std.Total Str (· ≤ ·) := inferInstance

/-! ### The artifact -/

/-- One field of a request input or a resource output. -/
structure UagField where
  name : Str
  ty : Str
  validates : List Str
  deriving DecidableEq

/-- A named group of fields. -/
structure UagPayload where
  typeName : Str
  fields : List UagField
  deriving DecidableEq

/-- The typed response of a query route. -/
structure UagQuery where
  typeName : Str
  array : Bool
  fields : List UagField
  deriving DecidableEq

/-- One route. -/
structure UagRoute where
  module : Str
  method : Str
  path : Str
  name : Str
  handler : Str
  params : List Str
  pages : Finset Str
  action : Option UagPayload
  query : Option UagQuery
  queryString : Option UagPayload
  policies : Finset Str
  deriving DecidableEq

/-- One controller method. -/
structure UagControllerMethod where
  name : Str
  params : List Str
  page : Option Str
  deriving DecidableEq

/-- A listener of an event. -/
structure UagListener where
  event : Str
  listener : Str
  deriving DecidableEq

/-- A job kind with its handler. -/
structure UagJob where
  kind : Str
  version : Int16
  handler : Str
  deriving DecidableEq

/-- A command with its function. -/
structure UagCommand where
  name : Str
  function : Str
  deriving DecidableEq

/-- How often a scheduled job fires. -/
inductive UagCadence where
  | every (seconds : UInt64)
  | daily (hour minute : UInt8)
  deriving DecidableEq

/-- A job on a cadence. -/
structure UagSchedule where
  job : Str
  version : Int16
  cadence : UagCadence
  deriving DecidableEq

/-- One module, without its routes. -/
structure UagModule where
  imports : Finset Str
  exports : Finset Str
  controllers : Map Str (List UagControllerMethod)
  services : Finset Str
  policies : Finset Str
  pages : Finset Str
  listeners : List UagListener
  jobs : List UagJob
  commands : List UagCommand
  schedules : List UagSchedule

/-- The whole application; the schema of a page is given as JSON. -/
structure UagArtifact where
  format : Str
  schemaVersion : ℕ
  modules : Map Str UagModule
  routes : List UagRoute
  pages : Map Str Json

/-- What the routes are sorted by. -/
def UagRoute.sortKey (r : UagRoute) : Str ×ₗ Str ×ₗ Str ×ₗ Str :=
  toLex (r.path, toLex (r.method, toLex (r.name, r.handler)))

/-- `SCHEMA_VERSION`. -/
def currentSchemaVersion : ℕ := 1

/-- `UagArtifact::FORMAT`. -/
def artifactFormat : Str := "arcature.uag.v1".toList

/-- `UagArtifact::new`. -/
def UagArtifact.new (modules : Map Str UagModule) (routes : List UagRoute) (pages : Map Str Json) :
    UagArtifact where
  format := artifactFormat
  schemaVersion := currentSchemaVersion
  modules := modules
  routes := sortByKey UagRoute.sortKey routes
  pages := pages

theorem UagArtifact.new_routes (modules : Map Str UagModule) (routes : List UagRoute) (pages : Map Str Json) :
    (UagArtifact.new modules routes pages).routes = sortByKey UagRoute.sortKey routes := rfl

end Arcature.Uag
