import Arcature.Cli.Make.Name
import Arcature.Observe.JsonLog

/-! What every kind of artifact writes, and where.

    Most kinds write one file, into a directory of the kind's own and the directories of the name below
    it. A module is a directory with four files, a view has its template, a sign-in flow is six files:

        make:controller admin/user   app/controllers/admin/user_controller.rs
        make:module admin/billing    app/modules/admin/billing/mod.rs, controller.rs, service.rs, routes.rs
        make:test checkout           tests/checkout.rs

    A file is registered if the `mod.rs` beside it is to declare it. The texts of the files are left to
    `render`, of which `modelText` is one case; the root of a module is written out, for it declares the
    files beside it on its own. -/

namespace Arcature.Cli.Make
open Lib Lib.Rust

/-- `MakeKind`. -/
inductive MakeKind where
  | module | controller | model | migration | request | resource | policy | service | job | event
  | listener | middleware | command | page | test | factory | seeder | notification | mail | view | upload
  | auth
  deriving DecidableEq

/-- One file to write, and what to do around it. -/
structure Artifact where
  path : Path
  contents : Str
  registerModule : Bool
  notes : List Str

/-- What a template interpolates. -/
structure Rendered where
  stem : Str
  typeName : Str
  slashPath : Str
  baseType : Str
  baseStem : Str

/-- `Rendered::new`. -/
def Rendered.new (name : ArtifactName) (suffix : Str) : Rendered where
  stem := name.fileStem suffix
  typeName := name.typeName suffix
  slashPath := name.slashPath
  baseType := toPascalCase (name.fileStem [])
  baseStem := name.fileStem []

/-- The templates. -/
inductive Template where
  | controller | model | migration | request | resource | policy | service | job | event | listener
  | middleware | command | page | test | factory | seeder | notification | mailable | viewStruct | viewTemplate
  | upload | account | registrationController | sessionController | passwordController | authRoutes
  | authMigration | moduleController | moduleService | moduleRoutes

/-- The text of a model: `model`. -/
def modelText (r : Rendered) : Str :=
  let table := pluralize r.baseStem
  Str.unlines
    ["//! The `".toList ++ r.typeName ++ "` model: one row of `".toList ++ table ++ "`.".toList,
     "".toList,
     "use arcature::prelude::*;".toList,
     "".toList,
     "/// A `".toList ++ table ++ "` row.".toList,
     "#[model(table = \"".toList ++ table ++ "\")]".toList,
     "pub struct ".toList ++ r.typeName ++ " \x7b".toList,
     "    #[sea_orm(primary_key)]".toList,
     "    pub id: i64,".toList,
     "\x7d".toList]

/-- A path below the project, written as its components. -/
def below (components : List String) : Path := components.map String.toList

/-- `destination`. -/
def destination (root : Path) (name : ArtifactName) (stem : Str) : Path := leafFile (root ++ name.dirs) stem

/-- `utc_stamp`, of the seconds since the epoch. -/
def utcStamp (seconds : ℕ) : Str :=
  let (year, month, day) := Observe.civilFromDays (seconds / 86400 : ℕ)
  let timeOfDay := seconds % 86400
  Observe.padded 4 year.toNat ++ Observe.padded 2 month ++ Observe.padded 2 day ++ ['_'] ++
    Observe.padded 2 (timeOfDay / 3600) ++ Observe.padded 2 (timeOfDay % 3600 / 60) ++
    Observe.padded 2 (timeOfDay % 60)

/-- What is left to do for a migration. -/
def migrationNote (module : Str) : Str :=
  "add `Box::new(".toList ++ module ++ "::Migration)` to `Migrator::migrations()` ".toList ++
    "in database/migrations/mod.rs -- ordering is yours to choose, so the generator does not guess it".toList

section plan

variable (render : Template → Rendered → Str)

/-- `rust`: the shape that most kinds share. -/
def rust (name : ArtifactName) (root : List String) (suffix : String) (template : Template) : Artifact :=
  let rendered := Rendered.new name suffix.toList
  { path := destination (below root) name rendered.stem
    contents := render template rendered
    registerModule := true
    notes := [] }

def migration (name : ArtifactName) (now : ℕ) : Artifact :=
  let stem := name.fileStem []
  let module := 'm' :: utcStamp now ++ '_' :: stem
  { path := destination (below ["database", "migrations"]) name module
    contents := render .migration (Rendered.new name [])
    registerModule := true
    notes := [migrationNote module] }

def policy (name : ArtifactName) : Artifact :=
  let r := Rendered.new name "Policy".toList
  { path := destination (below ["app", "policies"]) name r.stem
    contents := render .policy r
    registerModule := true
    notes := [r.stem ++ " names `".toList ++ r.baseType ++
      "` and `User`; point them at the model this policy guards and the application's user type".toList] }

def listener (name : ArtifactName) : Artifact :=
  let r := Rendered.new name []
  let eventType := r.baseType ++ "Event".toList
  { path := destination (below ["app", "listeners"]) name r.stem
    contents := render .listener r
    registerModule := true
    notes := [r.stem ++ " listens for the placeholder `".toList ++ eventType ++
      "`; point it at a real event before building".toList] }

/-- Each file below `tests/` is a crate of its own: there is no `mod.rs` to register with. -/
def test (name : ArtifactName) : Artifact :=
  { path := destination (below ["tests"]) name (name.fileStem [])
    contents := render .test (Rendered.new name [])
    registerModule := false
    notes := [] }

def notification (name : ArtifactName) : Artifact :=
  let r := Rendered.new name []
  { path := destination (below ["app", "notifications"]) name r.stem
    contents := render .notification r
    registerModule := true
    notes :=
      ["notifications are behind the `notifications` feature; add it to the ".toList ++
         "application's `arcature` dependency before building".toList,
       "`to_database` and `to_broadcast` render whatever the features are, but ".toList ++
         "delivering them needs `notifications-db` and `notifications-broadcast`".toList] }

def upload (name : ArtifactName) : Artifact :=
  let r := Rendered.new name "UploadController".toList
  { path := destination (below ["app", "controllers"]) name r.stem
    contents := render .upload r
    registerModule := true
    notes :=
      ["uploads are behind the `uploads` feature; add it to the application's ".toList ++
         "`arcature` dependency before building".toList,
       "an `UploadPolicy` layer decides which extensions the route accepts; ".toList ++
         "with no layer the route accepts images and nothing else".toList] }

/-! ### A view and its template -/

def viewTemplatePath (name : ArtifactName) : Path :=
  below ["templates"] ++ name.dirs ++ [name.fileStem [] ++ ".html".toList]

def view (name : ArtifactName) : List Artifact :=
  let rendered := Rendered.new name "View".toList
  [{ path := destination (below ["app", "views"]) name rendered.stem
     contents := render .viewStruct rendered
     registerModule := true
     notes := [] },
   { path := viewTemplatePath name
     contents := render .viewTemplate rendered
     registerModule := false
     notes := [] }]

/-! ### A sign-in flow -/

def account (name : ArtifactName) : Artifact :=
  let r := Rendered.new name []
  { path := destination (below ["app", "auth"]) name r.stem
    contents := render .account r
    registerModule := true
    notes :=
      ["the flows these controllers call live behind `auth-flows` and ".toList ++
         "`auth-reset`, neither of which is in the feature list `arc new` ".toList ++
         "writes; add both to the application's `arcature` dependency".toList] }

/-- `auth_part`. -/
def authPart (name : ArtifactName) (part : String) (contents : Str) : Artifact :=
  { path := destination (below ["app", "auth"]) name (name.fileStem [] ++ '_' :: part.toList)
    contents
    registerModule := true
    notes := [] }

def authMigration (name : ArtifactName) (now : ℕ) : Artifact :=
  let baseStem := name.fileStem []
  let module := 'm' :: utcStamp now ++ "_create_".toList ++ pluralize baseStem
  { path := destination (below ["database", "migrations"]) name module
    contents := render .authMigration (Rendered.new name [])
    registerModule := true
    notes :=
      [migrationNote module,
       "the reset links need `arcature_password_resets`, which is not this ".toList ++
         "migration: call `PasswordResets::new(pool).migrate()` once at boot, ".toList ++
         "or write the table into a migration of your own".toList,
       "the route collection is not mounted anywhere -- merge `crate::app::auth::".toList ++ baseStem ++
         "_routes::".toList ++ baseStem ++
         "_auth_routes()` into `bootstrap/app.rs` beside `crate::routes::app_routes()`".toList] }

def auth (name : ArtifactName) (now : ℕ) : List Artifact :=
  let r := Rendered.new name []
  [account render name,
   authPart name "registration_controller" (render .registrationController r),
   authPart name "session_controller" (render .sessionController r),
   authPart name "password_controller" (render .passwordController r),
   authPart name "routes" (render .authRoutes r),
   authMigration render name now]

/-! ### A module -/

/-- The directory that a module owns. -/
def moduleDir (name : ArtifactName) : Path := below ["app", "modules"] ++ name.dirs ++ [name.fileStem []]

/-- `module_file`. -/
def moduleFile (name : ArtifactName) (file : String) : Path := moduleDir name ++ [file.toList]

/-- `module_part`. -/
def modulePart (name : ArtifactName) (file : String) (contents : Str) : Artifact :=
  { path := moduleFile name file, contents, registerModule := false, notes := [] }

/-- The text of a module's root, up to its declarations, -/
def moduleRootDoc (r : Rendered) : List Str :=
  ("//! The `".toList ++ r.slashPath ++ "` feature module.".toList) ::
    ["//!",
     "//! Everything this feature owns lives in this directory, and the",
     "//! `module!` block below is the index of it. The application graph",
     "//! reads that index at boot: a type missing from it still compiles",
     "//! and still serves, it is simply invisible to `arc routes` and",
     "//! `arc typegen`.",
     ""].map String.toList

/-- the declarations, -/
def moduleRootDecls : List Str :=
  ["pub mod controller;", "pub mod routes;", "pub mod service;"].map String.toList

/-- and what follows them. -/
def moduleRootBody (r : Rendered) : List Str :=
  let controllerType := r.typeName ++ "Controller".toList
  let serviceType := r.typeName ++ "Service".toList
  let routesConst := r.stem.map Char.toUpper ++ "_ROUTES".toList
  ["",
   "use arcature::prelude::*;",
   "",
   "// `controllers:` and `routes:` are resolved at this site -- the",
   "// first reads the controller's method metadata, the second is a path",
   "// to a const. `services:` and `policies:` are recorded as names"].map String.toList ++
  ["// only, which is why `".toList ++ serviceType ++ "` is named below but not".toList] ++
  ["// imported: an import the macro never resolves is an unused one."].map String.toList ++
  ["use controller::".toList ++ controllerType ++ ";".toList] ++
  ["",
   "module! \x7b"].map String.toList ++
  ["    pub ".toList ++ r.typeName ++ " \x7b".toList,
   "        controllers: [".toList ++ controllerType ++ "],".toList,
   "        services: [".toList ++ serviceType ++ "],".toList,
   "        routes: routes::".toList ++ routesConst ++ ",".toList] ++
  ["    \x7d",
   "\x7d"].map String.toList

/-- `module_root`. -/
def moduleRoot (name : ArtifactName) : Artifact :=
  let r := Rendered.new name []
  { path := moduleFile name "mod.rs"
    contents := Str.unlines (moduleRootDoc r ++ moduleRootDecls ++ moduleRootBody r)
    registerModule := false
    notes := [] }

def module (name : ArtifactName) : List Artifact :=
  let rendered := Rendered.new name []
  [moduleRoot name,
   modulePart name "controller.rs" (render .moduleController rendered),
   modulePart name "service.rs" (render .moduleService rendered),
   modulePart name "routes.rs" (render .moduleRoutes rendered)]

/-! ### Every kind -/

/-- `plan`: the primary artifact. -/
def plan (kind : MakeKind) (name : ArtifactName) (now : ℕ) : Artifact :=
  match kind with
  | .module => moduleRoot name
  | .controller => rust render name ["app", "controllers"] "Controller" .controller
  | .model => rust render name ["app", "models"] "" .model
  | .migration => migration render name now
  | .request => rust render name ["app", "requests"] "Request" .request
  | .resource => rust render name ["app", "resources"] "Resource" .resource
  | .policy => policy render name
  | .service => rust render name ["app", "services"] "Service" .service
  | .job => rust render name ["app", "jobs"] "" .job
  | .event => rust render name ["app", "events"] "" .event
  | .listener => listener render name
  | .middleware => rust render name ["app", "middleware"] "" .middleware
  | .command => rust render name ["app", "commands"] "" .command
  | .page => rust render name ["app", "pages"] "Page" .page
  | .test => test render name
  | .factory => rust render name ["database", "factories"] "Factory" .factory
  | .seeder => rust render name ["database", "seeders"] "Seeder" .seeder
  | .notification => notification render name
  | .mail => rust render name ["app", "mail"] "" .mailable
  | .view => rust render name ["app", "views"] "View" .viewStruct
  | .upload => upload render name
  | .auth => account render name

/-- `plan_all`: every file, the primary one first. -/
def planAll (kind : MakeKind) (name : ArtifactName) (now : ℕ) : List Artifact :=
  match kind with
  | .module => module render name
  | .view => view render name
  | .auth => auth render name now
  | _ => [plan render kind name now]

end plan

end Arcature.Cli.Make
