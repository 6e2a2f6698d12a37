import Arcature.Cli.Make.ModFile
import Arcature.Cli.Make.Planned

/-! Writing what was planned, and teaching the `mod.rs` files about it.

    A project is its files. A call looks at every target first and writes only if none is there. Then
    every registered file is declared in the `mod.rs` beside it; if that is missing it is created, and
    declared in its turn one level up:

        make:controller admin/user
          app/controllers/admin/user_controller.rs
          app/controllers/admin/mod.rs    new, declares user_controller
          app/controllers/mod.rs          declares admin
    -/

namespace Arcature.Cli.Make
open Lib Lib.Rust

/-! ### Steps that may fail -/

/-- `MakeError`. An error of the file system names the path. -/
inductive MakeError where
  | notAnApplicationRoot
  | name (error : NameError)
  | targetExists (path : Path)
  | io (path : Path)
  deriving DecidableEq

/-- A computation over the files of the project that may fail on its way. -/
def Disk (α : Type) := Tree → Except MakeError α × Tree

namespace Disk
variable {α β : Type}

instance : Monad Disk where
  pure a := fun t => (.ok a, t)
  bind m f := fun t =>
    match m t with
    | (.ok a, t') => f a t'
    | (.error e, t') => (.error e, t')

/-- Fail. -/
def fail (e : MakeError) : Disk α := fun t => (.error e, t)

/-- The files as they are. -/
def files : Disk Tree := fun t => (.ok t, t)

theorem bind_ok {m : Disk α} {f : α → Disk β} {t t' : Tree} {b : β} :
    (m >>= f) t = (.ok b, t') ↔ ∃ a t₁, m t = (.ok a, t₁) ∧ f a t₁ = (.ok b, t') := by
  rw [bind, Monad.toBind]
  simp only [instMonad]
  cases hm : m t with
  | mk result t₁ => cases result <;> simp

theorem bind_error {m : Disk α} {f : α → Disk β} {t t' : Tree} {e : MakeError} :
    (m >>= f) t = (.error e, t') ↔
      m t = (.error e, t') ∨ ∃ a t₁, m t = (.ok a, t₁) ∧ f a t₁ = (.error e, t') := by
  rw [bind, Monad.toBind]
  simp only [instMonad]
  cases hm : m t with
  | mk result t₁ => cases result <;> simp

@[simp] theorem pure_run {a : α} {t : Tree} : (pure a : Disk α) t = (.ok a, t) := rfl

@[simp] theorem fail_run {e : MakeError} {t : Tree} : (fail e : Disk α) t = (.error e, t) := rfl

@[simp] theorem files_run {t : Tree} : files t = (.ok t, t) := rfl

end Disk

/-! ### The file system -/

/-- There is a file: `is_file`. -/
def isFile (t : Tree) (p : Path) : Bool := (t.get? p).isSome

/-- There is a directory. One is there if a file is in it; a new one shows with its first file. -/
def isDir (t : Tree) (p : Path) : Bool := decide (∃ q ∈ t.keys, p <+: q ∧ p ≠ q)

/-- There is something: `exists`. -/
def isThere (t : Tree) (p : Path) : Bool := isFile t p || isDir t p

/-- `create_dir_all`: a file in the way is an error. -/
def createDirAll (d : Path) : Disk Unit := do
  let t ← Disk.files
  if d.inits.any (isFile t) then Disk.fail (.io d) else pure ()

/-- `read_file`. -/
def readFile (p : Path) : Disk Str := do
  let t ← Disk.files
  match t.get? p with
  | some text => pure text
  | none => Disk.fail (.io p)

/-- `write_file`. -/
def writeFile (p : Path) (contents : Str) : Disk Unit := fun t =>
  if isDir t p || p.dropLast.inits.any (isFile t) then (.error (.io p), t) else (.ok (), t.insert p contents)

theorem readFile_ok {p : Path} {text : Str} {t t' : Tree} (h : readFile p t = (.ok text, t')) :
    t.get? p = some text ∧ t' = t := by
  have h : (match t.get? p with | some text => pure text | none => Disk.fail (.io p) : Disk Str) t = (.ok text, t') := h
  cases hget : t.get? p with
  | none => simp [hget] at h
  | some found =>
    rw [hget] at h
    obtain ⟨htext, ht⟩ := Prod.mk.inj h
    exact ⟨congrArg some (Except.ok.inj htext), ht.symm⟩

theorem createDirAll_ok {d : Path} {u : Unit} {t t' : Tree} (h : createDirAll d t = (.ok u, t')) : t' = t := by
  have h : (if d.inits.any (isFile t) then Disk.fail (.io d) else pure () : Disk Unit) t = (.ok u, t') := h
  split_ifs at h
  · simp at h
  · exact (Prod.mk.inj h).2.symm

theorem writeFile_ok {p : Path} {contents : Str} {u : Unit} {t t' : Tree}
    (h : writeFile p contents t = (.ok u, t')) : t' = t.insert p contents := by
  rw [writeFile] at h
  split_ifs at h
  · simp at h
  · exact (Prod.mk.inj h).2.symm

/-! ### Registering a file -/

/-- What a generation reports. -/
structure Generated where
  path : Path
  touchedModules : List Path
  notes : List Str

/-- A module file was touched. -/
def Generated.touch (g : Generated) (module : Path) : Generated :=
  if g.touchedModules.contains module then g else { g with touchedModules := g.touchedModules ++ [module] }

/-- Something is left to do. -/
def Generated.note (g : Generated) (note : Str) : Generated := { g with notes := g.notes ++ [note] }

/-- A path as it is displayed. -/
def display (p : Path) : Str := ['/'].intercalate p

/-- What is left to do for a new top-level directory. -/
def wiringNote (module : Path) (directory : Str) : Str :=
  "created ".toList ++ display module ++ " -- declare it in src/lib.rs with `#[path = \"../".toList ++ directory ++
    "/mod.rs\"] pub mod ".toList ++ directory ++ ";` if it is not there already".toList

/-- The first half of `register`: a missing `mod.rs` is created, and `up` declares its directory. -/
def createRoot (dir : Path) (up : Str → Generated → Disk Generated) (g : Generated) : Disk Generated := do
  let module := rootFile dir
  let directory := dir.getLast?.getD []
  let t ← Disk.files
  if isThere t module then pure g
  else do
    writeFile module (newModuleHeader directory)
    up directory { g with touchedModules := g.touchedModules ++ [module] }

/-- The second half: the `mod.rs` declares the stem, unless it does already. -/
def declareIn (module : Path) (stem : Str) (g : Generated) : Disk Generated := do
  let existing ← readFile module
  if declares existing stem then pure g
  else do
    writeFile module (withDeclaration existing stem)
    pure (g.touch module)

/-- `register`, with `up` for what it does one level up when the `mod.rs` is new. -/
def registerIn (dir : Path) (stem : Str) (up : Str → Generated → Disk Generated) (g : Generated) :
    Disk Generated := do
  let g ← createRoot dir up g
  declareIn (rootFile dir) stem g

/-- `register`, the directory given from its end; it stops at the top. -/
def registerRev : List Str → Str → Generated → Disk Generated
  | [], stem, g => registerIn [] stem (fun directory g => pure (g.note (wiringNote (rootFile []) directory))) g
  | [top], stem, g =>
    registerIn [top] stem (fun directory g => pure (g.note (wiringNote (rootFile [top]) directory))) g
  | name :: parent :: above, stem, g =>
    registerIn (name :: parent :: above).reverse stem (registerRev (parent :: above)) g

/-- `register`. -/
def register (dir : Path) (stem : Str) (g : Generated) : Disk Generated := registerRev dir.reverse stem g

/-! ### Writing what was planned -/

/-- `file_stem` of a file name. -/
def stemOf (file : Str) : Str :=
  let stem := (file.rdropWhile (· ≠ '.')).dropLast
  if stem = [] then file else stem

/-- `write`. -/
def write (artifact : Artifact) : Disk Generated := do
  let t ← Disk.files
  if isThere t artifact.path then Disk.fail (.targetExists artifact.path)
  else do
    createDirAll artifact.path.dropLast
    writeFile artifact.path artifact.contents
    let g : Generated := { path := artifact.path, touchedModules := [], notes := artifact.notes }
    if artifact.registerModule then
      register artifact.path.dropLast (stemOf (artifact.path.getLast?.getD [])) g
    else pure g

/-- A file with an extension has the name without it for a stem. -/
theorem stemOf_rs {stem : Str} (h : stem ≠ []) : stemOf (stem ++ ".rs".toList) = stem := by
  have hrs : stem ++ ".rs".toList = (stem ++ ['.']) ++ ['r', 's'] := by
    rw [List.append_assoc]
    rfl
  have hdrop : (stem ++ ".rs".toList).rdropWhile (· ≠ '.') = stem ++ ['.'] := by
    rw [hrs, List.rdropWhile, List.reverse_append, List.reverse_append]
    simp
  rw [stemOf, hdrop, List.dropLast_concat]
  exact if_neg h

/-- What a successful write did. -/
theorem write_ok {a : Artifact} {g : Generated} {t t' : Tree} (h : write a t = (.ok g, t')) :
    isThere t a.path = false ∧
      if a.registerModule then
        ∃ g₀, register a.path.dropLast (stemOf (a.path.getLast?.getD [])) g₀ (t.insert a.path a.contents) = (.ok g, t')
      else t' = t.insert a.path a.contents := by
  obtain ⟨t₀, t₁, hfiles, hrun⟩ := Disk.bind_ok.mp h
  obtain ⟨hsame, rfl⟩ := Prod.mk.inj hfiles
  obtain rfl := Except.ok.inj hsame
  by_cases hthere : isThere t a.path = true
  · rw [if_pos hthere] at hrun
    simp at hrun
  · rw [if_neg hthere] at hrun
    obtain ⟨u, t₁, hdir, hfile⟩ := Disk.bind_ok.mp hrun
    obtain rfl := createDirAll_ok hdir
    obtain ⟨u', t₂, hwrite, hregister⟩ := Disk.bind_ok.mp hfile
    obtain rfl := writeFile_ok hwrite
    refine ⟨Bool.eq_false_of_not_eq_true hthere, ?_⟩
    split_ifs at hregister ⊢
    · exact ⟨_, hregister⟩
    · exact (Prod.mk.inj hregister).2.symm

/-- One after another. -/
def writeAll : List Artifact → Disk (List Generated)
  | [] => pure []
  | artifact :: artifacts => do
    let g ← write artifact
    let gs ← writeAll artifacts
    pure (g :: gs)

/-- What is left to do for a list without its markers. -/
def markerNote (region entry : Str) : Str :=
  "app/modules/mod.rs has no `// arc:modules ".toList ++ region ++ "` marker -- add `".toList ++ entry ++
    "` to its ".toList ++ region ++ " list by hand".toList

/-- An entry is put into its region, or left to the developer. -/
def insertEntry : Str × Generated → Str × Str → Str × Generated
  | (updated, g), (region, entry) =>
    match insertInRegion updated region entry with
    | some next => (next, g)
    | none => (updated, g.note (markerNote region entry))

/-- The entries of a module in the lists of `app/modules/mod.rs`. -/
def moduleEntries (name : ArtifactName) : List (Str × Str) :=
  let stem := name.fileStem []
  let modulePath := name.dirs.flatMap (· ++ "::".toList) ++ stem
  -- the accessor is the type name in lower case, not in snake case
  let accessor := (name.typeName []).map Char.toLower ++ "_module".toList
  [("descriptors".toList, modulePath ++ "::".toList ++ accessor ++ "().clone(),".toList),
   ("routes".toList, modulePath ++ "::routes::".toList ++ stem ++ "_routes(),".toList)]

/-- The directory that declares a module. -/
def modulesDir (name : ArtifactName) : Path := below ["app", "modules"] ++ name.dirs

/-- `register_feature_module`. -/
def registerFeatureModule (name : ArtifactName) (g : Generated) : Disk Generated := do
  let g ← register (modulesDir name) (name.fileStem []) g
  let list := rootFile (below ["app", "modules"])
  let original ← readFile list
  let (updated, g) := (moduleEntries name).foldl insertEntry (original, g)
  if updated ≠ original then do
    writeFile list updated
    pure (g.touch list)
  else pure g

section generate

variable (render : Template → Rendered → Str)

/-- `generate_all`, of a parsed name: every target is looked at before the first one is written. -/
def generateParsed (kind : MakeKind) (parsed : ArtifactName) (now : ℕ) : Disk (List Generated) := do
  let artifacts := planAll render kind parsed now
  let t ← Disk.files
  match artifacts.find? fun artifact => isThere t artifact.path with
  | some artifact => Disk.fail (.targetExists artifact.path)
  | none =>
    let written ← writeAll artifacts
    if kind = .module then
      match written with
      | primary :: rest => do
        let primary ← registerFeatureModule parsed primary
        pure (primary :: rest)
      | [] => pure []
    else pure written

/-- `generate_all`. -/
def generateAll (kind : MakeKind) (rawName : Str) (now : ℕ) : Disk (List Generated) := do
  let t ← Disk.files
  if isFile t (below ["Cargo.toml"]) then
    match ArtifactName.parse rawName with
    | .error error => Disk.fail (.name error)
    | .ok parsed => generateParsed render kind parsed now
  else Disk.fail .notAnApplicationRoot

end generate

end Arcature.Cli.Make
