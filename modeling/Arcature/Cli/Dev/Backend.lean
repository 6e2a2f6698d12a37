import Arcature.Lib.Json
import Arcature.Lib.Machine

/-! The application child of the development server (`cli/commands/dev/backend.rs`): what a `reload`
    and a `restart_only` do, step by step, to the child, to the remembered build and to the status.

    Cargo replaces the files it produces while it runs, whether or not the build is then cancelled
    or fails. What the supervisor remembers is written at other moments: `built` when a build has
    succeeded, `built_digest` when a reload has put a child up, `child` whenever one listens.

        reload ──▶ compiling ──exit──▶ built ──settle──▶ unchanged
                                                   └──▶ starting ──stage──spawn──boot──▶ listening
        restart_only ─────────────────────────────────▶ starting -/

namespace Arcature.Cli.Dev
open Arcature.Lib

/-- A file's place. -/
abbrev Path := Str

/-! ### One `cargo build` -/

/-- The result of one `cargo build`. -/
inductive Build where
  | succeeded (executable : Path)
  | failed (diagnostics : Str)
  | cancelled

/-- Cargo's message stream, reduced to what decides the outcome. -/
structure MessageStream where
  diagnostics : Str
  executable : Option Path

namespace MessageStream

/-- A member of a message, where it is a string. -/
def text (message : Json) (path : List Str) : Option Str :=
  match message.pointer path with
  | some (.string s) => some s
  | _ => none

/-- Take one message into account. -/
def absorb (m : MessageStream) (message : Json) : MessageStream :=
  if text message ["reason".toList] = some "compiler-message".toList then
    match text message ["message".toList, "rendered".toList] with
    | some rendered => { m with diagnostics := m.diagnostics ++ rendered }
    | none => m
  else if text message ["reason".toList] = some "compiler-artifact".toList then
    match text message ["executable".toList] with
    | some path => { m with executable := some path }
    | none => m
  else m

/-- Turn what was observed into a build outcome. -/
def finish (m : MessageStream) (success : Bool) (stderr : Str) : Build :=
  if success then
    match m.executable with
    | some executable => .succeeded executable
    | none => .failed ("cargo succeeded but produced no executable. `arc dev` needs a binary target ".toList ++
        "-- check that src/main.rs exists and that the package is not library-only.".toList)
  else if m.diagnostics.trim = [] then
    .failed (m.diagnostics ++
      if stderr.trim = [] then
        "cargo failed without saying why. Look at the terminal running `arc dev` for the reason.".toList
      else stderr)
  else .failed m.diagnostics

end MessageStream

/-- The end of `run_cargo_build`: a kill that was asked for wins over whatever cargo came to. -/
def runCargoBuild (requested : Bool) (messages : List Json) (success : Bool) (stderr : Str) : Build :=
  if requested then .cancelled
  else (messages.foldl MessageStream.absorb ⟨[], none⟩).finish success stderr

/-! ### The backend -/

/-- Where the backend is in its life cycle. -/
inductive BackendStatus where
  | building
  | ready
  | failed (diagnostics : Str)

/-- How far a `reload` or `restart_only` has come. `record` is what it will leave in
    `built_digest`, where it writes it at all. -/
inductive Work where
  | none
  | compiling
  | built (build : Build)
  | starting (executable : Path) (record : Option (Option UInt64))
  | staged (executable : Path) (copy : Option Bytes) (record : Option (Option UInt64))
  | booting (image : Bytes) (record : Option (Option UInt64))

/-- The backend, the files, and the call in progress with its `Cancel`. The child is the bytes it
    was started from. -/
structure Session where
  child : Option Bytes
  built : Option Path
  builtDigest : Option UInt64
  status : BackendStatus
  disk : Path → Option Bytes
  requested : Bool
  work : Work

/-- Why a call fails. -/
inductive DevError where | cargo | stage | spawn | wait

/-- What a call comes back with. -/
inductive Reload where
  | done (unchanged : Bool)
  | cancelled
  | error (e : DevError)

/-- One step: a call, a kill, something cargo or the child does, or the next stretch of the call in
    progress. -/
inductive Op where
  | reload
  | restartOnly
  | request
  | write (path : Path) (bytes : Bytes)
  | noCargo
  | exit (messages : List Json) (success : Bool) (stderr : Str)
  | settle (readable : Bool)
  | stage
  | spawn
  | boot (listening : Bool)
  | stop

namespace Session

-- `digest` of a file's bytes, and whether the platform pins a running binary, so that it has to be
-- copied before it is run
variable (digest : Bytes → UInt64) (windows : Bool)

/-- The beginning of `reload`: the status, and cargo. -/
def reload (s : Session) : Session :=
  { s with status := .building, requested := false, work := .compiling }

/-- The beginning of `restart_only`: a full `reload` where nothing was built yet. -/
def restartOnly (s : Session) : Session :=
  match s.built with
  | some executable =>
    { s with status := .building, requested := false, work := .starting executable none }
  | none => s.reload

/-- The digest of a file, where it can be read. -/
def fingerprint (s : Session) (executable : Path) (readable : Bool) : Option UInt64 :=
  if readable then (s.disk executable).map digest else none

/-- `reload` after its build. -/
def settle (s : Session) (readable : Bool) : Build → Session × Option Reload
  | .failed diagnostics =>
    ({ s with status := .failed diagnostics, work := .none }, some (.done false))
  | .cancelled => ({ s with work := .none }, some .cancelled)
  | .succeeded executable =>
    let fingerprint := s.fingerprint digest executable readable
    let s := { s with built := some executable }
    if s.child.isSome && fingerprint.isSome && fingerprint = s.builtDigest then
      ({ s with status := .ready, work := .none }, some (.done true))
    else ({ s with work := .starting executable (some fingerprint) }, none)

/-- `restart` up to the spawn: the copy first, where one is made, then the old child stops. -/
def stage (s : Session) (executable : Path) (record : Option (Option UInt64)) :
    Session × Option Reload :=
  if windows then
    match s.disk executable with
    | some bytes => ({ s with child := none, work := .staged executable (some bytes) record }, none)
    | none => ({ s with work := .none }, some (.error .stage))
  else ({ s with child := none, work := .staged executable none record }, none)

/-- The spawn: of the copy, or of cargo's own file. -/
def spawn (s : Session) (executable : Path) (copy : Option Bytes)
    (record : Option (Option UInt64)) : Session × Option Reload :=
  match copy.or (s.disk executable) with
  | some image => ({ s with work := .booting image record }, none)
  | none => ({ s with work := .none }, some (.error .spawn))

/-- The boot: a process that never listened is not left running. -/
def boot (s : Session) (image : Bytes) (record : Option (Option UInt64)) (listening : Bool) :
    Session × Option Reload :=
  if listening then
    ({ s with
        child := some image, builtDigest := record.getD s.builtDigest, status := .ready,
        work := .none }, some (.done false))
  else ({ s with work := .none }, some (.error .wait))

/-- One step. A step that is not enabled does nothing. -/
def step (s : Session) (op : Op) : Session × Option Reload :=
  match op, s.work with
  | .reload, .none => (s.reload, none)
  | .restartOnly, .none => (s.restartOnly, none)
  | .stop, .none => ({ s with child := none }, none)
  | .request, _ => ({ s with requested := true }, none)
  | .write path bytes, .compiling => ({ s with disk := Function.update s.disk path (some bytes) }, none)
  | .noCargo, .compiling => ({ s with work := .none }, some (.error .cargo))
  | .exit messages success stderr, .compiling =>
    ({ s with work := .built (runCargoBuild s.requested messages success stderr) }, none)
  | .settle readable, .built build => s.settle digest readable build
  | .stage, .starting executable record => s.stage windows executable record
  | .spawn, .staged executable copy record => s.spawn executable copy record
  | .boot listening, .booting image record => s.boot image record listening
  | _, _ => (s, none)

end Session

/-- The backend as `Backend::new` prepares it, over the files there are. -/
def backend (digest : Bytes → UInt64) (windows : Bool) (disk : Path → Option Bytes) :
    Machine Session Op (Option Reload) :=
  ⟨⟨none, none, none, .building, disk, false, .none⟩, Session.step digest windows⟩

end Arcature.Cli.Dev
