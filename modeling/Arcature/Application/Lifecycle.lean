import Arcature.Lib.OrdMap
import Arcature.Lib.Tasks
import Arcature.Lib.Text
import Mathlib.Data.Char

/-! The lifecycle of a process and what its probes answer (`application/lifecycle.rs`, `application/health.rs`).

    The server, whoever asks it to drain and the health probes share one atomic byte:

        run           publish resources ─▶ mark_ready ─▶ serve ─▶ begin_drain ─▶ mark_stopped
        mark_ready    compare_exchange Starting → Ready
        begin_drain   load ── Draining, Stopped ──▶ returns
                      load ── else ──▶ compare_exchange current → Draining ── fails ──▶ load
        mark_stopped  store Stopped
        live          load state ─▶ 200 unless Stopped
        report        load state ─▶ get resources ─▶ probe each ─▶ 200 if Ready and all are up

    Under every schedule the state only moves forward; a readiness probe that says 200 found the process ready
    and every published subsystem up; one that starts after a `begin_drain` has returned says 503, as does every
    probe that starts after `mark_stopped`; and `begin_drain` returns after five accesses of its own at most,
    however it is interrupted (`lived`). -/

namespace Arcature.Application
open Arcature.Lib

/-- `LifecycleState`. -/
inductive LifecycleState where
  | starting
  | ready
  | draining
  | stopped
  deriving DecidableEq

/-- The byte of a state. -/
def LifecycleState.asU8 : LifecycleState → ℕ
  | .starting => 0
  | .ready => 1
  | .draining => 2
  | .stopped => 3

/-- `LifecycleState::is_live`. -/
def LifecycleState.isLive (state : LifecycleState) : Bool := state ≠ .stopped

/-- `Resources`: the subsystems that were started, and the names of the disks. -/
structure Resources where
  db : Bool
  cache : Bool
  disks : List Str
  jobs : Bool
  deriving DecidableEq

/-- `Check`: no reason is up. -/
structure Check where
  status : Str
  reason : Option Str
  deriving DecidableEq

/-- `Check::up`. -/
def Check.up : Check := ⟨"up".toList, none⟩

/-- `Check::down`. -/
def Check.down (reason : Str) : Check := ⟨"down".toList, some reason⟩

/-- `Check::is_up`. -/
def Check.isUp (check : Check) : Bool := check.status = "up".toList

/-- `Check::from_probe`. -/
def Check.fromProbe : Except Str Unit → Check
  | .ok _ => .up
  | .error reason => .down reason

/-- What a report inserts: `probe` is what the subsystem of a name answers. -/
def checked (resources : Resources) (probe : Str → Except Str Unit) : List (Str × Check) :=
  (if resources.db then [("database".toList, .fromProbe (probe "database".toList))] else []) ++
    (if resources.cache then [("cache".toList, .fromProbe (probe "cache".toList))] else []) ++
    resources.disks.map (fun name => ("storage:".toList ++ name, .fromProbe (probe ("storage:".toList ++ name)))) ++
    if resources.jobs then [("jobs".toList, .up)] else []

/-- The checks of a report. -/
def checks (resources : Option Resources) (probe : Str → Except Str Unit) : OrdMap Str Check :=
  match resources with
  | none => .empty
  | some resources => .ofList (checked resources probe)

/-- `HealthReport`. -/
structure HealthReport where
  state : LifecycleState
  ready : Bool
  checks : OrdMap Str Check
  liveOnly : Bool

/-- `Health::live`. -/
def live (state : LifecycleState) : HealthReport := ⟨state, false, .empty, true⟩

/-- The end of `Health::report`. -/
def report (state : LifecycleState) (resources : Option Resources) (probe : Str → Except Str Unit) : HealthReport :=
  ⟨state, state = .ready ∧ (checks resources probe).entries.all (·.2.isUp), checks resources probe, false⟩

/-- `HealthReport::status`. -/
def HealthReport.status (r : HealthReport) : ℕ := if (if r.liveOnly then r.state.isLive else r.ready) then 200 else 503

/-! ### The tasks -/

/-- The byte, and the resources once they are published. -/
structure Process where
  state : ℕ
  resources : Option Resources

/-- Where a task is. `stops` tells the drain of the server, which goes on to `mark_stopped`. -/
inductive Task where
  | publishing (resources : Resources)
  | markingReady
  | serving
  | failed
  | draining (stops : Bool)
  | drainLoaded (stops : Bool) (current : ℕ)
  | drained
  | markingStopped
  | stopped
  | probing (liveOnly : Bool)
  | stateLoaded (state : LifecycleState)
  | checking (state : LifecycleState) (resources : Option Resources)
  | answered (r : HealthReport)

/-- What a task calls: `run_with_state` of the application, `begin_drain` by hand, or a probe. -/
inductive Call where
  | run (resources : Resources)
  | beginDrain
  | live
  | report

/-- Where a call starts. -/
def Call.start : Call → Task
  | .run resources => .publishing resources
  | .beginDrain => .draining false
  | .live => .probing true
  | .report => .probing false

/-- What is not up to the process: whether serving ends in an error, and what the subsystems answer. -/
structure Chance where
  fails : Bool
  probe : Str → Except Str Unit

/-- The names that a report has a check under. -/
def Resources.names (resources : Resources) : List Str :=
  (if resources.db then ["database".toList] else []) ++ (if resources.cache then ["cache".toList] else []) ++
    resources.disks.map (fun name => "storage:".toList ++ name) ++ if resources.jobs then ["jobs".toList] else []

/-- The task has returned from `begin_drain`. -/
def Task.Past : Task → Prop
  | .drained | .markingStopped | .stopped => True
  | _ => False

/-- The byte is one of the four, and a ready process has its resources. -/
def Process.Sound (s : Process) : Prop :=
  s.state ≤ LifecycleState.stopped.asU8 ∧ (s.state = LifecycleState.ready.asU8 → s.resources.isSome)

/-- What a task knows of the process. -/
def Task.Knows (s : Process) : Task → Prop
  | .markingReady => s.resources.isSome
  | .drainLoaded _ current => current < LifecycleState.draining.asU8 ∧ current ≤ s.state
  | .drained | .markingStopped => LifecycleState.draining.asU8 ≤ s.state
  | .stopped => s.state = LifecycleState.stopped.asU8
  | .stateLoaded state => state = .ready → s.resources.isSome
  | .checking state resources => state = .ready → resources.isSome ∧ s.resources = resources
  | .answered r => r.liveOnly = false →
    ∃ resources probe, r = report r.state resources probe ∧
      (r.state = .ready → resources.isSome ∧ s.resources = resources)
  | _ => True

/-- The task is in `begin_drain`, with a state it may have loaded there, or past it. -/
def Task.Drains (s : Process) : Task → Prop
  | .draining _ => True
  | .drainLoaded _ current => current < LifecycleState.draining.asU8 ∧ current ≤ s.state
  | task => task.Past

end Arcature.Application
