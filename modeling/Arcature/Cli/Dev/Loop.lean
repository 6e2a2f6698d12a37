import Arcature.Cli.Dev.Backend

/-! The rebuild loop (`cli/commands/dev/mod.rs`) with the watcher it listens to
    (`cli/commands/dev/watch.rs`), as a machine whose environment reports changes at any moment.

    The watcher gathers signals into one pending change, the costlier winning, until no signal has
    come for a while. The loop serves one change at a time; while it does, the first further change
    is kept in `next` and the compiler is asked to die. Changes after that one wait in the watcher.

        report ──▶ signals ──absorb──▶ pending ──deliver──▶ dispatched (idle) | next, kill (working)
        top ──turn──▶ dispatched | idle;  dispatched ──go──▶ working ──work ..──▶ top -/

namespace Arcature.Cli.Dev
open Arcature.Lib

/-- What a change to a file asks the supervisor to do, ordered by cost. -/
inductive Change where | restart | rebuild
  deriving DecidableEq

/-- The costlier of two changes. -/
def Change.max : Change → Change → Change
  | .restart, .restart => .restart
  | _, _ => .rebuild

/-- What the watcher thread sends to the loop. -/
inductive Signal where
  | changed (change : Change)
  | appeared (path : Path)

/-- Where the loop is. -/
inductive Place where
  | top
  | idle
  | dispatched (change : Change)
  | working
  | ended

/-- The loop, its watcher and its backend. -/
structure Loop where
  session : Session
  signals : List Signal
  pending : Option Change
  next : Option Change
  place : Place
  interrupted : Bool

/-- One step of the loop or of what surrounds it. -/
inductive Event where
  | report (signal : Signal)
  | absorb
  | deliver
  | closed
  | interrupt
  | turn
  | go
  | work (op : Op)

/-- The steps of a call in progress, as against those that begin one or reach into it. -/
def Op.inner : Op → Bool
  | .reload | .restartOnly | .request | .stop => false
  | _ => true

namespace Loop

/-- Whether anybody is waiting in `next_change`: the idle loop, or `run_change` while it has no
    newer change yet. -/
def listening (l : Loop) : Bool :=
  match l.place with
  | .idle => true
  | .working => l.next.isNone && !l.interrupted
  | _ => false

/-- `next_change` takes one signal. -/
def absorb (l : Loop) : Loop :=
  match l.signals with
  | [] => l
  | .changed change :: rest =>
    { l with signals := rest, pending := some ((l.pending.map (·.max change)).getD change) }
  | .appeared _ :: rest => { l with signals := rest }

variable (digest : Bytes → UInt64) (windows : Bool)

/-- `next_change` returns, to the idle loop or into `run_change`. -/
def deliver (l : Loop) (change : Change) : Loop :=
  match l.place with
  | .idle => { l with pending := none, place := .dispatched change }
  | .working =>
    { l with
      pending := none, next := some change,
      session := (l.session.step digest windows .request).1 }
  | _ => l

/-- Begin to serve a change. -/
def go (l : Loop) (change : Change) : Loop :=
  match change with
  | .rebuild => { l with session := (l.session.step digest windows .reload).1, place := .working }
  | .restart =>
    { l with session := (l.session.step digest windows .restartOnly).1, place := .working }

/-- A step of the call in progress, and where the loop goes when the call comes back. -/
def work (l : Loop) (op : Op) : Loop :=
  match l.session.step digest windows op with
  | (session, none) => { l with session }
  | (session, some (.error _)) => { l with session, place := .ended }
  | (session, some _) => { l with session, place := if l.interrupted then .ended else .top }

/-- One step. A step that is not enabled does nothing. -/
def step (l : Loop) : Event → Loop × Unit
  | .report signal => ({ l with signals := l.signals ++ [signal] }, ())
  | .absorb => (if l.listening then l.absorb else l, ())
  | .deliver =>
    match l.pending with
    | some change =>
      (if l.listening && l.signals.isEmpty then l.deliver digest windows change else l, ())
    | none => (l, ())
  | .closed =>
    match l.place with
    | .idle => (if l.signals.isEmpty && l.pending.isNone then { l with place := .ended } else l, ())
    | _ => (l, ())
  | .interrupt =>
    match l.place with
    | .idle => ({ l with place := .ended }, ())
    | .working =>
      ({ l with session := (l.session.step digest windows .request).1, interrupted := true }, ())
    | _ => (l, ())
  | .turn =>
    match l.place with
    | .top =>
      match l.next with
      | some change => ({ l with next := none, place := .dispatched change }, ())
      | none => ({ l with place := .idle }, ())
    | _ => (l, ())
  | .go =>
    match l.place with
    | .dispatched change => (l.go digest windows change, ())
    | _ => (l, ())
  | .work op =>
    match l.place with
    | .working => (if op.inner then l.work digest windows op else l, ())
    | _ => (l, ())

end Loop

/-- `rebuild_loop` over a fresh backend: the first build is not asked for by a change. -/
def rebuildLoop (digest : Bytes → UInt64) (windows : Bool) (disk : Path → Option Bytes) :
    Machine Loop Event Unit :=
  ⟨⟨(backend digest windows disk).init, [], none, some .rebuild, .top, false⟩,
    Loop.step digest windows⟩

end Arcature.Cli.Dev
