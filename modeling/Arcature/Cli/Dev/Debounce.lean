import Arcature.Cli.Dev.Watch

/-! Changes that are gathered until no more of them come (`cli/commands/dev/watch.rs`).

    `next_change` waits for a signal, and once it holds a change, only for so long. What it holds is kept
    in the watch, so that the call may be dropped wherever it waits and another begun:

        call ──▶ recv ──received──▶ timeout ──elapsed──▶ the change held
                  │                  │ received ↺
                  └──exhausted──▶    └──exhausted──▶ the change held
                     nothing

    Whatever order signals, deadlines, drops and calls come in, each change that is returned is the
    costliest of those received since the one before it, what is held is the costliest of those received
    since then, and nothing is returned only at the end of the channel, when nothing is held
    (`changes_accounted`). -/

namespace Arcature.Cli.Dev
open Arcature.Lib

/-- Where a call waits. -/
inductive Await where
  | recv
  | timeout

/-- The watch with its channel, and the call in progress. -/
structure Debounce where
  watch : Watch
  closed : Bool
  waiting : Option Await

/-- What happens to it. -/
inductive Moment where
  | send (signal : Signal)
  | close
  | call
  | received
  | exhausted
  | elapsed
  | cancel

/-- What comes of it: a signal is taken off the channel, or the call returns. -/
inductive Outcome where
  | quiet
  | took (signal : Signal)
  | returned (change : Option Change)

namespace Debounce

/-- The `match` at the head of the loop. -/
def awaits (w : Watch) : Await :=
  match w.pending with
  | none => .recv
  | some _ => .timeout

/-- `return self.pending.take()`. -/
def take (d : Debounce) : Debounce × Outcome :=
  ({ d with watch := { d.watch with pending := none }, waiting := none }, .returned d.watch.pending)

variable (isDir : Path → Bool)

/-- One step. One that is not enabled does nothing. -/
def step (d : Debounce) : Moment → Debounce × Outcome
  | .send signal =>
    (if d.closed then d else { d with watch := { d.watch with signals := d.watch.signals ++ [signal] } }, .quiet)
  | .close => ({ d with closed := true }, .quiet)
  | .call =>
    match d.waiting with
    | none => ({ d with waiting := some (awaits d.watch) }, .quiet)
    | some _ => (d, .quiet)
  | .received =>
    match d.waiting, d.watch.signals with
    | some _, signal :: _ =>
      let watch := d.watch.receive isDir
      ({ d with watch, waiting := some (awaits watch) }, .took signal)
    | _, _ => (d, .quiet)
  | .exhausted =>
    match d.waiting, d.watch.signals with
    | some .recv, [] => if d.closed then ({ d with waiting := none }, .returned none) else (d, .quiet)
    | some .timeout, [] => if d.closed then d.take else (d, .quiet)
    | _, _ => (d, .quiet)
  | .elapsed =>
    match d.waiting with
    | some .timeout => d.take
    | _ => (d, .quiet)
  | .cancel => ({ d with waiting := none }, .quiet)

end Debounce

/-- A watch that has just been started over some directories. -/
def debounced (isDir : Path → Bool) (tree : Finset Path) : Machine Debounce Moment Outcome :=
  ⟨⟨(Project.start tree).watch, false, none⟩, Debounce.step isDir⟩

/-! ### Accounts -/

/-- The costliest of some changes. -/
def costliest (changes : List Change) : Option Change :=
  if .rebuild ∈ changes then some .rebuild else if .restart ∈ changes then some .restart else none

/-- The change that a signal carries. -/
def Signal.change? : Signal → Option Change
  | .changed change => some change
  | .appeared _ => none

/-- The signal that was received. -/
def Outcome.signal? : Outcome → Option Signal
  | .took signal => some signal
  | _ => none

/-- Changes that were returned, each with those received since the one before it, and those received since
    the last one. -/
def account : List (List Change × Change) × List Change → Outcome → List (List Change × Change) × List Change
  | (returned, due), .returned (some change) => (returned ++ [(due, change)], [])
  | (returned, due), .took signal => (returned, due ++ signal.change?.toList)
  | (returned, due), _ => (returned, due)

/-- The account of what came of a schedule. -/
def accountOf (outs : List Outcome) : List (List Change × Change) × List Change := outs.foldl account ([], [])

/-- The channel is closed. -/
def Moment.isClose : Moment → Bool
  | .close => true
  | _ => false

/-- The signal that is sent. -/
def Moment.signal? : Moment → Option Signal
  | .send signal => some signal
  | _ => none

/-- The signals that are sent before the channel is closed. -/
def sent (ms : List Moment) : List Signal := (ms.takeWhile fun m => !m.isClose).filterMap Moment.signal?

section Runs
variable (isDir : Path → Bool) (tree : Finset Path)

/-- What came of a schedule. -/
def outcomes (ms : List Moment) : List Outcome := ((debounced isDir tree).trace ms).map Prod.snd

/-- A schedule is accounted for: no signal is lost on the channel, each received change is due or stands in
    one burst, each burst is returned as its costliest, and nothing is returned only when the channel is
    closed and empty and no change is due. -/
structure Accounted (ms : List Moment) : Prop where
  sent : sent ms = (outcomes isDir tree ms).filterMap Outcome.signal? ++ ((debounced isDir tree).run ms).watch.signals
  received : ((outcomes isDir tree ms).filterMap Outcome.signal?).filterMap Signal.change? =
    (accountOf (outcomes isDir tree ms)).1.flatMap Prod.fst ++ (accountOf (outcomes isDir tree ms)).2
  returned : ∀ burst ∈ (accountOf (outcomes isDir tree ms)).1, costliest burst.1 = some burst.2
  held : ((debounced isDir tree).run ms).watch.pending = costliest (accountOf (outcomes isDir tree ms)).2
  nothing : ∀ i m, ((debounced isDir tree).trace ms)[i]? = some (m, .returned none) →
    ((debounced isDir tree).run (ms.take i)).closed = true ∧
      ((debounced isDir tree).run (ms.take i)).watch.signals = [] ∧
      (accountOf (outcomes isDir tree (ms.take i))).2 = []

end Runs

/-! ### One step -/

/-- A signal is sent at a step. -/
def Debounce.sends (d : Debounce) (m : Moment) : List Signal := if d.closed then [] else m.signal?.toList

section Runs
variable {isDir : Path → Bool} {tree : Finset Path}

/-- What is held is returned by the next call when its time has passed, wherever the call before it was
    dropped. -/
theorem held_returned {d : Debounce} {change : Change} (h : d.watch.pending = some change) (isDir : Path → Bool) :
    (((d.step isDir .cancel).1.step isDir .call).1.step isDir .elapsed).2 = .returned (some change) := by
  simp only [Debounce.step, Debounce.awaits, h, Debounce.take]

end Runs

end Arcature.Cli.Dev
