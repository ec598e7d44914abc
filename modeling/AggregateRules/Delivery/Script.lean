import AggregateRules.Event

/-!
# Delivery/Script — programs under which events are delivered

A program emits events, runs parts of itself under a sink, and may panic; a guard stops a panic.  A
sink may itself run a program for each event it receives; what that program is, a `Conduct` says,
and it may hang on everything that happened before.  A sink may also panic when it is done with an
event.

Installed sinks are numbered.  The history of a stage tells when a sink comes into force and goes
out of it, each emission and each delivery; an observer sees the deliveries and the guards only.
-/

namespace AggregateRules.Delivery

/-- A step of a program. -/
inductive Step where
  /-- Emit an event. -/
  | emit (event : Event)
  /-- Run a program under a new sink. -/
  | within (name : String) (reactions : List (List Step)) (panics : Bool) (body : List Step)
  /-- Run a program and stop a panic that leaves it. -/
  | guard (body : List Step)
  /-- Unwind to the next guard. -/
  | panic

/-- What an observer sees. -/
inductive Entry where
  /-- An event that no sink received. -/
  | logged (event : Event)
  /-- An event that a sink received. -/
  | received (sink : String) (event : Event)
  /-- A guard whose program came to its end. -/
  | finished
  /-- A guard that stopped a panic. -/
  | caught
  /-- A panic that no guard stopped. -/
  | uncaught

/-- What happens, seen or not. -/
inductive Happening where
  /-- A program begins to run under a sink. -/
  | opened (number : Nat) (sink : String)
  /-- A program that ran under a sink has stopped. -/
  | closed (number : Nat) (sink : String)
  /-- An event is emitted. -/
  | emitted (event : Event)
  /-- An event goes to the log. -/
  | logged (event : Event)
  /-- An event goes to a sink. -/
  | received (number : Nat) (sink : String) (event : Event)
  /-- A guard's program came to its end. -/
  | finished
  /-- A guard stopped a panic. -/
  | caught

/-- What an observer sees of what happens. -/
def Happening.seen? : Happening → Option Entry
  | .logged event => some (.logged event)
  | .received _ sink event => some (.received sink event)
  | .finished => some .finished
  | .caught => some .caught
  | .opened .. | .closed .. | .emitted _ => none

/-- How a program stopped. -/
inductive Stop where
  | done
  | unwound
  /-- The cell of the current sink was needed while it was lent to someone else. -/
  | conflicted
  /-- The program was given too few steps. -/
  | exhausted
  deriving DecidableEq

/-- A sink that was installed, with the reactions it has left. -/
structure Sink where
  name : String
  reactions : List (List Step)
  panics : Bool

/-- Every sink there has been, by number, and what happened so far. -/
structure Stage where
  sinks : List Sink := []
  history : List Happening := []

namespace Stage

/-- One more thing happens. -/
def tell (s : Stage) (happening : Happening) : Stage :=
  { s with history := s.history ++ [happening] }

/-- Install a sink; its number is the count of those before it. -/
def install (s : Stage) (sink : Sink) : Nat × Stage :=
  (s.sinks.length, { s with sinks := s.sinks ++ [sink] })

/-- Use up one reaction of a sink. -/
def react (s : Stage) (number : Nat) : Stage :=
  { s with sinks := s.sinks.modify number fun sink => { sink with reactions := sink.reactions.tail } }

/-- A sink receives an event, and one of its reactions is used up. -/
def deliver (s : Stage) (number : Nat) (sink : Sink) (event : Event) : Stage :=
  (s.tell (.received number sink.name event)).react number

/-- What an observer has seen. -/
def seen (s : Stage) : List Entry := s.history.filterMap Happening.seen?

/-- What an observer has seen of a run that stopped: a panic that left it is seen last. -/
def shown (s : Stage) : Stop → List Entry
  | .unwound => s.seen ++ [.uncaught]
  | _ => s.seen

end Stage

/-- What a sink does about an event it receives, in view of everything that happened before. -/
abbrev Conduct : Type := Stage → Sink → Event → List Step

/-- A sink that goes through its reactions, one for each event. -/
def scripted : Conduct := fun _ sink _ => sink.reactions.headD []

/-- How a sink is done with an event. -/
def Sink.settle (sink : Sink) : Stop → Stop
  | .done => if sink.panics then .unwound else .done
  | stop => stop

/-- What a guard makes of how its program stopped. -/
def Stage.settleGuard (s : Stage) : Stop → Stop × Stage
  | .done => (.done, s.tell .finished)
  | .unwound => (.done, s.tell .caught)
  | stop => (stop, s)

theorem Sink.settle_ne {sink : Sink} {stop other : Stop} (h : stop ≠ other)
    (hother : other ≠ .unwound) : sink.settle stop ≠ other := by
  cases stop with
  | done =>
    rw [Sink.settle]
    split
    · exact hother.symm
    · exact h
  | _ => exact h

theorem Stage.settleGuard_ne {s : Stage} {stop other : Stop} (h : stop ≠ other)
    (hother : other ≠ .done) : (s.settleGuard stop).1 ≠ other := by
  cases stop with
  | done => exact h
  | unwound => exact hother.symm
  | _ => exact h

/-! ## The size of a program -/

mutual

/-- The number of steps in a step, itself included, with one more for each program inside. -/
def Step.size : Step → Nat
  | .within _ reactions _ body => sizeAll reactions + size body + 1
  | .guard body => size body + 1
  | _ => 1

/-- The number of steps in a program, with one for its end. -/
def size : List Step → Nat
  | [] => 1
  | step :: rest => step.size + size rest

/-- The number of steps in a list of programs. -/
def sizeAll : List (List Step) → Nat
  | [] => 0
  | body :: rest => size body + sizeAll rest

end

end AggregateRules.Delivery
