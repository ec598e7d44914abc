import AggregateRules.Delivery.Script

/-!
# Delivery/Lexical — delivery to the sink that is passed down

There is no cell: the sink that receives events is an argument, passed down to the programs inside.
An event goes to the innermost sink whose program is still running when it is emitted, because that
is the sink that was passed.
-/

namespace AggregateRules.Delivery

section Lexical

variable (conduct : Conduct) (run : Option Nat → List Step → Stage → Stop × Stage)

/-- Emit an event to the sink that was passed; programs are run as told. -/
def emitLexical (current : Option Nat) (event : Event) (s : Stage) : Stop × Stage :=
  let s := s.tell (.emitted event)
  match current with
  | none => (.done, s.tell (.logged event))
  | some number =>
      match s.sinks[number]? with
      | none => (.done, s)
      | some sink =>
          let (stop, s) := run current (conduct s sink event) (s.deliver number sink event)
          (sink.settle stop, s)

theorem emitLexical_of_missing {number : Nat} {s : Stage} (h : s.sinks[number]? = none)
    (event : Event) :
    emitLexical conduct run (some number) event s = (.done, s.tell (.emitted event)) := by
  simp [emitLexical, Stage.tell, h]

/-- **A sink that is there receives the event**, does what it does, and may then panic. -/
theorem emitLexical_of_installed {number : Nat} {sink : Sink} {s : Stage}
    (h : s.sinks[number]? = some sink) (event : Event) :
    emitLexical conduct run (some number) event s =
      let told := s.tell (.emitted event)
      let r := run (some number) (conduct told sink event) (told.deliver number sink event)
      (sink.settle r.1, r.2) := by
  simp [emitLexical, Stage.tell, h]

/-- Run a program with a new sink passed to it. -/
def withinLexical (sink : Sink) (body : List Step) (s : Stage) : Stop × Stage :=
  let (number, s) := s.install sink
  let (stop, s) := run (some number) body (s.tell (.opened number sink.name))
  (stop, s.tell (.closed number sink.name))

/-- Take one step; programs are run as told. -/
def stepLexical (current : Option Nat) : Step → Stage → Stop × Stage
  | .emit event, s => emitLexical conduct run current event s
  | .within name reactions panics body, s => withinLexical run ⟨name, reactions, panics⟩ body s
  | .guard body, s =>
      let (stop, s) := run current body s
      s.settleGuard stop
  | .panic, s => (.unwound, s)

end Lexical

/-- Run a program under the sink that is passed, taking at most a number of steps. -/
def runLexical (conduct : Conduct) : Nat → Option Nat → List Step → Stage → Stop × Stage
  | 0, _, _, s => (.exhausted, s)
  | _ + 1, _, [], s => (.done, s)
  | fuel + 1, current, step :: rest, s =>
      match stepLexical conduct (runLexical conduct fuel) current step s with
      | (.done, s) => runLexical conduct fuel current rest s
      | stopped => stopped

end AggregateRules.Delivery
