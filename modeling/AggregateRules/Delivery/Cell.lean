import AggregateRules.Delivery.Script

/-!
# Delivery/Cell — delivery through a cell that names the current sink

One cell holds the number of the sink that receives events, if there is one.  Running a program under
a sink fills the cell and puts its former content back afterwards, however the program stopped.  An
event goes to the sink that the cell names at that moment, and to the log if it names none.

The cell is lent for each access: to any number of readers, or to one writer.  An access that finds
it lent otherwise is a conflict and ends everything.
-/

namespace AggregateRules.Delivery

/-- To whom a cell is lent. -/
inductive Loan where
  | nobody
  /-- One reader and some others. -/
  | readers (others : Nat)
  | writer
  deriving DecidableEq

/-- A cell that names a sink. -/
structure Cell where
  current : Option Nat := none
  loan : Loan := .nobody
  deriving DecidableEq

namespace Cell

/-- Lend the cell to one more reader; a writer excludes readers. -/
def lendReader (c : Cell) : Option Cell :=
  match c.loan with
  | .nobody => some { c with loan := .readers 0 }
  | .readers others => some { c with loan := .readers (others + 1) }
  | .writer => none

/-- Lend the cell to a writer, who excludes everyone else. -/
def lendWriter (c : Cell) : Option Cell :=
  match c.loan with
  | .nobody => some { c with loan := .writer }
  | _ => none

/-- Take the cell back from a reader or the writer. -/
def takeBack (c : Cell) : Cell :=
  match c.loan with
  | .readers (others + 1) => { c with loan := .readers others }
  | _ => { c with loan := .nobody }

/-- Read which sink the cell names.  The cell is back before the sink is at work. -/
def read (c : Cell) : Option (Option Nat × Cell) :=
  c.lendReader.map fun lent => (lent.current, lent.takeBack)

/-- Let the cell name another sink, or none, and tell which it named.  Nothing is emitted when the
former sink is given up. -/
def write (c : Cell) (next : Option Nat) : Option (Option Nat × Cell) :=
  c.lendWriter.map fun lent => (lent.current, { lent with current := next }.takeBack)

end Cell

/-- A stage with the cell that names the current sink. -/
structure Desk where
  stage : Stage := {}
  cell : Cell := {}

namespace Desk

/-- The desk with its stage changed. -/
def onStage (d : Desk) (f : Stage → Stage) : Desk := { d with stage := f d.stage }

end Desk

section Cell

variable (conduct : Conduct) (run : List Step → Desk → Stop × Desk)

/-- Emit an event to the sink that the cell names; programs are run as told. -/
def emitCell (event : Event) (d : Desk) : Stop × Desk :=
  let d := d.onStage (·.tell (.emitted event))
  match d.cell.read with
  | none => (.conflicted, d)
  | some (none, cell) => (.done, { d with cell }.onStage (·.tell (.logged event)))
  | some (some number, cell) =>
      match d.stage.sinks[number]? with
      | none => (.done, { d with cell })
      | some sink =>
          let stage := d.stage.deliver number sink event
          let (stop, d) := run (conduct d.stage sink event) ⟨stage, cell⟩
          (sink.settle stop, d)

/-- Run a program while the cell names a new sink, and let it name the former one again. -/
def withinCell (sink : Sink) (body : List Step) (d : Desk) : Stop × Desk :=
  let (number, stage) := d.stage.install sink
  match d.cell.write (some number) with
  | none => (.conflicted, { d with stage })
  | some (former, cell) =>
      let (stop, d) := run body ⟨stage.tell (.opened number sink.name), cell⟩
      match d.cell.write former with
      | none => (.conflicted, d)
      | some (_, cell) => (stop, { d with cell }.onStage (·.tell (.closed number sink.name)))

/-- Take one step; programs are run as told. -/
def stepCell : Step → Desk → Stop × Desk
  | .emit event, d => emitCell conduct run event d
  | .within name reactions panics body, d => withinCell run ⟨name, reactions, panics⟩ body d
  | .guard body, d =>
      let (stop, d) := run body d
      let (stop, stage) := d.stage.settleGuard stop
      (stop, { d with stage })
  | .panic, d => (.unwound, d)

end Cell

/-- Run a program, taking at most a number of steps. -/
def runCell (conduct : Conduct) : Nat → List Step → Desk → Stop × Desk
  | 0, _, d => (.exhausted, d)
  | _ + 1, [], d => (.done, d)
  | fuel + 1, step :: rest, d =>
      match stepCell conduct (runCell conduct fuel) step d with
      | (.done, d) => runCell conduct fuel rest d
      | stopped => stopped

/-- What is seen of a program that is run from no sink at all. -/
def observe (body : List Step) : List Entry :=
  let (stop, d) := runCell scripted (size body) body {}
  d.stage.shown stop

end AggregateRules.Delivery
