import AggregateRules.Delivery.Cell
import AggregateRules.Proofs.Delivery.Performed
import AggregateRules.Proofs.Delivery.Spent

/-!
# Proofs/Delivery/Lexical — the cell names the innermost sink

Filling a cell and putting its former content back is passing the content down: between two steps of
a program the cell is lent to nobody and names the sink that was passed (`runCell_eq`), whatever the
sinks do about the events they receive, whether a program comes to its end or panics, and however
few steps it is given.  What is performed is then what is performed where the sink is passed down
(`performs_run`, `Performs.runsTo`), and what is shown is read off its history (`observed`).

**Main statement** (`delivered_lexically`): a run through the cell is the run with the sink passed
down, leaves the cell as it was, meets no conflict, performs its program, and shows each event that
the program emits, once.
-/

namespace AggregateRules.Delivery

variable {conduct : Conduct} {s : Stage} {sink : Sink}

/-! ## The cell between two steps -/

namespace Cell

/-- The cell that names a sink, or none, and is lent to nobody. -/
def holding (current : Option Nat) : Cell := { current }

@[simp] theorem read_holding (current : Option Nat) :
    (holding current).read = some (current, holding current) := rfl

@[simp] theorem write_holding (current next : Option Nat) :
    (holding current).write next = some (current, holding next) := rfl

end Cell

/-- What a run with a sink passed down leaves, with the cell naming that sink. -/
def onDesk (current : Option Nat) (r : Stop × Stage) : Stop × Desk :=
  (r.1, ⟨r.2, .holding current⟩)

section Step

variable {run : List Step → Desk → Stop × Desk}
  {run' : Option Nat → List Step → Stage → Stop × Stage}
  (h : ∀ body s current, run body ⟨s, .holding current⟩ = onDesk current (run' current body s))

include h

theorem emitCell_eq (event : Event) (s : Stage) (current : Option Nat) :
    emitCell conduct run event ⟨s, .holding current⟩ =
      onDesk current (emitLexical conduct run' current event s) := by
  cases current with
  | none => rfl
  | some number =>
    simp only [emitCell, emitLexical, Desk.onStage, Cell.read_holding]
    cases (s.tell (.emitted event)).sinks[number]? with
    | none => rfl
    | some sink => simp only [h]; rfl

/-- **The former content comes back**, for the program leaves the cell as it found it. -/
theorem withinCell_eq (sink : Sink) (body : List Step) (s : Stage) (current : Option Nat) :
    withinCell run sink body ⟨s, .holding current⟩ =
      onDesk current (withinLexical run' sink body s) := by
  simp only [withinCell, withinLexical, Desk.onStage, Cell.write_holding, h, onDesk]

theorem stepCell_eq (step : Step) (s : Stage) (current : Option Nat) :
    stepCell conduct run step ⟨s, .holding current⟩ =
      onDesk current (stepLexical conduct run' current step s) := by
  cases step with
  | emit event => exact emitCell_eq h event s current
  | within name reactions panics body => exact withinCell_eq h _ body s current
  | guard body => simp only [stepCell, stepLexical, h, onDesk]
  | panic => rfl

end Step

/-- **A run through the cell is the run with the sink passed down.** -/
theorem runCell_eq (conduct : Conduct) : ∀ (fuel : Nat) (body : List Step) (s : Stage)
    (current : Option Nat), runCell conduct fuel body ⟨s, .holding current⟩ =
      onDesk current (runLexical conduct fuel current body s)
  | 0, _, _, _ => rfl
  | _ + 1, [], _, _ => rfl
  | fuel + 1, step :: rest, s, current => by
      rw [runCell, runLexical, stepCell_eq (runCell_eq conduct fuel)]
      obtain ⟨stop, s'⟩ := stepLexical conduct (runLexical conduct fuel) current step s
      cases stop with
      | done => exact runCell_eq conduct fuel rest s' current
      | _ => rfl

/-! ## No conflict

Where the sink is passed down there is no cell that could be lent. -/

theorem stepLexical_ne_conflicted {run : Option Nat → List Step → Stage → Stop × Stage}
    (h : ∀ current body s, (run current body s).1 ≠ .conflicted) (current : Option Nat)
    (step : Step) (s : Stage) : (stepLexical conduct run current step s).1 ≠ .conflicted := by
  cases step with
  | emit event =>
    cases current with
    | none => exact Stop.noConfusion
    | some number =>
      cases hsink : s.sinks[number]? with
      | none => rw [stepLexical, emitLexical_of_missing _ _ hsink]; exact Stop.noConfusion
      | some sink =>
        rw [stepLexical, emitLexical_of_installed _ _ hsink]
        exact Sink.settle_ne (h _ _ _) Stop.noConfusion
  | within name reactions panics body => exact h _ _ _
  | guard body => exact Stage.settleGuard_ne (h _ _ _) Stop.noConfusion
  | panic => exact Stop.noConfusion

theorem runLexical_ne_conflicted (conduct : Conduct) : ∀ (fuel : Nat) (current : Option Nat)
    (body : List Step) (s : Stage), (runLexical conduct fuel current body s).1 ≠ .conflicted
  | 0, _, _, _ => Stop.noConfusion
  | _ + 1, _, [], _ => Stop.noConfusion
  | fuel + 1, current, step :: rest, s => by
      have hstep : (stepLexical conduct (runLexical conduct fuel) current step s).1 ≠ .conflicted :=
        stepLexical_ne_conflicted (runLexical_ne_conflicted conduct fuel) current step s
      rw [runLexical]
      split
      · exact runLexical_ne_conflicted conduct fuel current rest _
      · exact hstep

/-! ## Delivery -/

/-- **A run through the cell performs its program** under the sinks in force. -/
theorem runCell_performs (conduct : Conduct) (fuel : Nat) {o : InForce} (hs : s.Knows o)
    (body : List Step) : ∃ stop s',
      runCell conduct fuel body ⟨s, .holding o.innermost⟩ = (stop, ⟨s', .holding o.innermost⟩) ∧
        Performs conduct o body s stop s' :=
  ⟨_, _, runCell_eq conduct fuel body s o.innermost, performs_run conduct fuel o body s hs⟩

/-- What happens in a run from no sink at all. -/
def happenings (conduct : Conduct) (fuel : Nat) (body : List Step) : List Happening :=
  (runCell conduct fuel body {}).2.stage.history

theorem Stage.knows_nil (s : Stage) : s.Knows [] := fun _ hp => absurd hp List.not_mem_nil

theorem routed_happenings (conduct : Conduct) (fuel : Nat) (body : List Step) :
    Routed [] (happenings conduct fuel body) [] := by
  obtain ⟨stop, s', hrun, hperforms⟩ :=
    runCell_performs conduct fuel (Stage.knows_nil {}) body
  obtain ⟨es, hes, hrouted⟩ := hperforms.led.routed
  have hcell : happenings conduct fuel body = es := by
    change (runCell conduct fuel body ⟨{}, .holding (InForce.innermost [])⟩).2.stage.history = es
    rw [hrun]
    exact hes
  exact hcell ▸ hrouted

/-- **What is shown of a program** is what it performs, from no sink at all and to its end: every
delivery is shown with the sink that receives the event, and so every event that is emitted is, once
and in the order of the emissions. -/
theorem observed (body : List Step) : ∃ stop s',
    runLexical scripted (size body) none body {} = (stop, s') ∧ stop ≠ .exhausted ∧
      Performs scripted [] body {} stop s' ∧
      observe body = s'.history.filterMap Happening.seen? ++
        (if stop = .unwound then [.uncaught] else []) ∧
      (observe body).filterMap Entry.delivery? = s'.history.filterMap Happening.delivery? ∧
      ((observe body).filterMap Entry.delivery?).map Prod.snd =
        s'.history.filterMap Happening.emission? := by
  obtain ⟨stop, s', hrun⟩ :
      ∃ stop s', runLexical scripted (size body) none body {} = (stop, s') := ⟨_, _, rfl⟩
  have hspent := (spent_run (size body) none body {} Nat.le.refl).1
  have hperforms : Performs scripted [] body {} _ _ :=
    performs_run scripted (size body) [] body {} (Stage.knows_nil {})
  have hcell : runCell scripted (size body) body {} = _ :=
    runCell_eq scripted (size body) body {} none
  simp only [InForce.innermost, List.head?_nil, Option.map_none, hrun] at hspent hperforms hcell
  have hobserve : observe body = s'.shown stop := by
    rw [observe, hcell]
    rfl
  obtain ⟨es, hes, hrouted⟩ := hperforms.led.routed
  obtain rfl : s'.history = es := hes
  have hshown : (observe body).filterMap Entry.delivery? =
      s'.history.filterMap Happening.delivery? := by
    rw [hobserve, s'.deliveries_shown]
  refine ⟨stop, s', hrun, hspent, hperforms, ?_, hshown, hshown ▸ hrouted.deliveries_eq⟩
  rw [hobserve]
  cases stop <;> simp [Stage.shown, Stage.seen]

/-- **Delivery through the cell is delivery to the sink that is passed down**, whatever the sinks do
about the events they receive, from every stage and whatever the cell names: a run leaves the cell
as it was, however it stopped, and meets no conflict.

It performs its program: an emission is written down with its delivery, to the sink in force or to
the log, before the sink does what it does; and whatever the rules let a program perform is run, in
enough steps.  So from the beginning every event is delivered once, to the innermost sink in force.
If the sinks go through reactions, a program comes to its end in as many steps as it is long, and
shows every event it emits, with the sink that received it. -/
theorem delivered_lexically (conduct : Conduct) (fuel : Nat) (body : List Step) :
    (∀ s current, ∃ stop s',
      runLexical conduct fuel current body s = (stop, s') ∧
        runCell conduct fuel body ⟨s, .holding current⟩ = (stop, ⟨s', .holding current⟩) ∧
        stop ≠ .conflicted) ∧
      (∀ o s, s.Knows o → ∃ stop s',
        runCell conduct fuel body ⟨s, .holding o.innermost⟩ = (stop, ⟨s', .holding o.innermost⟩) ∧
          Performs conduct o body s stop s') ∧
      (∀ o s stop s', Performs conduct o body s stop s' → stop ≠ .exhausted →
        ∃ enough, ∀ fuel, enough ≤ fuel → runCell conduct fuel body ⟨s, .holding o.innermost⟩ =
          (stop, ⟨s', .holding o.innermost⟩)) ∧
      (∀ s event, runCell conduct (fuel + 2) [.emit event] ⟨s, .holding none⟩ =
        (.done, ⟨s.extended [.emitted event, .logged event], .holding none⟩)) ∧
      (∀ s event number sink, s.sinks[number]? = some sink →
        ∃ es, Routed [(number, sink.name)] es [(number, sink.name)] ∧
          (runCell conduct (fuel + 2) [.emit event]
            ⟨s, .holding (some number)⟩).2.stage.history =
            s.history ++ .emitted event :: .received number sink.name event :: es) ∧
      Routed [] (happenings conduct fuel body) [] ∧
      ((happenings conduct fuel body).filterMap Happening.delivery?).map Prod.snd =
        (happenings conduct fuel body).filterMap Happening.emission? ∧
      (runCell scripted (size body) body {}).1 ≠ .exhausted ∧
      ∃ stop s', runLexical scripted (size body) none body {} = (stop, s') ∧
        stop ≠ .exhausted ∧ Performs scripted [] body {} stop s' ∧
        observe body = s'.history.filterMap Happening.seen? ++
          (if stop = .unwound then [.uncaught] else []) ∧
        (observe body).filterMap Entry.delivery? = s'.history.filterMap Happening.delivery? ∧
        ((observe body).filterMap Entry.delivery?).map Prod.snd =
          s'.history.filterMap Happening.emission? := by
  have hrouted := routed_happenings conduct fuel body
  refine ⟨fun s current => ?_, fun o s hs => runCell_performs conduct fuel hs body,
    fun o s stop s' hperforms hstop => ?_, fun s event => ?_, fun s event number sink hsink => ?_,
    hrouted, hrouted.deliveries_eq, ?_, observed body⟩
  · exact ⟨_, _, rfl, runCell_eq conduct fuel body s current,
      runLexical_ne_conflicted conduct fuel current body s⟩
  · obtain ⟨enough, henough⟩ := hperforms.runsTo hstop
    exact ⟨enough, fun fuel hfuel => by rw [runCell_eq, henough fuel hfuel]; rfl⟩
  · rw [runCell_eq, emit_logged]
    rfl
  · rw [runCell_eq]
    exact emit_received conduct fuel hsink event
  · change (runCell scripted (size body) body ⟨{}, .holding none⟩).1 ≠ .exhausted
    rw [runCell_eq]
    exact (spent_run (size body) none body {} Nat.le.refl).1

/-- A sink that emits while it receives is in force itself, and no longer after a panic. -/
example (e e' : Event) :
    observe [.guard [.within "a" [[.emit e']] false [.emit e, .panic]], .emit e] =
      [.received "a" e, .received "a" e', .caught, .logged e] := rfl

end AggregateRules.Delivery
