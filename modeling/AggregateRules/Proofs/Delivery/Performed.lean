import AggregateRules.Proofs.Delivery.Routed

/-!
# Proofs/Delivery/Performed — what a program does

`Performs` gives the rules: which sinks are in force is a list that grows where a program is run
under a sink, an emission is written down with its delivery to the head of that list, and then the
sink does what it does about the event.  There are no steps to count and no cell; a run that is cut
short has performed a part.

A run in which the sink is passed down performs its program, however many steps it is given
(`performs_run`), and whatever is performed to its end is run in some number of steps
(`Performs.runsTo`).  What is performed is routed (`Performs.led`).
-/

namespace AggregateRules.Delivery

variable {conduct : Conduct} {s s' : Stage} {o : InForce} {step : Step} {body : List Step}
  {stop : Stop}

/-! ## The rules -/

/-- The stage on which an event was emitted and a sink has just received it, one of its reactions
used up. -/
def Stage.received (s : Stage) (number : Nat) (name : String) (event : Event) : Stage :=
  (s.extended [.emitted event, .received number name event]).react number

/-- What a program does under the sinks in force, the innermost first: from which stage it comes to
which, and how it stops. -/
inductive Performs (conduct : Conduct) : InForce → List Step → Stage → Stop → Stage → Prop
  | done (o : InForce) (s : Stage) : Performs conduct o [] s .done s
  /-- A run may be cut short anywhere. -/
  | cut (o : InForce) (body : List Step) (s : Stage) : Performs conduct o body s .exhausted s
  | goesOn {o : InForce} {step : Step} {rest : List Step} {s s₁ s₂ : Stage} {stop : Stop} :
      Performs conduct o [step] s .done s₁ → Performs conduct o rest s₁ stop s₂ →
        Performs conduct o (step :: rest) s stop s₂
  | stops {o : InForce} {step : Step} {rest : List Step} {s s₁ : Stage} {stop : Stop} :
      Performs conduct o [step] s stop s₁ → stop ≠ .done →
        Performs conduct o (step :: rest) s stop s₁
  /-- With no sink in force an event goes to the log. -/
  | logged (event : Event) (s : Stage) :
      Performs conduct [] [.emit event] s .done (s.extended [.emitted event, .logged event])
  /-- An event goes to the innermost sink in force, which does what it does about it and, if it is
  one that panics, panics when it is done. -/
  | received {o : InForce} {event : Event} {number : Nat} {sink : Sink} {s s₁ : Stage}
      {stop : Stop} : s.sinks[number]? = some sink →
      Performs conduct ((number, sink.name) :: o) (conduct (s.extended [.emitted event]) sink event)
        (s.received number sink.name event) stop s₁ →
      Performs conduct ((number, sink.name) :: o) [.emit event] s
        (if stop = .done ∧ sink.panics then .unwound else stop) s₁
  /-- A new sink is in force while its program is running, and however it stopped no longer. -/
  | within {o : InForce} {name : String} {reactions : List (List Step)} {panics : Bool}
      {body : List Step} {s s₁ : Stage} {stop : Stop} :
      Performs conduct ((s.sinks.length, name) :: o) body
        ⟨s.sinks ++ [⟨name, reactions, panics⟩], s.history ++ [.opened s.sinks.length name]⟩ stop
        s₁ →
      Performs conduct o [.within name reactions panics body] s stop
        (s₁.extended [.closed s.sinks.length name])
  | finished {o : InForce} {body : List Step} {s s₁ : Stage} :
      Performs conduct o body s .done s₁ →
        Performs conduct o [.guard body] s .done (s₁.extended [.finished])
  | caught {o : InForce} {body : List Step} {s s₁ : Stage} :
      Performs conduct o body s .unwound s₁ →
        Performs conduct o [.guard body] s .done (s₁.extended [.caught])
  | guardCut {o : InForce} {body : List Step} {s s₁ : Stage} :
      Performs conduct o body s .exhausted s₁ →
        Performs conduct o [.guard body] s .exhausted s₁
  | panic (o : InForce) (s : Stage) : Performs conduct o [.panic] s .unwound s

theorem Sink.settle_eq (sink : Sink) (stop : Stop) :
    sink.settle stop = if stop = .done ∧ sink.panics then .unwound else stop := by
  cases stop <;> simp [Sink.settle]

theorem led_received (o : InForce) (s : Stage) (number : Nat) (name : String) (event : Event) :
    Led ((number, name) :: o) s (s.received number name event) :=
  ((Led.refl _ s).extended (.received (.nil _))).react number

/-- **What is performed is routed**, and only adds to what was written before. -/
theorem Performs.led (h : Performs conduct o body s stop s') : Led o s s' := by
  induction h with
  | done o s => exact .refl o s
  | cut o _ s => exact .refl o s
  | goesOn _ _ ihstep ihrest => exact ihstep.trans ihrest
  | stops _ _ ih => exact ih
  | logged event s => exact (Led.refl [] s).extended (.logged (.nil []))
  | received _ _ ih => exact (led_received ..).trans ih
  | within _ ih => exact ih.within
  | finished _ ih => exact ih.extended (.finished (.nil _))
  | caught _ ih => exact ih.extended (.caught (.nil _))
  | guardCut _ ih => exact ih
  | panic o s => exact .refl o s

theorem Performs.ne_conflicted (h : Performs conduct o body s stop s') : stop ≠ .conflicted := by
  induction h with
  | goesOn _ _ _ ihrest => exact ihrest
  | stops _ _ ih => exact ih
  | @received _ _ _ sink _ _ stop _ _ ih =>
    rw [← Sink.settle_eq]
    exact Sink.settle_ne ih Stop.noConfusion
  | within _ ih => exact ih
  | _ => exact Stop.noConfusion

/-! ## A run performs its program -/

/-- Where the sink that is passed down is there, it receives the event. -/
theorem emitLexical_received (run : Option Nat → List Step → Stage → Stop × Stage) {number : Nat}
    {sink : Sink} (hsink : s.sinks[number]? = some sink) (event : Event) :
    emitLexical conduct run (some number) event s =
      let r := run (some number) (conduct (s.extended [.emitted event]) sink event)
        (s.received number sink.name event)
      (if r.1 = .done ∧ sink.panics then .unwound else r.1, r.2) := by
  rw [emitLexical_of_installed _ _ hsink]
  simp only [Sink.settle_eq, Stage.deliver, Stage.tell_eq_extended, Stage.extended_extended]
  rfl

section Step

variable {run : Option Nat → List Step → Stage → Stop × Stage}
  (h : ∀ (o : InForce) body s, s.Knows o →
    Performs conduct o body s (run o.innermost body s).1 (run o.innermost body s).2)

include h

theorem performs_emit (hs : s.Knows o) (event : Event) :
    Performs conduct o [.emit event] s (emitLexical conduct run o.innermost event s).1
      (emitLexical conduct run o.innermost event s).2 := by
  cases o with
  | nil =>
    change Performs conduct [] _ s .done ((s.extended [.emitted event]).extended [.logged event])
    rw [Stage.extended_extended]
    exact .logged event s
  | cons p o =>
    obtain ⟨number, name⟩ := p
    -- the sink in force is there, under its number and with its name
    have hname := hs _ List.mem_cons_self
    rw [List.getElem?_map, Option.map_eq_some_iff] at hname
    obtain ⟨sink, hsink, rfl⟩ := hname
    have hrun := h _ (conduct (s.extended [.emitted event]) sink event) _
      ((led_received o s number sink.name event).knows hs)
    change Performs conduct _ _ s (emitLexical conduct run (some number) event s).1
      (emitLexical conduct run (some number) event s).2
    rw [emitLexical_received run hsink]
    exact .received hsink hrun

theorem performs_within (hs : s.Knows o) (name : String) (reactions : List (List Step))
    (panics : Bool) (body : List Step) :
    Performs conduct o [.within name reactions panics body] s
      (withinLexical run ⟨name, reactions, panics⟩ body s).1
      (withinLexical run ⟨name, reactions, panics⟩ body s).2 := by
  refine Performs.within (h ((s.sinks.length, name) :: o) body _ fun p hp => ?_)
  simp only [List.map_append, List.map_cons, List.map_nil]
  rcases List.mem_cons.mp hp with rfl | hp
  · simp
  · obtain ⟨hlt, -⟩ := List.getElem?_eq_some_iff.mp (hs p hp)
    rw [List.getElem?_append_left hlt]
    exact hs p hp

theorem performs_step (hs : s.Knows o) (step : Step) :
    Performs conduct o [step] s (stepLexical conduct run o.innermost step s).1
      (stepLexical conduct run o.innermost step s).2 := by
  cases step with
  | emit event => exact performs_emit h hs event
  | within name reactions panics body => exact performs_within h hs name reactions panics body
  | guard body =>
    have hbody := h o body s hs
    simp only [stepLexical]
    generalize run o.innermost body s = r at hbody
    obtain ⟨stop, s'⟩ := r
    cases stop with
    | done => exact .finished hbody
    | unwound => exact .caught hbody
    | exhausted => exact .guardCut hbody
    | conflicted => exact absurd rfl hbody.ne_conflicted
  | panic => exact .panic o s

end Step

/-- **A run performs its program**, from any stage that knows the sinks in force and however few
steps it is given. -/
theorem performs_run (conduct : Conduct) : ∀ (fuel : Nat) (o : InForce) (body : List Step)
    (s : Stage), s.Knows o →
      Performs conduct o body s (runLexical conduct fuel o.innermost body s).1
        (runLexical conduct fuel o.innermost body s).2
  | 0, o, body, s, _ => .cut o body s
  | _ + 1, o, [], s, _ => .done o s
  | fuel + 1, o, step :: rest, s, hs => by
      have hstep := performs_step (performs_run conduct fuel) hs step
      rw [runLexical]
      generalize stepLexical conduct (runLexical conduct fuel) o.innermost step s = r at hstep
      obtain ⟨stop, s'⟩ := r
      cases stop with
      | done => exact .goesOn hstep (performs_run conduct fuel o rest s' (hstep.led.knows hs))
      | _ => exact .stops hstep Stop.noConfusion

/-! ## What is performed is run -/

/-- A program of one step does what the step does. -/
theorem runLexical_single (conduct : Conduct) (fuel : Nat) (current : Option Nat) (step : Step)
    (s : Stage) : runLexical conduct (fuel + 2) current [step] s =
      stepLexical conduct (runLexical conduct (fuel + 1)) current step s := by
  rw [runLexical]
  generalize stepLexical conduct (runLexical conduct (fuel + 1)) current step s = r
  obtain ⟨stop, s'⟩ := r
  cases stop <;> rfl

/-- A program does what its first step does, and then what the others do if that is done. -/
theorem runLexical_cons {fuel : Nat} {current : Option Nat} {rest : List Step}
    (h : runLexical conduct (fuel + 2) current [step] s = (stop, s')) :
    runLexical conduct (fuel + 2) current (step :: rest) s =
      if stop = .done then runLexical conduct (fuel + 1) current rest s' else (stop, s') := by
  rw [runLexical_single] at h
  rw [runLexical, h]
  cases stop <;> rfl

/-- **With no sink passed down an event goes to the log.** -/
theorem emit_logged (conduct : Conduct) (fuel : Nat) (event : Event) (s : Stage) :
    runLexical conduct (fuel + 2) none [.emit event] s =
      (.done, s.extended [.emitted event, .logged event]) := by
  rw [runLexical_single]
  change (Stop.done, (s.extended [.emitted event]).extended [.logged event]) = _
  rw [Stage.extended_extended]
  rfl

/-- **The sink that is passed down receives an event at once**, before it does what it does. -/
theorem emit_received (conduct : Conduct) (fuel : Nat) {number : Nat} {sink : Sink}
    (hsink : s.sinks[number]? = some sink) (event : Event) :
    ∃ es, Routed [(number, sink.name)] es [(number, sink.name)] ∧
      (runLexical conduct (fuel + 2) (some number) [.emit event] s).2.history =
        s.history ++ .emitted event :: .received number sink.name event :: es := by
  have hknows : s.Knows [(number, sink.name)] := fun p hp => by
    rw [List.mem_singleton.mp hp, List.getElem?_map, hsink, Option.map_some]
  obtain ⟨es, hes, hrouted⟩ := (performs_run conduct (fuel + 1) [(number, sink.name)]
    (conduct (s.extended [.emitted event]) sink event) _
    ((led_received [] s number sink.name event).knows hknows)).led.routed
  refine ⟨es, hrouted, ?_⟩
  rw [runLexical_single, stepLexical, emitLexical_received _ hsink]
  refine hes.trans ?_
  simp only [Stage.received, Stage.react, Stage.extended, List.append_assoc, List.cons_append,
    List.nil_append]

/-- In enough steps a program runs so. -/
def RunsTo (conduct : Conduct) (current : Option Nat) (body : List Step) (s : Stage) (stop : Stop)
    (s' : Stage) : Prop :=
  ∃ enough, ∀ fuel, enough ≤ fuel → runLexical conduct fuel current body s = (stop, s')

/-- A step that runs so, if the programs in it are given enough steps. -/
theorem runsTo_single {current : Option Nat} (enough : Nat)
    (h : ∀ fuel, enough ≤ fuel →
      stepLexical conduct (runLexical conduct fuel) current step s = (stop, s')) :
    RunsTo conduct current [step] s stop s' := by
  refine ⟨enough + 2, fun fuel hfuel => ?_⟩
  obtain ⟨k, rfl⟩ : ∃ k, fuel = k + 2 := ⟨fuel - 2, by omega⟩
  rw [runLexical_single]
  exact h (k + 1) (by omega)

/-- **Whatever is performed to its end is run**, in enough steps. -/
theorem Performs.runsTo (h : Performs conduct o body s stop s') (hstop : stop ≠ .exhausted) :
    RunsTo conduct o.innermost body s stop s' := by
  induction h with
  | done o s =>
    refine ⟨1, fun fuel hfuel => ?_⟩
    obtain ⟨k, rfl⟩ := Nat.exists_eq_add_of_le' hfuel
    rfl
  | cut => exact absurd rfl hstop
  | goesOn _ _ ihstep ihrest =>
    obtain ⟨n, hn⟩ := ihstep Stop.noConfusion
    obtain ⟨m, hm⟩ := ihrest hstop
    refine ⟨n + m + 2, fun fuel hfuel => ?_⟩
    obtain ⟨k, rfl⟩ : ∃ k, fuel = k + 2 := ⟨fuel - 2, by omega⟩
    rw [runLexical_cons (hn (k + 2) (by omega)), if_pos rfl]
    exact hm (k + 1) (by omega)
  | stops _ hne ih =>
    obtain ⟨n, hn⟩ := ih hstop
    refine ⟨n + 2, fun fuel hfuel => ?_⟩
    obtain ⟨k, rfl⟩ : ∃ k, fuel = k + 2 := ⟨fuel - 2, by omega⟩
    rw [runLexical_cons (hn (k + 2) (by omega)), if_neg hne]
  | logged event s =>
    refine ⟨2, fun fuel hfuel => ?_⟩
    obtain ⟨k, rfl⟩ := Nat.exists_eq_add_of_le' hfuel
    exact emit_logged conduct k event s
  | received hsink _ ih =>
    obtain ⟨n, hn⟩ := ih fun heq => hstop (by simp [heq])
    refine runsTo_single n fun fuel hfuel => ?_
    have hrun := hn fuel hfuel
    simp only [InForce.innermost, List.head?_cons, Option.map_some] at hrun ⊢
    rw [stepLexical, emitLexical_received _ hsink, hrun]
  | within _ ih =>
    obtain ⟨n, hn⟩ := ih hstop
    refine runsTo_single n fun fuel hfuel => ?_
    have hrun := hn fuel hfuel
    simp only [InForce.innermost, List.head?_cons, Option.map_some] at hrun
    simp only [stepLexical, withinLexical, Stage.install, Stage.tell]
    rw [hrun]
    rfl
  | finished _ ih =>
    obtain ⟨n, hn⟩ := ih Stop.noConfusion
    exact runsTo_single n fun fuel hfuel => by rw [stepLexical, hn fuel hfuel]; rfl
  | caught _ ih =>
    obtain ⟨n, hn⟩ := ih Stop.noConfusion
    exact runsTo_single n fun fuel hfuel => by rw [stepLexical, hn fuel hfuel]; rfl
  | guardCut => exact absurd rfl hstop
  | panic o s => exact runsTo_single 0 fun fuel _ => rfl

end AggregateRules.Delivery
