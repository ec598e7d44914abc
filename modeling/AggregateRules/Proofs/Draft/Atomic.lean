import AggregateRules.Proofs.Draft.Run

/-!
# Proofs/Draft/Atomic — a call that fails leaves no trace

A call can fail after several steps, and some of its steps write: a source is declared in the scope
before it is started.  That a fault finds the definition as it was is read off `Draft.Effect`: the
refusal is the only way there to answer with a fault.  It goes through to any depth
(`state_of_fault`).

**Main statement** (`fault_leaves_no_trace`): without the calls that failed, a run answers the same
to all others, and whatever follows it, calls and freezing, goes the same way.
-/

namespace AggregateRules

namespace Draft

variable {d x y : Draft} {request : Request} {c : Call} {o : Outcome Draft (Option Declaration)}
  {fault : Fault}

theorem eq_of_bare_eq (hbare : x.bare = y.bare) (hinner : x.inner? = y.inner?) : x = y := by
  rcases x with ⟨_, _, _, s, _⟩ | ⟨_, _, _, s, _⟩ <;>
    rcases y with ⟨_, _, _, s', _⟩ | ⟨_, _, _, s', _⟩
  · obtain rfl : s = s' := Option.map_injective (fun _ _ => Draft.pattern.inj) hinner
    simp_all [bare]
  · exact absurd hbare (by simp [bare])
  · exact absurd hbare (by simp [bare])
  · obtain rfl : s = s' := Option.map_injective (fun _ _ => Draft.aggregate.inj) hinner
    simp_all [bare]

/-- **A call that answers with a fault leaves the definition as it was**, at any depth. -/
theorem state_of_fault {n : Nat} (h : d.perform request n = .ok o)
    (hfault : o.answer = .error fault) : o.state = d := by
  induction n generalizing d o with
  | zero =>
    cases effect_of_perform h with
    | refused => rfl
    | _ => exact absurd hfault (by simp)
  | succ n ih =>
    cases hx : d.inner? with
    | none =>
      rw [perform_of_link?_eq_none (by rw [link?, hx]; rfl)] at h
      exact absurd h (by simp)
    | some x =>
      cases hp : x.perform request n with
      | error why =>
        rw [perform_succ_of_error hx hp] at h
        exact absurd h (by simp)
      | ok o' =>
        obtain ⟨d', hd', hbare, hinner⟩ := perform_succ_of_ok hx hp
        obtain rfl := Except.ok.inj (hd'.symm.trans h)
        rw [ih hp hfault, ← hx] at hinner
        exact eq_of_bare_eq hbare hinner

/-- The calls of a run that did what was asked. -/
def granted (d : Draft) (cs : List Call) : List Call :=
  ((d.log cs).filter Entry.granted).map Entry.call

theorem next_of_not_granted (h : (d.enter c).granted = false) : d.next c = d := by
  cases ho : d.perform c.request c.depth with
  | error why => exact next_of_error ho
  | ok o =>
    rw [next_of_ok ho]
    cases hanswer : o.answer with
    | error fault => exact state_of_fault ho hanswer
    | ok b? => exact absurd h (by simp [enter, ho, Entry.granted, hanswer])

/-- **Without the calls that failed, a run goes the same way.** -/
theorem granted_run (d : Draft) (cs : List Call) :
    d.log (d.granted cs) = (d.log cs).filter Entry.granted ∧
      d.after (d.granted cs) = d.after cs := by
  induction cs generalizing d with
  | nil => exact ⟨rfl, rfl⟩
  | cons c cs ih =>
    obtain ⟨hlog, hafter⟩ := ih (d.next c)
    rw [after_cons, log, List.filter_cons]
    cases h : (d.enter c).granted with
    | true =>
      have hgranted : d.granted (c :: cs) = c :: (d.next c).granted cs := by
        rw [granted, log, List.filter_cons, h, if_pos rfl, List.map_cons, call_enter]
        rfl
      rw [hgranted, log, after_cons, hlog, hafter]
      exact ⟨rfl, rfl⟩
    | false =>
      rw [next_of_not_granted h] at hlog hafter ⊢
      have hgranted : d.granted (c :: cs) = d.granted cs := by
        rw [granted, log, List.filter_cons, h, next_of_not_granted h]
        rfl
      rw [hgranted, hlog, hafter]
      exact ⟨rfl, rfl⟩

end Draft

/-- **A call that fails leaves no trace.**  It leaves the definition as it was, at every link.  So
without the calls that failed, a run answers the same to all others, and any calls and a freezing
that follow it go the same way.  Nor does a scope keep anything of a declaration, or a registry of a
registration, that it refused. -/
theorem fault_leaves_no_trace :
    (∀ (d : Draft) (request : Request) (depth : Nat) (o : Outcome Draft (Option Declaration))
        (fault : Fault),
      d.perform request depth = .ok o → o.answer = .error fault → o.state = d) ∧
    (∀ (d : Draft) (cs : List Draft.Call),
      d.log (d.granted cs) = (d.log cs).filter Draft.Entry.granted ∧
      ∀ later : List Draft.Call,
        (d.after (d.granted cs)).log later = (d.after cs).log later ∧
        ((d.after (d.granted cs)).after later).freeze = ((d.after cs).after later).freeze) ∧
    (∀ (scope : Scope) (type : DataType) (name? : Option String) (fault : Fault),
      ((Scope.declare type name?).run scope).answer = .error fault →
        ((Scope.declare type name?).run scope).state = scope) ∧
    ∀ (registry : Registry) (descriptor : Descriptor) (fault : Fault),
      ((Registry.register descriptor).run registry).answer = .error fault →
        ((Registry.register descriptor).run registry).state = registry := by
  refine ⟨fun d request depth o fault h hfault => Draft.state_of_fault h hfault, fun d cs => ?_,
    fun scope type name? fault hfault => ?_, fun registry descriptor fault hfault => ?_⟩
  · obtain ⟨hlog, hafter⟩ := d.granted_run cs
    refine ⟨hlog, fun later => ?_⟩
    rw [hafter]
    exact ⟨rfl, rfl⟩
  · cases hname : scope.freshName name? with
    | error fault => rw [Scope.run_declare_of_error hname]
    | ok name =>
      rw [Scope.run_declare_of_ok hname] at hfault
      exact absurd hfault (by simp)
  · rw [Registry.register, Attempt.run_bind_of_ok (Attempt.run_state registry)] at hfault ⊢
    split at hfault
    case isTrue h => rw [if_pos h]; rfl
    case isFalse h => exact absurd hfault (by simp)

/-- An aggregate with a source. -/
def oneSource : Draft :=
  Draft.startSum.next ⟨0, .toAggregate (.declareSource (.named "Order") (some "order"))⟩

/-- A second source is refused, and its binding is not declared either. -/
theorem second_source_leaves_no_trace :
    ∃ o, oneSource.perform (.toAggregate (.declareSource (.named "Day") (some "day"))) 0 = .ok o ∧
      o.answer = .error .aggregateSingleSource ∧ o.state = oneSource :=
  ⟨_, rfl, rfl, fault_leaves_no_trace.1 oneSource
    (.toAggregate (.declareSource (.named "Day") (some "day"))) 0 _ .aggregateSingleSource rfl rfl⟩

end AggregateRules
