import AggregateRules.Proofs.Draft.Links
import AggregateRules.Proofs.Scope.Names

/-!
# Proofs/Draft/Effect — what a call does to its link

Each call is described once, by an equation for the way it goes; `Draft.Effect` lists the ways, and
`effect_of_perform` says that there is no other.  A refusal is one of them, and it is the only one
that answers with a fault: there the link stays as it is.

Six requests are selections.  What they have in common is an offer, a factory or the fault that the
look-up or the checks find (`AggregateRequest.offer?`): they differ in nothing else
(`run_attempt_of_offer`).
-/

namespace AggregateRules

open Attempt

/-! ## Selections -/

/-- Whether an event tells a selection in the scope of a path. -/
def Event.isSelectionIn (path : String) : Event → Bool
  | strategySelected scope .. => scope == path
  | _ => false

/-- What a type offers as a strategy, or what its checks find missing. -/
def Descriptor.offer (d : Descriptor) : Except Fault SharedFactory :=
  match d.capability with
  | none => .error (.notAnAggregator d.name)
  | some ⟨_, none⟩ => .error (.noDefaultConstructor d.name)
  | some ⟨kind, some constructor⟩ => .ok { factory := .ofType d.name kind constructor }

/-- What a selection offers, or the fault that its look-up or its checks find.  The other requests
offer nothing. -/
def AggregateRequest.offer? : AggregateRequest → Option (Except Fault SharedFactory)
  | .select factory => some (.ok factory)
  | .selectType descriptor => some descriptor.offer
  | .selectNamed registry name =>
      some (match registry.find name with
        | .ok descriptor => descriptor.offer
        | .error fault => .error fault)
  | .collect element => some (Descriptor.collection element).offer
  | .groupBy key element => some (.ok { factory := .groupBy key element })
  | .project selector => some (.ok { factory := .projection selector })
  | .declareSource .. | .sourceOf _ => none

/-- Only a slot that is filled is a reason to turn a selection down as one too many. -/
theorem AggregateRequest.ne_alreadyConfigured_of_offer? {request : AggregateRequest} {fault : Fault}
    (h : request.offer? = some (.error fault)) (path : String) :
    fault ≠ .factoryAlreadyConfigured path := by
  have htype : ∀ descriptor : Descriptor, descriptor.offer = .error fault →
      fault ≠ .factoryAlreadyConfigured path := by
    rintro ⟨name, _, _ | ⟨kind, _ | constructor⟩⟩ hoffer
    · exact Except.error.inj hoffer ▸ Fault.noConfusion
    · exact Except.error.inj hoffer ▸ Fault.noConfusion
    · exact absurd hoffer (by simp [Descriptor.offer])
  cases request with
  | selectType descriptor => exact htype descriptor (Option.some.inj h)
  | collect element => exact htype _ (Option.some.inj h)
  | selectNamed registry name =>
    cases hfind : registry.find name with
    | ok descriptor =>
      refine htype descriptor ?_
      simpa [offer?, hfind] using h
    | error fault' =>
      obtain rfl : fault' = fault := by simpa [offer?, hfind] using h
      rw [Registry.find] at hfind
      split at hfind
      · exact absurd hfind (by simp)
      · exact Except.error.inj hfind ▸ Fault.noConfusion
  | _ => exact absurd h (by simp [offer?])

namespace AggregateDraft

variable {d : AggregateDraft} {request : AggregateRequest} {factory : SharedFactory} {fault : Fault}

/-- The event that tells a selection. -/
def selection (d : AggregateDraft) (factory : SharedFactory) : Event :=
  .strategySelected d.scope.path factory.factory.kind factory.factory.name d.factory.isSome

theorem run_select (factory : SharedFactory) (d : AggregateDraft) :
    (select factory).run d =
      if d.factory.isSome ∧ d.policy.overwrite = .reject then
        ⟨.error (.factoryAlreadyConfigured d.scope.path), d, []⟩
      else ⟨.ok (), { d with factory := some factory }, [d.selection factory]⟩ := by
  rw [select, run_bind_of_ok (run_state d)]
  split <;> simp [run_bind, selection]

theorem run_selectType_of_ok {descriptor : Descriptor} (h : descriptor.offer = .ok factory) :
    (selectType descriptor).run d = (select factory).run d := by
  rcases descriptor with ⟨name, _, _ | ⟨kind, _ | constructor⟩⟩
  · exact absurd h (by simp [Descriptor.offer])
  · exact absurd h (by simp [Descriptor.offer])
  · obtain rfl := Except.ok.inj h
    rfl

/-- A type that fails its checks is told, and nothing is selected. -/
theorem run_selectType_of_error {descriptor : Descriptor} (h : descriptor.offer = .error fault) :
    ∃ reason, (selectType descriptor).run d =
      ⟨.error fault, d, [.strategyRejected d.scope.path descriptor.name reason]⟩ := by
  rcases descriptor with ⟨name, _, _ | ⟨kind, _ | constructor⟩⟩
  · obtain rfl := Except.error.inj h
    exact ⟨.noCapability, rfl⟩
  · obtain rfl := Except.error.inj h
    exact ⟨.noConstructor, rfl⟩
  · exact absurd h (by simp [Descriptor.offer])

/-- **Every selection ends in the one slot**, whatever way its factory was found. -/
theorem run_attempt_of_offer (h : request.offer? = some (.ok factory)) :
    (attempt request).run d =
      if d.factory.isSome ∧ d.policy.overwrite = .reject then
        ⟨.error (.factoryAlreadyConfigured d.scope.path), d, []⟩
      else ⟨.ok none, { d with factory := some factory }, [d.selection factory]⟩ := by
  have hselect : ∀ x : Attempt AggregateDraft Unit, x.run d = (select factory).run d →
      (do x; return none : Attempt AggregateDraft (Option Declaration)).run d =
        if d.factory.isSome ∧ d.policy.overwrite = .reject then
          ⟨.error (.factoryAlreadyConfigured d.scope.path), d, []⟩
        else ⟨.ok none, { d with factory := some factory }, [d.selection factory]⟩ := by
    intro x hx
    rw [run_select] at hx
    split at hx
    case isTrue hreject => rw [if_pos hreject, run_bind_of_error hx]
    case isFalse hfree =>
      rw [if_neg hfree, run_bind_of_ok hx]
      rfl
  cases request with
  | select f =>
    obtain rfl := Except.ok.inj (Option.some.inj h)
    exact hselect _ rfl
  | selectType descriptor => exact hselect _ (run_selectType_of_ok (Option.some.inj h))
  | selectNamed registry name =>
    refine hselect _ ?_
    rw [selectNamed]
    cases hfind : registry.find name with
    | ok descriptor =>
      refine run_selectType_of_ok ?_
      simpa [AggregateRequest.offer?, hfind] using h
    | error => exact absurd h (by simp [AggregateRequest.offer?, hfind])
  | collect element => exact hselect _ (run_selectType_of_ok (Option.some.inj h))
  | groupBy key element =>
    obtain rfl := Except.ok.inj (Option.some.inj h)
    exact hselect _ rfl
  | project selector =>
    obtain rfl := Except.ok.inj (Option.some.inj h)
    exact hselect _ rfl
  | declareSource => exact absurd h (by simp [AggregateRequest.offer?])
  | sourceOf => exact absurd h (by simp [AggregateRequest.offer?])

/-- **A selection whose look-up or checks fail changes nothing** and tells no selection. -/
theorem run_attempt_of_no_offer (h : request.offer? = some (.error fault)) :
    ∃ events, (attempt request).run d = ⟨.error fault, d, events⟩ ∧
      ∀ event ∈ events, ∀ path, event.isSelectionIn path = false := by
  have htype : ∀ descriptor : Descriptor, descriptor.offer = .error fault →
      ∃ events, (do selectType descriptor; return none :
          Attempt AggregateDraft (Option Declaration)).run d = ⟨.error fault, d, events⟩ ∧
        ∀ event ∈ events, ∀ path, event.isSelectionIn path = false := by
    intro descriptor hoffer
    obtain ⟨reason, hrun⟩ := run_selectType_of_error (d := d) hoffer
    exact ⟨_, run_bind_of_error hrun, by simp [Event.isSelectionIn]⟩
  cases request with
  | selectType descriptor => exact htype descriptor (Option.some.inj h)
  | collect element => exact htype _ (Option.some.inj h)
  | selectNamed registry name =>
    rw [attempt, selectNamed]
    cases hfind : registry.find name with
    | ok descriptor =>
      refine htype descriptor ?_
      simpa [AggregateRequest.offer?, hfind] using h
    | error fault' =>
      obtain rfl : fault' = fault := by simpa [AggregateRequest.offer?, hfind] using h
      exact ⟨[], rfl, by simp⟩
  | _ => exact absurd h (by simp [AggregateRequest.offer?])

/-! ## Sources -/

variable {b : Declaration} {type : DataType} {name? : Option String} {name : String}

theorem run_ensureNoSource_of_none (h : d.source = none) :
    ensureNoSource.run d = ⟨.ok (), d, []⟩ := by
  simp [ensureNoSource, run_bind, h]

theorem run_ensureNoSource_of_some (h : d.source ≠ none) :
    ensureNoSource.run d = ⟨.error .aggregateSingleSource, d, []⟩ := by
  simp [ensureNoSource, run_bind, Option.isSome_iff_ne_none.mpr h]

theorem run_sourceOf_of_some (h : d.source ≠ none) :
    (sourceOf b).run d = ⟨.error .aggregateSingleSource, d, []⟩ :=
  run_bind_of_error (run_ensureNoSource_of_some h)

theorem run_declareSource_of_some (h : d.source ≠ none) :
    (declareSource type name?).run d = ⟨.error .aggregateSingleSource, d, []⟩ :=
  run_bind_of_error (run_ensureNoSource_of_some h)

theorem run_sourceOf_of_none (h : d.source = none) :
    (sourceOf b).run d =
      if (d.scope.lookup b.name).any (· != b) then
        ⟨.error (.duplicateDeclaration b.name d.scope.path), d, []⟩
      else
        ⟨.ok (), { d with source := some (.start d.scope b d.policy) },
          [.sourceDeclared d.scope.path b.name b.type]⟩ := by
  rw [sourceOf, run_bind_of_ok (run_ensureNoSource_of_none h), run_bind_of_ok (run_state d)]
  split <;> simp [run_bind]

theorem run_declareSource_of_error (h : d.source = none)
    (hname : d.scope.freshName name? = .error fault) :
    (declareSource type name?).run d = ⟨.error fault, d, []⟩ := by
  have hdeclare : (onPart (fun d : AggregateDraft => d.scope) (fun scope d => { d with scope })
      (Scope.declare type name?)).run d = ⟨.error fault, d, []⟩ := by
    rw [run_onPart, Scope.run_declare_of_error hname]
    cases d
    rfl
  rw [declareSource, run_bind_of_ok (run_ensureNoSource_of_none h), run_bind_of_error hdeclare]
  rfl

/-- **A source that is declared is started**: its binding is what its name resolves to by then. -/
theorem run_declareSource_of_ok (h : d.source = none) (hname : d.scope.freshName name? = .ok name) :
    (declareSource type name?).run d =
      let b : Declaration := ⟨name, type, d.scope.path⟩
      ⟨.ok b, { d with
        scope := d.scope.push b
        source := some (.start (d.scope.push b) b d.policy) },
        [.sourceDeclared d.scope.path b.name b.type]⟩ := by
  let b : Declaration := ⟨name, type, d.scope.path⟩
  let d' : AggregateDraft := { d with scope := d.scope.push b }
  have hdeclare : (onPart (fun d : AggregateDraft => d.scope) (fun scope d => { d with scope })
      (Scope.declare type name?)).run d = ⟨.ok b, d', []⟩ := by
    rw [run_onPart, Scope.run_declare_of_ok hname]
    rfl
  have hsource : (sourceOf b).run d' =
      ⟨.ok (), { d' with source := some (.start d'.scope b d.policy) },
        [.sourceDeclared d.scope.path b.name b.type]⟩ := by
    have hlookup : d'.scope.lookup b.name = some b := Scope.lookup_push_self d.scope b
    rw [run_sourceOf_of_none (d := d') h, hlookup, if_neg (by simp)]
    rfl
  rw [declareSource, run_bind_of_ok (run_ensureNoSource_of_none h), run_bind_of_ok hdeclare,
    run_bind_of_ok hsource]
  rfl

end AggregateDraft

namespace PatternDraft

variable {d : PatternDraft} {type resultType : DataType} {name? : Option String} {name : String}
  {fault : Fault}

theorem run_declare_of_error (hname : d.scope.freshName name? = .error fault) :
    (declare type name?).run d = ⟨.error fault, d, []⟩ := by
  rw [declare, run_onPart, Scope.run_declare_of_error hname]
  cases d
  rfl

theorem run_declare_of_ok (hname : d.scope.freshName name? = .ok name) :
    (declare type name?).run d =
      let b : Declaration := ⟨name, type, d.scope.path⟩
      ⟨.ok b, { d with scope := d.scope.push b }, []⟩ := by
  rw [declare, run_onPart, Scope.run_declare_of_ok hname]
  rfl

theorem run_nest_of_none (h : d.source = none) :
    (nest resultType).run d =
      ⟨.ok (), { d with source := some (.start resultType d.scope d.policy) }, []⟩ := by
  rw [nest, run_bind_of_ok (run_state d), if_neg (by simp [h])]
  rfl

theorem run_nest_of_some (h : d.source ≠ none) :
    (nest resultType).run d = ⟨.error .patternSingleSource, d, []⟩ := by
  rw [nest, run_bind_of_ok (run_state d), if_pos (Option.isSome_iff_ne_none.mpr h)]
  rfl

end PatternDraft

/-! ## The ways a call can go -/

/-- Whether a link turns every selection down. -/
def Draft.Rejects : Draft → Prop
  | aggregate d => d.factory.isSome ∧ d.policy.overwrite = .reject
  | pattern _ => False

/-- The ways a call can go on a link: with what request, to what outcome. -/
inductive Draft.Effect : Draft → Request → Outcome Draft (Option Declaration) → Prop
  /-- Refused: the link is as it was, and no selection is told. -/
  | refused {l : Draft} {request : Request} {fault : Fault} {events : List Event}
      (hevents : ∀ event ∈ events, ∀ path, event.isSelectionIn path = false)
      (hfault : ∀ path, fault = .factoryAlreadyConfigured path → l.Rejects) :
      Effect l request ⟨.error fault, l, events⟩
  /-- A factory is selected, where there was none or where it may be replaced. -/
  | selected {d : AggregateDraft} {request : AggregateRequest} {factory : SharedFactory}
      (hoffer : request.offer? = some (.ok factory))
      (hfree : d.factory = none ∨ d.policy.overwrite = .allow) :
      Effect (.aggregate d) (.toAggregate request)
        ⟨.ok none, .aggregate { d with factory := some factory }, [d.selection factory]⟩
  /-- A binding is declared, and the source started over it. -/
  | sourceDeclared {d : AggregateDraft} {type : DataType} {name? : Option String} {name : String}
      (hnone : d.source = none) (hname : d.scope.freshName name? = .ok name) :
      Effect (.aggregate d) (.toAggregate (.declareSource type name?))
        ⟨.ok (some ⟨name, type, d.scope.path⟩), .aggregate { d with
          scope := d.scope.push ⟨name, type, d.scope.path⟩
          source := some (.start (d.scope.push ⟨name, type, d.scope.path⟩)
            ⟨name, type, d.scope.path⟩ d.policy) },
          [.sourceDeclared d.scope.path name type]⟩
  /-- The source is started over a binding that was made elsewhere. -/
  | sourceBound {d : AggregateDraft} {b : Declaration} (hnone : d.source = none)
      (hlookup : ∀ e, d.scope.lookup b.name = some e → e = b) :
      Effect (.aggregate d) (.toAggregate (.sourceOf b))
        ⟨.ok (some b), .aggregate { d with source := some (.start d.scope b d.policy) },
          [.sourceDeclared d.scope.path b.name b.type]⟩
  /-- A condition is appended. -/
  | conditioned {d : PatternDraft} {c : Condition} :
      Effect (.pattern d) (.toPattern (.condition c))
        ⟨.ok none, .pattern { d with conditions := d.conditions ++ [c] }, []⟩
  /-- A local binding is declared. -/
  | declared {d : PatternDraft} {type : DataType} {name? : Option String} {name : String}
      (hname : d.scope.freshName name? = .ok name) :
      Effect (.pattern d) (.toPattern (.declare type name?))
        ⟨.ok (some ⟨name, type, d.scope.path⟩),
          .pattern { d with scope := d.scope.push ⟨name, type, d.scope.path⟩ }, []⟩
  /-- A source aggregate is started. -/
  | nested {d : PatternDraft} {resultType : DataType} (hnone : d.source = none) :
      Effect (.pattern d) (.toPattern (.nest resultType))
        ⟨.ok none, .pattern { d with source := some (.start resultType d.scope d.policy) }, []⟩
  /-- An aggregate gets another policy. -/
  | aggregateConfigured {d : AggregateDraft} {policy : Policy} :
      Effect (.aggregate d) (.configure policy) ⟨.ok none, .aggregate { d with policy }, []⟩
  /-- A pattern gets another policy. -/
  | patternConfigured {d : PatternDraft} {policy : Policy} :
      Effect (.pattern d) (.configure policy) ⟨.ok none, .pattern { d with policy }, []⟩

namespace Draft

theorem effect_of_attempt (d : AggregateDraft) (request : AggregateRequest) :
    Effect (.aggregate d) (.toAggregate request)
      (((AggregateDraft.attempt request).run d).mapState .aggregate) := by
  cases hoffer : request.offer? with
  | some offer =>
    cases offer with
    | ok factory =>
      rw [AggregateDraft.run_attempt_of_offer hoffer]
      split
      case isTrue hreject => exact .refused (by simp) fun _ _ => hreject
      case isFalse h =>
        refine .selected hoffer ?_
        cases hpolicy : d.policy.overwrite with
        | allow => exact Or.inr rfl
        | reject => exact Or.inl (by simpa [hpolicy] using h)
    | error fault =>
      obtain ⟨events, hrun, hevents⟩ := AggregateDraft.run_attempt_of_no_offer (d := d) hoffer
      rw [hrun]
      refine .refused hevents fun path hpath => ?_
      exact absurd hpath (AggregateRequest.ne_alreadyConfigured_of_offer? hoffer path)
  | none =>
    cases request with
    | declareSource type name? =>
      by_cases hsource : d.source = none
      · cases hname : d.scope.freshName name? with
        | ok name =>
          rw [AggregateDraft.attempt,
            run_bind_of_ok (AggregateDraft.run_declareSource_of_ok hsource hname)]
          exact .sourceDeclared hsource hname
        | error fault =>
          rw [AggregateDraft.attempt,
            run_bind_of_error (AggregateDraft.run_declareSource_of_error hsource hname)]
          refine .refused (by simp) fun path hpath => ?_
          exact absurd hpath (Scope.ne_alreadyConfigured_of_freshName hname path)
      · rw [AggregateDraft.attempt,
          run_bind_of_error (AggregateDraft.run_declareSource_of_some hsource)]
        exact .refused (by simp) (by simp)
    | sourceOf b =>
      by_cases hsource : d.source = none
      · rw [AggregateDraft.attempt, run_bind, AggregateDraft.run_sourceOf_of_none hsource]
        by_cases hany : (d.scope.lookup b.name).any (· != b) = true
        · rw [if_pos hany]
          exact .refused (by simp) (by simp)
        · rw [if_neg hany]
          exact .sourceBound hsource fun e he => by simpa [he] using hany
      · rw [AggregateDraft.attempt,
          run_bind_of_error (AggregateDraft.run_sourceOf_of_some hsource)]
        exact .refused (by simp) (by simp)
    | _ => exact absurd hoffer (by simp [AggregateRequest.offer?])

theorem effect_of_patternAttempt (d : PatternDraft) (request : PatternRequest) :
    Effect (.pattern d) (.toPattern request)
      (((PatternDraft.attempt request).run d).mapState .pattern) := by
  cases request with
  | condition c => exact .conditioned
  | declare type name? =>
    cases hname : d.scope.freshName name? with
    | ok name =>
      rw [PatternDraft.attempt, run_bind_of_ok (PatternDraft.run_declare_of_ok hname)]
      exact .declared hname
    | error fault =>
      rw [PatternDraft.attempt, run_bind_of_error (PatternDraft.run_declare_of_error hname)]
      refine .refused (by simp) fun path hpath => ?_
      exact absurd hpath (Scope.ne_alreadyConfigured_of_freshName hname path)
  | nest resultType =>
    by_cases hsource : d.source = none
    · rw [PatternDraft.attempt, run_bind_of_ok (PatternDraft.run_nest_of_none hsource)]
      exact .nested hsource
    · rw [PatternDraft.attempt, run_bind_of_error (PatternDraft.run_nest_of_some hsource)]
      exact .refused (by simp) (by simp)

/-- **A call that reaches a link goes one of these ways there.** -/
theorem effect_of_perform {l : Draft} {request : Request}
    {o : Outcome Draft (Option Declaration)} (h : l.perform request 0 = .ok o) :
    Effect l request o := by
  cases l with
  | aggregate d =>
    cases request with
    | toAggregate request =>
      obtain rfl := Except.ok.inj h
      exact effect_of_attempt d request
    | toPattern =>
      refine absurd h ?_
      simp [perform, AggregateDraft.perform, AggregateDraft.take, Except.map]
    | configure policy =>
      obtain rfl := Except.ok.inj h
      exact .aggregateConfigured
  | pattern d =>
    cases request with
    | toAggregate =>
      refine absurd h ?_
      simp [perform, PatternDraft.perform, PatternDraft.take, Except.map]
    | toPattern request =>
      obtain rfl := Except.ok.inj h
      exact effect_of_patternAttempt d request
    | configure policy =>
      obtain rfl := Except.ok.inj h
      exact .patternConfigured

end Draft

end AggregateRules
