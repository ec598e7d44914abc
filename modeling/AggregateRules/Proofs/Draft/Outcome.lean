import AggregateRules.Proofs.Draft.Links

/-!
# Proofs/Draft/Outcome — what freezing answers, and what it tells

Freezing goes down the links until one is incomplete, and tells on the way back what it built.  Both
directions are one statement about the links from some link inwards (`Told`): a complete aggregate
or a pattern put in front of them keeps it (`Told.andThen`), an incomplete aggregate starts it
afresh, whatever is inside (`told_incomplete`).

**Main statement** (`freeze_outcome`): freezing succeeds if and only if every aggregate is complete;
a failure is the complaint of the outermost one that is not, and tells nothing else; a success tells
every part once, in the reverse of the order in which a walk visits them.
-/

namespace AggregateRules

/-- Whether an aggregate holds both a factory and a source. -/
def AggregateDraft.Complete (d : AggregateDraft) : Prop :=
  d.factory.isSome = true ∧ d.source.isSome = true

instance : DecidablePred AggregateDraft.Complete := fun _ => inferInstanceAs (Decidable (_ ∧ _))

/-- The refusal to freeze an incomplete aggregate. -/
def AggregateDraft.refusal {α : Type} (d : AggregateDraft) : Frozen α :=
  .refuse (.buildRejected d.scope.path d.factory.isNone d.source.isNone)
    (if d.factory.isNone then .missingFactory else .missingSource)

/-- The event that tells that a part is built, in a scope. -/
def Element.announce (scope : String) : Element → Event
  | pattern p => .patternBuilt scope p.declaration.name p.conditions.length
  | aggregate a =>
      .aggregateBuilt scope a.resultType a.factory.factory.kind a.declarations.length

/-! ## One link -/

/-- The outermost incomplete aggregate among some links. -/
def incomplete? (links : List Draft) : Option AggregateDraft :=
  (links.filterMap Draft.aggregate?).find? fun d => ¬ d.Complete

/-- What freezing some links leaves behind: the refusal of the outermost incomplete aggregate, or a
part that is told as its walk goes, backwards. -/
def Told {α : Type} (part : α → Element) (links : List Draft) (x : Frozen α) : Prop :=
  match incomplete? links with
  | some d => x = d.refusal
  | none =>
      ∃ a, x.answer = .ok a ∧ (part a).walk.length = links.length ∧
        x.events = (List.zipWith Element.announce (links.map Draft.path) (part a).walk).reverse

section Link

variable {α β : Type} {part : α → Element} {whole : β → Element}

theorem told_incomplete {d : AggregateDraft} (h : ¬ d.Complete) (links : List Draft) :
    Told part (.aggregate d :: links) d.refusal := by
  have : incomplete? (.aggregate d :: links) = some d := by
    simp [incomplete?, Draft.aggregate?, h]
  rw [Told, this]

/-- **A link that is not refused is told after the links inside it.** -/
theorem Told.andThen {links : List Draft} {x : Frozen α} {link : Draft} {make : α → β}
    {event : α → Event} (h : Told part links x) (hlink : ∀ d, link = .aggregate d → d.Complete)
    (hwalk : ∀ a, (whole (make a)).walk = whole (make a) :: (part a).walk)
    (hevent : ∀ a, event a = (whole (make a)).announce link.path) :
    Told whole (link :: links) (x.andThen make event) := by
  have hskip : incomplete? (link :: links) = incomplete? links := by
    cases link with
    | pattern d => rfl
    | aggregate d => simp [incomplete?, Draft.aggregate?, hlink d rfl]
  rw [Told] at h ⊢
  rw [hskip]
  split at h
  case h_1 d _ =>
    rw [h]
    rfl
  case h_2 =>
    obtain ⟨a, hanswer, hlength, hevents⟩ := h
    refine ⟨make a, ?_, ?_, ?_⟩
    · rw [Frozen.andThen, hanswer]
    · rw [hwalk, List.length_cons, List.length_cons, hlength]
    · rw [Frozen.andThen, hanswer, hwalk, List.map_cons, List.zipWith_cons_cons, List.reverse_cons,
        ← hevent, ← hevents]

/-- A part may be seen as an element. -/
theorem Told.element {links : List Draft} {x : Frozen α} (h : Told part links x) :
    Told id links ⟨x.answer.map part, x.events⟩ := by
  rw [Told] at h ⊢
  split at h
  case h_1 d _ =>
    rw [h]
    rfl
  case h_2 =>
    obtain ⟨a, hanswer, htold⟩ := h
    refine ⟨part a, ?_, htold⟩
    rw [hanswer]
    rfl

end Link

/-! ## All links -/

mutual

theorem AggregateDraft.told_freeze : ∀ d : AggregateDraft, Told .aggregate d.links d.freeze
  | ⟨scope, resultType, none, source, policy⟩ => by
      rw [AggregateDraft.links_eq, AggregateDraft.freeze]
      exact told_incomplete (by simp [AggregateDraft.Complete]) _
  | ⟨scope, resultType, some factory, none, policy⟩ => by
      rw [AggregateDraft.links, AggregateDraft.freeze]
      exact told_incomplete (by simp [AggregateDraft.Complete]) _
  | ⟨scope, resultType, some factory, some source, policy⟩ => by
      have hlink : ∀ d, Draft.aggregate ⟨scope, resultType, some factory, some source, policy⟩ =
          .aggregate d → d.Complete := by
        rintro d ⟨⟩
        exact ⟨rfl, rfl⟩
      rw [AggregateDraft.links, AggregateDraft.freeze]
      exact source.told_freeze.andThen hlink (fun a => AggregateElement.walk_eq _) fun a => rfl

theorem PatternDraft.told_freeze : ∀ d : PatternDraft, Told .pattern d.links d.freeze
  | ⟨scope, declaration, conditions, none, policy⟩ => by
      rw [PatternDraft.links, PatternDraft.freeze]
      have hwalk := PatternElement.walk_eq ⟨declaration, conditions, scope.own, none⟩
      refine ⟨_, rfl, congrArg List.length hwalk, ?_⟩
      rw [Element.walk, hwalk]
      rfl
  | ⟨scope, declaration, conditions, some source, policy⟩ => by
      have hlink : ∀ d, Draft.pattern ⟨scope, declaration, conditions, some source, policy⟩ =
          .aggregate d → d.Complete := by
        rintro d ⟨⟩
      rw [PatternDraft.links, PatternDraft.freeze]
      exact source.told_freeze.andThen hlink (fun a => PatternElement.walk_eq _) fun a => rfl

end

theorem Draft.told_freeze : ∀ d : Draft, Told id d.links d.freeze
  | aggregate d => d.told_freeze.element
  | pattern d => d.told_freeze.element

theorem incomplete?_eq_none_iff {d : Draft} :
    incomplete? d.links = none ↔ ∀ a ∈ d.aggregates, a.Complete := by
  change d.aggregates.find? _ = none ↔ _
  rw [List.find?_eq_none]
  simp

/-- **Freezing succeeds if and only if every aggregate is complete.**  A failure is the complaint of
the outermost incomplete one and tells nothing else; a success tells every part of the result once,
in the reverse of the order in which a walk visits them, each in the scope of its link. -/
theorem freeze_outcome (d : Draft) :
    ((∃ e, d.freeze.answer = .ok e) ↔ ∀ a ∈ d.aggregates, a.Complete) ∧
      (∀ fault, d.freeze.answer = .error fault →
        ∃ a, d.aggregates.find? (fun a => ¬ a.Complete) = some a ∧
          fault = (if a.factory.isNone then .missingFactory else .missingSource) ∧
          d.freeze.events = [.buildRejected a.scope.path a.factory.isNone a.source.isNone]) ∧
      ∀ e, d.freeze.answer = .ok e →
        e.walk.length = d.links.length ∧
          d.freeze.events =
            (List.zipWith Element.announce (d.links.map Draft.path) e.walk).reverse := by
  have h := d.told_freeze
  rw [← incomplete?_eq_none_iff]
  rw [Told] at h
  split at h
  case h_1 a ha =>
    rw [h, ha]
    refine ⟨by simp [AggregateDraft.refusal, Frozen.refuse], fun fault hfault => ?_, fun e he => ?_⟩
    · exact ⟨a, ha, (Except.error.inj hfault).symm, rfl⟩
    · exact absurd he (by simp [AggregateDraft.refusal, Frozen.refuse])
  case h_2 hnone =>
    obtain ⟨e, hanswer, htold⟩ := h
    rw [hanswer]
    refine ⟨by simp [hnone], fun fault hfault => ?_, fun e' he' => ?_⟩
    · exact absurd hfault (by simp)
    · obtain rfl := Except.ok.inj he'
      exact htold

end AggregateRules
