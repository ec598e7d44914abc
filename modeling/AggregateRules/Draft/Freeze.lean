import AggregateRules.Draft.Basic

/-!
# Draft/Freeze — from a definition to an element

Freezing uses a definition up.  An aggregate must hold a factory and a source; the check is made on
the way in, so the outermost incomplete aggregate is the one that is told, and nothing inside it is
frozen.  On the way out each part is told once it is complete, the innermost first; an aggregate
adopts the binding and the local bindings of its source before it lists what is visible.
-/

namespace AggregateRules

/-- What freezing leaves behind. -/
structure Frozen (α : Type) where
  answer : Except Fault α
  events : List Event

namespace Frozen

variable {α β : Type}

/-- Refuse, telling one event. -/
def refuse (event : Event) (fault : Fault) : Frozen α := ⟨.error fault, [event]⟩

/-- Go on with a part that was frozen: the whole is told after it. -/
def andThen (x : Frozen α) (whole : α → β) (event : α → Event) : Frozen β :=
  match x.answer with
  | .ok a => ⟨.ok (whole a), x.events ++ [event a]⟩
  | .error fault => ⟨.error fault, x.events⟩

end Frozen

/-- The scope of an aggregate once its source is frozen. -/
def AggregateDraft.closingScope (scope : Scope) (source : PatternElement) : Scope :=
  (scope.adopt [source.declaration]).adopt source.declarations

/-- The aggregate around a frozen source. -/
def AggregateDraft.close (scope : Scope) (resultType : DataType) (factory : SharedFactory)
    (source : PatternElement) : AggregateElement where
  declarations := (closingScope scope source).visible
  resultType := resultType
  factory := factory
  source := source

mutual

/-- Freeze an aggregate. -/
def AggregateDraft.freeze : AggregateDraft → Frozen AggregateElement
  | ⟨scope, _, none, source, _⟩ =>
      .refuse (.buildRejected scope.path true source.isNone) .missingFactory
  | ⟨scope, _, some _, none, _⟩ =>
      .refuse (.buildRejected scope.path false true) .missingSource
  | ⟨scope, resultType, some factory, some source, _⟩ =>
      source.freeze.andThen (AggregateDraft.close scope resultType factory) fun source =>
        .aggregateBuilt scope.path resultType factory.factory.kind
          (AggregateDraft.close scope resultType factory source).declarations.length

/-- Freeze a pattern. -/
def PatternDraft.freeze : PatternDraft → Frozen PatternElement
  | ⟨scope, declaration, conditions, none, _⟩ =>
      ⟨.ok ⟨declaration, conditions, scope.own, none⟩,
        [.patternBuilt scope.path declaration.name conditions.length]⟩
  | ⟨scope, declaration, conditions, some source, _⟩ =>
      source.freeze.andThen (fun source => ⟨declaration, conditions, scope.own, some source⟩)
        fun _ => .patternBuilt scope.path declaration.name conditions.length

end

end AggregateRules
