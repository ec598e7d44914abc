import AggregateRules.Element.Basic
import AggregateRules.Policy.Basic
import AggregateRules.Scope.Basic
import AggregateRules.Strategy.Registry

/-!
# Draft/Basic — the parts of a rule while they are defined

An aggregate under definition gathers a factory and one source pattern; a pattern under definition
gathers conditions, bindings of its own and at most one source aggregate.  Each works in a child of
the scope it was started in, and copies its policy to what is started inside it.

Selecting a strategy ends in one slot, whatever way it was asked for: `select` decides whether the
slot may be filled, and `selectType` what fills it.  The source is checked before anything is
declared for it.
-/

namespace AggregateRules

mutual

/-- An aggregate under definition. -/
structure AggregateDraft where
  scope : Scope
  resultType : DataType
  factory : Option SharedFactory
  source : Option PatternDraft
  policy : Policy

/-- A pattern under definition. -/
structure PatternDraft where
  scope : Scope
  declaration : Declaration
  conditions : List Condition
  source : Option AggregateDraft
  policy : Policy

end

namespace PatternDraft

/-- The label of a pattern's scope. -/
def scopeLabel : String := "Pattern"

/-- Start a pattern over a binding, in a child of a scope. -/
def start (parent : Scope) (declaration : Declaration) (policy : Policy) : PatternDraft where
  scope := parent.child scopeLabel
  declaration := declaration
  conditions := []
  source := none
  policy := policy

end PatternDraft

namespace AggregateDraft

/-- The label of an aggregate's scope. -/
def scopeLabel : String := "Aggregate"

/-- Start an aggregate in a child of a scope. -/
def start (resultType : DataType) (parent : Scope) (policy : Policy) : AggregateDraft where
  scope := parent.child scopeLabel
  resultType := resultType
  factory := none
  source := none
  policy := policy

/-! ## The strategy -/

/-- Select a factory; with one selected already, the policy decides. -/
def select (factory : SharedFactory) : Attempt AggregateDraft Unit := do
  let d ← Attempt.state
  if d.factory.isSome ∧ d.policy.overwrite = .reject then
    Attempt.refuse (.factoryAlreadyConfigured d.scope.path)
  else
    Attempt.record
      (.strategySelected d.scope.path factory.factory.kind factory.factory.name d.factory.isSome)
    Attempt.put { d with factory := some factory }

/-- Turn a type down as a strategy. -/
def turnDown (typeName : String) (reason : Unfit) (fault : Fault) : Attempt AggregateDraft Unit := do
  let d ← Attempt.state
  Attempt.record (.strategyRejected d.scope.path typeName reason)
  Attempt.refuse fault

/-- Select a type, which must aggregate and must be constructible without arguments. -/
def selectType (descriptor : Descriptor) : Attempt AggregateDraft Unit :=
  match descriptor.capability with
  | none => turnDown descriptor.name .noCapability (.notAnAggregator descriptor.name)
  | some ⟨_, none⟩ => turnDown descriptor.name .noConstructor (.noDefaultConstructor descriptor.name)
  | some ⟨kind, some constructor⟩ => select { factory := .ofType descriptor.name kind constructor }

/-- Select a type by the name it is registered under. -/
def selectNamed (registry : Registry) (name : String) : Attempt AggregateDraft Unit :=
  match registry.find name with
  | .ok descriptor => selectType descriptor
  | .error fault => Attempt.refuse fault

/-- Collect the matches into one sequence. -/
def collect (element : DataType) : Attempt AggregateDraft Unit :=
  selectType (.collection element)

/-- Group the matches by key. -/
def groupBy (key element : Selector) : Attempt AggregateDraft Unit :=
  select { factory := .groupBy key element }

/-- Send every match through a selector. -/
def project (selector : Selector) : Attempt AggregateDraft Unit :=
  select { factory := .projection selector }

/-! ## The source -/

/-- Refuse to go on if there is a source. -/
def ensureNoSource : Attempt AggregateDraft Unit := do
  let d ← Attempt.state
  if d.source.isSome then Attempt.refuse .aggregateSingleSource

/-- Start the source pattern over a binding; its name must not resolve to another one here. -/
def sourceOf (declaration : Declaration) : Attempt AggregateDraft Unit := do
  ensureNoSource
  let d ← Attempt.state
  if (d.scope.lookup declaration.name).any (· != declaration) then
    Attempt.refuse (.duplicateDeclaration declaration.name d.scope.path)
  else
    Attempt.record (.sourceDeclared d.scope.path declaration.name declaration.type)
    Attempt.put { d with source := some (PatternDraft.start d.scope declaration d.policy) }

/-- Declare a binding here and start the source pattern over it. -/
def declareSource (type : DataType) (name? : Option String) : Attempt AggregateDraft Declaration := do
  ensureNoSource
  let declaration ← Attempt.onPart (fun d : AggregateDraft => d.scope)
    (fun scope d => { d with scope }) (Scope.declare type name?)
  sourceOf declaration
  return declaration

/-- Put another policy in place; what is started already keeps its own. -/
def configure (policy : Policy) : Attempt AggregateDraft Unit := do
  let d ← Attempt.state
  Attempt.put { d with policy }

end AggregateDraft

namespace PatternDraft

/-- Append a condition. -/
def condition (c : Condition) : Attempt PatternDraft Unit := do
  let d ← Attempt.state
  Attempt.put { d with conditions := d.conditions ++ [c] }

/-- Declare a binding local to the pattern. -/
def declare (type : DataType) (name? : Option String) : Attempt PatternDraft Declaration :=
  Attempt.onPart (fun d : PatternDraft => d.scope) (fun scope d => { d with scope })
    (Scope.declare type name?)

/-- Feed the pattern from a new aggregate. -/
def nest (resultType : DataType) : Attempt PatternDraft Unit := do
  let d ← Attempt.state
  if d.source.isSome then
    Attempt.refuse .patternSingleSource
  else
    Attempt.put { d with source := some (AggregateDraft.start resultType d.scope d.policy) }

/-- Put another policy in place; what is started already keeps its own. -/
def configure (policy : Policy) : Attempt PatternDraft Unit := do
  let d ← Attempt.state
  Attempt.put { d with policy }

end PatternDraft

end AggregateRules
