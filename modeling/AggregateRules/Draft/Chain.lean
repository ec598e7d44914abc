import AggregateRules.Draft.Freeze

/-!
# Draft/Chain — calls at any depth of a definition

A definition is a chain: an aggregate, its source pattern, the aggregate that feeds the pattern, and
so on, or the same started at a pattern.  A request is a call on one link, which stands a number of
links further in; `perform` makes it there and leaves the other links as they are.  A request can be
misaddressed, when the chain ends too early or the link is of the other kind; then there is no call
at all.
-/

namespace AggregateRules

/-- A definition, from its outermost link. -/
inductive Draft where
  | aggregate (d : AggregateDraft)
  | pattern (d : PatternDraft)

/-- A call on an aggregate. -/
inductive AggregateRequest where
  | select (factory : SharedFactory)
  | selectType (descriptor : Descriptor)
  | selectNamed (registry : Registry) (name : String)
  | collect (element : DataType)
  | groupBy (key element : Selector)
  | project (selector : Selector)
  | declareSource (type : DataType) (name? : Option String)
  | sourceOf (declaration : Declaration)

/-- A call on a pattern. -/
inductive PatternRequest where
  | condition (c : Condition)
  | declare (type : DataType) (name? : Option String)
  | nest (resultType : DataType)

/-- A call on a link of either kind. -/
inductive Request where
  | toAggregate (request : AggregateRequest)
  | toPattern (request : PatternRequest)
  | configure (policy : Policy)

/-- Why a request reaches no link that could take it. -/
inductive Misaddressed where
  | noSuchLink
  | otherKind
  deriving DecidableEq

/-- The call that a request makes on an aggregate, with the binding it declares, if any. -/
def AggregateDraft.attempt : AggregateRequest → Attempt AggregateDraft (Option Declaration)
  | .select factory => do select factory; return none
  | .selectType descriptor => do selectType descriptor; return none
  | .selectNamed registry name => do selectNamed registry name; return none
  | .collect element => do collect element; return none
  | .groupBy key element => do groupBy key element; return none
  | .project selector => do project selector; return none
  | .declareSource type name? => do return some (← declareSource type name?)
  | .sourceOf declaration => do sourceOf declaration; return some declaration

/-- The call that a request makes on a pattern, with the binding it declares, if any. -/
def PatternDraft.attempt : PatternRequest → Attempt PatternDraft (Option Declaration)
  | .condition c => do condition c; return none
  | .declare type name? => do return some (← declare type name?)
  | .nest resultType => do nest resultType; return none

/-- What a request that reached its link leaves behind. -/
abbrev Reply (σ : Type) := Except Misaddressed (Outcome σ (Option Declaration))

/-- Make the call of a request on an aggregate itself. -/
def AggregateDraft.take : Request → AggregateDraft → Reply AggregateDraft
  | .toAggregate request, d => .ok ((attempt request).run d)
  | .toPattern _, _ => .error .otherKind
  | .configure policy, d => .ok ((do configure policy; return none : Attempt _ _).run d)

/-- Make the call of a request on a pattern itself. -/
def PatternDraft.take : Request → PatternDraft → Reply PatternDraft
  | .toAggregate _, _ => .error .otherKind
  | .toPattern request, d => .ok ((attempt request).run d)
  | .configure policy, d => .ok ((do configure policy; return none : Attempt _ _).run d)

mutual

/-- Make a request a number of links inside an aggregate. -/
def AggregateDraft.perform (request : Request) : Nat → AggregateDraft → Reply AggregateDraft
  | 0, d => d.take request
  | depth + 1, d =>
      match d.source with
      | none => .error .noSuchLink
      | some p => (p.perform request depth).map (·.mapState fun p => { d with source := some p })

/-- Make a request a number of links inside a pattern. -/
def PatternDraft.perform (request : Request) : Nat → PatternDraft → Reply PatternDraft
  | 0, d => d.take request
  | depth + 1, d =>
      match d.source with
      | none => .error .noSuchLink
      | some a => (a.perform request depth).map (·.mapState fun a => { d with source := some a })

end

namespace Draft

/-- Make a request a number of links inside a definition. -/
def perform (request : Request) (depth : Nat) : Draft → Reply Draft
  | aggregate d => (d.perform request depth).map (·.mapState aggregate)
  | pattern d => (d.perform request depth).map (·.mapState pattern)

/-- The next link. -/
def inner? : Draft → Option Draft
  | aggregate d => d.source.map pattern
  | pattern d => d.source.map aggregate

/-- The link that stands a number of links further in. -/
def link? : Nat → Draft → Option Draft
  | 0, d => some d
  | depth + 1, d => d.inner?.bind (link? depth)

/-- Freeze a definition. -/
def freeze : Draft → Frozen Element
  | aggregate d => ⟨d.freeze.answer.map .aggregate, d.freeze.events⟩
  | pattern d => ⟨d.freeze.answer.map .pattern, d.freeze.events⟩

end Draft

end AggregateRules
