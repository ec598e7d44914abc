import AggregateRules.Aggregator.Basic

/-!
# Strategy/Factory — what a rule keeps in place of an aggregator

A rule is defined long before a fact is matched, so it keeps a factory: selectors that nothing has
applied yet, or a blueprint with the name it goes by.  Creating twice gives independent aggregators.
Factories are shared by handle; a handle made for a single rule is no one else's, a handle that was
handed out to be shared carries the number it was handed out under.
-/

namespace AggregateRules

/-- Deferred construction of an aggregator. -/
inductive Factory where
  /-- A grouping by two selectors. -/
  | groupBy (key element : Selector)
  /-- A projection through a selector. -/
  | projection (selector : Selector)
  /-- The constructor of a type that was selected. -/
  | ofType (name : String) (kind : AggregatorKind) (constructor : Blueprint)
  /-- A constructor with state of its own, under a name. -/
  | custom (name : String) (constructor : Blueprint)

namespace Factory

/-- The family of the aggregators that a factory makes. -/
def kind : Factory → AggregatorKind
  | groupBy .. => .groupBy
  | projection _ => .projection
  | ofType _ kind _ => kind
  | custom .. => .custom

/-- The name a factory goes by in diagnostics. -/
def name : Factory → String
  | groupBy .. => "GroupByAggregator"
  | projection _ => "ProjectionAggregator"
  | ofType name .. => name
  | custom name _ => name

/-- What a factory makes. -/
def blueprint : Factory → Blueprint
  | groupBy key element => .grouping key element
  | projection selector => .projection selector
  | ofType _ _ constructor => constructor
  | custom _ constructor => constructor

/-- A fresh aggregator. -/
def create (f : Factory) : Aggregator := f.blueprint.build

instance : Inspect Factory where
  inspect
    | groupBy key element =>
        Inspect.record "GroupByAggregatorFactory" [("key", inspect key), ("element", inspect element)]
    | projection selector =>
        Inspect.record "ProjectionAggregatorFactory" [("selector", inspect selector)]
    | ofType name kind _ =>
        Inspect.partialRecord "DefaultAggregatorFactory"
          [("name", inspect name), ("kind", inspect kind)]
    | custom name _ => Inspect.partialRecord "CustomAggregatorFactory" [("name", inspect name)]

end Factory

/-- A factory held by handle. -/
structure SharedFactory where
  factory : Factory
  /-- The number the handle was handed out under, if it was handed out. -/
  handle : Option Nat := none

end AggregateRules
