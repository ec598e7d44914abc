import AggregateRules.Aggregator.Collection
import AggregateRules.Aggregator.Counting
import AggregateRules.Aggregator.Grouping
import AggregateRules.Aggregator.Projection
import AggregateRules.Aggregator.Threshold

/-!
# Aggregator/Basic — the strategies behind one face

An aggregator is one of the strategies in some state.  A blueprint is what a constructor knows: the
strategy and its arguments, no facts yet.  Building from a blueprint twice gives two aggregators that
share nothing.
-/

namespace AggregateRules

/-- The family a strategy belongs to. -/
inductive AggregatorKind where
  | collection
  | custom
  | groupBy
  | projection
  deriving DecidableEq, Inhabited

/-- The name of a family. -/
def AggregatorKind.name : AggregatorKind → String
  | collection => "Collection"
  | custom => "Custom"
  | groupBy => "GroupBy"
  | projection => "Projection"

/-- The family of a given name. -/
def AggregatorKind.named? : String → Option AggregatorKind
  | "Collection" => some collection
  | "Custom" => some custom
  | "GroupBy" => some groupBy
  | "Projection" => some projection
  | _ => none

instance : ToString AggregatorKind := ⟨AggregatorKind.name⟩

instance : Inspect AggregatorKind := ⟨AggregatorKind.name⟩

/-- A strategy in some state. -/
inductive Aggregator where
  | collection (state : Collection)
  | counting (state : Counting)
  | grouping (state : Grouping)
  | projection (state : Projection)
  | threshold (state : Threshold)

/-- The report of a strategy, about the aggregator that wraps it. -/
def Report.map {σ τ : Type} (f : σ → τ) (r : Report σ) : Report τ := ⟨f r.state, r.changes⟩

namespace Aggregator

instance : Aggregation Aggregator where
  consume b
    | collection s => (consume b s).map collection
    | counting s => (consume b s).map counting
    | grouping s => (consume b s).map grouping
    | projection s => (consume b s).map projection
    | threshold s => (consume b s).map threshold
  results
    | collection s => results s
    | counting s => results s
    | grouping s => results s
    | projection s => results s
    | threshold s => results s

instance : Inspect Aggregator where
  inspect
    | collection s => inspect s
    | counting s => inspect s
    | grouping s => inspect s
    | projection s => inspect s
    | threshold s => inspect s

end Aggregator

/-- What a constructor of an aggregator knows. -/
inductive Blueprint where
  | collection (element : DataType)
  | counting
  | grouping (key element : Selector)
  | projection (selector : Selector)
  | threshold (bound : Int64)

/-- A fresh aggregator. -/
def Blueprint.build : Blueprint → Aggregator
  | collection element => .collection { element }
  | counting => .counting {}
  | grouping key element => .grouping { key, element }
  | projection selector => .projection { selector }
  | threshold bound => .threshold { bound }

end AggregateRules
