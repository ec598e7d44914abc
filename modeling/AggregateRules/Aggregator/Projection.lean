import AggregateRules.Aggregator.Contract
import AggregateRules.OrderedMap
import AggregateRules.Selector

/-!
# Aggregator/Projection — one result for each fact

Every held fact has one result, what the selector derives from its value.  Every added fact is told
as added, whether or not it was held; facts that are not held are passed over when they are modified
or removed.
-/

namespace AggregateRules

/-- The derived values of the held facts. -/
structure Projection where
  selector : Selector
  projected : OrderedMap FactId Value := ∅

namespace Projection

/-- Add one fact. -/
def addOne (r : Report Projection) (f : Fact) : Report Projection :=
  let value := r.state.selector.select f.value
  { state := { r.state with projected := r.state.projected.insert f.id value }
    changes := r.changes ++ [.added value] }

/-- Derive the value of one held fact anew. -/
def modifyOne (r : Report Projection) (f : Fact) : Report Projection :=
  if r.state.projected.contains f.id then
    let value := r.state.selector.select f.value
    { state := { r.state with projected := r.state.projected.insert f.id value }
      changes := r.changes ++ [.modified value] }
  else r

/-- Take one held fact out; its last value is told. -/
def removeOne (r : Report Projection) (f : Fact) : Report Projection :=
  match r.state.projected.get? f.id with
  | some value =>
      { state := { r.state with projected := r.state.projected.erase f.id }
        changes := r.changes ++ [.removed value] }
  | none => r

/-- Consume one batch, fact by fact. -/
def consume : Batch → Projection → Report Projection
  | .add facts, p => facts.foldl addOne ⟨p, []⟩
  | .modify facts, p => facts.foldl modifyOne ⟨p, []⟩
  | .remove facts, p => facts.foldl removeOne ⟨p, []⟩

instance : Aggregation Projection where
  consume := consume
  results p := p.projected.values

instance : Inspect Projection where
  inspect p := Inspect.record "ProjectionAggregator"
    [("selector", inspect p.selector),
      ("projected", Inspect.mapping (p.projected.entries.map fun e => (inspect e.1, inspect e.2)))]

end Projection

end AggregateRules
