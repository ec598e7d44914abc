import AggregateRules.Aggregator.Contract

/-!
# Aggregator/Threshold — facts whose amount reaches a bound

A fact matches if it is a record whose field `amount` is an integer not below the bound.  Every match
is a result of its own and stays one: modifications and removals are passed over.
-/

namespace AggregateRules

/-- The facts that reached a bound. -/
structure Threshold where
  bound : Int64
  reached : List Value := []

namespace Threshold

/-- Whether a value reaches the bound. -/
def reaches (bound : Int64) (v : Value) : Bool :=
  match v.field? "amount" with
  | some (.int amount) => decide (bound ≤ amount)
  | _ => false

/-- Consume one batch. -/
def consume : Batch → Threshold → Report Threshold
  | .add facts, t =>
      let found := (facts.map Fact.value).filter (reaches t.bound)
      ⟨{ t with reached := t.reached ++ found }, found.map .added⟩
  | .modify _, t | .remove _, t => ⟨t, []⟩

instance : Aggregation Threshold where
  consume := consume
  results t := t.reached

instance : Inspect Threshold where
  inspect t := Inspect.record "ThresholdAggregator"
    [("threshold", toString t.bound.toInt),
      ("matched", Inspect.sequence (t.reached.map inspect))]

end Threshold

end AggregateRules
