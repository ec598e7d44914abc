import AggregateRules.Aggregator.Contract

/-!
# Aggregator/Counting — the number of facts

The one result is a number: additions raise it by the facts they bring and removals lower it, never
below nothing.  Every addition and every removal is told, also an empty one; an addition to nothing
counts as producing the result.
-/

namespace AggregateRules

/-- A count of facts. -/
structure Counting where
  count : UInt64 := 0
  deriving DecidableEq

namespace Counting

/-- Consume one batch. -/
def consume : Batch → Counting → Report Counting
  | .add facts, c =>
      let count := c.count + UInt64.ofNat facts.length
      ⟨⟨count⟩, [if c.count = 0 then .added (.uint count) else .modified (.uint count)]⟩
  | .modify _, c => ⟨c, []⟩
  | .remove facts, c =>
      let count := UInt64.ofNat (c.count.toNat - facts.length)
      ⟨⟨count⟩, [.modified (.uint count)]⟩

instance : Aggregation Counting where
  consume := consume
  results c := [.uint c.count]

instance : Inspect Counting where
  inspect c := Inspect.record "CountingAggregator" [("count", toString c.count.toNat)]

end Counting

end AggregateRules
