import AggregateRules.Aggregator.Contract
import AggregateRules.OrderedMap
import AggregateRules.Selector

/-!
# Aggregator/Grouping — buckets of facts by key

Every bucket that holds an element is one result.  Buckets stand in the order in which they came to
be, and so do the elements of a bucket.  Beside the buckets stands the key of each fact, by which a
fact is found again when it is modified or removed: a modified fact leaves its bucket and enters the
one its new value selects.

A batch is told by its net effect on each bucket.  `Marks` accumulates that effect; `Action.net` is
the rule by which a further effect on the same bucket is folded in, and a bucket that came to be and
vanished within one batch is not told at all.
-/

namespace AggregateRules

/-- The net effect of two effects on one bucket, the earlier first; none if they cancel. -/
def Action.net : Action → Action → Option Action
  | .added, .removed => none
  | .added, _ => some .added
  | .removed, .added => some .modified
  | .modified, .added => some .modified
  | .modified, .modified => some .modified
  | _, .removed => some .removed
  | .removed, .modified => some .removed

/-- The net effect of a batch on each bucket that it touched, first touched first. -/
abbrev Marks := OrderedMap Value Action

/-- Fold one more effect in. -/
def Marks.mark (marks : Marks) (key : Value) (action : Action) : Marks :=
  match marks.get? key with
  | none => marks.insert key action
  | some previous =>
      match previous.net action with
      | some net => marks.insert key net
      | none => marks.erase key

/-- Facts gathered by key. -/
structure Grouping where
  key : Selector
  element : Selector
  groups : OrderedMap Value (OrderedMap FactId Value) := ∅
  factKeys : OrderedMap FactId Value := ∅

namespace Grouping

/-- A grouping in the middle of a batch, with the effect of the batch so far. -/
structure Pending where
  grouping : Grouping
  marks : Marks := ∅

/-- Put a fact into the bucket that its value selects, which comes to be if need be. -/
def insert (f : Fact) (p : Pending) : Pending :=
  let g := p.grouping
  let key := g.key.select f.value
  let element := g.element.select f.value
  let action := if g.groups.contains key then Action.modified else Action.added
  let bucket := ((g.groups.get? key).getD ∅).insert f.id element
  { grouping := { g with
      groups := g.groups.insert key bucket
      factKeys := g.factKeys.insert f.id key }
    marks := p.marks.mark key action }

/-- Take a fact out of the bucket it is known to stand in, and tell whether there was one.  A bucket
that holds nothing any more vanishes. -/
def detach (id : FactId) (p : Pending) : Bool × Pending :=
  let g := p.grouping
  match g.factKeys.get? id with
  | none => (false, p)
  | some key =>
      let g := { g with factKeys := g.factKeys.erase id }
      match g.groups.get? key with
      | none => (false, { p with grouping := g })
      | some bucket =>
          let bucket := bucket.erase id
          if bucket.isEmpty then
            (true, ⟨{ g with groups := g.groups.erase key }, p.marks.mark key .removed⟩)
          else
            (true, ⟨{ g with groups := g.groups.insert key bucket }, p.marks.mark key .modified⟩)

/-- Move a held fact to the bucket that its new value selects. -/
def move (f : Fact) (p : Pending) : Pending :=
  let (found, p) := detach f.id p
  if found then insert f p else p

/-- The bucket under a key as a result; without elements if there is none. -/
def groupValue (g : Grouping) (key : Value) : Value :=
  .group key ((g.groups.get? key).map OrderedMap.values |>.getD [])

/-- The end of a batch: every marked bucket is told in its state after the batch. -/
def settle (p : Pending) : Report Grouping where
  state := p.grouping
  changes := p.marks.entries.map fun (key, action) => ⟨action, p.grouping.groupValue key⟩

/-- A batch in progress, up to its end. -/
def pending : Batch → Grouping → Pending
  | .add facts, g => facts.foldl (fun p f => insert f p) ⟨g, ∅⟩
  | .modify facts, g => facts.foldl (fun p f => move f p) ⟨g, ∅⟩
  | .remove facts, g => facts.foldl (fun p f => (detach f.id p).2) ⟨g, ∅⟩

/-- Consume one batch. -/
def consume (b : Batch) (g : Grouping) : Report Grouping := settle (pending b g)

instance : Aggregation Grouping where
  consume := consume
  results g := g.groups.keys.map g.groupValue

instance : Inspect Grouping where
  inspect g := Inspect.record "GroupByAggregator"
    [("key", inspect g.key),
      ("element", inspect g.element),
      ("groups", Inspect.mapping (g.groups.entries.map fun (key, bucket) =>
        (inspect key,
          Inspect.mapping (bucket.entries.map fun e => (inspect e.1, inspect e.2))))),
      ("fact_keys", Inspect.mapping (g.factKeys.entries.map fun e => (inspect e.1, inspect e.2)))]

end Grouping

end AggregateRules
