import AggregateRules.Aggregator.Contract
import AggregateRules.DataType.Basic
import AggregateRules.OrderedMap

/-!
# Aggregator/Collection — gathering facts into one sequence

The one result is the sequence of the held values, in the order in which their facts first came.  It
is produced by the first addition that is not empty and only modified from then on, even when it
becomes empty.
-/

namespace AggregateRules

/-- A sequence of facts under construction. -/
structure Collection where
  element : DataType
  items : OrderedMap FactId Value := ∅
  produced : Bool := false

namespace Collection

/-- The result: the held values in order. -/
def sequence (c : Collection) : Value := .list c.items.values

/-- Add facts, a held one being overwritten in its place. -/
def add (facts : List Fact) (c : Collection) : Report Collection :=
  if facts.isEmpty then ⟨c, []⟩
  else
    let c' := { c with
      items := facts.foldl (fun m f => m.insert f.id f.value) c.items
      produced := true }
    ⟨c', [if c.produced then .modified c'.sequence else .added c'.sequence]⟩

/-- The report of a batch that may have left the items alone: one change, if any fact was held. -/
def touched (c : Collection) (items : OrderedMap FactId Value) (changed : Bool) :
    Report Collection :=
  let c' := { c with items }
  ⟨c', if changed then [.modified c'.sequence] else []⟩

/-- Overwrite held facts in their places. -/
def modify (facts : List Fact) (c : Collection) : Report Collection :=
  let (items, changed) := facts.foldl
    (fun (m, changed) f => (m.replace f.id f.value, changed || m.contains f.id)) (c.items, false)
  c.touched items changed

/-- Take held facts out. -/
def remove (facts : List Fact) (c : Collection) : Report Collection :=
  let (items, changed) := facts.foldl
    (fun (m, changed) f => (m.erase f.id, changed || m.contains f.id)) (c.items, false)
  c.touched items changed

/-- Consume one batch. -/
def consume : Batch → Collection → Report Collection
  | .add facts => add facts
  | .modify facts => modify facts
  | .remove facts => remove facts

instance : Aggregation Collection where
  consume := consume
  results c := if c.produced then [c.sequence] else []

instance : Inspect Collection where
  inspect c := Inspect.record "CollectionAggregator"
    [("element", inspect c.element),
      ("items", Inspect.mapping (c.items.entries.map fun e => (inspect e.1, inspect e.2))),
      ("produced", inspect c.produced)]

@[simp] theorem add_nil (c : Collection) : c.add [] = ⟨c, []⟩ := rfl

@[simp] theorem modify_nil (c : Collection) : c.modify [] = ⟨c, []⟩ := rfl

@[simp] theorem remove_nil (c : Collection) : c.remove [] = ⟨c, []⟩ := rfl

end Collection

end AggregateRules
