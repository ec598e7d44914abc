import AggregateRules.Value.Order

/-!
# Fact — matched facts, and the changes that consuming them causes

A fact carries an identity that the engine assigned and a value.  Facts come in batches: added,
modified, removed, the last two matched to earlier additions by identity.  What a batch does to the
results of an aggregation is told as a list of changes, each with the result it concerns; a removed
result is told in its final state.
-/

namespace AggregateRules

/-- The identity of a matched fact. -/
structure FactId where
  number : UInt64
  deriving DecidableEq, Inhabited

namespace FactId

instance : ToString FactId := ⟨fun id => "#" ++ toString id.number.toNat⟩

instance : Inspect FactId :=
  ⟨fun id => Inspect.applied "FactId" [toString id.number.toNat]⟩

instance : Ord FactId := ⟨fun i j => compare i.number.toNat j.number.toNat⟩

end FactId

/-- A matched fact. -/
structure Fact where
  id : FactId
  value : Value
  deriving DecidableEq, Inhabited

instance : Inspect Fact :=
  ⟨fun f => Inspect.record "Fact" [("id", inspect f.id), ("value", inspect f.value)]⟩

/-- A fact written in short: a record of its number, a category and an amount. -/
def Fact.ofOrder (number : UInt64) (category : String) (amount : Int64) : Fact where
  id := ⟨number⟩
  value := .ofPairs [("id", .uint number), ("category", .text category), ("amount", .int amount)]

/-- What happened to a result. -/
inductive Action where
  | added
  | modified
  | removed
  deriving DecidableEq, Inhabited

/-- The name of what happened. -/
def Action.name : Action → String
  | added => "Added"
  | modified => "Modified"
  | removed => "Removed"

/-- One change to the results of an aggregation. -/
structure Change where
  action : Action
  aggregate : Value
  deriving DecidableEq, Inhabited

namespace Change

/-- A result that was not there before. -/
def added (aggregate : Value) : Change := ⟨.added, aggregate⟩

/-- A result in its new state. -/
def modified (aggregate : Value) : Change := ⟨.modified, aggregate⟩

/-- A retracted result, in its final state. -/
def removed (aggregate : Value) : Change := ⟨.removed, aggregate⟩

end Change

/-- Facts that come at once, all to the same purpose. -/
inductive Batch where
  | add (facts : List Fact)
  | modify (facts : List Fact)
  | remove (facts : List Fact)
  deriving DecidableEq

end AggregateRules
