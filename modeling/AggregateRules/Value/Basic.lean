import AggregateRules.Fields
import AggregateRules.Inspect

/-!
# Value/Basic — the dynamic payload of a fact

A value is a scalar, a sequence, a record of named fields, or one bucket of a grouping: the key and
the elements gathered under it.  The fields of a record stand in the order of their names, each name
once; `ofPairs` builds a record from pairs in any order, a later pair overwriting an earlier one of
its name, so the order in which a record was written down leaves no trace.
-/

namespace AggregateRules

/-- A dynamic value. -/
inductive Value where
  | bool (b : Bool)
  | group (key : Value) (elements : List Value)
  | int (n : Int64)
  | list (items : List Value)
  | null
  | record (fields : List (String × Value))
  | text (s : String)
  | uint (n : UInt64)
  deriving Inhabited

namespace Value

/-! ## Construction -/

/-- The record of a list of pairs; a later pair overwrites an earlier one of its name. -/
def ofPairs (pairs : List (String × Value)) : Value := .record (Fields.ofPairs pairs)

/-- An optional value, absence being null. -/
def ofOption : Option Value → Value := (Option.getD · null)

/-! ## Access -/

/-- A named field of a record; other values have none. -/
def field? (name : String) : Value → Option Value
  | record fields => Fields.get? name fields
  | _ => none

/-- Whether a value is null. -/
def isNull : Value → Bool
  | null => true
  | _ => false

/-- Whether a value has no values inside. -/
def isScalar : Value → Bool
  | group .. | list _ | record _ => false
  | _ => true

/-! ## The structural text -/

mutual

/-- The structural text of a value. -/
protected def inspect : Value → String
  | bool b => Inspect.applied "Bool" [Inspect.inspect b]
  | group key elements =>
      Inspect.record "Group"
        [("key", key.inspect), ("elements", Inspect.sequence (inspectItems elements))]
  | int n => Inspect.applied "Int" [toString n.toInt]
  | list items => Inspect.applied "List" [Inspect.sequence (inspectItems items)]
  | null => "Null"
  | record fields => Inspect.applied "Record" [Inspect.mapping (inspectFields fields)]
  | text s => Inspect.applied "Text" [Inspect.quoted s]
  | uint n => Inspect.applied "Uint" [toString n.toNat]

/-- The structural text of each item. -/
def inspectItems : List Value → List String
  | [] => []
  | v :: vs => v.inspect :: inspectItems vs

/-- The structural text of each field. -/
def inspectFields : List (String × Value) → List (String × String)
  | [] => []
  | (name, v) :: rest => (Inspect.quoted name, v.inspect) :: inspectFields rest

end

instance : Inspect Value := ⟨Value.inspect⟩

end Value

end AggregateRules
