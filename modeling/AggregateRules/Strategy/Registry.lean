import AggregateRules.Attempt
import AggregateRules.OrderedMap
import AggregateRules.Strategy.Descriptor

/-!
# Strategy/Registry — descriptors by name

Types that are known only while the program runs are registered under the name of their descriptor,
each name once, and found again by it.
-/

namespace AggregateRules

/-- Descriptors by name. -/
structure Registry where
  types : OrderedMap String Descriptor := ∅

namespace Registry

/-- Register a descriptor under its own name. -/
def register (d : Descriptor) : Attempt Registry Unit := do
  let r ← Attempt.state
  if r.types.contains d.name then
    Attempt.refuse (.duplicateType d.name)
  else
    Attempt.put { r with types := r.types.insert d.name d }

/-- The descriptor registered under a name. -/
def find (r : Registry) (name : String) : Except Fault Descriptor :=
  match r.types.get? name with
  | some d => .ok d
  | none => .error (.unknownType name)

/-- The number of registered types. -/
def size (r : Registry) : Nat := r.types.size

/-- Whether no type is registered. -/
def isEmpty (r : Registry) : Bool := r.types.isEmpty

end Registry

end AggregateRules
