import AggregateRules.Value.Order

/-!
# Selector — how a value is derived from a source element

A selector reads a field, keeps the element itself, or applies a function.  Fields are told apart by
name and functions by the mark they were given when they were made, never by what they compute; a
copy of a function selector keeps the mark.
-/

namespace AggregateRules

/-- A derivation of a value from a source element. -/
inductive Selector where
  | field (name : String)
  | function (mark : Nat) (apply : Value → Value)
  | identity

namespace Selector

/-- Apply a selector to a source element; a missing field is null. -/
def select : Selector → Value → Value
  | field name, v => .ofOption (v.field? name)
  | function _ f, v => f v
  | identity, v => v

/-- Whether two selectors are the same one. -/
protected def beq : Selector → Selector → Bool
  | field a, field b => a == b
  | function a _, function b _ => a == b
  | identity, identity => true
  | _, _ => false

instance : BEq Selector := ⟨Selector.beq⟩

instance : Inspect Selector where
  inspect
    | field name => Inspect.applied "Field" [inspect name]
    | function .. => "Function"
    | identity => "Identity"

/-- Whether a selector applies a function. -/
def isFunction : Selector → Bool
  | function .. => true
  | _ => false

/-! ## Functions with a name -/

/-- The functions that can be asked for by name. -/
def named? : String → Option (Value → Value)
  | "is_null" => some fun v => .bool v.isNull
  | "is_scalar" => some fun v => .bool v.isScalar
  | "wrap" => some fun v => .list [v]
  | "null" => some fun _ => .null
  | _ => none

@[simp] theorem select_identity (v : Value) : identity.select v = v := rfl

end Selector

end AggregateRules
