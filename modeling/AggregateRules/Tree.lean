/-!
# Tree — the document in which values and types are written down

A tree of tagged objects, lists and scalars, as an exchange format delivers it.  Integers are exact
and of any size; any other number is kept as it was written, for nothing here reads one.  An object
lists its entries in the order they were met; what a key means that is met again, the reader says.
-/

namespace AggregateRules

/-- An exchange document. -/
inductive Tree where
  | null
  | bool (b : Bool)
  | integer (n : Int)
  | decimal (written : String)
  | text (s : String)
  | list (items : List Tree)
  | object (entries : List (String × Tree))
  deriving Inhabited

namespace Tree

/-- The entry of an object under a key. -/
def entry? (key : String) : Tree → Option Tree
  | object entries => entries.lookup key
  | _ => none

/-- The integer a tree is, if it fits a signed word. -/
def signedWord? : Tree → Option Int64
  | integer n =>
      if Int64.minValue.toInt ≤ n ∧ n ≤ Int64.maxValue.toInt then some (Int64.ofInt n) else none
  | _ => none

/-- The integer a tree is, if it fits an unsigned word. -/
def unsignedWord? : Tree → Option UInt64
  | integer n => if 0 ≤ n ∧ n < UInt64.size then some (UInt64.ofNat n.toNat) else none
  | _ => none

end Tree

end AggregateRules
