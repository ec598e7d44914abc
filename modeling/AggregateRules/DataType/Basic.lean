import AggregateRules.Inspect

/-!
# DataType/Basic — the semantic type of a fact or of an aggregation result

A type describes; nothing checks a value against it.  A fact type has a name, a sequence has its
element type, a grouping has the types of its key and of its elements.  `display` is the notation
that names such a type in messages and in the names of synthesised strategies.
-/

namespace AggregateRules

/-- What a fact or an aggregation result is, to the reader of a rule. -/
inductive DataType where
  | group (key element : DataType)
  | list (element : DataType)
  | named (name : String)
  deriving DecidableEq, Inhabited

namespace DataType

/-- The element type of a container; a named type has none. -/
def element? : DataType → Option DataType
  | group _ element => some element
  | list element => some element
  | named _ => none

/-- The notation of a type: its name, `List<E>` or `Group<K, E>`. -/
def display : DataType → String
  | group key element => "Group<" ++ key.display ++ ", " ++ element.display ++ ">"
  | list element => "List<" ++ element.display ++ ">"
  | named name => name

instance : ToString DataType := ⟨display⟩

/-- The structural text of a type. -/
protected def inspect : DataType → String
  | group key element =>
      Inspect.record "Group" [("key", key.inspect), ("element", element.inspect)]
  | list element => Inspect.applied "List" [element.inspect]
  | named name => Inspect.applied "Named" [Inspect.quoted name]

instance : Inspect DataType := ⟨DataType.inspect⟩

/-! ## The order

Variants first — groupings, then sequences, then names — and the contents within a variant. -/

/-- Where a type's variant stands in the order. -/
def rank : DataType → Nat
  | group .. => 0
  | list .. => 1
  | named .. => 2

/-- The order of types: by variant, a grouping then by its key before its element. -/
protected def compare : DataType → DataType → Ordering
  | group k e, group k' e' => (k.compare k').then (e.compare e')
  | list e, list e' => e.compare e'
  | named n, named n' => compare n n'
  | s, t => compare s.rank t.rank

instance : Ord DataType := ⟨DataType.compare⟩

/-- **Types that compare equal are equal.** -/
theorem compare_eq_iff (s t : DataType) : s.compare t = .eq ↔ s = t := by
  induction s generalizing t with
  | group k e ihk ihe =>
    cases t <;> simp [DataType.compare, rank, Ordering.then_eq_eq, ihk, ihe]
  | list e ih => cases t <;> simp [DataType.compare, rank, ih]
  | named n => cases t <;> simp [DataType.compare, rank]

end DataType

end AggregateRules
