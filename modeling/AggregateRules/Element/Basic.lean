import AggregateRules.Scope.Declaration
import AggregateRules.Strategy.Factory

/-!
# Element/Basic — the finished parts of a rule

A pattern matches facts of one declared type under conditions; it may match the results of one
aggregate instead of raw facts.  An aggregate has exactly one source pattern and a factory, which it
carries without using it.  So a rule is a chain, aggregates and patterns in turn, and a walk visits
it from the outside in.
-/

namespace AggregateRules

/-- How a field is compared. -/
inductive Comparison where
  | eq
  | ne
  | lt
  | lte
  | gt
  | gte
  | within
  | contains
  deriving DecidableEq, Inhabited

/-- The name of a comparison. -/
def Comparison.name : Comparison → String
  | eq => "Eq"
  | ne => "Ne"
  | lt => "Lt"
  | lte => "Lte"
  | gt => "Gt"
  | gte => "Gte"
  | within => "In"
  | contains => "Contains"

/-- Every comparison there is. -/
def Comparison.all : List Comparison := [eq, ne, lt, lte, gt, gte, within, contains]

/-- The comparison of a given name. -/
def Comparison.named? (name : String) : Option Comparison := all.find? fun c => c.name == name

/-- A condition on a field of the matched fact; nothing here evaluates it. -/
structure Condition where
  field : String
  comparison : Comparison
  value : Value
  deriving DecidableEq, Inhabited

mutual

/-- Facts of one type under conditions; the declarations are those the pattern made itself. -/
structure PatternElement where
  declaration : Declaration
  conditions : List Condition
  declarations : Declarations
  source : Option AggregateElement

/-- The matches of one pattern, aggregated; the declarations are those visible at this place. -/
structure AggregateElement where
  declarations : Declarations
  resultType : DataType
  factory : SharedFactory
  source : PatternElement

end

/-- A finished part of a rule. -/
inductive Element where
  | pattern (p : PatternElement)
  | aggregate (a : AggregateElement)

/-! ## Walking -/

mutual

/-- The parts of a pattern, outside in. -/
def PatternElement.walk : PatternElement → List Element
  | ⟨declaration, conditions, declarations, none⟩ =>
      [.pattern ⟨declaration, conditions, declarations, none⟩]
  | ⟨declaration, conditions, declarations, some source⟩ =>
      .pattern ⟨declaration, conditions, declarations, some source⟩ :: source.walk

/-- The parts of an aggregate, outside in. -/
def AggregateElement.walk : AggregateElement → List Element
  | ⟨declarations, resultType, factory, source⟩ =>
      .aggregate ⟨declarations, resultType, factory, source⟩ :: source.walk

end

/-- The parts of an element, outside in. -/
def Element.walk : Element → List Element
  | pattern p => p.walk
  | aggregate a => a.walk

theorem PatternElement.walk_eq (p : PatternElement) :
    p.walk = .pattern p :: (p.source.map AggregateElement.walk).getD [] := by
  rcases p with ⟨_, _, _, _ | _⟩ <;> simp [PatternElement.walk]

theorem AggregateElement.walk_eq (a : AggregateElement) :
    a.walk = .aggregate a :: a.source.walk := by
  rcases a with ⟨_, _, _, _⟩
  simp [AggregateElement.walk]

/-! ## Aggregates along the chain -/

/-- The aggregate that stands a number of aggregates further in. -/
def AggregateElement.inner? : Nat → AggregateElement → Option AggregateElement
  | 0, a => some a
  | n + 1, a => a.source.source.bind (inner? n)

/-- The aggregate at an element, which for a pattern is its source, or a number of aggregates
further in. -/
def Element.aggregateAt? (n : Nat) : Element → Option AggregateElement
  | pattern p => p.source.bind (AggregateElement.inner? n)
  | aggregate a => a.inner? n

end AggregateRules
