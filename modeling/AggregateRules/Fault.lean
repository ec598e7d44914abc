/-!
# Fault — why defining a rule can fail

Every fault is a mistake in the definition of a rule.  It belongs to one of two classes: either a
required part is missing or cannot be made, or the shape of what is being built would be violated.
-/

namespace AggregateRules

/-- The stable classification of faults. -/
inductive FaultClass where
  /-- A required part is missing, or a strategy cannot be constructed. -/
  | configuration
  /-- The shape of the element would be violated. -/
  | structural
  deriving DecidableEq

/-- The name of a class. -/
def FaultClass.name : FaultClass → String
  | configuration => "Configuration"
  | structural => "Structural"

/-- Why a policy cannot be read. -/
inductive PolicyFault where
  /-- The file cannot be read, for the reason the system gives. -/
  | unreadable (path : String) (reason : String)
  /-- The text is no document. -/
  | malformed
  /-- A table has a key that it does not know, instead of the one that it knows. -/
  | unknownField (name : String) (expected : String)
  /-- A choice is none of those there are. -/
  | unknownVariant (name : String)
  /-- A value is of the wrong type. -/
  | illTyped
  deriving DecidableEq

/-- A mistake in the definition of a rule. -/
inductive Fault where
  | factoryAlreadyConfigured (scope : String)
  | missingFactory
  | missingSource
  | noDefaultConstructor (typeName : String)
  | notAnAggregator (typeName : String)
  | aggregateSingleSource
  | patternSingleSource
  | duplicateType (name : String)
  | unknownType (name : String)
  | duplicateDeclaration (name scope : String)
  | emptyName
  | policy (fault : PolicyFault)
  deriving DecidableEq

/-- The words for a policy fault; the two that depend on the document's text and types have none of
their own. -/
def PolicyFault.message? : PolicyFault → Option String
  | unreadable path reason =>
      some ("failed to read builder config '" ++ path ++ "': " ++ reason)
  | malformed => none
  | unknownField name expected => some ("unknown field `" ++ name ++ "`, expected `" ++ expected ++ "`")
  | unknownVariant name =>
      some ("unknown variant `" ++ name ++ "`, expected `allow` or `reject`")
  | illTyped => none

namespace Fault

/-- The class of a fault. -/
def classOf : Fault → FaultClass
  | factoryAlreadyConfigured _ | aggregateSingleSource | patternSingleSource
  | duplicateDeclaration .. | emptyName => .structural
  | _ => .configuration

/-- The words for a fault. -/
def message? : Fault → Option String
  | factoryAlreadyConfigured scope => some
      ("aggregator factory is already configured for aggregate in scope '" ++ scope ++ "'")
  | missingFactory => some "aggregator factory is not provided"
  | missingSource => some "aggregate element source is not provided"
  | noDefaultConstructor name => some ("aggregator type '" ++ name ++
      "' has no zero-argument constructor; provide an aggregator factory explicitly")
  | notAnAggregator name => some ("type '" ++ name ++ "' must implement the aggregator capability")
  | aggregateSingleSource => some "aggregate element can only have a single source"
  | patternSingleSource => some "pattern element can only have a single source"
  | duplicateType name => some ("type '" ++ name ++ "' is already registered")
  | unknownType name => some ("type '" ++ name ++ "' is not registered")
  | duplicateDeclaration name scope => some
      ("declaration '" ++ name ++ "' already exists in scope '" ++ scope ++ "'")
  | emptyName => some "declaration name must not be empty"
  | policy fault => fault.message?

end Fault

end AggregateRules
