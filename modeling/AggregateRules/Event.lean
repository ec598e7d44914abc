import AggregateRules.Aggregator.Basic
import AggregateRules.Tree

/-!
# Event — what a rule under definition lets be observed

Selecting a strategy, starting a source and freezing are told as they happen, refusals among them.
An event that no one receives goes to the log, with a headline, a severity and its details as named
fields: refusals are warnings.
-/

namespace AggregateRules

/-- Why a type cannot be selected as a strategy. -/
inductive Unfit where
  | noCapability
  | noConstructor
  deriving DecidableEq

/-- The words for it. -/
def Unfit.reason : Unfit → String
  | noCapability => "missing aggregator capability"
  | noConstructor => "missing zero-argument constructor"

/-- Something that happened in a rule under definition, in the scope where it happened. -/
inductive Event where
  | strategySelected (scope : String) (kind : AggregatorKind) (name : String) (replaced : Bool)
  | strategyRejected (scope : String) (name : String) (reason : Unfit)
  | sourceDeclared (scope : String) (declaration : String) (type : DataType)
  | patternBuilt (scope : String) (declaration : String) (conditions : Nat)
  | aggregateBuilt (scope : String) (resultType : DataType) (kind : AggregatorKind)
      (declarations : Nat)
  | buildRejected (scope : String) (missingFactory missingSource : Bool)
  deriving DecidableEq

/-- How grave a line of the log is. -/
inductive Severity where
  | debug
  | warning
  deriving DecidableEq

/-- The level at which the log shows it. -/
def Severity.level : Severity → String
  | debug => "DEBUG"
  | warning => "WARN"

namespace Event

/-- How grave an event is. -/
def severity : Event → Severity
  | strategyRejected .. | buildRejected .. => .warning
  | _ => .debug

/-- The headline of an event in the log. -/
def headline : Event → String
  | strategySelected .. => "aggregation strategy selected"
  | strategyRejected .. => "aggregation strategy rejected"
  | sourceDeclared .. => "aggregate source declared"
  | patternBuilt .. => "pattern element built"
  | aggregateBuilt .. => "aggregate element built"
  | buildRejected .. => "aggregate element build rejected"

/-- The name of what happened. -/
def name : Event → String
  | strategySelected .. => "StrategySelected"
  | strategyRejected .. => "StrategyRejected"
  | sourceDeclared .. => "SourceDeclared"
  | patternBuilt .. => "PatternBuilt"
  | aggregateBuilt .. => "AggregateBuilt"
  | buildRejected .. => "BuildRejected"

/-- The name of the field that shows a type. -/
def typeField : String := "ty"

/-- The details of an event, as the fields of a line of the log. -/
def fields : Event → List (String × Tree)
  | strategySelected scope kind name replaced =>
      [("scope", .text scope), ("kind", .text kind.name), ("name", .text name),
        ("replaced", .bool replaced)]
  | strategyRejected scope name reason =>
      [("scope", .text scope), ("name", .text name), ("reason", .text reason.reason)]
  | sourceDeclared scope declaration type =>
      [("scope", .text scope), ("declaration", .text declaration), (typeField, .text type.display)]
  | patternBuilt scope declaration conditions =>
      [("scope", .text scope), ("declaration", .text declaration),
        ("conditions", .integer conditions)]
  | aggregateBuilt scope resultType kind declarations =>
      [("scope", .text scope), ("result_type", .text resultType.display),
        ("kind", .text kind.name), ("declarations", .integer declarations)]
  | buildRejected scope missingFactory missingSource =>
      [("scope", .text scope), ("missing_factory", .bool missingFactory),
        ("missing_source", .bool missingSource)]

end Event

end AggregateRules
