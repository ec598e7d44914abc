/-!
# Policy/Basic — how strict the definition of a rule is

There is one choice to make: whether a strategy may be selected again on the same aggregate.
-/

namespace AggregateRules

/-- What to do with a strategy that is selected where there is one already. -/
inductive Overwrite where
  /-- The last selection wins. -/
  | allow
  /-- A second selection is a fault. -/
  | reject
  deriving DecidableEq, Inhabited

/-- How strict the definition of a rule is. -/
structure Policy where
  overwrite : Overwrite := .allow
  deriving DecidableEq, Inhabited

end AggregateRules
