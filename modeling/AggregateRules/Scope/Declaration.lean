import AggregateRules.DataType.Basic

/-!
# Scope/Declaration — named, typed bindings

A binding knows the path of the scope it was declared in.  Its full name is that path and its short
name, with the separator between them.
-/

namespace AggregateRules

/-- What stands between the labels of a path, and before a short name. -/
def scopeSeparator : String := "/"

/-- A named, typed binding. -/
structure Declaration where
  name : String
  type : DataType
  scope : String
  deriving DecidableEq, Inhabited

/-- The name of a binding with its path. -/
def Declaration.fullName (d : Declaration) : String := d.scope ++ scopeSeparator ++ d.name

/-- Bindings in order, those of enclosing scopes first. -/
abbrev Declarations := List Declaration

namespace Declarations

/-- The short names in order. -/
def names (ds : Declarations) : List String := ds.map Declaration.name

/-- The first binding of a short name. -/
def find (ds : Declarations) (name : String) : Option Declaration :=
  List.find? (fun d => d.name == name) ds

/-- The last binding of a short name. -/
def findLast (ds : Declarations) (name : String) : Option Declaration :=
  List.find? (fun d => d.name == name) ds.reverse

end Declarations

end AggregateRules
