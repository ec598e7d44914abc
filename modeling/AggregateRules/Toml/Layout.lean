import AggregateRules.Toml.Document

/-!
# Toml/Layout — tables while a text spells them out

How a table came to be decides how it may grow.  A table with a header of its own has said what it
holds, and only its own lines and headers further down add to it.  A table that a longer header
implied may still get a header of its own, unless a dotted key gets to it first: from then on, as if
a dotted key had made it, it only gets further dotted keys.  A dotted key may run through the last
table of an array of tables but not end in it.  Contents, tables in braces among them, are closed.  No
name is given twice.
-/

namespace AggregateRules.Toml

/-- How a table came to be. -/
inductive Origin where
  /-- By a header of its own, or as the document. -/
  | header
  /-- As part of a longer header. -/
  | implied
  /-- As part of a dotted key, or extended by one. -/
  | dotted
  deriving DecidableEq

/-- What stands under a name. -/
inductive Node where
  | content (value : Value)
  | table (origin : Origin) (entries : List (String × Node))
  /-- An array of tables, its last one apart. -/
  | tables (earlier : List (List (String × Node))) (last : List (String × Node))

/-- Named nodes. -/
abbrev Layout := List (String × Node)

namespace Layout

/-- Change what stands under a name, or put something there; the change may be refused. -/
def alter (name : String) (f : Option Node → Option Node) : Layout → Option Layout
  | [] => (f none).map fun node => [(name, node)]
  | (name', node) :: rest =>
      if name' = name then (f (some node)).map fun node => (name', node) :: rest
      else (alter name f rest).map ((name', node) :: ·)

/-- Give a name its content, along a path of dotted keys. -/
def assign (value : Value) : (path : List String) → (name : String) → Layout → Option Layout
  | [], name, layout =>
      alter name (fun | none => some (.content value) | some _ => none) layout
  | step :: path, name, layout =>
      alter step (fun
        | none => (assign value path name []).map (.table .dotted)
        | some (.table .dotted inside) => (assign value path name inside).map (.table .dotted)
        | some (.table .implied inside) => (assign value path name inside).map (.table .dotted)
        | some (.tables earlier last) =>
            if path.isEmpty then none else (assign value path name last).map (.tables earlier)
        | some _ => none) layout

/-- Go along the path of a header, implying the tables on the way, and change what stands at its
end. -/
def atHeader (f : Option Node → Option Node) : List String → Layout → Option Layout
  | [], _ => none
  | [name], layout => alter name f layout
  | step :: path, layout =>
      alter step (fun
        | none => (atHeader f path []).map (.table .implied)
        | some (.table origin inside) => (atHeader f path inside).map (.table origin)
        | some (.tables earlier last) => (atHeader f path last).map (.tables earlier)
        | some (.content _) => none) layout

/-- Open the table of a header. -/
def openTable : List String → Layout → Option Layout :=
  atHeader fun
    | none => some (.table .header [])
    | some (.table .implied inside) => some (.table .header inside)
    | some _ => none

/-- Open one more table of an array of tables. -/
def openArrayTable : List String → Layout → Option Layout :=
  atHeader fun
    | none => some (.tables [] [])
    | some (.tables earlier last) => some (.tables (earlier ++ [last]) [])
    | some _ => none

/-- Change the table that a header opened. -/
def inTable (f : Layout → Option Layout) : List String → Layout → Option Layout
  | [], layout => f layout
  | step :: path, layout =>
      alter step (fun
        | some (.table origin inside) => (inTable f path inside).map (.table origin)
        | some (.tables earlier last) => (inTable f path last).map (.tables earlier)
        | _ => none) layout

end Layout

mutual

/-- What a node says, however it came to be. -/
def Node.value : Node → Value
  | .content value => value
  | .table _ inside => .table (Layout.entries inside)
  | .tables earlier last => .array (Layout.tableValues earlier ++ [.table (Layout.entries last)])

/-- What named nodes say. -/
def Layout.entries : List (String × Node) → List (String × Value)
  | [] => []
  | (name, node) :: rest => (name, node.value) :: Layout.entries rest

/-- What tables say, one after the other. -/
def Layout.tableValues : List (List (String × Node)) → List Value
  | [] => []
  | inside :: rest => .table (Layout.entries inside) :: Layout.tableValues rest

end

end AggregateRules.Toml
