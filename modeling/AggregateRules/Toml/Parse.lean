import AggregateRules.Toml.Layout
import AggregateRules.Toml.Quoted
import AggregateRules.Toml.Scalar

/-!
# Toml/Parse — from text to document

A text is a sequence of lines: headers, which say what table the lines after them belong to, and
assignments.  An array or a table in braces may run over several lines, anywhere but inside a key,
and may end with a comma.
Contents nest to a limited depth.  A text that breaks the grammar or gives a name twice is no
document, and nothing more is said about it.
-/

namespace AggregateRules.Toml

/-- How deep arrays and tables in braces nest. -/
def nestingLimit : Nat := 80

/-- A content that has no contents inside. -/
def flatContent : Reader Value := firstOf [
  fun s => (quoted s).map fun (text, rest) => (.string text, rest),
  scalar]

/-- An assignment: the path of its key, the last name of it, and the content; `skip` says what may
stand around the sign between them. -/
def assignment (skip : List Char → List Char) (content : Reader Value) :
    Reader (List String × String × Value) := fun s => do
  let (path, rest) ← keyPath s
  let ((), rest) ← exactly '=' (skip rest)
  let (value, rest) ← content (skip rest)
  let name ← path.getLast?
  return ((path.dropLast, name, value), rest)

/-- The table that assignments in braces make. -/
def braced (assignments : List (List String × String × Value)) : Option Value :=
  (assignments.foldlM (fun layout (path, name, value) => Layout.assign value path name layout)
    []).map fun layout => .table (Layout.entries layout)

/-- A content, in which others nest to a given depth. -/
def content : (depth : Nat) → Reader Value
  | 0, s => flatContent s
  | depth + 1, s =>
      match s with
      | '[' :: rest => (itemsUntil ']' (content depth) rest).map fun (items, rest) =>
          (.array items, rest)
      | '\x7b' :: rest => do
          let (assignments, rest) ← itemsUntil '\x7d' (assignment skipGaps (content depth)) rest
          let table ← braced assignments
          return (table, rest)
      | _ => flatContent s

/-! ## Lines -/

/-- The tables spelled out so far, and the path of the header that the next lines belong to. -/
structure Progress where
  layout : Layout := []
  header : List String := []

namespace Progress

/-- What one header or assignment does. -/
def line (p : Progress) (s : List Char) : Option (Progress × List Char) :=
  match s with
  | '[' :: '[' :: rest => do
      let (path, rest) ← keyPath (skipBlanks rest)
      let ((), rest) ← exactly ']' rest
      let ((), rest) ← exactly ']' rest
      let layout ← p.layout.openArrayTable path
      return (⟨layout, path⟩, rest)
  | '[' :: rest => do
      let (path, rest) ← keyPath (skipBlanks rest)
      let ((), rest) ← exactly ']' rest
      let layout ← p.layout.openTable path
      return (⟨layout, path⟩, rest)
  | _ => do
      let ((path, name, value), rest) ← assignment skipBlanks (content nestingLimit) s
      let layout ← p.layout.inTable (Layout.assign value path name) p.header
      return ({ p with layout }, rest)

/-- What the rest of a text does, at most one line being read for each character of another. -/
def lines : List Char → Progress → List Char → Option Progress
  | [], p, s => if s.isEmpty then some p else none
  | _ :: bound, p, s =>
      match skipBlanks s with
      | [] => some p
      | c :: rest =>
          if c = '#' ∨ (lineEnd (c :: rest)).isSome then finish bound p (c :: rest)
          else do
            let (p, rest) ← p.line (c :: rest)
            finish bound p (skipBlanks rest)
where
  /-- The end of a line, with a comment before it, if there is one. -/
  finish (bound : List Char) (p : Progress) (s : List Char) : Option Progress := do
    let rest ← skipComment s
    if rest.isEmpty then return p
    else
      let ((), rest) ← lineEnd rest
      lines bound p rest

end Progress

/-- Read a document; a byte order mark may stand before it. -/
def parse (text : String) : Option Document :=
  let s := match text.toList with
    | '\ufeff' :: rest => rest
    | s => s
  (Progress.lines s {} s).map fun p => Layout.entries p.layout

end AggregateRules.Toml
