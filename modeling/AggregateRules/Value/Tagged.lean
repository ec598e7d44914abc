import AggregateRules.Tree
import AggregateRules.Value.Basic

/-!
# Value/Tagged — the written form of values

A value is written as an object of one entry, whose key is the variant and whose value is the
content; null is the bare tag, though the object `Null` with a null content reads as well.  The two
kinds of integer have tags of their own, so a number never changes its kind.  The fields of a record
may be met in any order, and of two fields of one name the later counts.

The content of a group names its two parts, in any order and each once, and may have entries
besides; or it gives them by position, as a list of just these two.
-/

namespace AggregateRules.Value

mutual

/-- Write a value down. -/
def encode : Value → Tree
  | bool b => .object [("Bool", .bool b)]
  | group key elements =>
      .object [("Group", .object [("key", key.encode), ("elements", .list (encodeItems elements))])]
  | int n => .object [("Int", .integer n.toInt)]
  | list items => .object [("List", .list (encodeItems items))]
  | null => .text "Null"
  | record fields => .object [("Record", .object (encodeFields fields))]
  | text s => .object [("Text", .text s)]
  | uint n => .object [("Uint", .integer n.toNat)]

/-- Write down each item. -/
def encodeItems : List Value → List Tree
  | [] => []
  | v :: vs => v.encode :: encodeItems vs

/-- Write down each field. -/
def encodeFields : List (String × Value) → List (String × Tree)
  | [] => []
  | (name, v) :: rest => (name, v.encode) :: encodeFields rest

end

/-- Read the content of a scalar variant. -/
def decodeScalar (tag : String) (body : Tree) : Option Value :=
  if tag = "Int" then int <$> body.signedWord?
  else if tag = "Uint" then uint <$> body.unsignedWord?
  else match tag, body with
    | "Bool", .bool b => some (bool b)
    | "Text", .text s => some (text s)
    | "Null", .null => some null
    | _, _ => none

mutual

/-- Read a value. -/
def decode : Tree → Option Value
  | .text tag => if tag = "Null" then some null else none
  | .object [(tag, .object entries)] =>
      if tag = "Record" then ofPairs <$> decodeFields entries
      else if tag = "Group" then do
        let key ← decodeEntry "key" entries
        let elements ← decodeItemsEntry "elements" entries
        return group key elements
      else none
  | .object [(tag, .list items)] =>
      if tag = "List" then list <$> decodeItems items
      else if tag = "Group" then decodePositions items
      else none
  | .object [(tag, body)] => decodeScalar tag body
  | _ => none

/-- Read a group from its key and its elements. -/
def decodePositions : List Tree → Option Value
  | [key, elements] => do return group (← decode key) (← decodeSequence elements)
  | _ => none

/-- Read a sequence. -/
def decodeSequence : Tree → Option (List Value)
  | .list items => decodeItems items
  | _ => none

/-- Read each item. -/
def decodeItems : List Tree → Option (List Value)
  | [] => some []
  | t :: ts => do return (← decode t) :: (← decodeItems ts)

/-- Read each field. -/
def decodeFields : List (String × Tree) → Option (List (String × Value))
  | [] => some []
  | (name, t) :: rest => do return (name, ← decode t) :: (← decodeFields rest)

/-- Read the value that stands under a key of an object, which may not come again. -/
def decodeEntry (key : String) : List (String × Tree) → Option Value
  | [] => none
  | (name, t) :: rest =>
      if name = key then
        if key ∈ rest.map Prod.fst then none else decode t
      else decodeEntry key rest

/-- Read the sequence that stands under a key of an object, which may not come again. -/
def decodeItemsEntry (key : String) : List (String × Tree) → Option (List Value)
  | [] => none
  | (name, t) :: rest =>
      if name = key then
        if key ∈ rest.map Prod.fst then none else decodeSequence t
      else decodeItemsEntry key rest

end

end AggregateRules.Value
