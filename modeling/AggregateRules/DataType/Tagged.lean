import AggregateRules.DataType.Basic
import AggregateRules.Tree

/-!
# DataType/Tagged — the written form of types

A type is written as an object of one entry, whose key is the variant and whose value is the
content.  A grouping's content is an object with the entries `key` and `element`, each of them once;
entries it does not know are ignored when it is read.  It may also give the two by position, as a
list.
-/

namespace AggregateRules.DataType

/-- Write a type down. -/
def encode : DataType → Tree
  | group key element =>
      .object [("Group", .object [("key", key.encode), ("element", element.encode)])]
  | list element => .object [("List", element.encode)]
  | named name => .object [("Named", .text name)]

mutual

/-- Read a type. -/
def decode : Tree → Option DataType
  | .object [(tag, .text name)] => if tag = "Named" then some (named name) else none
  | .object [(tag, .object entries)] =>
      if tag = "Group" then do
        let key ← decodeEntry "key" entries
        let element ← decodeEntry "element" entries
        return group key element
      else if tag = "List" then list <$> decode (.object entries)
      else none
  | .object [(tag, .list [key, element])] =>
      if tag = "Group" then do return group (← decode key) (← decode element) else none
  | _ => none

/-- Read the type that stands under a key of an object, which may not come again. -/
def decodeEntry (key : String) : List (String × Tree) → Option DataType
  | [] => none
  | (name, body) :: rest =>
      if name = key then
        if key ∈ rest.map Prod.fst then none else decode body
      else decodeEntry key rest

end

end AggregateRules.DataType
