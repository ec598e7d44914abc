/-!
# Inspect — the structural text of data

A datum is shown as the term that would build it: a constructor with its arguments in parentheses,
a record with its named fields in braces, a sequence in brackets, a map in braces.  Text stands in
double quotes, with the quote, the backslash and the control characters escaped.
-/

namespace AggregateRules

/-- Data that has a structural text. -/
class Inspect (α : Type) where
  inspect : α → String

export Inspect (inspect)

namespace Inspect

/-- A number in hexadecimal, in lower-case digits. -/
def hexadecimal (n : Nat) : String := String.ofList (Nat.toDigits 16 n)

/-- How a character stands inside quotes — itself, unless it would end them or is a control
character. -/
def quotedChar (c : Char) : String :=
  if c = '"' then "\\\""
  else if c = '\\' then "\\\\"
  else if c = '\n' then "\\n"
  else if c = '\t' then "\\t"
  else if c = '\r' then "\\r"
  else if c = '\x00' then "\\0"
  else if c.toNat < 0x20 ∨ (0x7f ≤ c.toNat ∧ c.toNat < 0xa0) then
    "\\u\x7b" ++ hexadecimal c.toNat ++ "\x7d"
  else c.toString

/-- Text in double quotes. -/
def quoted (s : String) : String := "\"" ++ String.join (s.toList.map quotedChar) ++ "\""

/-- Items with a comma between them. -/
def commaSeparated (items : List String) : String := ", ".intercalate items

/-- A constructor applied to arguments: `Name(a, b)`. -/
def applied (name : String) (arguments : List String) : String :=
  name ++ "(" ++ commaSeparated arguments ++ ")"

/-- A named field with its value. -/
def field (entry : String × String) : String := entry.1 ++ ": " ++ entry.2

/-- A record with named fields. -/
def record (name : String) (fields : List (String × String)) : String :=
  name ++ " \x7b " ++ commaSeparated (fields.map field) ++ " \x7d"

/-- A record of which only some fields are shown. -/
def partialRecord (name : String) (fields : List (String × String)) : String :=
  name ++ " \x7b " ++ commaSeparated (fields.map field) ++ ", .. \x7d"

/-- A sequence. -/
def sequence (items : List String) : String := "[" ++ commaSeparated items ++ "]"

/-- A map, its keys shown as data. -/
def mapping (entries : List (String × String)) : String :=
  "\x7b" ++ commaSeparated (entries.map field) ++ "\x7d"

/-- An optional datum, given by its text. -/
def optional : Option String → String
  | none => "None"
  | some text => applied "Some" [text]

instance : Inspect String := ⟨quoted⟩

instance : Inspect Bool := ⟨fun b => if b then "true" else "false"⟩

end Inspect

end AggregateRules
