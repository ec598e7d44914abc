import AggregateRules.Toml.Reader

/-!
# Toml/Quoted — quoted text and keys

Text stands in double quotes, with escapes, or in single quotes, verbatim; tripled quotes let it run
over several lines.  A line end right after a tripled quote is not part of the text, and up to two
quotes may stand before a closing tripled one.  In double quotes a backslash at the end of a line
takes away everything up to the next character that is not blank.

A key is a path of simple keys with dots between them, of limited length; a simple key is bare or
quoted on one line.
-/

namespace AggregateRules.Toml

/-- The value of a hexadecimal digit. -/
def hexadecimalDigit? (c : Char) : Option Nat :=
  if c.isDigit then some (c.toNat - '0'.toNat)
  else if 'a' ≤ c ∧ c ≤ 'f' then some (c.toNat - 'a'.toNat + 10)
  else if 'A' ≤ c ∧ c ≤ 'F' then some (c.toNat - 'A'.toNat + 10)
  else none

/-- The character whose number stands in a count of hexadecimal digits. -/
def characterByNumber (count : Nat) : Reader Char := fun s => do
  let digits ← (s.take count).mapM hexadecimalDigit?
  if digits.length ≠ count then none
  else
    let number := digits.foldl (fun n d => 16 * n + d) 0
    if number.isValidChar then some (Char.ofNat number, s.drop count) else none

/-- The character an escape stands for, after the backslash. -/
def escaped : Reader Char
  | 'b' :: rest => some ('\x08', rest)
  | 't' :: rest => some ('\t', rest)
  | 'n' :: rest => some ('\n', rest)
  | 'f' :: rest => some ('\x0c', rest)
  | 'r' :: rest => some ('\r', rest)
  | 'e' :: rest => some ('\x1b', rest)
  | '"' :: rest => some ('"', rest)
  | '\\' :: rest => some ('\\', rest)
  | 'x' :: rest => characterByNumber 2 rest
  | 'u' :: rest => characterByNumber 4 rest
  | 'U' :: rest => characterByNumber 8 rest
  | _ => none

/-- A character that stands for itself between quotes of one kind. -/
def verbatim (quote : Char) (escapes : Bool) : Reader (List Char)
  | c :: rest =>
      if isPrintable c && c != quote && !(escapes && c == '\\') then some ([c], rest) else none
  | [] => none

/-- An escape, if there are any. -/
def escapeUnit (escapes : Bool) : Reader (List Char)
  | '\\' :: rest => if escapes then (escaped rest).map fun (c, rest) => ([c], rest) else none
  | _ => none

/-- A backslash at the end of a line, with the blank lines after it. -/
def continuation (escapes : Bool) : Reader (List Char)
  | '\\' :: rest =>
      if escapes then do
        let ((), rest) ← lineEnd (skipBlanks rest)
        let blankOrEnd : Reader Unit
          | c :: rest => if isBlank c then some ((), rest) else lineEnd (c :: rest)
          | [] => none
        return ([], (many blankOrEnd rest).2)
      else none
  | _ => none

/-- A line end inside a text, kept as it is. -/
def keptLineEnd : Reader (List Char)
  | '\n' :: rest => some (['\n'], rest)
  | '\r' :: '\n' :: rest => some (['\r', '\n'], rest)
  | _ => none

/-- One or two quotes inside a text of several lines. -/
def looseQuotes (quote : Char) : Reader (List Char) := fun s =>
  let run := s.takeWhile (· == quote)
  if run.length = 1 ∨ run.length = 2 then some (run, s.drop run.length) else none

/-- Try one reader after the other. -/
def firstOf {α : Type} (readers : List (Reader α)) : Reader α := fun s =>
  readers.findSome? (· s)

/-- The rest of a text of one line, after its opening quote. -/
def oneLine (quote : Char) (escapes : Bool) : Reader String := fun s => do
  let (units, rest) := many (firstOf [verbatim quote escapes, escapeUnit escapes]) s
  let ((), rest) ← exactly quote rest
  return (String.ofList units.flatten, rest)

/-- The rest of a text of several lines, after its tripled opening quote. -/
def severalLines (quote : Char) (escapes : Bool) : Reader String := fun s => do
  let s := ((lineEnd s).map Prod.snd).getD s
  let (units, rest) := many (firstOf [verbatim quote escapes, continuation escapes,
    escapeUnit escapes, keptLineEnd, looseQuotes quote]) s
  let run := (rest.takeWhile (· == quote)).take 5
  if run.length < 3 then none
  else return (String.ofList (units.flatten ++ run.drop 3), rest.drop run.length)

/-- A quoted text. -/
def quoted : Reader String
  | '"' :: '"' :: '"' :: rest => severalLines '"' true rest
  | '\'' :: '\'' :: '\'' :: rest => severalLines '\'' false rest
  | '"' :: rest => oneLine '"' true rest
  | '\'' :: rest => oneLine '\'' false rest
  | _ => none

/-- Whether a character may stand in a bare key. -/
def isBare (c : Char) : Bool := c.isAlphanum || c == '-' || c == '_'

/-- A simple key. -/
def simpleKey : Reader String
  | '"' :: rest => oneLine '"' true rest
  | '\'' :: rest => oneLine '\'' false rest
  | s =>
      let name := s.takeWhile isBare
      if name.isEmpty then none else some (String.ofList name, s.drop name.length)

/-- How many simple keys a path has at most. -/
def keyLimit : Nat := 80

/-- A path of simple keys, with blanks around its dots and after it. -/
def keyPath : Reader (List String) := fun s => do
  let (first, rest) ← simpleKey s
  let next : Reader String := fun s => do
    let ((), s) ← exactly '.' (skipBlanks s)
    simpleKey (skipBlanks s)
  let (others, rest) := many next rest
  if others.length < keyLimit then return (first :: others, skipBlanks rest) else none

end AggregateRules.Toml
