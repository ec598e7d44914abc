/-!
# Toml/Reader — reading from the front of a text

A reader takes something off the front of a text and leaves the rest, or fails.  Here are the readers
that everything else is made of: blanks, line ends, comments, and repetition.  Repetition is bounded
by the text: it goes on at most once for each character, which is no restriction on readers that take
something.
-/

namespace AggregateRules.Toml

/-- What takes something off the front of a text. -/
abbrev Reader (α : Type) := List Char → Option (α × List Char)

/-- Whether a character separates without ending the line. -/
def isBlank (c : Char) : Bool := c == ' ' || c == '\t'

/-- Whether a character may stand in a comment or, quoted, in a text: no control character but the
tab. -/
def isPrintable (c : Char) : Bool := c == '\t' || (0x20 ≤ c.toNat && c.toNat != 0x7f)

/-- The text without the blanks at its front. -/
def skipBlanks (s : List Char) : List Char := s.dropWhile isBlank

/-- One given character. -/
def exactly (c : Char) : Reader Unit
  | [] => none
  | c' :: rest => if c' = c then some ((), rest) else none

/-- The end of a line. -/
def lineEnd : Reader Unit
  | '\n' :: rest => some ((), rest)
  | '\r' :: '\n' :: rest => some ((), rest)
  | _ => none

/-- The text after a comment, if there is one; it reaches to the end of the line. -/
def skipComment (s : List Char) : Option (List Char) :=
  match s with
  | '#' :: rest =>
      let rest := rest.dropWhile isPrintable
      if rest.isEmpty || (lineEnd rest).isSome then some rest else none
  | _ => some s

/-- As many as there are, of what a reader takes. -/
def many {α : Type} (reader : Reader α) (s : List Char) : List α × List Char :=
  go s s
where
  /-- At most one for each character of a text. -/
  go : List Char → List Char → List α × List Char
    | [], s => ([], s)
    | _ :: bound, s =>
        match reader s with
        | none => ([], s)
        | some (a, rest) =>
            let (as, rest) := go bound rest
            (a :: as, rest)

/-- A stretch of blanks, or a line end, or a comment. -/
def gap : Reader Unit
  | '#' :: rest => (skipComment ('#' :: rest)).map ((), ·)
  | c :: rest => if isBlank c then some ((), skipBlanks rest) else lineEnd (c :: rest)
  | [] => none

/-- The text without blanks, line ends and comments at its front. -/
def skipGaps (s : List Char) : List Char := (many gap s).2

/-- Items with commas between them up to a closing character; a comma may stand after the last. -/
def itemsUntil {α : Type} (close : Char) (item : Reader α) (s : List Char) :
    Option (List α × List Char) :=
  go s s
where
  /-- At most one item for each character of a text. -/
  go : List Char → List Char → Option (List α × List Char)
    | [], _ => none
    | _ :: bound, s =>
        match exactly close (skipGaps s) with
        | some ((), rest) => some ([], rest)
        | none => do
            let (a, rest) ← item (skipGaps s)
            match exactly close (skipGaps rest) with
            | some ((), rest) => return ([a], rest)
            | none =>
                let ((), rest) ← exactly ',' (skipGaps rest)
                let (as, rest) ← go bound rest
                return (a :: as, rest)

end AggregateRules.Toml
