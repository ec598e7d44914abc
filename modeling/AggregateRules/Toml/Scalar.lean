import AggregateRules.Toml.Document
import AggregateRules.Toml.Reader

/-!
# Toml/Scalar — numbers, truth values and date-times

What stands unquoted is a run of words with blanks between them, ended by a structural character or
by a quote that opens a word.  The first characters decide what it is meant to be.

A number is kept as it was written, and only its shape is looked at.  A float has digits wherever it
needs them, and a decimal number has no leading zero.  The digits of another base come without a
sign, and there may be none.  A decimal integer is looked at up to its first underscore; behind it,
only the neighbours of underscores count, which are digits of base sixteen.  A date must exist in the
calendar; the seconds of a time may be left out.
-/

namespace AggregateRules.Toml

/-! ## Numbers -/

/-- Whether a character is a digit of base sixteen. -/
def isHexadecimal (c : Char) : Bool :=
  c.isDigit || ('a' ≤ c && c ≤ 'f') || ('A' ≤ c && c ≤ 'F')

/-- Whether a character is a sign. -/
def isSign (c : Char) : Bool := c == '+' || c == '-'

/-- Whether a word starts with a zero and goes on. -/
def hasLeadingZero : List Char → Bool
  | '0' :: _ :: _ => true
  | _ => false

/-- Whether every underscore of a text has digits beside it, given the character before the text. -/
def underscoresBetween (digit : Char → Bool) (before : Char) : List Char → Bool
  | [] => true
  | '_' :: rest =>
      digit before && (rest.head?.map digit).getD false && underscoresBetween digit '_' rest
  | c :: rest => underscoresBetween digit c rest

/-- Whether the underscores of a number stand between digits; none stands in front. -/
def hasPlainUnderscores (digit : Char → Bool) (s : List Char) : Bool :=
  underscoresBetween digit '_' s

/-- What a base, if it is named so, has for its digits. -/
def digitOfBase? : Char → Option (Char → Bool)
  | 'x' => some isHexadecimal
  | 'o' => some fun c => '0' ≤ c && c ≤ '7'
  | 'b' => some fun c => c == '0' || c == '1'
  | _ => none

/-- Digits and underscores at the front of a text, and how many digits there are. -/
def digitRun (s : List Char) : Nat × List Char :=
  let run := s.takeWhile fun c => c.isDigit || c == '_'
  (run.countP Char.isDigit, s.drop run.length)

/-- The rest of a text after a fraction, if there is one. -/
def skipFraction : List Char → Option (List Char)
  | '.' :: rest =>
      let (count, rest) := digitRun rest
      if count = 0 then none else some rest
  | s => some s

/-- The rest of a text after an exponent, if there is one. -/
def skipExponent : List Char → Option (List Char)
  | [] => some []
  | c :: rest =>
      if c == 'e' || c == 'E' then
        let rest := if (rest.head?.map isSign).getD false then rest.drop 1 else rest
        let (count, rest) := digitRun rest
        if count = 0 then none else some rest
      else some (c :: rest)

/-- Whether a text without a sign has the shape of a float. -/
def isFloatShape (s : List Char) : Bool :=
  let (count, rest) := digitRun s
  count != 0 && (count == 1 || s.head? != some '0') &&
    ((skipFraction rest).bind skipExponent).any List.isEmpty

/-! ## Date-times -/

/-- The number that decimal digits denote. -/
def decimalValue (digits : List Char) : Nat :=
  digits.foldl (fun n c => 10 * n + (c.toNat - '0'.toNat)) 0

/-- A number of exactly so many digits. -/
def fixedNumber (count : Nat) : Reader Nat := fun s =>
  let digits := s.take count
  if digits.length = count && digits.all Char.isDigit then
    some (decimalValue digits, s.drop count)
  else none

/-- The days of a month. -/
def daysIn (year month : Nat) : Nat :=
  if month = 2 then
    if year % 4 = 0 ∧ (year % 100 ≠ 0 ∨ year % 400 = 0) then 29 else 28
  else if month = 4 ∨ month = 6 ∨ month = 9 ∨ month = 11 then 30
  else 31

/-- A date of the calendar. -/
def date : Reader Unit := fun s => do
  let (year, s) ← fixedNumber 4 s
  let ((), s) ← exactly '-' s
  let (month, s) ← fixedNumber 2 s
  let ((), s) ← exactly '-' s
  let (day, s) ← fixedNumber 2 s
  if 1 ≤ month ∧ month ≤ 12 ∧ 1 ≤ day ∧ day ≤ daysIn year month then some ((), s) else none

/-- A fraction of a second, if there is one. -/
def fraction : Reader Unit
  | '.' :: rest =>
      if (rest.head?.map Char.isDigit).getD false then some ((), rest.dropWhile Char.isDigit)
      else none
  | s => some ((), s)

/-- A time of the day, seconds and fraction optional. -/
def time : Reader Unit := fun s => do
  let (hour, s) ← fixedNumber 2 s
  let ((), s) ← exactly ':' s
  let (minute, s) ← fixedNumber 2 s
  if 23 < hour ∨ 59 < minute then none
  else
    match exactly ':' s with
    | none => some ((), s)
    | some ((), s) => do
        let (second, s) ← fixedNumber 2 s
        if 60 < second then none else fraction s

/-- An offset from the meridian, if there is one. -/
def offset : Reader Unit
  | [] => some ((), [])
  | c :: s =>
      if c = 'Z' ∨ c = 'z' then some ((), s)
      else if c = '+' ∨ c = '-' then do
        let (hour, s) ← fixedNumber 2 s
        let ((), s) ← exactly ':' s
        let (minute, s) ← fixedNumber 2 s
        if 23 < hour ∨ 59 < minute then none else some ((), s)
      else none

/-- Whether a word is a date, a time, or both, with an offset if it is both. -/
def isDateTime (s : List Char) : Bool :=
  match date s with
  | some ((), []) => true
  | some ((), c :: rest) =>
      (c == 'T' || c == 't' || c == ' ') &&
        (((time rest).bind fun ((), rest) => offset rest).any fun ((), rest) => rest.isEmpty)
  | none => (time s).any fun ((), rest) => rest.isEmpty

/-! ## Words -/

/-- Whether a character ends a run of words. -/
def isStructural (c : Char) : Bool :=
  isBlank c || c == '=' || c == ',' || c == '[' || c == ']' || c == '\x7b' || c == '\x7d' ||
    c == '#' || c == '\r' || c == '\n'

/-- Whether a character opens a word that follows a blank. -/
def opensWord (c : Char) : Bool := !isStructural c && c != '.' && c != '"' && c != '\''

/-- Blanks with a word behind them. -/
def nextWord : Reader (List Char) := fun s =>
  let blanks := s.takeWhile isBlank
  let rest := s.drop blanks.length
  let word := rest.takeWhile (!isStructural ·)
  if !blanks.isEmpty && (word.head?.map opensWord).getD false then
    some (blanks ++ word, rest.drop word.length)
  else none

/-- The run of words at the front of a text. -/
def words (s : List Char) : List Char × List Char :=
  let first := s.takeWhile (!isStructural ·)
  let (others, rest) := many nextWord (s.drop first.length)
  (first ++ others.flatten, rest)

/-! ## What a run of words denotes -/

/-- What a text that starts with a digit denotes; `whole` is the text with its sign. -/
def decimal? (whole s : List Char) : Option Value :=
  let written := String.ofList whole
  match s.dropWhile Char.isDigit with
  | [] => if hasLeadingZero s then none else some (.integer written)
  | c :: rest =>
      let tail := c :: rest
      if c == '-' || c == ':' then
        if isDateTime whole then some (.dateTime written) else none
      else if tail.contains ' ' then none
      else if tail.any fun c => c == '.' || c == 'e' || c == 'E' then
        if isFloatShape s && hasPlainUnderscores Char.isDigit whole then some (.float written)
        else none
      else if c == '_' && !hasLeadingZero s && hasPlainUnderscores isHexadecimal whole then
        some (.integer written)
      else none

/-- What a text that starts with a zero denotes. -/
def zeroPrefixed? (whole s : List Char) : Option Value :=
  match s with
  | '0' :: base :: digits =>
      match digitOfBase? base with
      | some digit =>
          if whole.head? == some '0' && digits.all (fun c => digit c || c == '_') &&
              hasPlainUnderscores isHexadecimal digits then
            some (.integer (String.ofList whole))
          else none
      | none => decimal? whole s
  | _ => decimal? whole s

/-- What a text that has its sign taken off denotes as a number. -/
def number? (whole s : List Char) : Option Value :=
  match s with
  | '0' :: _ => zeroPrefixed? whole s
  | c :: _ =>
      if c.isDigit then decimal? whole s
      else if s == ['i', 'n', 'f'] || s == ['n', 'a', 'n'] then some (.float (String.ofList whole))
      else none
  | [] => none

/-- What a run of words denotes. -/
def wordsValue? (s : List Char) : Option Value :=
  if s == ['t', 'r', 'u', 'e'] then some (.boolean true)
  else if s == ['f', 'a', 'l', 's', 'e'] then some (.boolean false)
  else number? s (if (s.head?.map isSign).getD false then s.drop 1 else s)

/-- An unquoted content. -/
def scalar : Reader Value := fun s =>
  let (text, rest) := words s
  (wordsValue? text).map (·, rest)

end AggregateRules.Toml
