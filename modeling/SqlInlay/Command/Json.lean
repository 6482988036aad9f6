import SqlInlay.Text

/-!
# JSON for reading

A value laid out for people is its lines, so it is built as such: `array` and `object` put the lines
of their members between brackets, two blanks further in, and a comma behind each member but the
last.  What is empty stays on one line.
-/

namespace SqlInlay.Command.Json

/-- A hexadecimal digit. -/
def hexDigit (n : Nat) : Char := ("0123456789abcdef".toList[n]?).getD '0'

/-- A character inside a string.  Control characters are escaped, by their short names if they have
one; all else but the quote and the backslash stands for itself. -/
def escapeChar (c : Char) : Text :=
  match c with
  | '"' => ['\\', '"']
  | '\\' => ['\\', '\\']
  | '\n' => ['\\', 'n']
  | '\r' => ['\\', 'r']
  | '\t' => ['\\', 't']
  | '\x08' => ['\\', 'b']
  | '\x0c' => ['\\', 'f']
  | _ =>
    if c.toNat < 0x20 then
      ['\\', 'u', '0', '0', hexDigit (c.toNat / 16), hexDigit (c.toNat % 16)]
    else [c]

/-- A text in quotes. -/
def quoted (t : Text) : Text := '"' :: t.flatMap escapeChar ++ ['"']

/-- A string. -/
def string (t : Text) : List Text := [quoted t]

/-- A number. -/
def number (n : Nat) : List Text := [Nat.toDigits 10 n]

/-- A truth value. -/
def boolean (b : Bool) : List Text := [if b then "true".toList else "false".toList]

/-- Lines with a comma behind the last. -/
def withComma : List Text → List Text
  | [] => []
  | [line] => [line ++ [',']]
  | line :: lines => line :: withComma lines

/-- The lines of members, with commas between them. -/
def members : List (List Text) → List Text
  | [] => []
  | [lines] => lines
  | lines :: more => withComma lines ++ members more

/-- Members between brackets. -/
def enclosed (opening closing : Char) (parts : List (List Text)) : List Text :=
  if parts.isEmpty then [[opening, closing]]
  else [opening] :: (members parts).map (' ' :: ' ' :: ·) ++ [[closing]]

/-- An array of values. -/
def array (items : List (List Text)) : List Text := enclosed '[' ']' items

/-- A value behind its key. -/
def field (key : String) : List Text → List Text
  | [] => []
  | line :: lines => (quoted key.toList ++ ':' :: ' ' :: line) :: lines

/-- An object of keys and values, in that order. -/
def object (fields : List (String × List Text)) : List Text :=
  enclosed '\x7b' '\x7d' (fields.map fun (key, value) => field key value)

end SqlInlay.Command.Json
