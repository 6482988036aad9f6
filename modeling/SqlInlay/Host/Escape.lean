import SqlInlay.Host.Literal
import SqlInlay.Text.Blank

/-!
# Escape sequences

**Reading.**  `readEscape` reads one escape sequence, given what follows its backslash: what it
stands for, and how many characters it takes.  `unescape` reads a whole text; a sequence that cannot
be read is reported at the offset of its backslash.

**Languages** differ in which escapes they have.  Python takes a sequence that it does not know for
the characters themselves, and the others refuse it.  Java and Kotlin spell a character beyond the
first plane by two units, which are read as one character here.

**Writing.**  `escape` writes a text so that it can stand between quotes.  What a character is
written as depends on the language, on what follows it, and for quotes on how many stand in a row,
for three quotes would close a text block.

**In a block** line feeds stay as they are.  A carriage return is escaped all the same, and so is
the space in front of the end of a line of a Java block: either could be lost when the block is
read.

**Beyond ASCII** characters are written as they are, unless the literal spelled some character by
its code point before.
-/

namespace SqlInlay.Host

open SqlInlay.Text

/-! ## Reading -/

/-- The value of a hexadecimal digit. -/
def hexDigit? (c : Char) : Option Nat :=
  if '0' ≤ c ∧ c ≤ '9' then some (c.toNat - 48)
  else if 'a' ≤ c ∧ c ≤ 'f' then some (c.toNat - 87)
  else if 'A' ≤ c ∧ c ≤ 'F' then some (c.toNat - 55)
  else none

/-- The value of exactly `n` hexadecimal digits at the start of a text, read behind `value`. -/
def hexFrom? (value : Nat) : Nat → Text → Option Nat
  | 0, _ => some value
  | _ + 1, [] => none
  | n + 1, c :: t =>
    match hexDigit? c with
    | some digit => hexFrom? (value * 16 + digit) n t
    | none => none

/-- The value of exactly `n` hexadecimal digits. -/
def hex (n : Nat) (t : Text) : Except EscapeFault Nat :=
  match hexFrom? 0 n t with
  | some value => .ok value
  | none => .error (.hexDigits n)

/-- The character of a code point. -/
def codePoint (n : Nat) : Except EscapeFault Text :=
  if n.isValidChar then .ok [Char.ofNat n] else .error (.codePoint n)

/-- An octal digit. -/
def isOctal (c : Char) : Bool := '0' ≤ c && c ≤ '7'

/-- The value of octal digits. -/
def octalValue (digits : Text) : Nat := digits.foldl (fun n c => n * 8 + (c.toNat - 48)) 0

/-- An octal escape of at most `limit` digits, of which `c` is the first. -/
def octal (limit : Nat) (c : Char) (t : Text) : Except EscapeFault (Text × Nat) :=
  let digits := (t.take (limit - 1)).takeWhile isOctal
  (codePoint (octalValue (c :: digits))).map (·, digits.length + 1)

/-- An escape of exactly `n` hexadecimal digits behind its letter. -/
def hexEscape (n : Nat) (t : Text) : Except EscapeFault (Text × Nat) := do
  let image ← codePoint (← hex n t)
  return (image, n + 1)

/-- The further letters `u` of an escape, which some languages allow. -/
def repeatedU (repeats : Bool) (t : Text) : Nat :=
  if repeats then (t.takeWhile (· = 'u')).length else 0

/-- The unit that an escape with the letter `u` stands for, where `t` follows its backslash, and the
characters that it takes. -/
def unitAt? (repeats : Bool) (t : Text) : Option (Nat × Nat) :=
  match t with
  | 'u' :: t =>
    let n := repeatedU repeats t
    (hexFrom? 0 4 (t.drop n)).map (·, n + 5)
  | _ => none

/-- The character of a pair of surrogates. -/
def surrogatePair (high low : Nat) : Nat := 0x10000 + (high - 0xD800) * 0x400 + (low - 0xDC00)

/-- An escape of a UTF-16 unit, `t` behind its letter; the first half of a pair needs the second
half right behind it. -/
def unitEscape (repeats : Bool) (t : Text) : Except EscapeFault (Text × Nat) := do
  let n := repeatedU repeats t
  let unit ← hex 4 (t.drop n)
  if 0xD800 ≤ unit ∧ unit < 0xDC00 then
    match t.drop (n + 4) with
    | '\\' :: behind =>
      match unitAt? repeats behind with
      | some (low, k) =>
        if 0xDC00 ≤ low ∧ low < 0xE000 then
          let image ← codePoint (surrogatePair unit low)
          return (image, n + 5 + 1 + k)
        else throw .unpairedSurrogate
      | none => throw .unpairedSurrogate
    | _ => throw .unpairedSurrogate
  else
    let image ← codePoint unit
    return (image, n + 5)

/-- A line break behind a backslash, which joins two lines. -/
def joinedLine (c : Char) (t : Text) : Text × Nat :=
  if c = '\r' ∧ t.head? = some '\n' then ([], 2) else ([], 1)

/-- A Java escape: its letter `c` and what follows. -/
def readJava (c : Char) (t : Text) : Except EscapeFault (Text × Nat) :=
  match c with
  | 'b' => .ok (['\x08'], 1)
  | 't' => .ok (['\t'], 1)
  | 'n' => .ok (['\n'], 1)
  | 'f' => .ok (['\x0c'], 1)
  | 'r' => .ok (['\r'], 1)
  | 's' => .ok ([' '], 1)
  | '"' | '\'' | '\\' => .ok ([c], 1)
  | '\n' | '\r' => .ok (joinedLine c t)
  | 'u' => unitEscape true t
  | _ => if isOctal c then octal (if c ≤ '3' then 3 else 2) c t else .error (.unknown c)

/-- A Kotlin escape. -/
def readKotlin (c : Char) (t : Text) : Except EscapeFault (Text × Nat) :=
  match c with
  | 't' => .ok (['\t'], 1)
  | 'b' => .ok (['\x08'], 1)
  | 'n' => .ok (['\n'], 1)
  | 'r' => .ok (['\r'], 1)
  | '\'' | '"' | '\\' | '$' => .ok ([c], 1)
  | 'u' => unitEscape false t
  | _ => .error (.unknown c)

/-- A Python escape; what is none stands for itself, backslash included. -/
def readPython (c : Char) (t : Text) : Except EscapeFault (Text × Nat) :=
  match c with
  | '\\' | '\'' | '"' => .ok ([c], 1)
  | 'a' => .ok (['\x07'], 1)
  | 'b' => .ok (['\x08'], 1)
  | 'f' => .ok (['\x0c'], 1)
  | 'n' => .ok (['\n'], 1)
  | 'r' => .ok (['\r'], 1)
  | 't' => .ok (['\t'], 1)
  | 'v' => .ok (['\x0b'], 1)
  | '\n' | '\r' => .ok (joinedLine c t)
  | 'x' => hexEscape 2 t
  | 'u' => hexEscape 4 t
  | 'U' => hexEscape 8 t
  | 'N' => .error .named
  | _ => if isOctal c then octal 3 c t else .ok (['\\', c], 1)

/-- The escape whose backslash `t` follows: what it stands for, and the characters behind the
backslash that it takes. -/
def readEscape (language : Language) : Text → Except EscapeFault (Text × Nat)
  | [] => .error .dangling
  | c :: t =>
    match language with
    | .java => readJava c t
    | .kotlin => readKotlin c t
    | .python => readPython c t

/-- What a text with escapes stands for; `offset` is where the text starts. -/
def unescape (language : Language) (offset : Nat) : Text → Except Failure Text
  | [] => .ok []
  | c :: t =>
    if c = '\\' then
      match readEscape language t with
      | .error fault => .error (.unsupportedEscape offset fault)
      | .ok (image, n) =>
        (unescape language (offset + c.utf8Size + bytes (t.take n)) (t.drop n)).map (image ++ ·)
    else (unescape language (offset + c.utf8Size) t).map (c :: ·)
termination_by t => t.length
decreasing_by all_goals simp only [List.length_cons, List.length_drop]; omega

/-! ## What a content holds -/

/-- A character that a dollar sign makes a template with. -/
def startsTemplate : Option Char → Bool
  | some c => c == '\x7b' || c == '_' || isAlphabetic c
  | none => false

/-- The offset of the first template in a Kotlin content, which starts at `offset`; a backslash
protects the next character unless the content is raw. -/
def templateFrom? (raw : Bool) (offset : Nat) : Text → Option Nat
  | [] => none
  | [_] => none
  | c :: d :: t =>
    if c = '\\' ∧ !raw then templateFrom? raw (offset + c.utf8Size + d.utf8Size) t
    else if c = '$' ∧ startsTemplate (some d) then some offset
    else templateFrom? raw (offset + c.utf8Size) (d :: t)

/-- Some character of an escaped content is spelled by its code point. -/
def spellsCodePoints (language : Language) : Text → Bool
  | [] => false
  | [_] => false
  | c :: d :: t =>
    if c = '\\' then d == 'u' || (d == 'U' && language == .python) || spellsCodePoints language t
    else spellsCodePoints language (d :: t)

/-! ## Writing -/

/-- How a text is written between quotes. -/
structure EscapeRule where
  language : Language
  quote : Char
  /-- Line feeds are written as they are, and so are single quotes. -/
  block : Bool
  /-- The closing quotes follow the last character of a block at once. -/
  guarded : Bool
  /-- Characters beyond ASCII are spelled by their code points. -/
  ascii : Bool
deriving DecidableEq, Repr

/-- A number in at least `width` hexadecimal digits. -/
def hexPadded (width n : Nat) : Text :=
  let digits := hexText n
  List.replicate (width - digits.length) '0' ++ digits

/-- The UTF-16 units of a code point. -/
def units (n : Nat) : List Nat :=
  if n < 0x10000 then [n] else [0xD800 + (n - 0x10000) / 0x400, 0xDC00 + (n - 0x10000) % 0x400]

/-- A character spelled by its code point. -/
def spellCodePoint (language : Language) (c : Char) : Text :=
  match language with
  | .python =>
    if c.toNat > 0xFFFF then '\\' :: 'U' :: hexPadded 8 c.toNat
    else '\\' :: 'u' :: hexPadded 4 c.toNat
  | .java | .kotlin => (units c.toNat).flatMap fun n => '\\' :: 'u' :: hexPadded 4 n

/-- A control character spelled by its code. -/
def spellControl (language : Language) (c : Char) : Text :=
  match language with
  | .python => '\\' :: 'x' :: hexPadded 2 c.toNat
  | .java | .kotlin => '\\' :: 'u' :: hexPadded 4 c.toNat

/-- A character other than the quote, with `after` behind it.  Java drops blanks at the ends of
lines of a block, so the last one is written as an escape. -/
def escapeChar (rule : EscapeRule) (c : Char) (after : Option Char) : Text :=
  if c = '\\' then ['\\', '\\']
  else if c = '\n' then if rule.block then ['\n'] else ['\\', 'n']
  else if c = '\t' then ['\\', 't']
  else if c = '\r' then ['\\', 'r']
  else if c = '$' ∧ rule.language = .kotlin ∧ startsTemplate after then ['\\', '$']
  else if c = ' ' ∧ rule.block ∧ rule.language = .java ∧ (after = none ∨ after = some '\n') then
    ['\\', 's']
  else if isControl c then spellControl rule.language c
  else if rule.ascii ∧ c.toNat ≥ 0x80 then spellCodePoint rule.language c
  else [c]

/-- A quote, behind `run` others, with `after` behind it. -/
def escapeQuote (rule : EscapeRule) (run : Nat) (after : Option Char) : Text :=
  if !rule.block || run % 3 == 2 || (rule.guarded && after.isNone) then ['\\', rule.quote]
  else [rule.quote]

/-- A text as it is written between quotes, behind `run` quotes. -/
def escapeFrom (rule : EscapeRule) (run : Nat) : Text → Text
  | [] => []
  | c :: t =>
    if c = rule.quote then escapeQuote rule run t.head? ++ escapeFrom rule (run + 1) t
    else escapeChar rule c t.head? ++ escapeFrom rule 0 t

/-- A text as it is written between quotes. -/
def escape (rule : EscapeRule) (t : Text) : Text := escapeFrom rule 0 t

end SqlInlay.Host
