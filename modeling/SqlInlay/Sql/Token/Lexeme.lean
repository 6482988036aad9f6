import SqlInlay.Sql.Token
import SqlInlay.Failure
import SqlInlay.Text.Letter

/-!
# Reading the tokens of a query

**One lexeme.**  `lexeme` looks at the first character of what is left and says what starts there: a
kind, and how many *further* characters belong to it.  A lexeme therefore has at least one
character, and the text of the token and the text that is left are a split of the input; no
recognizer has to promise more than a number.

**Leniency.**  A character that starts nothing else is an operator of its own.  Only a string, a
quoted identifier or a block comment that is never closed is an error.

**What is kept whole.**  Operators of several characters are looked up in a list, a longer one first
where it begins like a shorter one.  A parameter holds its name, or its expression through the first
closing brace.

**Names that look like keywords.**  A word that touches a dot is a name, whatever it reads.  Then
`settleKeywords` runs over all tokens once more: some words are keywords only in company (`ORDER`
before `BY`), and name a table or a column elsewhere.
-/

namespace SqlInlay.Sql

open SqlInlay.Text

/-! ## Recognizers

Each takes the characters after the first one, and counts those that belong to the lexeme. -/

/-- The blanks that separate tokens; other white space is left for `operator` to keep. -/
def isSpacing (c : Char) : Bool := c == ' ' || c == '\t' || c == '\r' || c == '\n'

/-- A character of a word: names, keywords and the like. -/
def isWordChar (c : Char) : Bool := isAlphanumeric c || c == '_' || c == '$'

/-- The length of the run of a class at the start of a text. -/
def runLength (p : Char → Bool) (t : Text) : Nat := (t.takeWhile p).length

/-- Behind an opening quote, the characters through the closing one; a doubled quote stands for
itself and closes nothing. -/
def throughDoubledQuote? (quote : Char) : Text → Option Nat
  | [] => none
  | c :: t =>
    if c = quote then
      match t with
      | [] => some 1
      | d :: u => if d = quote then (throughDoubledQuote? quote u).map (· + 2) else some 1
    else (throughDoubledQuote? quote t).map (· + 1)

/-- Characters through the first occurrence of `closing`. -/
def through? (closing : Text) (t : Text) : Option Nat :=
  (find? closing t).map (· + closing.length)

/-- The fraction of a number: a point and any digits. -/
def fractionLength : Text → Nat
  | '.' :: t => 1 + runLength Char.isDigit t
  | _ => 0

/-- The exponent of a number, which needs at least one digit. -/
def exponentLength : Text → Nat
  | e :: t =>
    if e = 'e' || e = 'E' then
      let sign := match t with
        | c :: _ => if c = '+' || c = '-' then 1 else 0
        | [] => 0
      let digits := runLength Char.isDigit (t.drop sign)
      if digits = 0 then 0 else 1 + sign + digits
    else 0
  | [] => 0

/-- The letter behind a number that tells its type. -/
def suffixLength : Text → Nat
  | c :: _ => if c ∈ ['l', 'L', 'f', 'F', 'd', 'D'] then 1 else 0
  | [] => 0

/-- The number that starts with digit `c`; none where it runs into a word, as in `2nd`. -/
def number? (t : Text) : Option Nat :=
  let digits := runLength Char.isDigit t
  let fraction := fractionLength (t.drop digits)
  let exponent := exponentLength (t.drop (digits + fraction))
  let suffix := suffixLength (t.drop (digits + fraction + exponent))
  let length := digits + fraction + exponent + suffix
  match t.drop length with
  | c :: _ => if isWordChar c then none else some length
  | [] => some length

/-- An expression parameter, braces included: what follows `:` or `?` in `:#{…}`. -/
def expression? (t : Text) : Option Nat :=
  match after? "#\x7b" t with
  | some rest => (through? "\x7d" rest).map (· + 2)
  | none => none

/-- A query parameter: an expression, a name behind `:`, a position behind `?` or `$`. -/
def parameter? (c : Char) (t : Text) : Option Nat :=
  let expression := if c = ':' || c = '?' then expression? t else none
  match expression with
  | some n => some n
  | none =>
    if c = ':' then
      let n := runLength isWordChar t
      if n = 0 then none else some n
    else if c = '?' then some (runLength Char.isDigit t)
    else if c = '$' then
      let n := runLength Char.isDigit t
      if n = 0 then none else some n
    else none

/-- The operators of several characters; an earlier one is preferred. -/
def longOperators : List Text :=
  ["<>", "!=", "<=", ">=", "||", "::", "->>", "->", "#>>", "@>", "<@"].map String.toList

/-- An operator that starts with `c`. -/
def operatorLength (c : Char) (t : Text) : Nat :=
  match longOperators.find? (opensWith · (c :: t)) with
  | some long => long.length - 1
  | none => 0

/-- The kind of a word: a keyword, unless it touches a dot. -/
def wordKind (before : Option Char) (word rest : Text) : Kind :=
  if before == some '.' || opensWith "." rest then .identifier
  else
    match Keyword.ofWord? word with
    | some k => .keyword k
    | none => .identifier

/-- Punctuation marks and their kinds. -/
def punctuation? : Char → Option Kind
  | '(' => some .openParen
  | ')' => some .closeParen
  | ',' => some .comma
  | '.' => some .dot
  | ';' => some .semicolon
  | _ => none

/-! ## One lexeme -/

/-- The kind and the number of further characters of an unquoted lexeme. -/
def plainLexeme (before : Option Char) (c : Char) (t : Text) : Kind × Nat :=
  if isSpacing c then (.blank, runLength isSpacing t)
  else if c = '-' && opensWith "-" t then
    (.lineComment, runLength (fun d => d ≠ '\n' && d ≠ '\r') t)
  else
    match if c.isDigit then number? t else none with
    | some n => (.number, n)
    | none =>
      match parameter? c t with
      | some n => (.parameter, n)
      | none =>
        if isWordChar c then
          let n := runLength isWordChar t
          (wordKind before (c :: t.take n) (t.drop n), n)
        else
          match punctuation? c with
          | some kind => (kind, 0)
          | none => (.operator, operatorLength c t)

/-- The closed form of a delimited lexeme, or the failure to close it. -/
def delimited (kind : Kind) (cause : Unterminated) :
    Option Nat → Except Unterminated (Kind × Nat)
  | some n => .ok (kind, n)
  | none => .error cause

/-- What starts at `c`, where `before` precedes it and `t` follows it. -/
def lexeme (before : Option Char) (c : Char) (t : Text) : Except Unterminated (Kind × Nat) :=
  if c = '/' && opensWith "*" t then
    delimited .blockComment .blockComment ((through? "*/" (t.drop 1)).map (· + 1))
  else if c = '\'' then delimited .string .stringLiteral (throughDoubledQuote? c t)
  else if c = '"' then delimited .quotedIdentifier .quotedIdentifier (throughDoubledQuote? c t)
  else if c = '\x60' then delimited .quotedIdentifier .quotedIdentifier (through? [c] t)
  else .ok (plainLexeme before c t)

/-- The lexemes of a text that starts at byte `offset` behind the character `before`. -/
def lexemesFrom (before : Option Char) (offset : Nat) : Text → Except Failure (List Token)
  | [] => .ok []
  | c :: t =>
    match lexeme before c t with
    | .error cause => .error (.lexical offset cause)
    | .ok (kind, n) =>
      let text : Text := c :: t.take n
      match lexemesFrom text.getLast? (offset + text.bytes) (t.drop n) with
      | .error failure => .error failure
      | .ok tokens => .ok (⟨kind, text, offset⟩ :: tokens)
termination_by t => t.length
decreasing_by simp only [List.length_drop, List.length_cons]; omega

/-! ## Keywords in company -/

/-- A keyword that means what it says between its neighbours, blanks and comments aside. -/
def isKeptKeyword (before : Option Token) (word : Keyword) (after : Option Token) : Bool :=
  let follows (words : List Keyword) := before.any (·.spellsAny words)
  let precedes (words : List Keyword) := after.any (·.spellsAny words)
  match word with
  | .ORDER | .GROUP | .PARTITION => precedes [.BY]
  | .NULLS => precedes [.FIRST, .LAST]
  | .FIRST | .LAST => follows [.NULLS, .FETCH]
  | .MEMBER => precedes [.OF]
  | .OF => follows [.MEMBER]
  | .EMPTY => follows [.IS, .NOT]
  | .OVER => after.any (·.kind == .openParen)
  | _ => true

/-- The token with the kind that its neighbours leave it. -/
def settle (before : Option Token) (t : Token) (after : Option Token) : Token :=
  match t.kind with
  | .keyword word =>
    if isKeptKeyword before word after then t else { t with kind := .identifier }
  | _ => t

/-- Every keyword that lacks its company turned into an identifier.  The neighbours count as they
were lexed, so that one decision does not change the next. -/
def settleKeywords (before : Option Token) : List Token → List Token
  | [] => []
  | t :: ts =>
    settle before t (ts.find? (!·.isTrivia)) ::
      settleKeywords (if t.isTrivia then before else some t) ts

/-- The tokens of a query, blanks and comments included. -/
def tokenize (query : Text) : Except Failure (List Token) :=
  (lexemesFrom none 0 query).map (settleKeywords none)

end SqlInlay.Sql
