import SqlInlay.Sql.Keyword

/-!
# Tokens of a query

A `Token` is a piece of query text with its kind and the byte offset at which it starts.  Blanks
and comments are tokens too: the texts of a query's tokens, put together, are the query.
-/

namespace SqlInlay.Sql

/-- What a token is.  A keyword token knows which keyword it spells. -/
inductive Kind where
  | keyword (word : Keyword)
  | identifier
  | quotedIdentifier
  | operator
  | comma
  | openParen
  | closeParen
  | dot
  | semicolon
  | string
  | number
  | parameter
  | lineComment
  | blockComment
  | blank
deriving DecidableEq, Repr

/-- A piece of query text. -/
structure Token where
  kind : Kind
  text : Text
  offset : Nat
deriving DecidableEq, Repr

namespace Token

/-- The token is the keyword `word`. -/
def spells (t : Token) (word : Keyword) : Bool := t.kind == .keyword word

/-- The token is one of some keywords. -/
def spellsAny (t : Token) (words : List Keyword) : Bool := words.any t.spells

/-- The token is a comment. -/
def isComment (t : Token) : Bool := t.kind == .lineComment || t.kind == .blockComment

/-- The token is a blank or a comment, which carries no meaning of its own. -/
def isTrivia (t : Token) : Bool := t.kind == .blank || t.isComment

/-- The offset just behind the token. -/
def stop (t : Token) : Nat := t.offset + t.text.bytes

/-- The token reads like `word`, whatever its kind. -/
def reads (t : Token) (word : Text) : Bool := t.text.sameLetters word

end Token

end SqlInlay.Sql
