import SqlInlay.Sql.Token

/-!
# Space between tokens

`needsSpace` decides whether a space goes between what was last written on a line and the next
token.  It reads a `Trace` of what was written, and asks of the source no more than whether two
tokens touched there: a call `f(x)` keeps its parenthesis close, `x in (1)` keeps it apart.

**Safety first.**  A second minus behind a minus and a star behind a slash are kept apart before any
other rule is asked, for together they would open a comment.

**Signs.**  A sign that starts an operand has no space behind it.  What is in front decides whether
it does: a value makes it an operator between two, and most keywords make it a sign (`isUnary`).

**Marks and casts** have their rules by kind and by text, whatever the source looks like.
Everything else is set apart, save where the source has a call, an index or a string with a letter
in front.

**Traces** say where a token ended, if it stands where it did.  A mark that was moved up, and a
comment, leave a trace without an offset, and nothing touches them.
-/

namespace SqlInlay.Sql

/-- What was last written on a line. -/
structure Trace where
  kind : Kind
  text : Text
  /-- Where the token ended in the source, if that is known. -/
  stop : Option Nat
  /-- A sign in front of an operand. -/
  unary : Bool
deriving DecidableEq, Repr

namespace Trace

/-- A comma, a closing parenthesis or a semicolon that was put behind its proper place. -/
def mark (kind : Kind) (text : Text) : Trace := ⟨kind, text, none, false⟩

/-- A comment; its text plays no part in what follows. -/
def remark (kind : Kind) : Trace := ⟨kind, [], none, false⟩

end Trace

/-- The token is a sign that starts an operand, not an operator between two. -/
def isUnary (before : Option Trace) (t : Token) : Bool :=
  t.kind == .operator && (t.text == "-" || t.text == "+") &&
    match before with
    | none => true
    | some b =>
      match b.kind with
      | .operator | .openParen | .comma => true
      | .keyword word => !(word ∈ [.END, .NULL, .TRUE, .FALSE])
      | _ => false

/-- The trace of a token behind another. -/
def Trace.after (before : Option Trace) (t : Token) : Trace :=
  ⟨t.kind, t.text, some t.stop, isUnary before t⟩

/-- The two would open a comment if they touched. -/
def opensComment (before : Trace) (t : Token) : Bool :=
  (Text.closesWith "-" before.text && Text.opensWith "-" t.text)
    || (Text.closesWith "/" before.text && Text.opensWith "*" t.text)

/-- Kinds that follow what is in front of them without a space. -/
def hugsLeft : Kind → Bool
  | .comma | .closeParen | .dot | .semicolon => true
  | _ => false

/-- Kinds that what is behind them follows without a space. -/
def hugsRight : Kind → Bool
  | .openParen | .dot => true
  | _ => false

/-- A cast or an index, which bind without a space. -/
def binds (before : Trace) (t : Token) : Bool :=
  t.text == "::" || before.text == "::" || t.text == "]" || before.text == "["

/-- Whether to keep apart two tokens that no other rule speaks of: a call, an index and a string
with a letter in front stay together where the source has them together. -/
def apartUnlessTouching (before : Trace) (t : Token) : Bool :=
  let apart := before.stop != some t.offset
  match t.kind with
  | .openParen =>
    match before.kind with
    | .identifier | .quotedIdentifier | .keyword .LEFT | .keyword .RIGHT => apart
    | _ => true
  | .string => if before.kind = .identifier then apart else true
  | .operator => if t.text = "[" then apart else true
  | _ => true

/-- A space goes between what was written and the token. -/
def needsSpace (before : Trace) (t : Token) : Bool :=
  if opensComment before t then true
  else if hugsLeft t.kind then false
  else if hugsRight before.kind || before.unary then false
  else if binds before t then false
  else apartUnlessTouching before t

end SqlInlay.Sql
