import SqlInlay.Sql.Layout.Spacing
import SqlInlay.Sql.Script
import SqlInlay.Style
import SqlInlay.Text.Blank

/-!
# Lines and pages

A `Line` is an indentation and the pieces written on it; a `Page` is the lines so far, with what is
known about the next one.  Text is made of them only at the end, by `Page.render`, so that what was
printed can be read off the pieces.

**Where the next token goes.**  A page is told that the next token starts a line (`breakAt`) before
the token is there.  It waits for it in `fresh`; a break that is followed by another one, or by
nothing, leaves no empty line behind.

**Line comments.**  A comment that runs to the end of its line is kept apart from the pieces, as the
line's `note`: nothing can be written behind it, yet a comma that belongs to the code in front of it
still finds its place there.

**Hoisting.**  A comma, a closing parenthesis or a semicolon that comes when the last line is closed
moves up to the last line with code, in front of the comments between (`attach`).  It is the only
token that does not come to stand behind everything that was written before it.

**Separators.**  An empty line between statements is a line with no pieces.  Nothing is ever written
on it, for it is closed.
-/

namespace SqlInlay.Sql

/-- What is written on a line. -/
inductive Piece where
  /-- One space. -/
  | gap
  /-- A token or a mark. -/
  | code (text : Text)
  /-- A comment among the code. -/
  | remark (text : Text)
deriving DecidableEq, Repr

namespace Piece

/-- The text of a piece. -/
def text : Piece → Text
  | gap => [' ']
  | code t => t
  | remark t => t

end Piece

/-- A line of the page. -/
structure Line where
  indent : Nat
  /-- What is written, last piece first. -/
  pieces : List Piece
  /-- A line comment at the end. -/
  note : Option Text
  last : Option Trace
deriving DecidableEq, Repr

namespace Line

/-- A line with nothing on it. -/
def empty (indent : Nat) : Line := ⟨indent, [], none, none⟩

/-- The characters of the pieces. -/
def codeWidth (l : Line) : Nat := l.pieces.foldr (·.text.length + ·) 0

/-- The column behind the pieces. -/
def width (l : Line) : Nat := l.indent + l.codeWidth

/-- No code goes on the line any more: it ends in a line comment, or it is a separator. -/
def isClosed (l : Line) : Bool := l.note.isSome || l.pieces.isEmpty

/-- The pieces as text. -/
def code (l : Line) : Text := l.pieces.reverse.flatMap (·.text)

/-- The line as text. -/
def render (l : Line) : Text :=
  if l.pieces.isEmpty && l.note.isNone then []
  else
    Text.fill l.indent ' ' ++ l.code ++
      match l.note with
      | none => []
      | some note => (if l.pieces.isEmpty then [] else [' ']) ++ note

/-- A token written without a space in front. -/
def glue (l : Line) (t : Token) : Line :=
  { l with pieces := .code t.text :: l.pieces, last := some (.after none t) }

/-- A token as it is spelled in the output. -/
def spelling (case : KeywordCase) (t : Token) : Text :=
  match t.kind with
  | .keyword _ => case.apply t.text
  | _ => t.text

/-- A space where the next token needs one. -/
def spaced (l : Line) (t : Token) : List Piece :=
  if l.last.any (needsSpace · t) then .gap :: l.pieces else l.pieces

/-- A token written with a space in front if it needs one. -/
def write (case : KeywordCase) (l : Line) (t : Token) : Line :=
  { l with
    pieces := .code (spelling case t) :: l.spaced t
    last := some (.after l.last t) }

/-- A mark written behind the code. -/
def attach (l : Line) (kind : Kind) (text : Text) : Line :=
  { l with pieces := .code text :: l.pieces, last := some (.mark kind text) }

/-- A comment written among the code. -/
def remark (l : Line) (t : Token) : Line :=
  { l with
    pieces := .remark t.text :: (if l.pieces.isEmpty then [] else .gap :: l.pieces)
    last := some (.remark t.kind) }

/-- A line comment put at the end of the line. -/
def annotate (l : Line) (t : Token) : Line := { l with note := some (Text.trimEnd t.text) }

/-- A comment put where its kind belongs. -/
def comment (l : Line) (c : Comment) : Line :=
  if c.isLine then l.annotate c.token else l.remark c.token

end Line

/-- The lines so far and what is known about the next one. -/
structure Page where
  /-- The lines, last one first. -/
  lines : List Line
  /-- The indentation of the line that the next token has to start. -/
  fresh : Option Nat
  /-- The indentation of a line that carries on the current item. -/
  continuation : Nat
deriving DecidableEq, Repr

namespace Page

/-- A page with nothing on it. -/
def empty : Page := ⟨[], none, 0⟩

/-- The column at which the next token is written. -/
def column (p : Page) : Nat :=
  match p.fresh, p.lines with
  | some indent, _ => indent
  | none, l :: _ => l.width
  | none, [] => 0

/-- The indentation of the last line. -/
def indent (p : Page) : Nat :=
  match p.lines with
  | l :: _ => l.indent
  | [] => 0

/-- The next token starts a line. -/
def breakAt (p : Page) (indent : Nat) : Page := { p with fresh := some indent }

/-- The indentation of lines that carry on the current item. -/
def continueAt (p : Page) (indent : Nat) : Page := { p with continuation := indent }

/-- A page with one more line, on which writing goes on. -/
def startLine (p : Page) (indent : Nat) : Page :=
  { p with lines := .empty indent :: p.lines, fresh := none }

/-- An empty line between two statements. -/
def separate (p : Page) : Page := p.startLine 0

/-- A page whose last line can take a token. -/
def ready (p : Page) : Page :=
  match p.fresh, p.lines with
  | some indent, _ => p.startLine indent
  | none, [] => p.startLine p.continuation
  | none, l :: _ => if l.isClosed then p.startLine p.continuation else p

/-- The page with its last line changed. -/
def onLast (p : Page) (f : Line → Line) : Page :=
  match p.lines with
  | [] => p
  | l :: ls => { p with lines := f l :: ls }

/-- A token written where it belongs. -/
def write (case : KeywordCase) (p : Page) (t : Token) : Page := p.ready.onLast (·.write case t)

/-- A token written without a space in front. -/
def glue (p : Page) (t : Token) : Page := p.ready.onLast (·.glue t)

/-- The lines with a change to the last one that holds code; none if no line does. -/
def onLastCode? (f : Line → Line) : List Line → Option (List Line)
  | [] => none
  | l :: ls => if l.pieces.isEmpty then (onLastCode? f ls).map (l :: ·) else some (f l :: ls)

/-- A mark put behind the last code, in front of the comments that follow it. -/
def attach (p : Page) (kind : Kind) (text : Text) : Page :=
  match onLastCode? (·.attach kind text) p.lines with
  | some lines => { p with lines := lines }
  | none => p.ready.onLast (·.attach kind text)

/-- A comma, a closing parenthesis or a semicolon, which goes in front of a line comment rather than
behind it. -/
def punctuate (case : KeywordCase) (p : Page) (t : Token) : Page :=
  if p.fresh.isNone && p.lines.head?.any (·.isClosed) then p.attach t.kind t.text
  else p.write case t

/-- A comment, on a line of its own if it had one. -/
def comment (p : Page) (c : Comment) : Page :=
  if c.ownLine then (p.startLine (p.fresh.getD p.continuation)).onLast (·.comment c)
  else p.ready.onLast (·.comment c)

/-- The page as text, without line feeds at the end. -/
def render (p : Page) : Text :=
  Text.trimEndWhile (· == '\n') (Text.unlines (p.lines.reverse.map Line.render))

end Page

end SqlInlay.Sql
