import SqlInlay.Edit
import SqlInlay.Text.Blank

/-!
# Margins of triple-quoted literals

The content of a triple-quoted literal is indented like the code around it.  `strip` takes the
indentation off and remembers it in a `BlockLayout`; `layOut` puts a text back in that layout.

**The margin** is what the indentations of all lines have in common.  Blank lines have no say in it,
and neither has a first line right behind the opening quotes; the line of the closing quotes does.
Indentations are compared character by character, so tabs and spaces have nothing in common.

**Blank lines** are read as empty ones, and an empty line is written without the margin.

**The quotes** may share their lines with the text or not.  A line of blanks behind the opening
quotes or in front of the closing ones is not a part of the text, and `layOut` puts it back.

The two functions undo each other where nothing of this gets in the way.
`SqlInlay.Proofs.Host.Layouts` and `SqlInlay.Proofs.Host.Inverses` say where that is.
-/

namespace SqlInlay.Host

open SqlInlay.Text

/-- The layout of a triple-quoted literal. -/
structure BlockLayout where
  /-- The indentation of every line. -/
  margin : Text
  /-- The content starts on the line behind the opening quotes. -/
  opensOnNewLine : Bool
  /-- The closing quotes have a line of their own. -/
  closesOnOwnLine : Bool
  /-- The indentation of that line. -/
  closingIndent : Text
deriving DecidableEq, Repr

/-- Line feeds without the carriage returns in front of them. -/
def dropReturns : Text → Text
  | [] => []
  | [c] => [c]
  | c :: d :: t => if c = '\r' ∧ d = '\n' then '\n' :: dropReturns t else c :: dropReturns (d :: t)

/-- The blanks that a line starts with. -/
def indentOf (line : Text) : Text := line.takeWhile isBlank

/-- What the indentations of some lines have in common, with one that is known already. -/
def marginOf : Option Text → List Text → Option Text
  | known, [] => known
  | none, l :: ls => marginOf (some (indentOf l)) ls
  | some m, l :: ls => marginOf (some (commonOpening m (indentOf l))) ls

/-- A line without the margin; a blank line has nothing left. -/
def unindent (margin line : Text) : Text :=
  if isBlankText line then [] else (after? margin line).getD line

/-- A blank that a line of a Java text block does not end in. -/
def isLineEndBlank (c : Char) : Bool := c == ' ' || c == '\t' || c == '\x0c'

/-- A content without its margin, and its layout. -/
def strip (content : Text) (stripTrailing : Bool) : Text × BlockLayout :=
  let content := dropReturns content
  let all := lines content
  let opensOnNewLine := all.length > 1 && all.head?.any isBlankText
  let body := if opensOnNewLine then all.drop 1 else all
  let closesOnOwnLine :=
    body.getLast?.any isBlankText && (body.length > 1 || opensOnNewLine)
  let closingIndent := if closesOnOwnLine then body.getLast?.getD [] else []
  let kept := if closesOnOwnLine then body.dropLast else body
  let inline := if opensOnNewLine then 0 else 1
  let known := if closesOnOwnLine then some closingIndent else none
  let margin := (marginOf known ((kept.drop inline).filter (!isBlankText ·))).getD []
  let bare := kept.take inline ++ (kept.drop inline).map (unindent margin)
  let trimmed := if stripTrailing then bare.map (trimEndWhile isLineEndBlank) else bare
  (unlines trimmed, ⟨margin, opensOnNewLine, closesOnOwnLine, closingIndent⟩)

/-- A line behind the margin; an empty line stays empty. -/
def indented (margin line : Text) : Text := if line.isEmpty then [] else margin ++ line

/-- The lines of a block laid out, the first of them inline or on a line of its own. -/
def layOutLines (block : BlockLayout) : List Text → List Text
  | [] => []
  | first :: rest =>
    (if block.opensOnNewLine then indented block.margin first else first) ::
      rest.map (indented block.margin)

/-- A text in a layout, to stand between the quotes. -/
def layOut (t : Text) (block : BlockLayout) : Text :=
  (if block.opensOnNewLine then ['\n'] else []) ++ unlines (layOutLines block (lines t)) ++
    if block.closesOnOwnLine then '\n' :: block.closingIndent else []

end SqlInlay.Host
