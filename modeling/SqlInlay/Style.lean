import SqlInlay.Text.Casing
import SqlInlay.Failure

/-!
# The style of the output

A `Style` is what a user may choose about the layout: the width of an indentation step, the case of
keywords, the line width aimed at, whether each join has a line of its own, and whether a Java
string that comes to span several lines becomes a text block.
-/

namespace SqlInlay

/-- The case in which keywords are written. -/
inductive KeywordCase where
  | preserve
  | upper
  | lower
deriving DecidableEq, Repr

/-- A word in the chosen case. -/
def KeywordCase.apply : KeywordCase → Text → Text
  | preserve, word => word
  | upper, word => word.toUpper
  | lower, word => word.toLower

/-- The choices of a user. -/
structure Style where
  indentWidth : Nat := 4
  keywordCase : KeywordCase := .upper
  maxLineWidth : Nat := 100
  oneJoinPerLine : Bool := true
  promoteTextBlocks : Bool := false
deriving DecidableEq, Repr

namespace Style

/-- Refuses widths of zero, the indentation first. -/
def validate (s : Style) : Except Failure Unit :=
  if s.indentWidth = 0 then .error (.settings .zeroIndent)
  else if s.maxLineWidth = 0 then .error (.settings .zeroWidth)
  else .ok ()

/-- The blanks of one indentation step. -/
def indent (s : Style) : Text := Text.fill s.indentWidth ' '

end Style

end SqlInlay
