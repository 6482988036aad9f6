import SqlInlay.Reformat

/-!
# Reports on files

What is shown of the files that were formatted, as lines: whether each changed, the lines that an
edit touches, and a warning for each literal that was left alone.  Lines and columns count from one,
columns in bytes.
-/

namespace SqlInlay.Command

/-- A file that was formatted. -/
structure FileReport where
  path : Text
  source : Text
  outcome : Outcome
deriving DecidableEq, Repr

namespace FileReport

/-- The file is different afterwards. -/
def isChanged (report : FileReport) : Bool := !report.outcome.isUnchanged

/-! ## Places -/

/-- What stands before an offset on its line. -/
def lineOpening (text : Text) (offset : Nat) : Text :=
  ((text.takeBytes offset).reverse.takeWhile (· ≠ '\n')).reverse

/-- The number of the line of an offset. -/
def lineNumber (text : Text) (offset : Nat) : Nat := Text.lineFeeds (text.takeBytes offset) + 1

/-- The column of an offset. -/
def column (text : Text) (offset : Nat) : Nat := Text.bytes (lineOpening text offset) + 1

/-- A number in decimal digits. -/
def decimal (n : Nat) : Text := Nat.toDigits 10 n

/-! ## Edits -/

/-- A line without the carriage return at its end. -/
def withoutReturn (line : Text) : Text := if line.getLast? = some '\r' then line.dropLast else line

/-- The lines of a text as they are shown.  A line feed ends a line, so there is no empty one behind
the last; a carriage return goes with the line feed that it stands before. -/
def shownLines (text : Text) : List Text :=
  let pieces := Text.lines text
  pieces.dropLast.map withoutReturn ++ (pieces.getLast?.filter (· ≠ [])).toList

/-- The whole lines that an edit touches, as they were and as they are. -/
def editLines (source : Text) (edit : Edit) : List Text :=
  let opening := lineOpening source edit.span.start
  let ending := (source.dropBytes edit.span.stop).takeWhile (· ≠ '\n')
  let old := opening ++ edit.span.of source ++ ending
  let new := opening ++ edit.replacement ++ ending
  ("@@ line ".toList ++ decimal (lineNumber source edit.span.start) ++ " @@".toList)
    :: (shownLines old).map ('-' :: ·) ++ (shownLines new).map ('+' :: ·)

/-- What is shown of a file: nothing, unless it changed.  `check` says that it was not written. -/
def changeLines (check diff : Bool) (report : FileReport) : List Text :=
  if report.isChanged then
    ((if check then "Would reformat: ".toList else "Reformatted: ".toList) ++ report.path)
      :: (if diff then report.outcome.edits.flatMap (editLines report.source) else [])
  else []

/-! ## Warnings -/

/-- The warning about a literal. -/
def warning (report : FileReport) (diagnostic : Diagnostic) : Text :=
  let offset := diagnostic.span.start
  "warning: ".toList ++ report.path
    ++ ':' :: decimal (lineNumber report.source offset)
    ++ ':' :: decimal (column report.source offset)
    ++ ' ' :: diagnostic.kind.label.toList
    ++ ' ' :: diagnostic.message.toList

/-- The warnings about a file. -/
def warnings (report : FileReport) : List Text :=
  report.outcome.diagnostics.map report.warning

/-! ## All files -/

/-- The line under all reports. -/
def summary (check : Bool) (reports : List FileReport) : Text :=
  let changed := reports.countP isChanged
  "✓ ".toList ++ (if check then "would reformat ".toList else "reformatted ".toList)
    ++ decimal changed ++ " file(s), ".toList ++ decimal (reports.length - changed)
    ++ " unchanged".toList

end FileReport

end SqlInlay.Command
