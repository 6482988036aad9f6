import SqlInlay.Host.Language
import SqlInlay.Path

/-!
# Kinds of sources

How a buffer holds its queries: in literals of a host language, or as one query that is the whole
buffer.  The extension of a file's name tells which.
-/

namespace SqlInlay.Host

/-- The language of a file. -/
def Language.ofPath? (path : Text) : Option Language :=
  match Path.extension? path with
  | some extension => Language.ofExtension? (String.ofList extension)
  | none => none

/-- How a buffer holds its queries. -/
inductive SourceMode where
  /-- In the literals of annotations. -/
  | embedded (language : Language) (marks : Annotations)
  /-- The whole buffer is a query. -/
  | standalone
deriving DecidableEq, Repr

/-- How a file holds its queries; none for a file of any other kind. -/
def SourceMode.ofPath? (path : Text) (marks : Annotations) : Option SourceMode :=
  if Path.extension? path = some "sql".toList then some .standalone
  else (Language.ofPath? path).map (.embedded · marks)

end SqlInlay.Host
