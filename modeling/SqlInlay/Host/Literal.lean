import SqlInlay.Host.Language
import SqlInlay.Sql.Script
import SqlInlay.Failure

/-!
# Query literals

A `Literal` is the string expression of a host language that an annotation takes as its query: one
quoted `Fragment` or several that the host joins.  Fragments are known by their spans, so that what
stands in the buffer is never copied.
-/

namespace SqlInlay.Host

/-- How a fragment is quoted. -/
inductive QuoteStyle where
  | single
  | double
  /-- Three quotes, over several lines. -/
  | triple
  /-- A single-line literal without escapes. -/
  | raw
deriving DecidableEq, Repr

/-- How a fragment is joined to the next one. -/
inductive Joiner where
  /-- By a plus sign. -/
  | concatenation
  /-- Side by side, over a line ended by a backslash. -/
  | lineContinuation
  /-- Side by side. -/
  | juxtaposition
deriving DecidableEq, Repr

/-- A quoted piece of a literal. -/
structure Fragment where
  /-- All of it, with its letters in front and its quotes. -/
  span : Span
  /-- What stands between the quotes. -/
  content : Span
  style : QuoteStyle
  /-- The letters in front of the opening quote. -/
  marker : Text
  delimiter : Text
  /-- The connection to the next fragment; none for the last. -/
  joiner : Option Joiner
deriving DecidableEq, Repr

/-- A letter that makes a literal raw is among the letters in front. -/
def hasRawLetter (marker : Text) : Bool := marker.any fun c => c == 'r' || c == 'R'

/-- Backslashes of the fragment stand for themselves. -/
def Fragment.isRaw (f : Fragment) (language : Language) : Bool :=
  f.style == .raw || hasRawLetter f.marker || (language == .kotlin && f.style == .triple)

/-- A query literal: its fragments in order. -/
structure Literal where
  /-- The annotation's name as it is written. -/
  name : Text
  /-- From the start of the first fragment to the end of the last. -/
  span : Span
  fragments : List Fragment
  dialect : Sql.Dialect
deriving DecidableEq, Repr

/-- What an annotation turned out to hold. -/
inductive Candidate where
  | literal (literal : Literal)
  /-- The annotation is looked for, but its query cannot be had. -/
  | skipped (span : Span) (failure : Failure)
deriving DecidableEq, Repr

/-- The source between neighbouring fragments. -/
def separators (buffer : Text) : List Fragment → List Text
  | f :: g :: fs => Text.slice f.span.stop g.span.start buffer :: separators buffer (g :: fs)
  | _ => []

end SqlInlay.Host
