import SqlInlay.Host.Codec
import SqlInlay.Host.Locate
import SqlInlay.Host.Source
import SqlInlay.Sql.Layout

/-!
# Reformatting a buffer

`formatSource` formats every query of a buffer and answers with edits; it changes nothing itself and
never fails.  Each literal is decoded, laid out and encoded on its own, and a literal for which some
stage fails is left alone and reported.

**Stages.**  `formatLiteral` is the way of one literal.  A query whose layout is the query itself is
not encoded again: a literal that is laid out stays as it is, however it is written.

**Queries of their own.**  A buffer that is one query is formatted whole; it keeps a line feed at
its end, and a blank one is left alone.

**Outcomes** are put together in the order of the source.  A candidate that was skipped where it was
found comes to a report in the same way as one that a later stage gave up on.
-/

namespace SqlInlay

/-- A literal that was left alone, and why. -/
structure Diagnostic where
  span : Span
  kind : Failure.Kind
  message : String
deriving DecidableEq, Repr

namespace Diagnostic

/-- The report of a failure; failures of a whole request have none. -/
def of? (span : Span) (failure : Failure) : Option Diagnostic :=
  failure.kind?.map fun kind => ⟨span, kind, failure.message⟩

end Diagnostic

/-- What formatting a buffer comes to, in source order. -/
structure Outcome where
  edits : List Edit
  diagnostics : List Diagnostic
deriving DecidableEq, Repr

namespace Outcome

/-- The buffer stays as it is. -/
def isUnchanged (o : Outcome) : Bool := o.edits.isEmpty

/-- The outcome of one stretch of a buffer. -/
def single (span : Span) : Except Failure (Option Edit) → Outcome
  | .ok edit => ⟨edit.toList, []⟩
  | .error failure => ⟨[], (Diagnostic.of? span failure).toList⟩

/-- Outcomes put together. -/
def concat (outcomes : List Outcome) : Outcome :=
  ⟨outcomes.flatMap (·.edits), outcomes.flatMap (·.diagnostics)⟩

end Outcome

/-- The edit of a buffer that is one query. -/
def formatStandalone (style : Style) (buffer : Nat) (source : Text) :
    Except Failure (Option Edit) :=
  if Text.isBlankText source then .ok none
  else
    (Sql.formatQuery style .native source).map fun formatted =>
      let ending : Text := if source.getLast? = some '\n' then ['\n'] else []
      Edit.between? source ⟨buffer, 0, Text.bytes source⟩ (formatted ++ ending)

/-- The edit of a literal. -/
def formatLiteral (style : Style) (language : Host.Language) (source : Text) (l : Host.Literal) :
    Except Failure (Option Edit) := do
  let (query, hints) ← Host.decode source language l
  let formatted ← Sql.formatQuery style l.dialect query
  if formatted = query then return none
  else
    let replacement ← Host.encode style hints formatted
    return Edit.between? source l.span replacement

/-- The outcome of a candidate. -/
def formatCandidate (style : Style) (language : Host.Language) (source : Text) :
    Host.Candidate → Outcome
  | .literal l => .single l.span (formatLiteral style language source l)
  | .skipped span failure => .single span (.error failure)

/-- The edits that format every query of a buffer, and reports of those that cannot be. -/
def formatSource (style : Style) (mode : Host.SourceMode) (buffer : Nat) (source : Text) :
    Outcome :=
  match mode with
  | .standalone =>
    .single ⟨buffer, 0, Text.bytes source⟩ (formatStandalone style buffer source)
  | .embedded language marks =>
    .concat ((Host.locate buffer language marks source).map (formatCandidate style language source))

end SqlInlay
