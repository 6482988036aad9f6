import SqlInlay.Command.Json
import SqlInlay.Command.Run
import SqlInlay.Toml.Settings

/-!
# The formats of the program

A run takes its `Formats` as they are given.  Those of the program are TOML for settings and, for
reports, JSON laid out for people: an array of objects, one for each file, whose fields stand in the
order of the report.
-/

namespace SqlInlay.Command

namespace FileReport

/-- A span as data. -/
def spanJson (span : Span) : List Text :=
  Json.object
    [("buffer", Json.number span.buffer), ("start", Json.number span.start),
      ("end", Json.number span.stop)]

/-- An edit as data. -/
def editJson (edit : Edit) : List Text :=
  Json.object [("span", spanJson edit.span), ("replacement", Json.string edit.replacement)]

/-- A diagnostic as data. -/
def diagnosticJson (diagnostic : Diagnostic) : List Text :=
  Json.object
    [("span", spanJson diagnostic.span), ("kind", Json.string diagnostic.kind.label.toList),
      ("message", Json.string diagnostic.message.toList)]

/-- A report as data. -/
def json (report : FileReport) : List Text :=
  Json.object
    [("path", Json.string report.path), ("changed", Json.boolean report.isChanged),
      ("edits", Json.array (report.outcome.edits.map editJson)),
      ("diagnostics", Json.array (report.outcome.diagnostics.map diagnosticJson))]

end FileReport

/-- TOML for settings, and JSON for reports. -/
def Formats.standard : Formats where
  readSettings := Settings.ofToml?
  printReports reports := Json.array (reports.map (·.json))

end SqlInlay.Command
