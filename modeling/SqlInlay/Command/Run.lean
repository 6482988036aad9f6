import SqlInlay.Command.Arguments
import SqlInlay.Command.Files
import SqlInlay.Command.Report
import SqlInlay.Projection
import SqlInlay.Settings

/-!
# Running a request

`Request.run` is a whole run as a function: of the files, of the environment and of the standard
input, to a `Reply` that says what is printed, what is written, and how the run exits.

**Formats.**  How a document of settings is read, and how reports are printed as data, is none of a
run's business: it is handed both (`Formats`), so that what holds of a run holds whatever they are.

**Settings.**  The file that is named counts; without one, the project's own, then the user's, and
then the defaults.  The command line overrides single settings.  What a file says has to be valid by
itself, and so has what comes out in the end.

**Files.**  Every file is formatted by itself.  With `check` nothing is written, and the run exits
with 1 exactly when some file would change.
-/

namespace SqlInlay.Command

/-- What the environment says about the places of settings. -/
structure Environment where
  /-- The settings file. -/
  config : Option Text := none
  /-- The user's directory of settings; it counts if it is an absolute path. -/
  configHome : Option Text := none
  /-- The user's directory. -/
  home : Option Text := none
deriving DecidableEq, Repr

/-- What a run comes to. -/
structure Reply where
  exit : Nat
  stdout : Text := []
  stderr : Text := []
  /-- The files to write, with their contents. -/
  writes : List (Text × Text) := []
deriving DecidableEq, Repr

/-! ## What ends a run -/

/-- Why a run ends without a result. -/
inductive Fault where
  | failure (cause : Failure)
  | configuration (cause : Failure)
  | noSuchPath (path : Text)
  | unreadable (what : Text) (cause : AccessFault)
  | unsupported (path : Text)
deriving DecidableEq, Repr

namespace Fault

/-- A failure with its causes; that of an input fault has the same wording. -/
def causes : Failure → String
  | .io detail => (Failure.io detail).message ++ ": " ++ detail
  | cause => cause.message

/-- The wording of a fault. -/
def message : Fault → String
  | failure cause => causes cause
  | configuration cause => "loading configuration: " ++ causes cause
  | noSuchPath path => "no such file or directory: " ++ String.ofList path
  | unreadable what cause => "reading " ++ String.ofList what ++ ": " ++ cause.message
  | unsupported path => "unsupported file type: " ++ String.ofList path

end Fault

namespace Reply

/-- Lines, each with its line feed. -/
def ended (lines : List Text) : Text := lines.flatMap (· ++ ['\n'])

/-- One text on the standard output. -/
def printed (text : Text) : Reply := { exit := 0, stdout := ended [text] }

/-- The end of a run by a fault. -/
def ofFault (fault : Fault) : Reply :=
  { exit := 2, stderr := ended ["Error: ".toList ++ fault.message.toList] }

/-- The reply of a task that gives a text or ends by a fault. -/
def ofText : Except Fault Text → Reply
  | .ok text => printed text
  | .error fault => ofFault fault

end Reply

/-! ## Formats -/

/-- How a run reads settings, and how it prints reports as data. -/
structure Formats where
  /-- The settings of a document; none if it is malformed. -/
  readSettings : Text → Option Settings
  /-- The lines of reports that are printed as data. -/
  printReports : List FileReport → List Text

/-! ## Settings -/

/-- The user's settings file. -/
def Environment.userConfig? (env : Environment) : Option Text :=
  let directory? :=
    match env.configHome, env.home with
    | some ('/' :: path), _ => some ('/' :: path)
    | _, some (c :: home) => some (Path.join (c :: home) ".config".toList)
    | _, _ => none
  directory?.map fun directory => Path.join directory "octoquery/config.toml".toList

/-- The settings files that count if none is named, the first one that is there. -/
def Environment.configs (env : Environment) : List Text :=
  "octoquery.toml".toList :: env.userConfig?.toList

/-- The settings of a file. -/
def settingsIn (formats : Formats) (files : Files) (path : Text) : Except Fault Settings :=
  match files.read path with
  | .error fault => .error (.configuration (.io fault.message))
  | .ok document => (Settings.parse formats.readSettings document).mapError .configuration

/-- The settings of the named file, or of the first of the usual ones, or the defaults. -/
def settingsFrom (formats : Formats) (files : Files) (env : Environment) (named : Option Text) :
    Except Fault Settings :=
  match named <|> env.configs.find? files.isFile with
  | some path => settingsIn formats files path
  | none => .ok {}

/-- A style with what the command line says instead. -/
def Overrides.apply (o : Overrides) (style : Style) : Style :=
  { indentWidth := o.indentWidth.getD style.indentWidth
    keywordCase := o.keywordCase.getD style.keywordCase
    maxLineWidth := o.maxLineWidth.getD style.maxLineWidth
    oneJoinPerLine := style.oneJoinPerLine && !o.noJoinPerLine
    promoteTextBlocks := style.promoteTextBlocks || o.promoteTextBlocks }

/-- The settings of a run. -/
def Overrides.settings (o : Overrides) (formats : Formats) (files : Files) (env : Environment) :
    Except Fault Settings := do
  let found ← settingsFrom formats files env o.config
  let settings := { found with style := o.apply found.style }
  settings.style.validate.mapError .failure
  return settings

/-! ## Files -/

/-- The sources under a path that a user gave. -/
def sourcesUnder (files : Files) (path : Text) : Except Fault (List (Text × Option Text)) :=
  match files path with
  | .ok node => .ok (node.sources path)
  | .error _ => .error (.noSuchPath path)

/-- The report on one file, which is the buffer of that number. -/
def reportOn (settings : Settings) (path : Text) (content : Option Text) (buffer : Nat) :
    Except Fault FileReport :=
  match content, Host.SourceMode.ofPath? path settings.marks with
  | none, _ => .error (.unreadable path .notText)
  | some _, none => .error (.unsupported path)
  | some source, some mode =>
    .ok ⟨path, source, formatSource settings.style mode buffer source⟩

/-- The text that a changed file is written with. -/
def FileReport.newContent? (report : FileReport) : Option Text :=
  if report.isChanged then (applyEdits report.outcome.edits report.source).toOption else none

/-- The files to write. -/
def writesOf (manner : Manner) (reports : List FileReport) : List (Text × Text) :=
  if manner.check then []
  else reports.filterMap fun report => report.newContent?.map (report.path, ·)

/-- What is printed about files that were formatted. -/
def replyOn (formats : Formats) (manner : Manner) (reports : List FileReport) : Reply where
  exit := if manner.check && reports.any (·.isChanged) then 1 else 0
  stdout := Reply.ended <|
    if manner.json then formats.printReports reports
    else
      reports.flatMap (·.changeLines manner.check manner.diff)
        ++ [FileReport.summary manner.check reports]
  stderr := Reply.ended (if manner.json then [] else reports.flatMap (·.warnings))
  writes := writesOf manner reports

/-- The first fault among results. -/
def firstFault? {α : Type} (results : List (Except Fault α)) : Option Fault :=
  results.findSome? fun | .error fault => some fault | .ok _ => none

/-- Files formatted.  One that cannot be read ends the run, but the others are written. -/
def reformat (formats : Formats) (settings : Settings) (files : Files) (paths : List Text)
    (manner : Manner) : Reply :=
  match paths.mapM (sourcesUnder files) with
  | .error fault => .ofFault fault
  | .ok found =>
    let sources := found.flatten
    let results := (Path.distinct (sources.map (·.1))).zipIdx.map fun (path, buffer) =>
      reportOn settings path (sources.lookup path).join buffer
    let reports := results.filterMap Except.toOption
    match firstFault? results with
    | none => replyOn formats manner reports
    | some fault => { Reply.ofFault fault with writes := writesOf manner reports }

/-! ## Requests -/

/-- The query of a task: the one given, or else the standard input, none where it is no text. -/
def queryText (sql input : Option Text) : Except Fault Text :=
  match sql, input with
  | some text, _ | none, some text => .ok text
  | none, none => .error (.unreadable "stdin".toList .notText)

namespace Request

/-- A request carried out. -/
def run (formats : Formats) (files : Files) (env : Environment) (input : Option Text)
    (request : Request) : Reply :=
  match request.overrides.settings formats files env with
  | .error fault => .ofFault fault
  | .ok settings =>
    match request.task with
    | .reformat paths manner => reformat formats settings files paths manner
    | .query sql dialect => .ofText do
      (Sql.formatQuery settings.style dialect (← queryText sql input)).mapError .failure
    | .projection name sql package => .ofText do
      (Projection.projection (← queryText sql input) name package).mapError .failure

/-- The paths that a request asks about. -/
def paths (env : Environment) (request : Request) : List Text :=
  (match request.overrides.config with
    | some path => [path]
    | none => env.configs) ++
  match request.task with
  | .reformat paths _ => paths
  | _ => []

end Request

end SqlInlay.Command
