import SqlInlay.Sql.Script
import SqlInlay.Style

/-!
# The command line

`Request.read` turns the words of a command line into a `Request`, or into the reason to `Stop`
before anything is run.

**Words.**  A word is an option by its long name, a cluster of one-letter options, the two dashes
behind which every word is an operand, or an operand.  The value of an option stands behind an
equals sign or is the next word, which then cannot look like an option; a lone dash does not.

**Two levels.**  The options about style may stand before the command or behind it.  Behind it wins
where both are given; a value is given once at each level.  Words are read in order, so the first
thing that is wrong, or the first call for help, is what is answered.
-/

namespace SqlInlay.Command

/-! ## What can be asked for -/

/-- The commands. -/
inductive Verb where
  | reformat
  | query
  | projection
deriving DecidableEq, Repr

/-- Options that are there or not. -/
inductive Flag where
  | noJoinPerLine
  | promoteTextBlocks
  | check
  | diff
  | json
deriving DecidableEq, Repr

/-- Options that take a value. -/
inductive Slot where
  | config
  | indentWidth
  | keywordCase
  | maxLineWidth
  | dialect
  | package
deriving DecidableEq, Repr

/-- An option with its value. -/
inductive Choice where
  | config (path : Text)
  | indentWidth (width : Nat)
  | keywordCase (keywordCase : KeywordCase)
  | maxLineWidth (width : Nat)
  | dialect (dialect : Sql.Dialect)
  | package (name : Text)
deriving DecidableEq, Repr

/-- The option that a choice is of. -/
def Choice.slot : Choice → Slot
  | config _ => .config
  | indentWidth _ => .indentWidth
  | keywordCase _ => .keywordCase
  | maxLineWidth _ => .maxLineWidth
  | dialect _ => .dialect
  | package _ => .package

namespace Verb

/-- The word for a command. -/
def word : Verb → String
  | reformat => "fmt"
  | query => "query"
  | projection => "projection"

/-- All commands. -/
def all : List Verb := [reformat, query, projection]

/-- The command that a word names. -/
def named? (word : Text) : Option Verb := all.find? (·.word.toList == word)

/-- The number of operands that a command takes; none where any number will do. -/
def operandLimit? : Verb → Option Nat
  | reformat => none
  | query => some 1
  | projection => some 2

end Verb

/-- The flags known at a level, by their long names; the level is a command, or what stands before
it. -/
def flagsOf (level : Option Verb) : List (Text × Flag) :=
  [("no-join-per-line".toList, .noJoinPerLine),
    ("promote-text-blocks".toList, .promoteTextBlocks)] ++
  match level with
  | some .reformat =>
    [("check".toList, .check), ("diff".toList, .diff), ("json".toList, .json)]
  | _ => []

/-- The options with values known at a level, by their long names. -/
def slotsOf (level : Option Verb) : List (Text × Slot) :=
  [("config".toList, .config), ("indent-width".toList, .indentWidth),
    ("keyword-case".toList, .keywordCase), ("max-line-width".toList, .maxLineWidth)] ++
  match level with
  | some .query => [("dialect".toList, .dialect)]
  | some .projection => [("package".toList, .package)]
  | _ => []

/-- The option with a value that a letter stands for. -/
def slotOfLetter? (level : Option Verb) (letter : Char) : Option Slot :=
  match level, letter with
  | some .query, 'd' => some .dialect
  | some .projection, 'p' => some .package
  | _, _ => none

/-! ## Values -/

/-- A width: digits, perhaps with a plus in front, that fit 64 bits. -/
def width? (t : Text) : Option Nat :=
  let digits :=
    match t with
    | '+' :: rest => rest
    | _ => t
  if digits.isEmpty || !digits.all Char.isDigit then none
  else
    let n := digits.foldl (fun n c => 10 * n + (c.toNat - 48)) 0
    if n ≤ 0xffffffffffffffff then some n else none

/-- A path; the empty text is none. -/
def path? (t : Text) : Option Text := if t.isEmpty then none else some t

/-- The keyword case of a name. -/
def caseNamed? (name : Text) : Option KeywordCase :=
  [("preserve".toList, .preserve), ("upper".toList, .upper), ("lower".toList, .lower)].lookup name

/-- The dialect of a name. -/
def dialectNamed? (name : Text) : Option Sql.Dialect :=
  [("jpql".toList, .jpql), ("native".toList, .native)].lookup name

/-- The value of an option as it is written. -/
def Slot.read? : Slot → Text → Option Choice
  | config, t => (path? t).map .config
  | indentWidth, t => (width? t).map .indentWidth
  | keywordCase, t => (caseNamed? t).map .keywordCase
  | maxLineWidth, t => (width? t).map .maxLineWidth
  | dialect, t => (dialectNamed? t).map .dialect
  | package, t => some (.package t)

/-! ## Words -/

/-- What a word looks like. -/
inductive Word where
  | long (name : Text) (value : Option Text)
  | letters (cluster : Text)
  | dashes
  | operand (text : Text)
deriving DecidableEq, Repr

/-- The look of a word. -/
def Word.of : Text → Word
  | ['-', '-'] => .dashes
  | '-' :: '-' :: body =>
    let name := body.takeWhile (· ≠ '=')
    match body.drop name.length with
    | _ :: value => .long name (some value)
    | [] => .long name none
  | '-' :: first :: more => .letters (first :: more)
  | t => .operand t

/-- What is wrong with a command line. -/
inductive Misuse where
  | noCommand
  | unknownCommand (word : Text)
  | unknownOption (word : Text)
  | noValue
  | unwantedValue (value : Text)
  | invalidValue (value : Text)
  | repeated (option : Text)
  | unexpectedOperand (word : Text)
  | noOperand
deriving DecidableEq, Repr

/-- Why nothing is run. -/
inductive Stop where
  | help
  | version
  | misuse (cause : Misuse)
deriving DecidableEq, Repr

/-- What has been given at one level. -/
structure Given where
  flags : List Flag := []
  choices : List Choice := []
  operands : List Text := []
  /-- The option whose value is the next word. -/
  awaiting : Option Slot := none
  /-- The two dashes are passed. -/
  verbatim : Bool := false
deriving DecidableEq, Repr

namespace Given

/-- A value given to an option that has none yet. -/
def give (given : Given) (slot : Slot) (value : Text) : Except Stop Given :=
  match slot.read? value with
  | none => .error (.misuse (.invalidValue value))
  | some choice =>
    if given.choices.any (·.slot == slot) then .error (.misuse (.repeated value))
    else .ok { given with choices := given.choices ++ [choice], awaiting := none }

/-- A flag set that is not set yet. -/
def raise (given : Given) (name : Text) (flag : Flag) : Except Stop Given :=
  if given.flags.contains flag then .error (.misuse (.repeated name))
  else .ok { given with flags := given.flags ++ [flag] }

/-- An operand of a command that has room for it.  A file cannot have the empty name. -/
def addOperand (given : Given) (level : Option Verb) (word : Text) : Except Stop Given :=
  match level with
  | none => .error (.misuse (.unexpectedOperand word))
  | some verb =>
    if verb.operandLimit?.any (· ≤ given.operands.length) then
      .error (.misuse (.unexpectedOperand word))
    else if verb = .reformat ∧ word = [] then .error (.misuse (.invalidValue word))
    else .ok { given with operands := given.operands ++ [word] }

/-- An option by its long name. -/
def takeLong (given : Given) (level : Option Verb) (name : Text) (value : Option Text) :
    Except Stop Given :=
  match (slotsOf level).lookup name, value with
  | some slot, some value => given.give slot value
  | some slot, none => .ok { given with awaiting := some slot }
  | none, some value => .error (.misuse (.unwantedValue value))
  | none, none =>
    match (flagsOf level).lookup name with
    | some flag => given.raise name flag
    | none =>
      if name = "help".toList then .error .help
      else if name = "version".toList ∧ level = none then .error .version
      else .error (.misuse (.unknownOption name))

/-- A cluster of letters.  No flag has a letter, so a cluster is done with its first: the rest, less
an equals sign in front, is its value. -/
def takeLetters (given : Given) (level : Option Verb) : Text → Except Stop Given
  | [] => .ok given
  | letter :: rest =>
    match slotOfLetter? level letter, rest with
    | some slot, [] => .ok { given with awaiting := some slot }
    | some slot, '=' :: value => given.give slot value
    | some slot, value => given.give slot value
    | none, _ =>
      if letter = 'h' then .error .help
      else if letter = 'V' ∧ level = none then .error .version
      else .error (.misuse (.unknownOption [letter]))

/-- One more word at a level. -/
def take (level : Option Verb) (given : Given) (word : Text) : Except Stop Given :=
  if given.verbatim then given.addOperand level word
  else
    match given.awaiting, Word.of word with
    | some slot, .operand value => given.give slot value
    | some _, _ => .error (.misuse .noValue)
    | none, .long name value => given.takeLong level name value
    | none, .letters cluster => given.takeLetters level cluster
    | none, .dashes => .ok { given with verbatim := true }
    | none, .operand operand => given.addOperand level operand

/-- The next word is the command, if it is no option. -/
def awaitsCommand (given : Given) : Bool := !given.verbatim && given.awaiting.isNone

end Given

/-! ## Requests -/

/-- What a user may set on the command line instead of in a file. -/
structure Overrides where
  config : Option Text := none
  indentWidth : Option Nat := none
  keywordCase : Option KeywordCase := none
  maxLineWidth : Option Nat := none
  noJoinPerLine : Bool := false
  promoteTextBlocks : Bool := false
deriving DecidableEq, Repr

/-- How the files of a request are treated. -/
structure Manner where
  /-- Nothing is written. -/
  check : Bool := false
  /-- The changed lines are shown. -/
  diff : Bool := false
  /-- The reports are written as JSON. -/
  json : Bool := false
deriving DecidableEq, Repr

/-- What is to be done.  A query that is not given is read from the standard input. -/
inductive Task where
  | reformat (paths : List Text) (manner : Manner)
  | query (sql : Option Text) (dialect : Sql.Dialect)
  | projection (name : Text) (sql : Option Text) (package : Option Text)
deriving DecidableEq, Repr

/-- The text has to be read from the standard input. -/
def Task.needsInput : Task → Bool
  | query sql _ | projection _ sql _ => sql.isNone
  | reformat _ _ => false

/-- A command line that makes sense. -/
structure Request where
  task : Task
  overrides : Overrides
deriving DecidableEq, Repr

namespace Request

/-- The style that a command line asks for: the first choice for each option counts. -/
def overridesOf (choices : List Choice) (flags : List Flag) : Overrides where
  config := choices.findSome? fun | .config path => some path | _ => none
  indentWidth := choices.findSome? fun | .indentWidth n => some n | _ => none
  keywordCase := choices.findSome? fun | .keywordCase c => some c | _ => none
  maxLineWidth := choices.findSome? fun | .maxLineWidth n => some n | _ => none
  noJoinPerLine := flags.contains .noJoinPerLine
  promoteTextBlocks := flags.contains .promoteTextBlocks

/-- The task of a command with its options and operands. -/
def taskOf (verb : Verb) (given : Given) : Except Stop Task :=
  match verb, given.operands with
  | .reformat, path :: paths =>
    .ok (.reformat (path :: paths)
      { check := given.flags.contains .check
        diff := given.flags.contains .diff
        json := given.flags.contains .json })
  | .query, operands =>
    let dialect? := given.choices.findSome? fun | .dialect d => some d | _ => none
    .ok (.query operands.head? (dialect?.getD .native))
  | .projection, name :: operands =>
    let package := given.choices.findSome? fun | .package p => some p | _ => none
    .ok (.projection name operands.head? package)
  | _, [] => .error (.misuse .noOperand)

/-- Help was asked for by the command for it, perhaps on one command. -/
def readHelp (words : List Text) : Stop :=
  match words with
  | [] => .help
  | [word] =>
    if (Verb.named? word).isSome ∨ word = "help".toList then .help
    else .misuse (.unknownCommand word)
  | word :: _ => .misuse (.unknownCommand word)

/-- The options in front of the command, the command, and what stands behind it. -/
def readLevels (outer : Given) : List Text → Except Stop (Given × Verb × Given)
  | [] => .error (.misuse .noCommand)
  | word :: words =>
    match outer.awaitsCommand, Word.of word with
    | true, .operand name =>
      match Verb.named? name with
      | some verb => (words.foldlM (Given.take (some verb)) {}).map (outer, verb, ·)
      | none =>
        .error (if name = "help".toList then readHelp words else .misuse (.unknownCommand name))
    | _, _ => do readLevels (← outer.take none word) words

/-- The request of a command line.  `config` is the settings file that the environment names; it
counts where the command line names none, and cannot have the empty name. -/
def read (config : Option Text) (words : List Text) : Except Stop Request := do
  let (outer, verb, inner) ← readLevels {} words
  if inner.awaiting.isSome then throw (.misuse .noValue)
  let named (given : Given) : Bool := given.choices.any (·.slot == .config)
  if config = some [] ∧ !(named outer && named inner) then throw (.misuse (.invalidValue []))
  let task ← taskOf verb inner
  let overrides := overridesOf (inner.choices ++ outer.choices) (inner.flags ++ outer.flags)
  return { task, overrides := { overrides with config := overrides.config <|> config } }

end Request

end SqlInlay.Command
