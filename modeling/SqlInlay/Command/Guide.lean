import SqlInlay.Command.Arguments

/-!
# What is said instead of running

The guide to the command line, and the wording of what is wrong with one.  A call for help is
answered on the standard output and is no error; all else is.
-/

namespace SqlInlay.Command

/-- The lines of the guide. -/
def guide : List String :=
  ["🐙 Formatter for SQL/JPQL in @Query annotations and .sql files",
    "",
    "Usage: octoquery [OPTIONS] <COMMAND>",
    "",
    "Commands:",
    "  fmt <PATHS>...           Format .java, .kt, .kts, .py and .sql files in place",
    "  query [SQL]              Format a single query given as argument or on stdin",
    "  projection <NAME> [SQL]  Generate a projection interface from a SELECT list",
    "  help                     Print this help",
    "",
    "Options:",
    "      --config <CONFIG>                  Config file",
    "      --indent-width <INDENT_WIDTH>      Spaces per indentation level",
    "      --keyword-case <KEYWORD_CASE>      Keyword casing: preserve, upper, lower",
    "      --max-line-width <MAX_LINE_WIDTH>  Preferred maximum line width",
    "      --no-join-per-line                 Keep JOINs on the FROM line",
    "      --promote-text-blocks              Write multi-line Java strings as text blocks",
    "  -h, --help                             Print help",
    "  -V, --version                          Print version",
    "",
    "Options of fmt:",
    "      --check  Don't write; exit with 1 when a file would change",
    "      --diff   Print the changed lines",
    "      --json   Print edits and diagnostics as JSON",
    "",
    "Options of query:",
    "  -d, --dialect <DIALECT>  Query language: jpql, native",
    "",
    "Options of projection:",
    "  -p, --package <PACKAGE>  Java package of the interface"]

namespace Misuse

/-- The wording of a misuse. -/
def message : Misuse → String
  | noCommand => "a command is required"
  | unknownCommand word => "unrecognized command '" ++ String.ofList word ++ "'"
  | unknownOption word => "unexpected option '" ++ String.ofList word ++ "'"
  | noValue => "a value is required for an option, but none was supplied"
  | unwantedValue value => "unexpected value '" ++ String.ofList value ++ "' for an option"
  | invalidValue value => "invalid value '" ++ String.ofList value ++ "'"
  | repeated option => "'" ++ String.ofList option ++ "' is given more than once"
  | unexpectedOperand word => "unexpected argument '" ++ String.ofList word ++ "'"
  | noOperand => "an argument is missing"

end Misuse

namespace Stop

/-- The run is over without an error. -/
def isWanted : Stop → Bool
  | help | version => true
  | misuse _ => false

/-- What is printed. -/
def text : Stop → String
  | help => "\n".intercalate guide
  | version => "octoquery 0.3.0"
  | misuse cause => "error: " ++ cause.message

end Stop

end SqlInlay.Command
