import SqlInlay.Span

/-!
# What can go wrong

A `Failure` is a cause, not a text: each stage has an inductive type of the ways in which it gives
up, and `Failure.message` is the one place that words them.  What is proved of a stage can therefore
name the cause, and a change of wording touches no proof.

**Two reaches.**  Failures of a single literal or query have a `Kind`, under which they are reported
while the rest of the buffer is still formatted; `kind?` is `none` for the failures of a whole
request.

**Offsets** in a failure are those of the text that the stage was given: of the query for lexing and
segmenting, of the source for decoding.
-/

namespace SqlInlay

/-- A delimited token that is never closed. -/
inductive Unterminated where
  | blockComment
  | stringLiteral
  | quotedIdentifier
deriving DecidableEq, Repr

/-- The two ways in which parentheses fail to balance. -/
inductive Imbalance where
  | unmatchedClosing
  | unclosedOpening
deriving DecidableEq, Repr

/-- Why an annotation yields no query text. -/
inductive Obstacle where
  | noArgumentList (name : Text)
  | unterminatedArguments
  | noQueryArgument (name : Text)
  | unterminatedString (offset : Nat)
  | notString
  | notPlainString
  | interpolated
  | bytesLiteral
  | template (offset : Nat)
  | noFragments
deriving DecidableEq, Repr

/-- What is wrong with an escape sequence. -/
inductive EscapeFault where
  | dangling
  | unknown (character : Char)
  | hexDigits (expected : Nat)
  | codePoint (code : Nat)
  | unpairedSurrogate
  | named
deriving DecidableEq, Repr

/-- Why a text cannot be written in the style of a literal. -/
inductive Unwritable where
  | lineBreakInRaw
  | quoteInRaw
  | trailingBackslashInRaw
  | delimiterInRaw
  | templateInRaw
  | endOfRaw
  | tripleQuotedPieces
  | commentsBetweenPieces
deriving DecidableEq, Repr

/-- Why a batch of edits is refused. -/
inductive BatchFault where
  | overlap (first second : Span)
  | outside (span : Span)
deriving DecidableEq, Repr

/-- Why no projection interface can be made. -/
inductive ProjectionFault where
  | noSelect
  | noAlias
  | emptyName
deriving DecidableEq, Repr

/-- Why settings are refused. -/
inductive SettingsFault where
  | malformed
  | zeroIndent
  | zeroWidth
deriving DecidableEq, Repr

/-- A failure with its cause; offsets are bytes of the query text for the lexical and structural
failures, bytes of the buffer for escapes. -/
inductive Failure where
  | notExtractable (cause : Obstacle)
  | lexical (offset : Nat) (cause : Unterminated)
  | structural (offset : Nat) (cause : Imbalance)
  | unsupportedEscape (offset : Nat) (cause : EscapeFault)
  | encodeUnsupported (cause : Unwritable)
  | invalidEdits (cause : BatchFault)
  | projection (cause : ProjectionFault)
  | settings (cause : SettingsFault)
  | io (detail : String)
deriving DecidableEq, Repr

/-! ## Wording -/

/-- A number in lower-case hexadecimal digits. -/
def hexText (n : Nat) : Text := Nat.toDigits 16 n

namespace Unterminated

/-- The wording of a lexical failure. -/
def message : Unterminated → String
  | blockComment => "unterminated block comment"
  | stringLiteral => "unterminated string literal"
  | quotedIdentifier => "unterminated quoted identifier"

end Unterminated

namespace Imbalance

/-- The wording of a structural failure. -/
def message : Imbalance → String
  | unmatchedClosing => "unmatched ')'"
  | unclosedOpening => "unclosed '('"

end Imbalance

namespace Obstacle

/-- The wording of an obstacle. -/
def message : Obstacle → String
  | noArgumentList name => "@" ++ String.ofList name ++ " has no argument list"
  | unterminatedArguments => "unterminated argument list"
  | noQueryArgument name => "@" ++ String.ofList name ++ " has no query argument"
  | unterminatedString offset => "unterminated string literal at offset " ++ toString offset
  | notString => "argument is not a string literal"
  | notPlainString => "argument is not a plain string literal"
  | interpolated => "f-strings are not supported"
  | bytesLiteral => "bytes literals are not supported"
  | template offset => "string template at offset " ++ toString offset
  | noFragments => "literal has no fragments"

end Obstacle

namespace EscapeFault

/-- The wording of a faulty escape sequence. -/
def message : EscapeFault → String
  | dangling => "dangling backslash"
  | unknown character => "unknown escape `\\" ++ character.toString ++ "`"
  | hexDigits expected => "expected " ++ toString expected ++ " hex digits"
  | codePoint code => "invalid code point 0x" ++ String.ofList (hexText code)
  | unpairedSurrogate => "unpaired surrogate"
  | named => "named unicode escapes are not supported"

end EscapeFault

namespace Unwritable

/-- The wording of a text that does not fit its literal. -/
def message : Unwritable → String
  | lineBreakInRaw => "line break in a single-line raw string"
  | quoteInRaw => "quote character in a raw string"
  | trailingBackslashInRaw => "trailing backslash in a raw string"
  | delimiterInRaw => "closing delimiter in a raw string"
  | templateInRaw => "`$` template start in a raw string"
  | endOfRaw => "raw string cannot end with this character"
  | tripleQuotedPieces => "triple-quoted fragments cannot be re-split"
  | commentsBetweenPieces => "comments between fragments cannot be redistributed"

end Unwritable

namespace BatchFault

/-- The wording of a refused batch. -/
def message : BatchFault → String
  | overlap first second => "edits at " ++ first.display ++ " and " ++ second.display ++ " overlap"
  | outside span => "edit at " ++ span.display ++ " is outside the buffer"

end BatchFault

namespace ProjectionFault

/-- The wording of a projection that cannot be made. -/
def message : ProjectionFault → String
  | noSelect => "no SELECT clause found"
  | noAlias => "no `AS <alias>` found in the SELECT list"
  | emptyName => "interface name is empty"

end ProjectionFault

namespace SettingsFault

/-- The wording of refused settings. -/
def message : SettingsFault → String
  | malformed => "TOML parse error"
  | zeroIndent => "indent_width must be greater than 0"
  | zeroWidth => "max_line_width must be greater than 0"

end SettingsFault

namespace Failure

/-- The whole message of a failure. -/
def message : Failure → String
  | notExtractable cause => "Literal not extractable: " ++ cause.message
  | lexical offset cause => "Lexical error at offset " ++ toString offset ++ ": " ++ cause.message
  | structural offset cause =>
    "Structural error at offset " ++ toString offset ++ ": " ++ cause.message
  | unsupportedEscape offset cause =>
    "Unsupported escape at offset " ++ toString offset ++ ": " ++ cause.message
  | encodeUnsupported cause => "Cannot encode literal: " ++ cause.message
  | invalidEdits cause => "Invalid edit batch: " ++ cause.message
  | projection cause => "Projection error: " ++ cause.message
  | settings cause => "Configuration error: " ++ cause.message
  | io detail => "IO error: " ++ detail

/-- The kinds under which failures of one literal are reported. -/
inductive Kind where
  | literalNotExtractable
  | lexicalError
  | structuralError
  | unsupportedEscape
  | encodeUnsupported
deriving DecidableEq, Repr

/-- The reported name of a kind. -/
def Kind.label : Kind → String
  | literalNotExtractable => "LITERAL_NOT_EXTRACTABLE"
  | lexicalError => "LEXICAL_ERROR"
  | structuralError => "STRUCTURAL_ERROR"
  | unsupportedEscape => "UNSUPPORTED_ESCAPE"
  | encodeUnsupported => "ENCODE_UNSUPPORTED"

/-- The query text itself could not be read. -/
def Kind.isUnparseable : Kind → Bool
  | lexicalError | structuralError => true
  | _ => false

/-- The kind of a failure that concerns one literal only. -/
def kind? : Failure → Option Kind
  | notExtractable _ => some .literalNotExtractable
  | lexical _ _ => some .lexicalError
  | structural _ _ => some .structuralError
  | unsupportedEscape _ _ => some .unsupportedEscape
  | encodeUnsupported _ => some .encodeUnsupported
  | invalidEdits _ | projection _ | settings _ | io _ => none

end Failure

/-- What has come to a result goes on with it. -/
@[simp] theorem ok_bind {ε α β : Type} (a : α) (f : α → Except ε β) : (.ok a >>= f) = f a := rfl

end SqlInlay
