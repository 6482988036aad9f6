import SqlInlay.Host.Escape
import SqlInlay.Host.TextBlock
import SqlInlay.Style

/-!
# Literals and the queries they hold

`decode` reads the query text that a literal stands for, with `Hints` at how the literal is written.
`encode` writes a query text as a literal after such hints, so that decoding it gives the text back.
Hints are all that passes from the one to the other; the source is not looked at again.

**Several fragments.**  Fragments are joined by a space where two words would run together.  A text
is written with one fragment per line, separated as the first two were.  It is refused where the
separators hold comments, which would be lost, or where some fragment is triple-quoted.

**Blocks** keep their margin.  A text of several lines does not start right behind the opening
quotes of an indented block, for its other lines would be taken for unindented code (`blockFor`).

**Raw literals** have no escapes, so there are texts that cannot be written in them.
`rawLineFault?` and `rawBlockFault?` say why, and such a literal is left alone.

**Templates.**  A string of Kotlin that holds a template is no text that is known, and is not
decoded.

**Promotion.**  A Java string whose text comes to have several lines may become a text block, if the
style says so.  It is the one case in which a literal gets other quotes than it had.
-/

namespace SqlInlay.Host

open SqlInlay.Text

/-- How a literal is written. -/
structure Hints where
  language : Language
  /-- Style, letters and quotes of the first fragment. -/
  style : QuoteStyle
  marker : Text
  delimiter : Text
  raw : Bool
  fragmentCount : Nat
  /-- The source between the first two fragments. -/
  separator : Option Text
  /-- Some separator holds a comment. -/
  separatorComments : Bool
  /-- Some fragment is triple-quoted. -/
  hasTriple : Bool
  /-- The layout of the first triple-quoted fragment. -/
  block : Option BlockLayout
  /-- The indentation of the line that the literal starts on. -/
  lineIndent : Text
  /-- Some fragment spells characters by their code points. -/
  unicodeEscapes : Bool
deriving DecidableEq, Repr

/-- The quote character. -/
def Hints.quote (h : Hints) : Char := h.delimiter.head?.getD '"'

/-! ## Decoding -/

/-- The source between two fragments holds a comment. -/
def hasHostComment (language : Language) (separator : Text) : Bool :=
  match language with
  | .python => Text.contains "#" separator
  | .java | .kotlin => Text.contains "//" separator || Text.contains "/*" separator

/-- The indentation of the line that an offset lies on, as far as the offset. -/
def lineIndentAt (source : Text) (offset : Nat) : Text :=
  let line := ((takeBytes offset source).reverse.takeWhile (· ≠ '\n')).reverse
  line.takeWhile fun c => c == ' ' || c == '\t'

/-- What a fragment stands for, and the layout of a block. -/
def decodeFragment (source : Text) (language : Language) (f : Fragment) :
    Except Failure (Text × Option BlockLayout) :=
  let content := f.content.of source
  let raw := f.isRaw language
  let template := if language = .kotlin then templateFrom? raw f.content.start content else none
  match template with
  | some offset => .error (.notExtractable (.template offset))
  | none =>
    let (body, block) :=
      if f.style = .triple then
        let (body, block) := strip content (language == .java)
        (body, some block)
      else (content, none)
    if raw then .ok (body, block)
    else (unescape language f.content.start body).map (·, block)

/-- Two texts joined, with a space where two words would run together. -/
def joinTexts (s t : Text) : Text :=
  if s.getLast?.any (!isBlank ·) && t.head?.any (!isBlank ·) then s ++ ' ' :: t else s ++ t

/-- What fragments stand for together, behind the text `read` and the first block `block`. -/
def decodeFragments (source : Text) (language : Language) (read : Text)
    (block : Option BlockLayout) : List Fragment → Except Failure (Text × Option BlockLayout)
  | [] => .ok (read, block)
  | f :: fs =>
    match decodeFragment source language f with
    | .error failure => .error failure
    | .ok (t, layout) =>
      decodeFragments source language (joinTexts read t) (block <|> layout) fs

/-- How a literal with a first fragment `f` is written. -/
def hintsOf (source : Text) (language : Language) (l : Literal) (f : Fragment)
    (block : Option BlockLayout) : Hints :=
  let between := separators source l.fragments
  { language
    style := f.style
    marker := f.marker
    delimiter := f.delimiter
    raw := f.isRaw language
    fragmentCount := l.fragments.length
    separator := between.head?
    separatorComments := between.any (hasHostComment language)
    hasTriple := l.fragments.any (·.style == .triple)
    block
    lineIndent := lineIndentAt source l.span.start
    unicodeEscapes := l.fragments.any fun f =>
      !f.isRaw language && spellsCodePoints language (f.content.of source) }

/-- The query text of a literal, and how the literal is written. -/
def decode (source : Text) (language : Language) (l : Literal) : Except Failure (Text × Hints) :=
  match l.fragments with
  | [] => .error (.notExtractable .noFragments)
  | f :: _ =>
    (decodeFragments source language [] none l.fragments).map fun (t, block) =>
      (t, hintsOf source language l f block)

/-! ## Encoding -/

/-- A body between quotes. -/
def Hints.enclose (h : Hints) (body : Text) : Text :=
  h.marker ++ h.delimiter ++ body ++ h.delimiter

/-- Why a text cannot stand in a raw literal on one line. -/
def rawLineFault? (h : Hints) (t : Text) : Option Unwritable :=
  if t.any fun c => c == '\n' || c == '\r' then some .lineBreakInRaw
  else if t.any (· == h.quote) then some .quoteInRaw
  else if t.getLast? = some '\\' then some .trailingBackslashInRaw
  else none

/-- A text as a literal on one line. -/
def encodeLine (h : Hints) (t : Text) : Except Failure Text :=
  if h.raw then
    match rawLineFault? h t with
    | some fault => .error (.encodeUnsupported fault)
    | none => .ok (h.enclose t)
  else .ok (h.enclose (escape ⟨h.language, h.quote, false, false, h.unicodeEscapes⟩ t))

/-- Why a text cannot stand in a raw block. -/
def rawBlockFault? (h : Hints) (block : BlockLayout) (t : Text) : Option Unwritable :=
  if Text.contains h.delimiter t then some .delimiterInRaw
  else if h.language = .kotlin ∧ (templateFrom? true 0 t).isSome then some .templateInRaw
  else if h.language = .python ∧ !block.closesOnOwnLine
      ∧ (t.getLast? = some '\\' ∨ t.getLast? = some h.quote) then some .endOfRaw
  else none

/-- Every line behind the first starts with a blank, empty lines aside. -/
def laterLinesIndented (t : Text) : Bool :=
  ((lines t).drop 1).all fun l => l.isEmpty || l.head?.any fun c => c == ' ' || c == '\t'

/-- The layout in which a text is written: a text of several lines opens on a new line if the source
is indented or the text would lose a margin. -/
def blockFor (style : Style) (h : Hints) (block : BlockLayout) (t : Text) : BlockLayout :=
  let indentedSource := !h.lineIndent.isEmpty
  if !block.opensOnNewLine && t.any (· == '\n') && (indentedSource || laterLinesIndented t) then
    if indentedSource && block.margin.isEmpty then
      let margin := h.lineIndent ++ style.indent
      ⟨margin, true, true, margin⟩
    else { block with opensOnNewLine := true }
  else block

/-- A text as a triple-quoted literal. -/
def encodeBlock (style : Style) (h : Hints) (block : BlockLayout) (t : Text) :
    Except Failure Text :=
  let block := blockFor style h block t
  if h.raw then
    match rawBlockFault? h block t with
    | some fault => .error (.encodeUnsupported fault)
    | none => .ok (h.enclose (layOut t block))
  else
    let rule : EscapeRule := ⟨h.language, h.quote, true, !block.closesOnOwnLine, h.unicodeEscapes⟩
    .ok (h.enclose (layOut (escape rule t) block))

/-- The texts of the fragments that a text is written with: its lines, with their line feeds. -/
def pieces : List Text → List Text
  | l :: m :: ls => (l ++ ['\n']) :: pieces (m :: ls)
  | ls => ls

/-- Literals with separators between them. -/
def joinWith (separator : Text) : List Text → Text
  | l :: m :: ls => l ++ separator ++ joinWith separator (m :: ls)
  | [l] => l
  | [] => []

/-- A text as several literals, one per line. -/
def encodeSplit (h : Hints) (t : Text) : Except Failure Text :=
  if h.hasTriple then .error (.encodeUnsupported .tripleQuotedPieces)
  else if h.separatorComments then .error (.encodeUnsupported .commentsBetweenPieces)
  else
    ((pieces (lines t)).mapM (encodeLine h)).map (joinWith (h.separator.getD " + "))

/-- The layout of a text block that a string becomes. -/
def promotedLayout (style : Style) (h : Hints) : BlockLayout :=
  let margin := h.lineIndent ++ style.indent
  ⟨margin, true, true, margin⟩

/-- A query text as a literal that is written after hints. -/
def encode (style : Style) (h : Hints) (t : Text) : Except Failure Text :=
  if h.fragmentCount > 1 then encodeSplit h t
  else
    match h.block with
    | some block => encodeBlock style h block t
    | none =>
      if style.promoteTextBlocks && h.language == .java && h.style == .double
          && t.any (· == '\n') then
        encodeBlock style { h with style := .triple, delimiter := "\"\"\"" }
          (promotedLayout style h) t
      else encodeLine h t

end SqlInlay.Host
