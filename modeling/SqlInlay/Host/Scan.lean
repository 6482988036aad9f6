import SqlInlay.Host.Cursor
import SqlInlay.Host.Literal
import SqlInlay.Text.Blank

/-!
# Comments and strings of host source

As much of the lexing of the host languages as it takes to step over comments and literals without
reading their contents as code.  What stands in them must not be taken for an annotation, and a
quote in a comment must not open a string.

**Counting characters.**  The recognizers look at the text behind a place and say how many
characters something covers.  Where it is known that the first one belongs to it, they say how many
*further* ones do, so a step that is made of them always gets on.

**Strings.**  `quoted?` tells three cases apart: no string starts here, a string starts and never
closes, or a string starts and here are its parts.  One that never closes is passed to the end of
its line, where code is expected again.

**Contents.**  What ends a string depends on the language and the quotes, and `ContentRule` is all
that the scan of a content asks of them.  Where templates are stepped over, a quote in one closes
nothing; where the last quotes of a run close, the quotes in front of them belong to the content.

**Letters** in front of a string belong to it in Python, if no word goes on there.  That is why the
character in front of a place goes along.
-/

namespace SqlInlay.Host

open SqlInlay.Text

/-! ## Comments -/

/-- The characters before the end of the line. -/
def lineLength (t : Text) : Nat := (t.takeWhile (· ≠ '\n')).length

/-- The characters of a block comment, of which `depth` are open; to the end of the text if it is
never closed. -/
def blockLength (nested : Bool) (depth : Nat) : Text → Nat
  | [] => 0
  | [_] => 1
  | c :: d :: t =>
    if c = '/' ∧ d = '*' ∧ (depth = 0 ∨ nested) then 2 + blockLength nested (depth + 1) t
    else if c = '*' ∧ d = '/' then if depth ≤ 1 then 2 else 2 + blockLength nested (depth - 1) t
    else 1 + blockLength nested depth (d :: t)

/-- The further characters of a comment that starts with `c`.  Block comments nest in Kotlin. -/
def commentTail? (language : Language) (c : Char) (t : Text) : Option Nat :=
  match language with
  | .python => if c = '#' then some (lineLength t) else none
  | .java | .kotlin =>
    if c = '/' then
      match t with
      | '/' :: _ => some (lineLength t)
      | '*' :: _ => some (blockLength (language == .kotlin) 0 (c :: t) - 1)
      | _ => none
    else none

/-- The characters of a line feed, with a carriage return in front of it. -/
def lineBreakLength? : Text → Option Nat
  | '\n' :: _ => some 1
  | '\r' :: '\n' :: _ => some 2
  | _ => none

/-- The characters of white space and comments, and whether a line ended by a backslash is among
them, which is white space in Python. -/
def trivia (language : Language) : Text → Nat × Bool
  | [] => (0, false)
  | c :: t =>
    if isBlank c then
      let (n, continued) := trivia language t
      (n + 1, continued)
    else if c = '\\' ∧ language = .python then
      match lineBreakLength? t with
      | none => (0, false)
      | some k => ((trivia language (t.drop k)).1 + k + 1, true)
    else
      match commentTail? language c t with
      | none => (0, false)
      | some k =>
        let (n, continued) := trivia language (t.drop k)
        (n + k + 1, continued)
termination_by t => t.length
decreasing_by all_goals simp only [List.length_cons, List.length_drop]; omega

namespace Cursor

/-- Behind any white space and comments. -/
def skipTrivia (c : Cursor) (language : Language) : Cursor := c.advance (trivia language c.rest).1

end Cursor

/-! ## Strings -/

/-- The parts of a string as the source has it. -/
structure Quoted where
  /-- The letters in front. -/
  marker : Text
  delimiter : Text
  content : Text
deriving DecidableEq, Repr

namespace Quoted

/-- The source text of the string. -/
def source (q : Quoted) : Text := q.marker ++ q.delimiter ++ q.content ++ q.delimiter

/-- The string has three quotes at each end. -/
def isTriple (q : Quoted) : Bool := q.delimiter.length == 3

/-- How the string is quoted. -/
def style (q : Quoted) (language : Language) : QuoteStyle :=
  if q.isTriple then .triple
  else if language = .python ∧ hasRawLetter q.marker then .raw
  else if q.delimiter = "'" then .single
  else .double

end Quoted

/-- The letters in front of a Python string; none behind a word or where no quote follows. -/
def pythonMarker (before : Option Char) (t : Text) : Text :=
  if before.any isHostWordChar then []
  else
    let letters := (t.take 2).takeWhile ("rRbBuUfF".toList.contains ·)
    match t.drop letters.length with
    | c :: _ => if c = '"' ∨ c = '\'' then letters else []
    | [] => []

/-- The letters in front of a string. -/
def markerOf (language : Language) (before : Option Char) (t : Text) : Text :=
  match language with
  | .python => pythonMarker before t
  | .java | .kotlin => []

/-- The quotes that open a string. -/
def delimiter? (language : Language) (t : Text) : Option Text :=
  if opensWith "\"\"\"" t then some "\"\"\""
  else if language = .python ∧ opensWith "'''" t then some "'''"
  else if opensWith "\"" t then some "\""
  else if language = .python ∧ opensWith "'" t then some "'"
  else none

/-- The characters of a template expression behind its dollar sign, braces balanced; it ends at the
end of the line if they are not. -/
def templateTail (depth : Nat) : Text → Nat
  | [] => 0
  | c :: t =>
    if c = '{' then 1 + templateTail (depth + 1) t
    else if c = '}' then if depth ≤ 1 then 1 else 1 + templateTail (depth - 1) t
    else if c = '\n' then 0
    else 1 + templateTail depth t

/-- What the scan of a string's content depends on. -/
structure ContentRule where
  /-- The closing quotes. -/
  delimiter : Text
  /-- A backslash protects the next character. -/
  escapes : Bool
  /-- Line feeds may stand in the content. -/
  multiline : Bool
  /-- Template expressions are stepped over. -/
  templates : Bool
  /-- The last quotes of a run close, not the first. -/
  lastQuotes : Bool
deriving DecidableEq, Repr

/-- The rule of a language for some quotes. -/
def ContentRule.of (language : Language) (delimiter : Text) : ContentRule :=
  let triple := delimiter.length == 3
  let kotlin := language == .kotlin
  { delimiter
    escapes := !(kotlin && triple)
    multiline := triple
    templates := kotlin && !triple
    lastQuotes := kotlin && triple }

/-- The content of a string, read up to its closing quotes; none if they are missing. -/
def content? (rule : ContentRule) : Text → Option Text
  | [] => none
  | c :: t =>
    if c = '\\' ∧ rule.escapes then
      match t with
      | [] => none
      | d :: u => (content? rule u).map (c :: d :: ·)
    else if c = '\n' ∧ !rule.multiline then none
    else if rule.templates ∧ opensWith "$\x7b" (c :: t) then
      let n := templateTail 0 t
      (content? rule (t.drop n)).map (c :: t.take n ++ ·)
    else
      match after? rule.delimiter (c :: t) with
      | some rest => some (if rule.lastQuotes then rest.takeWhile (· = '"') else [])
      | none => (content? rule t).map (c :: ·)
termination_by t => t.length
decreasing_by
  · simp only [List.length_cons]; omega
  · simp only [List.length_cons, List.length_drop]; omega
  · simp only [List.length_cons]; omega

/-- The string that starts at a place: none where no string starts, and no parts where the string
never closes.  `before` is the character in front. -/
def quoted? (language : Language) (before : Option Char) (t : Text) : Option (Option Quoted) :=
  let marker := markerOf language before t
  let behind := t.drop marker.length
  (delimiter? language behind).map fun delimiter =>
    (content? (.of language delimiter) (behind.drop delimiter.length)).map
      (⟨marker, delimiter, ·⟩)

theorem ne_nil_of_delimiter? {language : Language} {t delimiter : Text}
    (h : delimiter? language t = some delimiter) : delimiter ≠ [] := by
  unfold delimiter? at h
  repeat' split at h
  all_goals first
    | (cases h; decide)
    | cases h

/-- A string has quotes, so it covers some of the source. -/
theorem length_source_pos {language : Language} {before : Option Char} {t : Text} {q : Quoted}
    (h : quoted? language before t = some (some q)) : 0 < q.source.length := by
  obtain ⟨delimiter, hd, hc⟩ := Option.map_eq_some_iff.1 h
  obtain ⟨content, _, rfl⟩ := Option.map_eq_some_iff.1 hc
  have := List.length_pos_iff.2 (ne_nil_of_delimiter? hd)
  simp only [Quoted.source, List.length_append]
  omega

/-- The further characters of a character literal behind its opening quote. -/
def charLiteralTail : Text → Nat
  | [] => 0
  | [c] => if c = '\n' then 0 else 1
  | c :: d :: t =>
    if c = '\\' then 2 + charLiteralTail t
    else if c = '\'' then 1
    else if c = '\n' then 0
    else 1 + charLiteralTail (d :: t)

/-- The further characters of a literal that starts with `c`; a string that never closes runs to the
end of the line. -/
def literalTail? (language : Language) (before : Option Char) (c : Char) (t : Text) : Option Nat :=
  match quoted? language before (c :: t) with
  | some (some q) => some (q.source.length - 1)
  | some none => some (lineLength t)
  | none => if language ≠ .python ∧ c = '\'' then some (charLiteralTail t) else none

/-- The further characters of a comment or literal that starts with `c`. -/
def sealedTail? (language : Language) (before : Option Char) (c : Char) (t : Text) : Option Nat :=
  commentTail? language c t <|> literalTail? language before c t

end SqlInlay.Host
