import SqlInlay.Toml.Scalar

/-!
# Reading a document

A document is a sequence of lines: key and value, or the header of a table.  `Document.read?` gives
the table that the document describes, or nothing if it is not TOML.

**Depth.**  Arrays and inline tables nest less than `depthLimit` deep, and so do dotted keys.  The
depth left is what reading a value recurses on; inside one array the recursion is on the text, which
every item makes shorter.
-/

namespace SqlInlay.Toml

open SqlInlay.Text

/-- The depth that nested values and dotted keys stay below. -/
def depthLimit : Nat := 80

/-! ## Blanks and comments -/

/-- What follows blanks inside a line. -/
def skipSpace (t : Text) : Text := t.dropWhile isSpace

/-- What follows a comment, if there is one. -/
def skipComment (t : Text) : Text :=
  match t with
  | '#' :: u => u.dropWhile isPlain
  | _ => t

/-- What follows the end of a line: blanks, a comment, and a line break or the end of the text. -/
def afterLine? (t : Text) : Option Text :=
  match skipComment (skipSpace t) with
  | [] => some []
  | u => afterNewline? u

/-- What follows blanks, line breaks and comments inside an array. -/
def skipFiller (t : Text) : Text :=
  match _h : skipBlank t with
  | '#' :: u =>
    let next := u.dropWhile isPlain
    if next.length < t.length then skipFiller next else next
  | u => u
termination_by t.length

/-! ## Keys -/

/-- A character of a bare key. -/
def isBareKeyChar (c : Char) : Bool := c.isAlphanum || c == '_' || c == '-'

/-- A key without dots. -/
def simpleKey? (t : Text) : Option (Text × Text) :=
  match t with
  | '"' :: _ | '\'' :: _ => shortString? t
  | _ =>
    let key := t.takeWhile isBareKeyChar
    if key.isEmpty then none else some (key, t.drop key.length)

/-- A dotted key of at most `limit` parts. -/
def key? (limit : Nat) (t : Text) : Option (List Text × Text) :=
  match limit with
  | 0 => none
  | limit + 1 =>
    match simpleKey? (skipSpace t) with
    | none => none
    | some (part, rest) =>
      match skipSpace rest with
      | '.' :: u => (key? limit u).map fun (parts, rest) => (part :: parts, rest)
      | u => some ([part], u)

/-- A key with its last part apart. -/
def splitKey? (parts : List Text) : Option (List Text × Text) :=
  parts.getLast?.map (parts.dropLast, ·)

/-! ## Arrays and inline tables -/

/-- A reader of values. -/
abbrev Reader := Text → Option (Value × Text)

/-- The items of an array, behind its bracket or behind a comma. -/
def items? (read : Reader) (t : Text) : Option (List Value × Text) :=
  match skipFiller t with
  | ']' :: rest => some ([], rest)
  | u =>
    match read u with
    | none => none
    | some (v, rest) =>
      match skipFiller rest with
      | ']' :: rest => some ([v], rest)
      | ',' :: rest =>
        if rest.length < t.length then
          (items? read rest).map fun (vs, rest) => (v :: vs, rest)
        else none
      | _ => none
termination_by t.length

/-- A key and its value. -/
def pair? (read : Reader) (t : Text) : Option (List Text × Value × Text) :=
  match key? (depthLimit - 1) t with
  | some (parts, '=' :: rest) =>
    (read (skipSpace rest)).map fun (v, rest) => (parts, v, rest)
  | _ => none

/-- The pairs of an inline table, at least one, where `entries` have been read. -/
def pairs? (read : Reader) (entries : Entries) (t : Text) : Option (Entries × Text) :=
  match pair? read t with
  | none => none
  | some (parts, v, rest) =>
    match splitKey? parts with
    | none => none
    | some (path, key) =>
      match assign? .inline entries path key v with
      | none => none
      | some entries =>
        match skipSpace rest with
        | '\x7d' :: rest => some (entries, rest)
        | ',' :: rest => if rest.length < t.length then pairs? read entries rest else none
        | _ => none
termination_by t.length

/-- A value, with arrays and inline tables in it to a depth. -/
def value? : Nat → Reader
  | depth, t =>
    match t with
    | '[' :: rest =>
      match depth with
      | 0 => none
      | depth + 1 => (items? (value? depth) rest).map fun (vs, rest) => (.array vs, rest)
    | '\x7b' :: rest =>
      match depth with
      | 0 => none
      | depth + 1 =>
        match skipSpace rest with
        | '\x7d' :: rest => some (.table .inline [], rest)
        | rest =>
          (pairs? (value? depth) [] rest).map fun (entries, rest) => (.table .inline entries, rest)
    | t => scalar? t

/-! ## Lines -/

/-- What has been read of a document: its table, and the path of the current header. -/
structure Document where
  entries : Entries
  path : List Text

namespace Document

/-- The document with a pair put into the table of the current header. -/
def assign? (d : Document) (parts : List Text) (v : Value) : Option Document :=
  match splitKey? parts with
  | none => none
  | some (path, key) =>
    let put (made : Origin) (inner : Entries) : Option Entries := Toml.assign? made inner path key v
    (alter? false put .header d.entries d.path).map fun entries => { d with entries }

/-- The document with a header, repeated or not. -/
def openHeader? (d : Document) (repeated : Bool) (parts : List Text) : Option Document :=
  match splitKey? parts with
  | none => none
  | some (path, key) =>
    let opened :=
      if repeated then openRepeated? d.entries path key else openTable? d.entries path key
    opened.map fun entries => ⟨entries, parts⟩

/-- A line: the document behind it, and what follows. -/
def line? (d : Document) (t : Text) : Option (Document × Text) :=
  match t with
  | '#' :: _ | '\n' :: _ | '\r' :: _ => (afterLine? t).map (d, ·)
  | '[' :: '[' :: u =>
    match key? (depthLimit - 1) u with
    | some (parts, ']' :: ']' :: rest) =>
      (afterLine? rest).bind fun rest => (d.openHeader? true parts).map (·, rest)
    | _ => none
  | '[' :: u =>
    match key? (depthLimit - 1) u with
    | some (parts, ']' :: rest) =>
      (afterLine? rest).bind fun rest => (d.openHeader? false parts).map (·, rest)
    | _ => none
  | _ =>
    match pair? (value? (depthLimit - 1)) t with
    | some (parts, v, rest) =>
      (afterLine? rest).bind fun rest => (d.assign? parts v).map (·, rest)
    | none => none

/-- The document behind all lines of a text. -/
def lines? (d : Document) (t : Text) : Option Document :=
  match skipSpace t with
  | [] => some d
  | u =>
    match d.line? u with
    | none => none
    | some (next, rest) => if rest.length < t.length then lines? next rest else none
termination_by t.length

/-- The table that a text describes; a byte order mark at its start is passed over. -/
def read? (t : Text) : Option Entries :=
  let body := (after? ['\ufeff'] t).getD t
  (lines? ⟨[], []⟩ body).map (·.entries)

end Document

end SqlInlay.Toml
