import SqlInlay.Text

/-!
# TOML values and tables

A document is a table that its lines fill.  A table remembers its `Origin`, for TOML says which
tables may be added to: a table that a longer header implied may still get a header of its own, one
made by dotted keys may be extended by dotted keys, and an inline table by nothing.

**Paths.**  `alter?` walks down a path of keys, makes the tables that are missing, and changes the
table at its end.  It fails where the path meets a value that is no table or a table that is closed
to it.
-/

namespace SqlInlay.Toml

/-- What made a table. -/
inductive Origin where
  /-- Its own header, or the document itself. -/
  | header
  /-- The header of a table inside it. -/
  | implied
  /-- Dotted keys. -/
  | dotted
  /-- Braces. -/
  | inline
deriving DecidableEq, Repr

/-- A value of a document.  Floats and dates are told apart from other values, and no more. -/
inductive Value where
  | string (text : Text)
  | integer (value : Int)
  | float
  | boolean (value : Bool)
  | dateTime
  | array (items : List Value)
  | table (origin : Origin) (entries : List (Text × Value))
  /-- The tables of repeated headers, last one first. -/
  | tables (items : List Value)

/-- The entries of a table in their order. -/
abbrev Entries := List (Text × Value)

namespace Entries

/-- The value of a key that is there, changed. -/
def replace (entries : Entries) (key : Text) (value : Value) : Entries :=
  entries.map fun (k, v) => if k = key then (k, value) else (k, v)

/-- The entries with one more; none if the key is taken. -/
def add? (entries : Entries) (key : Text) (value : Value) : Option Entries :=
  if (entries.lookup key).isSome then none else some (entries ++ [(key, value)])

end Entries

/-- The table at the end of a path changed by `change`, which is told what made it.  `dotted` says
that the path is that of a dotted key; tables with headers are closed to those. -/
def alter? (dotted : Bool) (change : Origin → Entries → Option Entries) (origin : Origin)
    (entries : Entries) : List Text → Option Entries
  | [] => change origin entries
  | key :: path =>
    match entries.lookup key with
    | none =>
      let made := if dotted then .dotted else .implied
      (alter? dotted change made [] path).map fun inner => entries ++ [(key, .table made inner)]
    | some (.table made inner) =>
      if made = .inline ∨ (dotted ∧ made = .header) then none
      else
        (alter? dotted change made inner path).map fun changed =>
          Entries.replace entries key (.table made changed)
    | some (.tables (.table made inner :: earlier)) =>
      (alter? dotted change made inner path).map fun changed =>
        Entries.replace entries key (.tables (.table made changed :: earlier))
    | some _ => none

/-- A value put under a dotted key of a table. -/
def assign? (origin : Origin) (entries : Entries) (path : List Text) (key : Text) (value : Value) :
    Option Entries :=
  let put (made : Origin) (inner : Entries) : Option Entries :=
    if (made == .dotted) == path.isEmpty then none else Entries.add? inner key value
  alter? true put origin entries path

/-- A table opened by a header: a new one, or one that a longer header implied. -/
def openTable? (document : Entries) (path : List Text) (key : Text) : Option Entries :=
  let put (_ : Origin) (inner : Entries) : Option Entries :=
    match inner.lookup key with
    | none => some (inner ++ [(key, .table .header [])])
    | some (.table .implied found) => some (Entries.replace inner key (.table .header found))
    | some _ => none
  alter? false put .header document path

/-- A table opened by a repeated header, behind those with the same header. -/
def openRepeated? (document : Entries) (path : List Text) (key : Text) : Option Entries :=
  let put (_ : Origin) (inner : Entries) : Option Entries :=
    match inner.lookup key with
    | none => some (inner ++ [(key, .tables [.table .header []])])
    | some (.tables found) =>
      some (Entries.replace inner key (.tables (.table .header [] :: found)))
    | some _ => none
  alter? false put .header document path

end SqlInlay.Toml
