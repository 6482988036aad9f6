import SqlInlay.Settings
import SqlInlay.Toml.Document

/-!
# Settings in a TOML document

A TOML document gives the settings in its tables `format` and `annotations`.  What it does not
mention has its default, and what nothing is known of is passed over.

**Shapes.**  A table of settings may also be written as an array of its values in order, and a
keyword case as a table with that one key and nothing in it.
-/

namespace SqlInlay

namespace Settings

open Toml

/-- A value that is there read; one that is not has its default. -/
def fieldOr {α : Type} (otherwise : α) (read : Value → Option α) : Option Value → Option α
  | none => some otherwise
  | some v => read v

/-- A width. -/
def width? : Value → Option Nat
  | .integer n => if n ≥ 0 then some n.toNat else none
  | _ => none

/-- A yes or no. -/
def flag? : Value → Option Bool
  | .boolean b => some b
  | _ => none

/-- The keyword case of a name. -/
def caseNamed? (name : Text) : Option KeywordCase :=
  if name = "preserve".toList then some .preserve
  else if name = "upper".toList then some .upper
  else if name = "lower".toList then some .lower
  else none

/-- A keyword case. -/
def keywordCase? : Value → Option KeywordCase
  | .string name => caseNamed? name
  | .table _ [(name, .table _ [])] => caseNamed? name
  | .table _ [(name, .array [])] => caseNamed? name
  | _ => none

/-- A string. -/
def text? : Value → Option Text
  | .string s => some s
  | _ => none

/-- A list of strings. -/
def texts? : Value → Option (List Text)
  | .array items => items.mapM text?
  | _ => none

/-- How the fields of a table of settings are found: by name, or by place in an array.  None if the
value is neither; a date has no fields. -/
def fieldsOf? : Value → Option (Text → Nat → Option Value)
  | .table _ entries => some fun name _ => entries.lookup name
  | .array items => some fun _ place => items[place]?
  | .dateTime => some fun _ _ => none
  | _ => none

/-- A style. -/
def style? (v : Value) : Option Style := do
  let field ← fieldsOf? v
  let standard : Style := {}
  return {
    indentWidth := ← fieldOr standard.indentWidth width? (field "indent_width" 0)
    keywordCase := ← fieldOr standard.keywordCase keywordCase? (field "keyword_case" 1)
    maxLineWidth := ← fieldOr standard.maxLineWidth width? (field "max_line_width" 2)
    oneJoinPerLine := ← fieldOr standard.oneJoinPerLine flag? (field "one_join_per_line" 3)
    promoteTextBlocks := ←
      fieldOr standard.promoteTextBlocks flag? (field "promote_text_blocks" 4) }

/-- The annotations to look for. -/
def marks? (v : Value) : Option Host.Annotations := do
  let field ← fieldsOf? v
  let standard : Host.Annotations := {}
  return {
    names := ← fieldOr standard.names texts? (field "names" 0)
    native := ← fieldOr standard.native texts? (field "native" 1)
    attributes := ← fieldOr standard.attributes texts? (field "attributes" 2) }

/-- The settings of a table, not yet validated. -/
def ofEntries? (entries : Entries) : Option Settings := do
  return {
    style := ← fieldOr {} style? (entries.lookup "format".toList)
    marks := ← fieldOr {} marks? (entries.lookup "annotations".toList) }

/-- The settings of a TOML document. -/
def ofToml? (document : Text) : Option Settings := (Document.read? document).bind ofEntries?

end Settings

end SqlInlay
