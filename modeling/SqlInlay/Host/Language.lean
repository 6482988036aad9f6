import SqlInlay.Text.Letter

/-!
# Host languages and annotations

The languages in whose sources queries are found, and the `Annotations` whose arguments hold them.

**Names.**  An annotation is known by its simple name: `@Query` and `@org.example.Query` are the
same, both in a source and in the settings.
-/

namespace SqlInlay.Host

open SqlInlay.Text

/-- A language that queries are embedded in. -/
inductive Language where
  | java
  | kotlin
  | python
deriving DecidableEq, Repr

/-- The language of a file with some extension. -/
def Language.ofExtension? : String → Option Language
  | "java" => some .java
  | "kt" => some .kotlin
  | "kts" => some .kotlin
  | "py" => some .python
  | _ => none

/-- A character of a word of a host language. -/
def isHostWordChar (c : Char) : Bool := isAlphanumeric c || c == '_' || c == '$'

/-- A character that starts a plain identifier. -/
def isIdentStart (c : Char) : Bool := c.isAlpha || c == '_'

/-- A further character of a plain identifier. -/
def isIdentChar (c : Char) : Bool := c.isAlphanum || c == '_'

/-- The part of a name behind its last dot. -/
def simpleName (name : Text) : Text := (name.reverse.takeWhile (· ≠ '.')).reverse

/-- Which annotations hold queries, and where. -/
structure Annotations where
  /-- The annotations that are looked for. -/
  names : List Text := ["Query", "NativeQuery"]
  /-- Those whose query is always native SQL. -/
  native : List Text := ["NativeQuery"]
  /-- The named arguments that may hold the query. -/
  attributes : List Text := ["value", "query", "sql"]
deriving DecidableEq, Repr

namespace Annotations

/-- The annotation is looked for. -/
def recognizes (a : Annotations) (written : Text) : Bool :=
  a.names.any (simpleName · == simpleName written)

/-- The annotation holds native SQL. -/
def isNative (a : Annotations) (written : Text) : Bool :=
  a.native.any (simpleName · == simpleName written)

/-- The named argument may hold the query. -/
def isQueryAttribute (a : Annotations) (name : Text) : Bool := a.attributes.any (· == name)

end Annotations

end SqlInlay.Host
