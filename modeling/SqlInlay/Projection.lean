import SqlInlay.Sql.Token.Lexeme
import SqlInlay.Text.Blank

/-!
# Projection interfaces

A native query whose columns have aliases can be read through a Java interface with one getter for
each alias.  `aliasesOf` finds the aliases of the first `SELECT` list, and `projection` writes the
interface.

**Aliases.**  The alias of a column follows its last `AS`, save one that names a type, as in `CAST(x
AS t(n))`.  Each alias counts once.

**Columns** are read from the tokens, without a script: from the first `SELECT` on, they are divided
at commas outside parentheses and end at the first `FROM` outside parentheses.  So a query that
cannot be laid out still has aliases, as long as it can be tokenized.

**Names.**  What cannot stand in a Java name is written as an underscore.  The name of the interface
is capitalized and its other letters are small; of the name of a getter only the first letter of the
alias is raised.
-/

namespace SqlInlay.Projection

open SqlInlay.Sql

/-! ## Aliases -/

/-- The columns of a list, up to `FROM`.  `depth` counts open parentheses, `current` holds the
column at hand. -/
def columnsFrom (depth : Nat) (current : List Token) : List Token → List (List Token)
  | [] => [current]
  | t :: ts =>
    match t.kind with
    | .openParen => columnsFrom (depth + 1) (current ++ [t]) ts
    | .closeParen => columnsFrom (depth - 1) (current ++ [t]) ts
    | .comma =>
      if depth = 0 then current :: columnsFrom 0 [] ts else columnsFrom depth (current ++ [t]) ts
    | .keyword .FROM => if depth = 0 then [current] else columnsFrom depth (current ++ [t]) ts
    | _ => columnsFrom depth (current ++ [t]) ts

/-- The name that a token gives. -/
def aliasText? (t : Token) : Option Text :=
  match t.kind with
  | .identifier | .keyword _ => some t.text
  | .quotedIdentifier | .string =>
    let inner := (t.text.drop 1).dropLast
    if inner.isEmpty then none else some inner
  | _ => none

/-- The names behind each `AS` of a column, where no parenthesis follows them. -/
def namesIn : List Token → List Text
  | as :: name :: rest =>
    (if as.spells .AS && !rest.head?.any (·.kind == .openParen) then (aliasText? name).toList
     else []) ++ namesIn (name :: rest)
  | _ => []

/-- The alias of a column. -/
def columnAlias? (column : List Token) : Option Text := (namesIn column).getLast?

/-- What follows the first `SELECT`. -/
def afterSelect? : List Token → Option (List Token)
  | [] => none
  | t :: ts => if t.spells .SELECT then some ts else afterSelect? ts

/-- The aliases of the first `SELECT` list of a query. -/
def aliasesOf (query : Text) : Except Failure (List Text) := do
  let tokens ← tokenize query
  match afterSelect? (tokens.filter (!·.isTrivia)) with
  | none => throw (.projection .noSelect)
  | some list =>
    let aliases := ((columnsFrom 0 [] list).filterMap columnAlias?).eraseDups
    if aliases.isEmpty then throw (.projection .noAlias) else return aliases

/-! ## Java names -/

/-- A character that may stand in a Java name. -/
def isNameChar (c : Char) : Bool := c.isAlphanum || c == '_' || c == '$'

/-- A text with underscores for what may not stand in a name. -/
def cleaned (t : Text) : Text := t.map fun c => if isNameChar c then c else '_'

/-- A text without the quotes around it, if one kind of quote stands at both ends. -/
def unquoted (t : Text) : Text :=
  match t with
  | q :: rest =>
    if (q = '"' ∨ q = '\'') ∧ rest.getLast? = some q then rest.dropLast else t
  | [] => t

/-- The name of an interface: capitalized, and with an underscore in front of a digit. -/
def interfaceName (raw : Text) : Except Failure Text :=
  match cleaned (unquoted (Text.trim raw)) with
  | [] => .error (.projection .emptyName)
  | first :: rest =>
    let name := first.toUpper :: rest.map Char.toLower
    .ok (if first.isDigit then '_' :: name else name)

/-- The name of the getter of an alias. -/
def getterName (name : Text) : Text :=
  match cleaned name with
  | [] => "get"
  | first :: rest => "get".toList ++ first.toUpper :: rest

/-! ## The interface -/

/-- The line of a getter. -/
def getterLine (name : Text) : Text :=
  "    Object ".toList ++ getterName name ++ "();\n".toList

/-- The package line, if there is a package. -/
def packageLine (package : Option Text) : Text :=
  match package.map Text.trim with
  | none | some [] => []
  | some p => "package ".toList ++ p ++ ";\n\n".toList

/-- The source of an interface with a getter for each alias. -/
def interface (name : Text) (package : Option Text) (aliases : List Text) : Text :=
  packageLine package ++ "public interface ".toList ++ name ++ " \x7b\n".toList
    ++ aliases.flatMap getterLine ++ ['\x7d']

/-- The source of the interface of a query. -/
def projection (query name : Text) (package : Option Text) : Except Failure Text := do
  let aliases ← aliasesOf query
  return interface (← interfaceName name) package aliases

end SqlInlay.Projection
