import SqlInlay.Sql.Script.Clause
import SqlInlay.Sql.Token.Lexeme

/-!
# From tokens to a script

Parentheses are the only structure of a query that is checked.  `nestFrom` reads the tokens once,
with a stack of the parentheses that are open, and folds each group into the nodes around it when it
closes; `segment` divides what is left into statements.

**Groups.**  What a group is, is known by its first node that is no comment: a query of its own is
divided into statements, and anything else at its connectives.

**Faults.**  A closing parenthesis without a partner is found at once.  An opening one that is never
closed is found at the end of the tokens, and of several the last one is named.

**Blanks.**  Blanks are dropped.  All that is kept of them is whether a line feed stood between a
comment and what precedes it, for comments on a line of their own are laid out on one.
-/

namespace SqlInlay.Sql

/-- An open parenthesis, and the nodes in front of it, last one first. -/
structure Frame where
  opening : Token
  outer : List Node

/-- The group of some nodes between parentheses. -/
def groupOf (dialect : Dialect) (opening : Token) (nodes : List Node) (closing : Token) : Node :=
  if (nodes.find? (!·.isComment)).any (·.spellsAny [.SELECT, .WITH]) then
    .query opening (statementsOf dialect nodes) closing
  else .list opening (splitPredicate nodes) closing

/-- The nodes of some tokens.  `fresh` says that nothing has been read on the current line, `done`
holds the nodes of the innermost group, last one first, and `frames` the groups around it. -/
def nestFrom (dialect : Dialect) (fresh : Bool) (done : List Node) (frames : List Frame) :
    List Token → Except Failure (List Node)
  | [] =>
    match frames with
    | [] => .ok done.reverse
    | frame :: _ => .error (.structural frame.opening.offset .unclosedOpening)
  | t :: ts =>
    match t.kind with
    | .blank => nestFrom dialect (fresh || '\n' ∈ t.text) done frames ts
    | .openParen => nestFrom dialect false [] (⟨t, done⟩ :: frames) ts
    | .closeParen =>
      match frames with
      | [] => .error (.structural t.offset .unmatchedClosing)
      | frame :: outer =>
        let group := groupOf dialect frame.opening done.reverse t
        nestFrom dialect false (group :: frame.outer) outer ts
    | .lineComment | .blockComment =>
      nestFrom dialect false (.comment ⟨t, fresh⟩ :: done) frames ts
    | _ => nestFrom dialect false (.token t :: done) frames ts

/-- The script of some tokens; only unbalanced parentheses stand in its way. -/
def segment (dialect : Dialect) (tokens : List Token) : Except Failure Script :=
  (nestFrom dialect true [] [] tokens).map (statementsOf dialect)

/-- The script of a query text. -/
def parse (query : Text) (dialect : Dialect) : Except Failure Script :=
  tokenize query >>= segment dialect

end SqlInlay.Sql
