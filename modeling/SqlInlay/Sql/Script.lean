import SqlInlay.Sql.Token

/-!
# Scripts

The structure that layout needs of a query, and no more: a script is a list of statements, a
statement a list of clauses, a clause a list of items, and an item a list of nodes.  A node is a
token, a comment, or a parenthesized group.  It is no parse of the query: what is not SQL is given a
structure as well, and nothing about a query makes it a wrong one but its parentheses.

**Groups.**  A group that opens with `SELECT` or `WITH` holds a script of its own.  Any other group
holds its contents divided at `AND` and `OR`, the places where a wide group may be broken: its
`operands`.  Put together, the operands are the contents.

**Tokens** are kept as they were lexed, offsets included.  Layout asks for them where it depends on
the source whether two tokens touch.

**Comments** are nodes like any others, except where they lead a clause or follow a semicolon.
Whether a line was theirs alone is known of each of them.

**Sharing.**  Items, clauses and statements are the same for every type of node, so they are
parametrized by it, and `Node` ties the knot.
-/

namespace SqlInlay.Sql

/-- The query language of a literal; JPQL has constructor expressions. -/
inductive Dialect where
  | jpql
  | native
deriving DecidableEq, Repr, Inhabited

/-- A comment, and whether it is the first thing on its line. -/
structure Comment where
  token : Token
  ownLine : Bool
deriving DecidableEq, Repr

namespace Comment

/-- The comment runs to the end of its line. -/
def isLine (c : Comment) : Bool := c.token.kind == .lineComment

end Comment

/-- A column, a table, a join, an assignment or an operand of a predicate. -/
structure Item (α : Type) where
  nodes : List α
  /-- A comma follows the item. -/
  comma : Bool

/-- The kinds of clauses: `commonTables` follow `WITH`, `tables` follow `FROM` and the `condition`
follows `WHERE`.  The preamble is what precedes the first clause keyword. -/
inductive ClauseKind where
  | preamble
  | commonTables
  | select
  | tables
  | condition
  | groupBy
  | having
  | orderBy
  | setOperation
  | limit
  | offset
  | update
  | set
  | delete
  | insert
  | values
deriving DecidableEq, Repr

namespace ClauseKind

/-- Items of the clause are separated by commas. -/
def isCommaList : ClauseKind → Bool
  | commonTables | select | groupBy | orderBy | update | set | insert | values => true
  | _ => false

/-- The clause holds a predicate, divided at its connectives. -/
def isPredicate : ClauseKind → Bool
  | condition | having => true
  | _ => false

end ClauseKind

/-- A projection into an object: `NEW package.Type(argument, …)`. -/
structure Construction (α : Type) where
  new : Token
  /-- The names and dots of the type. -/
  typeName : List Token
  opening : Token
  arguments : List (Item α)
  closing : Token

/-- What a clause holds behind its keywords. -/
inductive Body (α : Type) where
  | items (items : List (Item α))
  | construction (construction : Construction α)

/-- A clause with its comments. -/
structure Clause (α : Type) where
  kind : ClauseKind
  /-- One token or two; none for the preamble. -/
  keywords : List Token
  /-- Comments on their own lines above the keyword. -/
  leading : List Comment
  body : Body α
  /-- Comments on their own lines below the last clause of a statement. -/
  trailing : List Comment

/-- A statement with the comments behind its semicolon. -/
structure Statement (α : Type) where
  clauses : List (Clause α)
  /-- A semicolon ends the statement. -/
  terminated : Bool
  trailing : List Comment

/-- A token, a comment or a parenthesized group. -/
inductive Node where
  | token (token : Token)
  | comment (comment : Comment)
  | query (opening : Token) (script : List (Statement Node)) (closing : Token)
  | list (opening : Token) (operands : List (Item Node)) (closing : Token)

/-- A query text in its structure. -/
abbrev Script := List (Statement Node)

namespace Node

/-- The token of a node that is a single one. -/
def token? : Node → Option Token
  | .token t => some t
  | _ => none

/-- The comment of a node that is one. -/
def comment? : Node → Option Comment
  | .comment c => some c
  | _ => none

/-- The node is a comment. -/
def isComment (n : Node) : Bool := n.comment?.isSome

/-- The node is a comment on its own line. -/
def isOwnLineComment (n : Node) : Bool := n.comment?.any (·.ownLine)

/-- The node is a token of some kind. -/
def isKind (n : Node) (kind : Kind) : Bool := n.token?.any (·.kind == kind)

/-- The node is the keyword `word`. -/
def spells (n : Node) (word : Keyword) : Bool := n.token?.any (·.spells word)

/-- The node is one of some keywords. -/
def spellsAny (n : Node) (words : List Keyword) : Bool := n.token?.any (·.spellsAny words)

/-- The node is a group with a script of its own. -/
def isQuery : Node → Bool
  | .query _ _ _ => true
  | _ => false

end Node

/-! ## Joins -/

/-- Keywords that may stand in front of `JOIN`. -/
def joinLeads : List Keyword := [.NATURAL, .INNER, .LEFT, .RIGHT, .FULL, .OUTER, .CROSS]

/-- The nodes open with a join, such as `LEFT OUTER JOIN`; none of them is a comment. -/
def opensJoin : List Node → Bool
  | [] => false
  | n :: ns => if n.spellsAny joinLeads then opensJoin ns else n.spells .JOIN

namespace Item

/-- The item is a join. -/
def isJoin (i : Item Node) : Bool := opensJoin (i.nodes.filter (!·.isComment))

/-- Some node of the item is a subquery. -/
def hasSubquery (i : Item Node) : Bool := i.nodes.any Node.isQuery

end Item

/-! ## Comments at any depth -/

mutual

/-- A comment stands in the node. -/
def Node.hasComments : Node → Bool
  | .token _ => false
  | .comment _ => true
  | .query _ script _ => anyStatementHasComments script
  | .list _ operands _ => anyItemHasComments operands

/-- A comment stands in one of the nodes. -/
def anyNodeHasComments : List Node → Bool
  | [] => false
  | n :: ns => n.hasComments || anyNodeHasComments ns

/-- A comment stands in one of the items. -/
def anyItemHasComments : List (Item Node) → Bool
  | [] => false
  | ⟨nodes, _⟩ :: is => anyNodeHasComments nodes || anyItemHasComments is

/-- A comment stands in the body of a clause. -/
def bodyHasComments : Body Node → Bool
  | .items is => anyItemHasComments is
  | .construction ⟨_, _, _, arguments, _⟩ => anyItemHasComments arguments

/-- A comment stands in or above one of the clauses. -/
def anyClauseHasComments : List (Clause Node) → Bool
  | [] => false
  | ⟨_, _, leading, body, trailing⟩ :: cs =>
    !leading.isEmpty || !trailing.isEmpty || bodyHasComments body || anyClauseHasComments cs

/-- A comment stands in or behind one of the statements. -/
def anyStatementHasComments : List (Statement Node) → Bool
  | [] => false
  | ⟨clauses, _, trailing⟩ :: ss =>
    !trailing.isEmpty || anyClauseHasComments clauses || anyStatementHasComments ss

end

/-- A comment stands in the script. -/
def Script.hasComments (s : Script) : Bool := anyStatementHasComments s

namespace Item

/-- A comment stands in the item. -/
def hasComments (i : Item Node) : Bool := anyNodeHasComments i.nodes

/-- The item holds nothing but comments. -/
def isCommentOnly (i : Item Node) : Bool := !i.comma && i.nodes.all Node.isComment

end Item

namespace Clause

/-- The clause holds nothing but comments. -/
def isCommentOnly (c : Clause Node) : Bool :=
  c.keywords.isEmpty &&
    match c.body with
    | .items is => is.all Item.isCommentOnly
    | .construction _ => false

end Clause

namespace Statement

/-- The statement holds nothing but comments, such as notes behind the last semicolon. -/
def isCommentOnly (s : Statement Node) : Bool := s.clauses.all Clause.isCommentOnly && !s.terminated

end Statement

end SqlInlay.Sql
