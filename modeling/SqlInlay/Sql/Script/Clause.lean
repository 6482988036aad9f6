import SqlInlay.Sql.Script.Item

/-!
# Statements and clauses

`statementsOf` divides nodes at semicolons and each statement at its clause keywords.

**Clause keywords.**  `clauseHead?` decides whether a keyword starts a clause.  It looks at the
token before (`IS DISTINCT FROM` starts no clause, nor does `FOR UPDATE`) and at the one behind,
which may belong to the head (`GROUP BY`, `UNION ALL`).  Behind a group there is no token to look
at, for the group has been folded by then.

**Comments above a clause.**  Comments on their own lines in front of a clause keyword are taken
from the clause that they follow and lead the new one.  At the end of a statement there is no new
one, and they stay behind its last clause.

**The preamble** is what stands in front of the first clause keyword.  It has no keywords, and most
statements have none at all.

**Constructions.**  In JPQL the nodes of a `SELECT` may be a constructor expression, exactly; then
its arguments are divided and not the clause.
-/

namespace SqlInlay.Sql

/-- The clause that keyword `t` starts, and whether the node behind it belongs to the head.
`before` is the token in front, `begun` says that something stands in front at all. -/
def clauseHead? (t : Token) (before : Option Token) (begun : Bool) (after : Option Node) :
    Option (ClauseKind × Bool) :=
  let follows (words : List Text) := before.any fun b => words.any b.reads
  let precedes (words : List Keyword) := after.any (·.spellsAny words)
  match t.kind with
  | .keyword .WITH => if begun then none else some (.commonTables, precedes [.RECURSIVE])
  | .keyword .SELECT => some (.select, precedes [.DISTINCT, .ALL])
  | .keyword .FROM => if follows ["DISTINCT"] then none else some (.tables, false)
  | .keyword .WHERE => some (.condition, false)
  | .keyword .GROUP => if precedes [.BY] then some (.groupBy, true) else none
  | .keyword .HAVING => some (.having, false)
  | .keyword .ORDER => if precedes [.BY] then some (.orderBy, true) else none
  | .keyword .UNION => some (.setOperation, precedes [.ALL, .DISTINCT])
  | .keyword .INTERSECT | .keyword .EXCEPT => some (.setOperation, precedes [.ALL])
  | .keyword .LIMIT => some (.limit, false)
  | .keyword .OFFSET => some (.offset, false)
  | .keyword .UPDATE => if follows ["FOR", "DO", "ON"] then none else some (.update, false)
  | .keyword .SET => some (.set, false)
  | .keyword .DELETE => if follows ["ON"] then none else some (.delete, precedes [.FROM])
  | .keyword .INSERT => some (.insert, precedes [.INTO])
  | .keyword .VALUES => some (.values, false)
  | _ => none

/-- A clause whose nodes are not yet divided. -/
structure RawClause where
  kind : ClauseKind
  keywords : List Token
  leading : List Comment
  nodes : List Node

namespace RawClause

/-- The clause holds nothing at all. -/
def isEmpty (c : RawClause) : Bool := c.keywords.isEmpty && c.leading.isEmpty && c.nodes.isEmpty

/-- The clause as a list, which is empty if the clause is. -/
def toList (c : RawClause) : List RawClause := if c.isEmpty then [] else [c]

/-- The clause without the comments that lead the next one. -/
def closed (c : RawClause) : RawClause := { c with nodes := withoutTrailing c.nodes }

/-- The clause that keywords start behind `c`. -/
def next (c : RawClause) (kind : ClauseKind) (keywords : List Token) : RawClause :=
  ⟨kind, keywords, commentsOf (trailingComments c.nodes), []⟩

/-- The clause with one more node. -/
def push (c : RawClause) (n : Node) : RawClause := { c with nodes := c.nodes ++ [n] }

/-- The preamble before anything has been read. -/
def preamble : RawClause := ⟨.preamble, [], [], []⟩

end RawClause

/-- The clauses of some nodes, where `current` is the clause at hand, `before` the token in front
(none behind a group) and `begun` says that something other than comments has been read. -/
def clausesFrom (current : RawClause) (before : Option Token) (begun : Bool) :
    List Node → List RawClause
  | [] => current.toList
  | .token t :: ns =>
    match clauseHead? t before begun ns.head? with
    | some (kind, true) =>
      match ns with
      | .token u :: rest =>
        current.closed.toList ++ clausesFrom (current.next kind [t, u]) (some u) true rest
      | rest => current.closed.toList ++ clausesFrom (current.next kind [t]) (some t) true rest
    | some (kind, false) =>
      current.closed.toList ++ clausesFrom (current.next kind [t]) (some t) true ns
    | none => clausesFrom (current.push (.token t)) (some t) true ns
  | .comment c :: ns => clausesFrom (current.push (.comment c)) before begun ns
  | n :: ns => clausesFrom (current.push n) none true ns

/-- The tokens of a dotted name; none if the nodes are anything else. -/
def dottedName? : List Node → Option (List Token)
  | [.token t] => if t.kind = .identifier then some [t] else none
  | .token t :: .token d :: ns =>
    if t.kind = .identifier ∧ d.kind = .dot then (dottedName? ns).map (t :: d :: ·) else none
  | _ => none

/-- The construction that some nodes are, exactly. -/
def construction? (nodes : List Node) : Option (Construction Node) :=
  match nodes with
  | .token new :: rest =>
    match rest.getLast?, dottedName? rest.dropLast with
    | some (.list opening operands closing), some typeName =>
      if new.spells .NEW then
        some ⟨new, typeName, opening, splitCommas (contentsOf operands), closing⟩
      else none
    | _, _ => none
  | _ => none

namespace RawClause

/-- The clause with its nodes divided. -/
def finish (dialect : Dialect) (c : RawClause) : Clause Node :=
  let nodes := withoutTrailing c.nodes
  let construction := if c.kind = .select ∧ dialect = .jpql then construction? nodes else none
  { kind := c.kind
    keywords := c.keywords
    leading := c.leading
    body := match construction with
      | some construction => .construction construction
      | none => .items (splitItems c.kind nodes)
    trailing := commentsOf (trailingComments c.nodes) }

end RawClause

/-- A statement of some nodes. -/
def statementOf (dialect : Dialect) (nodes : List Node) (terminated : Bool)
    (trailing : List Comment) : Statement Node :=
  ⟨(clausesFrom .preamble none false nodes).map (·.finish dialect), terminated, trailing⟩

/-- A comment that stands on the line of what precedes it. -/
def isInlineComment (n : Node) : Bool := n.isComment && !n.isOwnLineComment

/-- The statements of some nodes, where `current` holds those of the statement at hand.  Comments on
the line of a semicolon stay with the statement that it ends. -/
def statementsFrom (dialect : Dialect) (current : List Node) : List Node → List (Statement Node)
  | [] => if current.isEmpty then [] else [statementOf dialect current false []]
  | n :: ns =>
    if n.isKind .semicolon then
      statementOf dialect current true (commentsOf (ns.takeWhile isInlineComment)) ::
        statementsFrom dialect [] (ns.dropWhile isInlineComment)
    else statementsFrom dialect (current ++ [n]) ns
termination_by nodes => nodes.length
decreasing_by
  · have := (List.dropWhile_sublist isInlineComment (l := ns)).length_le
    simp only [List.length_cons]
    omega
  · simp

/-- The script of some nodes. -/
def statementsOf (dialect : Dialect) (nodes : List Node) : Script := statementsFrom dialect [] nodes

end SqlInlay.Sql
