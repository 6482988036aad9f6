import SqlInlay.Sql.Script

/-!
# Dividing nodes into items

Items are cut out of a run of nodes in two steps.  First every node is given a `Cut`: a comma ends
an item and is dropped, a join or a connective starts one, any other node stays inside.  Which nodes
cut depends on the clause (`commaCuts`, `fromCuts`, `predicateCuts`).  Then `itemsOf` carries the
cuts out.

**Commas.**  A comma is no node of an item, but a flag of the item that it ends.  An item that a
comma ends may be empty; otherwise there are no empty items.

**Comments between items.**  Comments in front of a cut belong to the item before it as long as they
stand on its line; from the first comment on a line of its own they move to the item behind.

**Joins** are made of several words, of which the first cuts.  Comments among them make no
difference.

**Predicates** are read with a little state, because not every `AND` is a connective: one belongs to
a `BETWEEN`, and those within a `CASE` divide nothing.  Groups have been folded into single nodes
already, so what stands in parentheses never cuts.
-/

namespace SqlInlay.Sql

/-- What a node does to the item it stands in. -/
inductive Cut where
  /-- The node belongs to the current item. -/
  | inside
  /-- The node is a comma that ends the current item. -/
  | comma
  /-- The node starts an item. -/
  | before
deriving DecidableEq, Repr

/-- The comments at the end of some nodes, from the first one on a line of its own. -/
def trailingComments (nodes : List Node) : List Node :=
  (nodes.reverse.takeWhile Node.isComment).reverse.dropWhile (!·.isOwnLineComment)

/-- The nodes without their trailing comments. -/
def withoutTrailing (nodes : List Node) : List Node :=
  nodes.take (nodes.length - (trailingComments nodes).length)

/-- The comments among some nodes. -/
def commentsOf (nodes : List Node) : List Comment := nodes.filterMap Node.comment?

/-- An item without a comma behind it, unless there is nothing in it. -/
def openItem (nodes : List Node) : List (Item Node) :=
  if nodes.isEmpty then [] else [⟨nodes, false⟩]

/-- The items that cuts make of nodes, where `current` holds those of the item at hand. -/
def itemsFrom (current : List Node) : List (Cut × Node) → List (Item Node)
  | [] => openItem current
  | (.comma, _) :: rest => ⟨current, true⟩ :: itemsFrom [] rest
  | (.before, n) :: rest =>
    openItem (withoutTrailing current) ++ itemsFrom (trailingComments current ++ [n]) rest
  | (.inside, n) :: rest => itemsFrom (current ++ [n]) rest

/-- The items that cuts make of nodes. -/
def itemsOf (cuts : List (Cut × Node)) : List (Item Node) := itemsFrom [] cuts

/-! ## Where to cut -/

/-- Commas cut. -/
def commaCuts (nodes : List Node) : List (Cut × Node) :=
  nodes.map fun n => (if n.isKind .comma then .comma else .inside, n)

/-- Tables: commas cut, and so does each join behind the first table.  `before` is the nearest node
that is no comment; the words of one join are kept together. -/
def fromCuts (before : Option Node) : List Node → List (Cut × Node)
  | [] => []
  | n :: ns =>
    if n.isComment then (.inside, n) :: fromCuts before ns
    else if n.isKind .comma then (.comma, n) :: fromCuts (some n) ns
    else
      let startsJoin := before.any (!·.spellsAny joinLeads)
        && opensJoin (n :: ns.filter (!·.isComment))
      (if startsJoin then .before else .inside, n) :: fromCuts (some n) ns

/-- How far a predicate has been read: the open `CASE`s, whether the next `AND` belongs to a
`BETWEEN`, and whether anything but comments has been seen. -/
structure PredicateState where
  cases : Nat
  between : Bool
  begun : Bool
deriving DecidableEq, Repr

/-- What a token does in a predicate, and how far the predicate has been read behind it. -/
def PredicateState.step (s : PredicateState) (t : Token) : Cut × PredicateState :=
  let next := { s with begun := true }
  if t.spells .CASE then (.inside, { next with cases := s.cases + 1 })
  else if t.spells .END && s.cases > 0 then (.inside, { next with cases := s.cases - 1 })
  else if t.spells .BETWEEN && s.cases == 0 then (.inside, { next with between := true })
  else if t.spells .AND && s.cases == 0 then
    if s.between then (.inside, { next with between := false })
    else (if s.begun then .before else .inside, next)
  else if t.spells .OR && s.cases == 0 && s.begun then (.before, next)
  else (.inside, next)

/-- Predicates: each connective outside `CASE` cuts, save the `AND` of a `BETWEEN`. -/
def predicateCuts (s : PredicateState) : List Node → List (Cut × Node)
  | [] => []
  | .token t :: ns => ((s.step t).1, .token t) :: predicateCuts (s.step t).2 ns
  | .comment c :: ns => (.inside, .comment c) :: predicateCuts s ns
  | n :: ns => (.inside, n) :: predicateCuts { s with begun := true } ns

/-- Nodes divided at commas. -/
def splitCommas (nodes : List Node) : List (Item Node) := itemsOf (commaCuts nodes)

/-- A predicate divided at its connectives, which lead the items. -/
def splitPredicate (nodes : List Node) : List (Item Node) :=
  itemsOf (predicateCuts ⟨0, false, false⟩ nodes)

/-- The items of a clause. -/
def splitItems (kind : ClauseKind) (nodes : List Node) : List (Item Node) :=
  if kind.isCommaList then splitCommas nodes
  else if kind.isPredicate then splitPredicate nodes
  else if kind = .tables then itemsOf (fromCuts none nodes)
  else openItem nodes

/-- The nodes of a group, its operands put together. -/
def contentsOf (operands : List (Item Node)) : List Node := operands.flatMap (·.nodes)

end SqlInlay.Sql
