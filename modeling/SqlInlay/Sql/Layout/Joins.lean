import SqlInlay.Sql.Script

/-!
# Joins on the line of their table

Where a style does not ask for a line per join, a join is no item of its own: it is put together
with the item in front of it, unless a comma stands between them.  `Script.mergeJoins` does so to
every `FROM` of a script, at any depth, before the script is printed.

**Undoing a division.**  Joins were cut out as items when the script was made, and `joinItems` puts
them back.  The nodes of the items stay as they were, and so does the flag of the last item of a
run.
-/

namespace SqlInlay.Sql

/-- The item with all joins right behind it taken in. -/
def absorbJoins (first : Item Node) : List (Item Node) → List (Item Node)
  | [] => [first]
  | i :: is =>
    if i.isJoin && !first.comma then absorbJoins ⟨first.nodes ++ i.nodes, i.comma⟩ is
    else first :: absorbJoins i is

/-- Items with every join put together with the item in front. -/
def joinItems : List (Item Node) → List (Item Node)
  | [] => []
  | i :: is => absorbJoins i is

mutual

/-- The node with its joins put together. -/
def Node.mergeJoins : Node → Node
  | .token t => .token t
  | .comment c => .comment c
  | .query opening script closing => .query opening (mergeStatements script) closing
  | .list opening operands closing => .list opening (mergeItems operands) closing

/-- Nodes with their joins put together. -/
def mergeNodes : List Node → List Node
  | [] => []
  | n :: ns => n.mergeJoins :: mergeNodes ns

/-- Items with the joins inside them put together. -/
def mergeItems : List (Item Node) → List (Item Node)
  | [] => []
  | ⟨nodes, comma⟩ :: is => ⟨mergeNodes nodes, comma⟩ :: mergeItems is

/-- The body of a clause with its joins put together. -/
def mergeBody (kind : ClauseKind) : Body Node → Body Node
  | .items is => .items (if kind = .tables then joinItems (mergeItems is) else mergeItems is)
  | .construction ⟨new, typeName, opening, arguments, closing⟩ =>
    .construction ⟨new, typeName, opening, mergeItems arguments, closing⟩

/-- Clauses with their joins put together. -/
def mergeClauses : List (Clause Node) → List (Clause Node)
  | [] => []
  | ⟨kind, keywords, leading, body, trailing⟩ :: cs =>
    ⟨kind, keywords, leading, mergeBody kind body, trailing⟩ :: mergeClauses cs

/-- Statements with their joins put together. -/
def mergeStatements : List (Statement Node) → List (Statement Node)
  | [] => []
  | ⟨clauses, terminated, trailing⟩ :: ss =>
    ⟨mergeClauses clauses, terminated, trailing⟩ :: mergeStatements ss

end

/-- The script with the joins of every `FROM` put together with their tables. -/
def Script.mergeJoins (s : Script) : Script := mergeStatements s

end SqlInlay.Sql
