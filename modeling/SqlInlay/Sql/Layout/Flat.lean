import SqlInlay.Sql.Layout.Page

/-!
# Measuring on one line

To decide whether something fits, it is written flat: all of it on one line, with the spaces that
the layout would put, comments included and no line broken.  `flatWidth` is the width that it takes.

**One way to write.**  Writing flat uses the same functions on lines as printing does, so the spaces
between tokens are decided in the same way.  The recursion follows the script; a line goes in and a
longer one comes out.

**Flags.**  Commas of items and semicolons are put behind what is written, as marks.  The operands
of a group are the exception: their commas are nodes among the others, and their flags are passed
over.

**From an empty line.**  What is measured starts a line of its own, where in the layout something
may stand in front.  A sign or a space at the start may come out otherwise there.
-/

namespace SqlInlay.Sql

/-- Some tokens written one behind the other. -/
def writeAll (case : KeywordCase) (tokens : List Token) (l : Line) : Line :=
  tokens.foldl (Line.write case) l

/-- Some comments written one behind the other. -/
def remarkAll (comments : List Comment) (l : Line) : Line :=
  comments.foldl (fun l c => l.remark c.token) l

/-- The comma of an item, if it has one. -/
def commaAfter (comma : Bool) (l : Line) : Line := if comma then l.attach .comma "," else l

mutual

/-- A node written flat. -/
def Node.flat (case : KeywordCase) : Node → Line → Line
  | .token t, l => l.write case t
  | .comment c, l => l.remark c.token
  | .query opening script closing, l =>
    (flatStatements case script (l.write case opening)).write case closing
  | .list opening operands closing, l =>
    (flatContents case operands (l.write case opening)).write case closing

/-- Some nodes written flat. -/
def flatNodes (case : KeywordCase) : List Node → Line → Line
  | [], l => l
  | n :: ns, l => flatNodes case ns (n.flat case l)

/-- The operands of a group written flat; commas among them are nodes. -/
def flatContents (case : KeywordCase) : List (Item Node) → Line → Line
  | [], l => l
  | ⟨nodes, _⟩ :: is, l => flatContents case is (flatNodes case nodes l)

/-- Some items written flat. -/
def flatItems (case : KeywordCase) : List (Item Node) → Line → Line
  | [], l => l
  | ⟨nodes, comma⟩ :: is, l => flatItems case is (commaAfter comma (flatNodes case nodes l))

/-- The body of a clause written flat. -/
def flatBody (case : KeywordCase) : Body Node → Line → Line
  | .items is, l => flatItems case is l
  | .construction ⟨new, typeName, opening, arguments, closing⟩, l =>
    (flatItems case arguments ((writeAll case (new :: typeName) l).glue opening)).glue closing

/-- Some clauses written flat. -/
def flatClauses (case : KeywordCase) : List (Clause Node) → Line → Line
  | [], l => l
  | ⟨_, keywords, leading, body, trailing⟩ :: cs, l =>
    flatClauses case cs
      (remarkAll trailing (flatBody case body (writeAll case keywords (remarkAll leading l))))

/-- Some statements written flat. -/
def flatStatements (case : KeywordCase) : List (Statement Node) → Line → Line
  | [], l => l
  | ⟨clauses, terminated, trailing⟩ :: ss, l =>
    let written := flatClauses case clauses l
    let ended := if terminated then written.attach .semicolon ";" else written
    flatStatements case ss (remarkAll trailing ended)

end

/-- The width of some nodes on one line. -/
def flatWidth (case : KeywordCase) (nodes : List Node) : Nat :=
  (flatNodes case nodes (.empty 0)).codeWidth

end SqlInlay.Sql
