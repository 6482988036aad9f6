import SqlInlay.Sql.Layout.Flat
import SqlInlay.Sql.Layout.Joins
import SqlInlay.Sql.Script.Nesting

/-!
# The layout of a script

`Script.layOut` writes a script on a page, clause by clause.

**Clauses.**  Each clause starts a line.  A single item stays on the line of the keyword if it fits;
several items take a line each, one step deeper, except that the connectives of a predicate line up
with the keyword.

**Groups.**  A subquery is always laid out on lines of its own.  A group with connectives is broken
at them when it is too wide for the rest of the line; any other group stays on one line.

**Comments** keep their place: on the line of what they follow, or on lines of their own.

The functions recurse on the script and pass the page along, so that each is a function from pages
to pages.
-/

namespace SqlInlay.Sql

/-- Some keywords written one behind the other. -/
def printTokens (case : KeywordCase) (tokens : List Token) (p : Page) : Page :=
  tokens.foldl (Page.write case) p

/-- The comments above a clause, each on a line of its own. -/
def printLeading (indent : Nat) (comments : List Comment) (p : Page) : Page :=
  comments.foldl (fun p c => (p.breakAt indent).comment c) p

/-- A comment at the indentation of its clause or item if it has a line of its own. -/
def printComment (indent : Nat) (p : Page) (c : Comment) : Page :=
  (if c.ownLine then p.breakAt indent else p).comment c

/-- The comments below a clause. -/
def printTrailing (indent : Nat) (comments : List Comment) (p : Page) : Page :=
  comments.foldl (printComment indent) p

/-- The comma of an item, if it has one. -/
def printComma (comma : Bool) (p : Page) : Page := if comma then p.attach .comma "," else p

/-- A group broken at its connectives would otherwise run over the line. -/
def overflows (style : Style) (p : Page) (group : Node) (operands : List (Item Node)) : Bool :=
  operands.length ≥ 2 &&
    p.column + 1 + flatWidth style.keywordCase [group] > style.maxLineWidth

/-- The nodes without the comments at their end that share its line. -/
def core (nodes : List Node) : List Node :=
  (nodes.reverse.dropWhile fun n => n.isComment && !n.isOwnLineComment).reverse

/-- An item may stay on the line of its keyword: it holds no comment but at its end, and it is a
subquery, which is broken anyway, or narrow enough. -/
def fitsOnLine (style : Style) (p : Page) (nodes : List Node) : Bool :=
  let nodes := core nodes
  !anyNodeHasComments nodes &&
    (nodes.any Node.isQuery
      || p.column + 1 + flatWidth style.keywordCase nodes ≤ style.maxLineWidth)

mutual

/-- A node written where the page stands. -/
def Node.print (style : Style) : Node → Page → Page
  | .token t, p =>
    match t.kind with
    | .comma | .closeParen | .semicolon => p.punctuate style.keywordCase t
    | _ => p.write style.keywordCase t
  | .comment c, p => p.comment c
  | .query opening script closing, p =>
    let opened := p.write style.keywordCase opening
    let inside := printStatements style (opened.indent + style.indentWidth) true script opened
    ((inside.breakAt opened.indent).write style.keywordCase closing).continueAt p.continuation
  | .list opening operands closing, p =>
    let opened := p.write style.keywordCase opening
    if overflows style p (.list opening operands closing) operands then
      let inside := printItems style (opened.indent + style.indentWidth) operands opened
      ((inside.breakAt opened.indent).write style.keywordCase closing).continueAt p.continuation
    else
      (printContents style operands opened).punctuate style.keywordCase closing

/-- Some nodes written where the page stands. -/
def printNodes (style : Style) : List Node → Page → Page
  | [], p => p
  | n :: ns, p => printNodes style ns (n.print style p)

/-- The contents of a group written where the page stands. -/
def printContents (style : Style) : List (Item Node) → Page → Page
  | [], p => p
  | ⟨nodes, _⟩ :: is, p => printContents style is (printNodes style nodes p)

/-- The nodes of an item on a new line; comments in front of them come first. -/
def printItemNodes (style : Style) (indent : Nat) : List Node → Page → Page
  | [], p => p.breakAt indent
  | .comment c :: ns, p => printItemNodes style indent ns (printComment indent p c)
  | n :: ns, p => printNodes style ns (n.print style (p.breakAt indent))

/-- Some items, each on a line of its own. -/
def printItems (style : Style) (indent : Nat) : List (Item Node) → Page → Page
  | [], p => p
  | ⟨nodes, comma⟩ :: is, p =>
    let continued := p.continueAt (indent + style.indentWidth)
    printItems style indent is (printComma comma (printItemNodes style indent nodes continued))

/-- The items of a clause behind its keywords. -/
def printClauseItems (style : Style) (indent : Nat) (predicate : Bool) :
    List (Item Node) → Page → Page
  | [], p => p
  | ⟨nodes, comma⟩ :: is, p =>
    let continued := p.continueAt (indent + style.indentWidth)
    if is.isEmpty && fitsOnLine style p nodes then
      printComma comma (printNodes style nodes continued)
    else if predicate then
      printItems style indent is (printNodes style nodes continued)
    else
      let deeper := indent + style.indentWidth
      let first := printItemNodes style deeper nodes (p.continueAt (deeper + style.indentWidth))
      printItems style deeper is (printComma comma first)

/-- The body of a clause.  The arguments of a construction stand two steps deeper than the clause,
its closing parenthesis below `NEW`. -/
def printBody (style : Style) (indent : Nat) (predicate bare : Bool) : Body Node → Page → Page
  | .items is, p =>
    if bare then printItems style indent is p else printClauseItems style indent predicate is p
  | .construction ⟨new, typeName, opening, arguments, closing⟩, p =>
    let started := p.write style.keywordCase new
    let opened := (printTokens style.keywordCase typeName started).glue opening
    if arguments.isEmpty then opened.glue closing
    else
      let inside := printItems style (indent + 2 * style.indentWidth) arguments opened
      (inside.breakAt (started.column - new.text.length)).glue closing

/-- Some clauses, each from a new line on; a preamble has no keywords, and its items are laid out as
they stand. -/
def printClauses (style : Style) (indent : Nat) : List (Clause Node) → Page → Page
  | [], p => p
  | ⟨kind, keywords, leading, body, trailing⟩ :: cs, p =>
    let begun := printLeading indent leading p
    let headed :=
      match keywords with
      | [] => begun
      | _ :: _ => printTokens style.keywordCase keywords (begun.breakAt indent)
    let written := printBody style indent kind.isPredicate keywords.isEmpty body headed
    printClauses style indent cs (printTrailing indent trailing written)

/-- Some statements, with an empty line in front of each but the first; statements that are only
comments follow without one. -/
def printStatements (style : Style) (indent : Nat) (first : Bool) :
    List (Statement Node) → Page → Page
  | [], p => p
  | ⟨clauses, terminated, trailing⟩ :: ss, p =>
    let apart := !first && !Statement.isCommentOnly ⟨clauses, terminated, trailing⟩
    let written := printClauses style indent clauses (if apart then p.separate else p)
    let ended := if terminated then written.attach .semicolon ";" else written
    printStatements style indent false ss (trailing.foldl Page.comment ended)

end

/-- A script laid out on a page. -/
def Script.layOut (style : Style) (script : Script) : Page :=
  printStatements style 0 true (if style.oneJoinPerLine then script else Script.mergeJoins script)
    .empty

/-- The text of a script in a style. -/
def Script.format (style : Style) (script : Script) : Text := (Script.layOut style script).render

/-- A query text in a style; it is refused only where it does not parse. -/
def formatQuery (style : Style) (dialect : Dialect) (query : Text) : Except Failure Text :=
  (parse query dialect).map (Script.format style)

end SqlInlay.Sql
