import SqlInlay.Text

/-!
# The reserved words

The words that the query language reserves, one constructor each, spelled as they are in capitals.
Lexing recognizes a word by `ofWord?` once; everything after it asks for the keyword, so the case
in which a query writes its keywords plays no part beyond this module.
-/

namespace SqlInlay.Sql

/-- The reserved words of SQL and JPQL that layout knows. -/
inductive Keyword where
  | ALL | AND | ANY | AS | ASC | BETWEEN | BY | CASE | CROSS | DELETE | DESC | DISTINCT | ELSE
  | EMPTY | END | ESCAPE | EXCEPT | EXISTS | FALSE | FETCH | FIRST | FROM | FULL | GROUP | HAVING
  | ILIKE | IN | INNER | INSERT | INTERSECT | INTO | IS | JOIN | LAST | LEFT | LIKE | LIMIT
  | MEMBER | NATURAL | NEW | NOT | NULL | NULLS | OF | OFFSET | ON | OR | ORDER | OUTER | OVER
  | PARTITION | RECURSIVE | RIGHT | SELECT | SET | SOME | THEN | TRUE | UNION | UPDATE | USING
  | VALUES | WHEN | WHERE | WITH
deriving DecidableEq, Repr

namespace Keyword

/-- Every keyword, in alphabetical order. -/
def all : List Keyword :=
  [.ALL, .AND, .ANY, .AS, .ASC, .BETWEEN, .BY, .CASE, .CROSS, .DELETE, .DESC, .DISTINCT, .ELSE,
   .EMPTY, .END, .ESCAPE, .EXCEPT, .EXISTS, .FALSE, .FETCH, .FIRST, .FROM, .FULL, .GROUP,
   .HAVING, .ILIKE, .IN, .INNER, .INSERT, .INTERSECT, .INTO, .IS, .JOIN, .LAST, .LEFT, .LIKE,
   .LIMIT, .MEMBER, .NATURAL, .NEW, .NOT, .NULL, .NULLS, .OF, .OFFSET, .ON, .OR, .ORDER, .OUTER,
   .OVER, .PARTITION, .RECURSIVE, .RIGHT, .SELECT, .SET, .SOME, .THEN, .TRUE, .UNION, .UPDATE,
   .USING, .VALUES, .WHEN, .WHERE, .WITH]

/-- The spelling of a keyword in capitals. -/
def spelling : Keyword → Text
  | .ALL => "ALL"
  | .AND => "AND"
  | .ANY => "ANY"
  | .AS => "AS"
  | .ASC => "ASC"
  | .BETWEEN => "BETWEEN"
  | .BY => "BY"
  | .CASE => "CASE"
  | .CROSS => "CROSS"
  | .DELETE => "DELETE"
  | .DESC => "DESC"
  | .DISTINCT => "DISTINCT"
  | .ELSE => "ELSE"
  | .EMPTY => "EMPTY"
  | .END => "END"
  | .ESCAPE => "ESCAPE"
  | .EXCEPT => "EXCEPT"
  | .EXISTS => "EXISTS"
  | .FALSE => "FALSE"
  | .FETCH => "FETCH"
  | .FIRST => "FIRST"
  | .FROM => "FROM"
  | .FULL => "FULL"
  | .GROUP => "GROUP"
  | .HAVING => "HAVING"
  | .ILIKE => "ILIKE"
  | .IN => "IN"
  | .INNER => "INNER"
  | .INSERT => "INSERT"
  | .INTERSECT => "INTERSECT"
  | .INTO => "INTO"
  | .IS => "IS"
  | .JOIN => "JOIN"
  | .LAST => "LAST"
  | .LEFT => "LEFT"
  | .LIKE => "LIKE"
  | .LIMIT => "LIMIT"
  | .MEMBER => "MEMBER"
  | .NATURAL => "NATURAL"
  | .NEW => "NEW"
  | .NOT => "NOT"
  | .NULL => "NULL"
  | .NULLS => "NULLS"
  | .OF => "OF"
  | .OFFSET => "OFFSET"
  | .ON => "ON"
  | .OR => "OR"
  | .ORDER => "ORDER"
  | .OUTER => "OUTER"
  | .OVER => "OVER"
  | .PARTITION => "PARTITION"
  | .RECURSIVE => "RECURSIVE"
  | .RIGHT => "RIGHT"
  | .SELECT => "SELECT"
  | .SET => "SET"
  | .SOME => "SOME"
  | .THEN => "THEN"
  | .TRUE => "TRUE"
  | .UNION => "UNION"
  | .UPDATE => "UPDATE"
  | .USING => "USING"
  | .VALUES => "VALUES"
  | .WHEN => "WHEN"
  | .WHERE => "WHERE"
  | .WITH => "WITH"

/-- The keyword that a word spells, in any case of its ASCII letters. -/
def ofWord? (word : Text) : Option Keyword :=
  all.find? fun k => k.spelling == word.asciiUpper

theorem mem_all (k : Keyword) : k ∈ all := by cases k <;> decide

end Keyword

end SqlInlay.Sql
