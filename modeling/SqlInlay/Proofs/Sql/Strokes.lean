import Mathlib.Data.List.Basic
import Mathlib.Data.List.Forall2
import Mathlib.Tactic.Common
import SqlInlay.Sql.Layout.Flat
import SqlInlay.Sql.Layout.Joins
import SqlInlay.Sql.Script.Nesting

/-!
# The strokes of a script

Printing a script and measuring it on one line put the same things one behind the other: tokens,
marks that stand for flags, and comments.  A `Stroke` is one of them, and `Node.strokes` and its
companions list those of a script from left to right.  What a layout adds is where lines break.

So strokes are where the stages of formatting meet.  Segmentation is described by the strokes of
what it makes, printing by the strokes that it puts on a page, and reading a page by the strokes
found on it; none of the three has to be known in the terms of another.

**Divisions.**  Segmentation divides nodes into items, clauses and statements.  A comma that becomes
a flag turns from a token into a mark on the way, and the parentheses of a construction are put down
without a space; `Settles` says that a stroke is another one up to this, and `Settled` says so of
lists, place by place.  So the strokes of a script are the tokens of its text, each in its place.

**Soundness.**  Beside that, `Node.Sound` and its companions say what every script is like that
segmentation makes.  Where lines break rests on it: an item without a comma behind it is followed by
a keyword or a comment, a clause other than the first begins with a keyword, a statement other than
the last ends in a semicolon.
-/

namespace SqlInlay.Sql

/-! ## Strokes

The definitions follow the script, one for each of its types, and each is a plain concatenation: no
stroke depends on what stands around it.
-/

/-- What is put on a page in one go.  A token is written where it belongs, or glued to what is in
front of it; a mark stands for a flag; a comment brings what is known of its line. -/
inductive Stroke where
  /-- A token, with a space in front if it needs one. -/
  | write (t : Token)
  /-- A token without a space in front. -/
  | glue (t : Token)
  /-- A mark that stands for a flag. -/
  | mark (kind : Kind) (text : Text)
  | comment (c : Comment)
deriving DecidableEq, Repr

namespace Stroke

/-- The kind of what is put down. -/
def kind : Stroke → Kind
  | write t => t.kind
  | glue t => t.kind
  | mark kind _ => kind
  | comment c => c.token.kind

/-- The text of what is put down, before its case is chosen. -/
def text : Stroke → Text
  | write t => t.text
  | glue t => t.text
  | mark _ text => text
  | comment c => c.token.text

end Stroke

/-- The comma of an item as a stroke. -/
def commaStrokes (comma : Bool) : List Stroke := if comma then [.mark .comma ","] else []

/-- The semicolon of a statement as a stroke. -/
def endStrokes (terminated : Bool) : List Stroke :=
  if terminated then [.mark .semicolon ";"] else []

mutual

/-- The strokes of a node. -/
def Node.strokes : Node → List Stroke
  | .token t => [.write t]
  | .comment c => [.comment c]
  | .query opening script closing =>
    .write opening :: (statementsStrokes script ++ [.write closing])
  | .list opening operands closing =>
    .write opening :: (contentsStrokes operands ++ [.write closing])

/-- The strokes of some nodes. -/
def nodesStrokes : List Node → List Stroke
  | [] => []
  | n :: ns => n.strokes ++ nodesStrokes ns

/-- The strokes of the contents of a group, whose commas are nodes.  Their items have flags like any
others, but nothing is put down for them. -/
def contentsStrokes : List (Item Node) → List Stroke
  | [] => []
  | ⟨nodes, _⟩ :: is => nodesStrokes nodes ++ contentsStrokes is

/-- The strokes of some items. -/
def itemsStrokes : List (Item Node) → List Stroke
  | [] => []
  | ⟨nodes, comma⟩ :: is => nodesStrokes nodes ++ (commaStrokes comma ++ itemsStrokes is)

/-- The strokes of the body of a clause. -/
def bodyStrokes : Body Node → List Stroke
  | .items is => itemsStrokes is
  | .construction ⟨new, typeName, opening, arguments, closing⟩ =>
    (new :: typeName).map .write ++ .glue opening :: (itemsStrokes arguments ++ [.glue closing])

/-- The strokes of some clauses. -/
def clausesStrokes : List (Clause Node) → List Stroke
  | [] => []
  | ⟨_, keywords, leading, body, trailing⟩ :: cs =>
    leading.map .comment ++ (keywords.map .write ++
      (bodyStrokes body ++ (trailing.map .comment ++ clausesStrokes cs)))

/-- The strokes of some statements. -/
def statementsStrokes : List (Statement Node) → List Stroke
  | [] => []
  | ⟨clauses, terminated, trailing⟩ :: ss =>
    clausesStrokes clauses ++ (endStrokes terminated ++
      (trailing.map .comment ++ statementsStrokes ss))

end

@[simp] lemma nodesStrokes_append (ns ms : List Node) :
    nodesStrokes (ns ++ ms) = nodesStrokes ns ++ nodesStrokes ms := by
  induction ns with
  | nil => simp [nodesStrokes]
  | cons n ns ih => simp [nodesStrokes, ih]

@[simp] lemma itemsStrokes_append (is js : List (Item Node)) :
    itemsStrokes (is ++ js) = itemsStrokes is ++ itemsStrokes js := by
  induction is with
  | nil => simp [itemsStrokes]
  | cons i is ih => simp [itemsStrokes, ih]

@[simp] lemma clausesStrokes_append (cs ds : List (Clause Node)) :
    clausesStrokes (cs ++ ds) = clausesStrokes cs ++ clausesStrokes ds := by
  induction cs with
  | nil => simp [clausesStrokes]
  | cons c cs ih => simp [clausesStrokes, ih]

/-! ## Sound scripts

Soundness goes through a script in the same way.  Where something is asked of neighbours, as of
items without a comma between them, it is asked of what comes next in the list.
-/

namespace Token

/-- Keywords that stand at the head of a clause. -/
def isClauseWord (t : Token) : Bool :=
  t.spellsAny [.WITH, .RECURSIVE, .SELECT, .DISTINCT, .ALL, .FROM, .WHERE, .GROUP, .BY, .HAVING,
    .ORDER, .UNION, .INTERSECT, .EXCEPT, .LIMIT, .OFFSET, .UPDATE, .SET, .DELETE, .INSERT, .INTO,
    .VALUES]

/-- The token is a keyword. -/
def isKeyword (t : Token) : Bool :=
  match t.kind with
  | .keyword _ => true
  | _ => false

/-- A token is no comment, and commas and semicolons read as their marks do.  Tokens from a lexer
are sound. -/
structure Sound (t : Token) : Prop where
  code : t.isComment = false
  comma : t.kind = .comma → t.text = ",".toList
  semicolon : t.kind = .semicolon → t.text = ";".toList

end Token

namespace Node

/-- The node is a keyword. -/
def isKeyword (n : Node) : Bool := n.token?.any Token.isKeyword

end Node

/-- Items start with a comment or a keyword if there are any.  In front of such items a line may
break, even without a comma. -/
def OpenAnew : List (Item Node) → Prop
  | [] => True
  | ⟨[], _⟩ :: _ => False
  | ⟨n :: _, _⟩ :: _ => n.isComment = true ∨ n.isKeyword = true

/-- Comments are what they are called. -/
def CommentsSound (comments : List Comment) : Prop := ∀ c ∈ comments, c.token.isComment = true

mutual

/-- A node is as segmentation makes it; the operands of a group carry no commas. -/
def Node.Sound : Node → Prop
  | .token t => t.Sound
  | .comment c => c.token.isComment = true
  | .query opening script closing =>
    opening.kind = .openParen ∧ closing.kind = .closeParen ∧ StatementsSound script
  | .list opening operands closing =>
    opening.kind = .openParen ∧ closing.kind = .closeParen ∧ ItemsSound false operands

/-- Nodes are as segmentation makes them. -/
def NodesSound : List Node → Prop
  | [] => True
  | n :: ns => n.Sound ∧ NodesSound ns

/-- Items are as segmentation makes them, with commas behind them if `commas` says so.  One without
a comma has items behind it that open anew, if any. -/
def ItemsSound (commas : Bool) : List (Item Node) → Prop
  | [] => True
  | ⟨nodes, comma⟩ :: is =>
    NodesSound nodes ∧ (if comma then commas = true else OpenAnew is) ∧ ItemsSound commas is

/-- The body of a clause is as segmentation makes it. -/
def BodySound (kind : ClauseKind) : Body Node → Prop
  | .items is => ItemsSound (!kind.isPredicate) is
  | .construction ⟨new, typeName, opening, arguments, closing⟩ =>
    new.kind = .keyword .NEW ∧ (∀ t ∈ typeName, t.kind = .identifier ∨ t.kind = .dot) ∧
      opening.kind = .openParen ∧ closing.kind = .closeParen ∧ ItemsSound true arguments

/-- Clauses are as segmentation makes them: all but the first of a statement have keywords. -/
def ClausesSound (first : Bool) : List (Clause Node) → Prop
  | [] => True
  | ⟨kind, keywords, leading, body, trailing⟩ :: cs =>
    (keywords = [] → first = true) ∧ (∀ t ∈ keywords, t.isClauseWord = true) ∧
      CommentsSound leading ∧ BodySound kind body ∧ CommentsSound trailing ∧ ClausesSound false cs

/-- Statements are as segmentation makes them: all but the last end in a semicolon. -/
def StatementsSound : List (Statement Node) → Prop
  | [] => True
  | ⟨clauses, terminated, trailing⟩ :: ss =>
    ClausesSound true clauses ∧ CommentsSound trailing ∧ (terminated = true ∨ ss = []) ∧
      StatementsSound ss

end

lemma nodesSound_iff {nodes : List Node} : NodesSound nodes ↔ ∀ n ∈ nodes, n.Sound := by
  induction nodes with
  | nil => simp [NodesSound]
  | cons n ns ih => simp [NodesSound, ih]

@[simp] lemma nodesSound_append {ns ms : List Node} :
    NodesSound (ns ++ ms) ↔ NodesSound ns ∧ NodesSound ms := by
  simp only [nodesSound_iff, List.forall_mem_append]

/-- Items without commas have the strokes of their contents. -/
lemma itemsStrokes_eq_contentsStrokes {is : List (Item Node)} (h : ItemsSound false is) :
    itemsStrokes is = contentsStrokes is := by
  induction is with
  | nil => rfl
  | cons i is ih =>
    obtain ⟨nodes, comma⟩ := i
    obtain ⟨-, hcomma, his⟩ := h
    obtain rfl : comma = false := by
      cases comma with
      | false => rfl
      | true => exact absurd hcomma (by simp)
    simp [itemsStrokes, contentsStrokes, commaStrokes, ih his]

/-- Items behind items: those without a comma at the end need something to open anew behind them. -/
lemma itemsSound_append {commas : Bool} {is js : List (Item Node)}
    (h : ItemsSound commas is) (hj : ItemsSound commas js)
    (hlast : ∀ i ∈ is.getLast?, i.comma = true ∨ OpenAnew js) : ItemsSound commas (is ++ js) := by
  induction is with
  | nil => simpa using hj
  | cons i is ih =>
    obtain ⟨nodes, comma⟩ := i
    obtain ⟨hnodes, hcomma, his⟩ := h
    refine ⟨hnodes, ?_, ih his fun i hi => hlast i ?_⟩
    · cases comma with
      | true => exact hcomma
      | false =>
        rcases is with _ | ⟨⟨_ | ⟨n, ns⟩, _⟩, is⟩
        · simpa using hlast _ rfl
        · exact hcomma
        · exact hcomma
    · cases is with
      | nil => simp at hi
      | cons j is => rwa [List.getLast?_cons_cons]

end SqlInlay.Sql
