import SqlInlay.Proofs.Guarded.Script
import SqlInlay.Proofs.Sql.Fitting

/-!
# Layout, by widths and indices

Laying a script out: the comments at the end of an item are cut off by the index behind its last
node that is none, and the column of a construction is the width of its line with that of `NEW`
taken off.  Both can miss, the one by an index that is not there, the other by a difference below
zero.

**The column of a construction** lies on the line because a token is never written shorter than it
is: whatever the case of keywords is, no letter maps to nothing (`length_le_apply`).  So a line is
at least as wide as what was written on it last (`length_le_width_write`), and nothing has to be
known of the script.

**One lemma for each function.**  The lemmas are called `…_eq` after the functions, first those that
measure on one line and then those that print, and say that the function comes to an end without a
trap and with what its counterpart gives.  The last of them is `formatQuery_eq`.
-/

namespace SqlInlay

/-! ## Widths -/

section Casing

open Text

lemma mapCase_ne_nil {runs : List CaseRun} {sequences : List (Nat × List Nat)}
    (h : ∀ entry ∈ sequences, entry.2 ≠ []) (c : Char) : mapCase runs sequences c ≠ [] := by
  unfold mapCase
  split
  · rename_i image himage
    obtain ⟨front, back, hsequences, -⟩ := List.lookup_eq_some_iff.1 himage
    simpa using h (c.toNat, image) (by simp [hsequences])
  · split <;> exact List.cons_ne_nil _ _

lemma upperOf_ne_nil (c : Char) : upperOf c ≠ [] := by
  unfold upperOf
  split
  · exact List.cons_ne_nil _ _
  · exact mapCase_ne_nil (by decide) c

lemma lowerOf_ne_nil (c : Char) : lowerOf c ≠ [] := by
  unfold lowerOf
  split
  · exact List.cons_ne_nil _ _
  · exact mapCase_ne_nil (by decide) c

lemma length_le_toUpper (t : Text) : t.length ≤ t.toUpper.length := by
  induction t with
  | nil => exact Nat.zero_le _
  | cons c t ih =>
    have hpos := List.length_pos_of_ne_nil (upperOf_ne_nil c)
    rw [toUpper, List.flatMap_cons, List.length_append, List.length_cons, ← toUpper]
    omega

lemma length_le_lowerAfter (before t : Text) : t.length ≤ (lowerAfter before t).length := by
  induction t generalizing before with
  | nil => exact Nat.zero_le _
  | cons c t ih =>
    have hrest := ih (c :: before)
    have hpos := List.length_pos_of_ne_nil (lowerOf_ne_nil c)
    rw [lowerAfter, List.length_append, List.length_cons]
    split
    · split <;> (rw [List.length_singleton]; omega)
    · omega

/-- No case makes a word shorter. -/
lemma length_le_apply (case : KeywordCase) (word : Text) :
    word.length ≤ (case.apply word).length := by
  cases case with
  | preserve => exact le_rfl
  | upper => exact length_le_toUpper word
  | lower => exact length_le_lowerAfter [] word

end Casing

end SqlInlay

namespace SqlInlay.Guarded

open SqlInlay.Text SqlInlay.Sql

section Widths

variable (case : KeywordCase) (t : Token)

lemma length_le_spelling : t.text.length ≤ (Line.spelling case t).length := by
  unfold Line.spelling
  split
  · exact length_le_apply case t.text
  · exact le_rfl

/-- A line is at least as wide as what was written on it last. -/
lemma length_le_width_write (l : Line) : t.text.length ≤ (l.write case t).width := by
  have hspelling := length_le_spelling case t
  rw [Line.width, Line.codeWidth_write]
  omega

lemma length_le_column_write (p : Page) : t.text.length ≤ (p.write case t).column := by
  obtain ⟨l, ls, hlines, -⟩ := p.exists_ready
  have hfresh : p.ready.fresh = none := by
    unfold Page.ready
    split
    · rfl
    · rfl
    · rename_i hnone _
      split
      · rfl
      · exact hnone
  have hwidth := length_le_width_write case t l
  simpa [Page.write, Page.onLast, hlines, Page.column, hfresh] using hwidth

end Widths

/-! ## Measuring on one line -/

mutual

/-- A node written flat. -/
def flatNode (case : KeywordCase) : Node → Line → Guarded Line
  | .token t, l => return l.write case t
  | .comment c, l => return l.remark c.token
  | .query opening script closing, l => do
    let inside ← flatStatements case script (l.write case opening)
    return inside.write case closing
  | .list opening operands closing, l => do
    let inside ← flatContents case operands (l.write case opening)
    return inside.write case closing

/-- Some nodes written flat. -/
def flatNodes (case : KeywordCase) : List Node → Line → Guarded Line
  | [], l => return l
  | n :: ns, l => do
    let written ← flatNode case n l
    flatNodes case ns written

/-- The operands of a group written flat. -/
def flatContents (case : KeywordCase) : List (Item Node) → Line → Guarded Line
  | [], l => return l
  | ⟨nodes, _⟩ :: is, l => do
    let written ← flatNodes case nodes l
    flatContents case is written

/-- Some items written flat. -/
def flatItems (case : KeywordCase) : List (Item Node) → Line → Guarded Line
  | [], l => return l
  | ⟨nodes, comma⟩ :: is, l => do
    let written ← flatNodes case nodes l
    flatItems case is (commaAfter comma written)

/-- The body of a clause written flat; the column of a construction is taken there too. -/
def flatBody (case : KeywordCase) : Body Node → Line → Guarded Line
  | .items is, l => flatItems case is l
  | .construction ⟨new, typeName, opening, arguments, closing⟩, l => do
    let started := l.write case new
    let _ ← subtract started.width new.text.length
    let inside ← flatItems case arguments ((writeAll case typeName started).glue opening)
    return inside.glue closing

/-- Some clauses written flat. -/
def flatClauses (case : KeywordCase) : List (Clause Node) → Line → Guarded Line
  | [], l => return l
  | ⟨_, keywords, leading, body, trailing⟩ :: cs, l => do
    let written ← flatBody case body (writeAll case keywords (remarkAll leading l))
    flatClauses case cs (remarkAll trailing written)

/-- Some statements written flat. -/
def flatStatements (case : KeywordCase) : List (Statement Node) → Line → Guarded Line
  | [], l => return l
  | ⟨clauses, terminated, trailing⟩ :: ss, l => do
    let written ← flatClauses case clauses l
    let ended := if terminated then written.attach .semicolon ";" else written
    flatStatements case ss (remarkAll trailing ended)

end

/-- The width of some nodes on one line. -/
def flatWidth (case : KeywordCase) (nodes : List Node) : Guarded Nat := do
  let line ← flatNodes case nodes (.empty 0)
  return line.codeWidth

mutual

lemma flatNode_eq (case : KeywordCase) : ∀ (n : Node) (l : Line),
    flatNode case n l = .ok (n.flat case l)
  | .token _, _ => by rw [flatNode, Node.flat, pure_eq_ok]
  | .comment _, _ => by rw [flatNode, Node.flat, pure_eq_ok]
  | .query _ script _, l => by
    rw [flatNode, flatStatements_eq case script, ok_bind, Node.flat, pure_eq_ok]
  | .list _ operands _, l => by
    rw [flatNode, flatContents_eq case operands, ok_bind, Node.flat, pure_eq_ok]

lemma flatNodes_eq (case : KeywordCase) : ∀ (ns : List Node) (l : Line),
    flatNodes case ns l = .ok (Sql.flatNodes case ns l)
  | [], _ => by rw [flatNodes, Sql.flatNodes, pure_eq_ok]
  | n :: ns, l => by
    rw [flatNodes, flatNode_eq case n, ok_bind, flatNodes_eq case ns, Sql.flatNodes]

lemma flatContents_eq (case : KeywordCase) : ∀ (is : List (Item Node)) (l : Line),
    flatContents case is l = .ok (Sql.flatContents case is l)
  | [], _ => by rw [flatContents, Sql.flatContents, pure_eq_ok]
  | ⟨nodes, _⟩ :: is, l => by
    rw [flatContents, flatNodes_eq case nodes, ok_bind, flatContents_eq case is, Sql.flatContents]

lemma flatItems_eq (case : KeywordCase) : ∀ (is : List (Item Node)) (l : Line),
    flatItems case is l = .ok (Sql.flatItems case is l)
  | [], _ => by rw [flatItems, Sql.flatItems, pure_eq_ok]
  | ⟨nodes, _⟩ :: is, l => by
    rw [flatItems, flatNodes_eq case nodes, ok_bind, flatItems_eq case is, Sql.flatItems]

lemma flatBody_eq (case : KeywordCase) : ∀ (body : Body Node) (l : Line),
    flatBody case body l = .ok (Sql.flatBody case body l)
  | .items is, l => by rw [flatBody, flatItems_eq case is, Sql.flatBody]
  | .construction ⟨new, _, _, arguments, _⟩, l => by
    rw [flatBody, subtract_of_le (length_le_width_write case new l), ok_bind,
      flatItems_eq case arguments, ok_bind, Sql.flatBody, pure_eq_ok]
    rfl

lemma flatClauses_eq (case : KeywordCase) : ∀ (cs : List (Clause Node)) (l : Line),
    flatClauses case cs l = .ok (Sql.flatClauses case cs l)
  | [], _ => by rw [flatClauses, Sql.flatClauses, pure_eq_ok]
  | ⟨_, _, _, body, _⟩ :: cs, l => by
    rw [flatClauses, flatBody_eq case body, ok_bind, flatClauses_eq case cs, Sql.flatClauses]

lemma flatStatements_eq (case : KeywordCase) : ∀ (ss : List (Statement Node)) (l : Line),
    flatStatements case ss l = .ok (Sql.flatStatements case ss l)
  | [], _ => by rw [flatStatements, Sql.flatStatements, pure_eq_ok]
  | ⟨clauses, _, _⟩ :: ss, l => by
    rw [flatStatements, flatClauses_eq case clauses, ok_bind, Sql.flatStatements]
    exact flatStatements_eq case ss _

end

lemma flatWidth_eq (case : KeywordCase) (nodes : List Node) :
    flatWidth case nodes = .ok (Sql.flatWidth case nodes) := by
  rw [flatWidth, flatNodes_eq, ok_bind, Sql.flatWidth, pure_eq_ok]

/-! ## Printing -/

/-- A group broken at its connectives would otherwise run over the line. -/
def overflows (style : Style) (p : Page) (group : Node) (operands : List (Item Node)) :
    Guarded Bool :=
  if operands.length < 2 then return false
  else do
    let width ← flatWidth style.keywordCase [group]
    return p.column + 1 + width > style.maxLineWidth

/-- The nodes without the comments at their end that share its line. -/
def core (nodes : List Node) : Guarded (List Node) :=
  listTo nodes (behindLast (fun n => !(n.isComment && !n.isOwnLineComment)) nodes)

/-- An item may stay on the line of its keyword. -/
def fitsOnLine (style : Style) (p : Page) (nodes : List Node) : Guarded Bool := do
  let core ← core nodes
  if anyNodeHasComments core then return false
  else if core.any Node.isQuery then return true
  else
    let width ← flatWidth style.keywordCase core
    return p.column + 1 + width ≤ style.maxLineWidth

/-- The same of the first item of a clause, if no other follows it. -/
def fitsAlone (style : Style) (p : Page) (nodes : List Node) (rest : List (Item Node)) :
    Guarded Bool :=
  if rest.isEmpty then fitsOnLine style p nodes else return false

mutual

/-- A node written where the page stands. -/
def printNode (style : Style) : Node → Page → Guarded Page
  | .token t, p =>
    match t.kind with
    | .comma | .closeParen | .semicolon => return p.punctuate style.keywordCase t
    | _ => return p.write style.keywordCase t
  | .comment c, p => return p.comment c
  | .query opening script closing, p => do
    let opened := p.write style.keywordCase opening
    let inside ← printStatements style (opened.indent + style.indentWidth) true script opened
    let broken := inside.breakAt opened.indent
    return (broken.write style.keywordCase closing).continueAt p.continuation
  | .list opening operands closing, p => do
    let opened := p.write style.keywordCase opening
    if ← overflows style p (.list opening operands closing) operands then
      let inside ← printItems style (opened.indent + style.indentWidth) operands opened
      let broken := inside.breakAt opened.indent
      return (broken.write style.keywordCase closing).continueAt p.continuation
    else
      let inside ← printContents style operands opened
      return inside.punctuate style.keywordCase closing

/-- Some nodes written where the page stands. -/
def printNodes (style : Style) : List Node → Page → Guarded Page
  | [], p => return p
  | n :: ns, p => do
    let written ← printNode style n p
    printNodes style ns written

/-- The contents of a group written where the page stands. -/
def printContents (style : Style) : List (Item Node) → Page → Guarded Page
  | [], p => return p
  | ⟨nodes, _⟩ :: is, p => do
    let written ← printNodes style nodes p
    printContents style is written

/-- The nodes of an item on a new line; comments in front of them come first. -/
def printItemNodes (style : Style) (indent : Nat) : List Node → Page → Guarded Page
  | [], p => return p.breakAt indent
  | .comment c :: ns, p => printItemNodes style indent ns (printComment indent p c)
  | n :: ns, p => do
    let written ← printNode style n (p.breakAt indent)
    printNodes style ns written

/-- Some items, each on a line of its own. -/
def printItems (style : Style) (indent : Nat) : List (Item Node) → Page → Guarded Page
  | [], p => return p
  | ⟨nodes, comma⟩ :: is, p => do
    let written ← printItemNodes style indent nodes (p.continueAt (indent + style.indentWidth))
    printItems style indent is (printComma comma written)

/-- The items of a clause behind its keywords. -/
def printClauseItems (style : Style) (indent : Nat) (predicate : Bool) :
    List (Item Node) → Page → Guarded Page
  | [], p => return p
  | ⟨nodes, comma⟩ :: is, p => do
    let deeper := indent + style.indentWidth
    if ← fitsAlone style p nodes is then
      let written ← printNodes style nodes (p.continueAt deeper)
      return printComma comma written
    else if predicate then
      let written ← printNodes style nodes (p.continueAt deeper)
      printItems style indent is written
    else
      let written ←
        printItemNodes style deeper nodes (p.continueAt (deeper + style.indentWidth))
      printItems style deeper is (printComma comma written)

/-- The body of a clause. -/
def printBody (style : Style) (indent : Nat) (predicate bare : Bool) :
    Body Node → Page → Guarded Page
  | .items is, p =>
    if bare then printItems style indent is p else printClauseItems style indent predicate is p
  | .construction ⟨new, typeName, opening, arguments, closing⟩, p => do
    let started := p.write style.keywordCase new
    let column ← subtract started.column new.text.length
    let opened := (printTokens style.keywordCase typeName started).glue opening
    if arguments.isEmpty then return opened.glue closing
    else
      let inside ← printItems style (indent + 2 * style.indentWidth) arguments opened
      return (inside.breakAt column).glue closing

/-- Some clauses, each from a new line on. -/
def printClauses (style : Style) (indent : Nat) : List (Clause Node) → Page → Guarded Page
  | [], p => return p
  | ⟨kind, keywords, leading, body, trailing⟩ :: cs, p => do
    let begun := printLeading indent leading p
    let headed :=
      match keywords with
      | [] => begun
      | _ :: _ => printTokens style.keywordCase keywords (begun.breakAt indent)
    let written ← printBody style indent kind.isPredicate keywords.isEmpty body headed
    printClauses style indent cs (printTrailing indent trailing written)

/-- Some statements, with an empty line in front of each but the first; statements that are only
comments follow without one. -/
def printStatements (style : Style) (indent : Nat) (first : Bool) :
    List (Statement Node) → Page → Guarded Page
  | [], p => return p
  | ⟨clauses, terminated, trailing⟩ :: ss, p => do
    let apart := !first && !Statement.isCommentOnly ⟨clauses, terminated, trailing⟩
    let written ← printClauses style indent clauses (if apart then p.separate else p)
    let ended := if terminated then written.attach .semicolon ";" else written
    printStatements style indent false ss (trailing.foldl Page.comment ended)

end

/-- A script laid out on a page. -/
def layOut (style : Style) (script : Script) : Guarded Page :=
  printStatements style 0 true (if style.oneJoinPerLine then script else script.mergeJoins) .empty

/-- A query text in a style. -/
def formatQuery (style : Style) (dialect : Dialect) (query : Text) :
    Guarded (Except Failure Text) := do
  match ← parse query dialect with
  | .error failure => return .error failure
  | .ok script =>
    let page ← layOut style script
    return .ok page.render

lemma overflows_eq (style : Style) (p : Page) (group : Node) (operands : List (Item Node)) :
    overflows style p group operands = .ok (Sql.overflows style p group operands) := by
  rw [overflows, Sql.overflows]
  split
  · rename_i hfew
    rw [decide_eq_false (Nat.not_le_of_lt hfew)]
    rfl
  · rename_i hmany
    rw [decide_eq_true (Nat.le_of_not_lt hmany), flatWidth_eq, ok_bind, Bool.true_and, pure_eq_ok]

lemma core_eq (nodes : List Node) : core nodes = .ok (Sql.core nodes) := by
  rw [core, listTo_of_le (behindLast_le _ _), take_behindLast, Sql.core]
  simp only [Bool.not_not]

lemma fitsOnLine_eq (style : Style) (p : Page) (nodes : List Node) :
    fitsOnLine style p nodes = .ok (Sql.fitsOnLine style p nodes) := by
  simp only [fitsOnLine, core_eq, flatWidth_eq, ok_bind, Sql.fitsOnLine, pure_eq_ok]
  cases anyNodeHasComments (Sql.core nodes) <;> cases (Sql.core nodes).any Node.isQuery <;> rfl

lemma fitsAlone_eq (style : Style) (p : Page) (nodes : List Node) (rest : List (Item Node)) :
    fitsAlone style p nodes rest = .ok (rest.isEmpty && Sql.fitsOnLine style p nodes) := by
  rw [fitsAlone, fitsOnLine_eq]
  cases rest.isEmpty <;> rfl

mutual

lemma printNode_eq (style : Style) : ∀ (n : Node) (p : Page),
    printNode style n p = .ok (n.print style p)
  | .token t, p => by
    rw [printNode, Node.print]
    cases t.kind <;> rfl
  | .comment _, _ => by rw [printNode, Node.print, pure_eq_ok]
  | .query _ script _, p => by
    simp only [printNode, printStatements_eq style _ _ script, ok_bind, Node.print, pure_eq_ok]
  | .list _ operands _, p => by
    simp only [printNode, overflows_eq, printItems_eq style _ operands,
      printContents_eq style operands, ok_bind, Node.print, pure_eq_ok]
    split <;> rfl

lemma printNodes_eq (style : Style) : ∀ (ns : List Node) (p : Page),
    printNodes style ns p = .ok (Sql.printNodes style ns p)
  | [], _ => by rw [printNodes, Sql.printNodes, pure_eq_ok]
  | n :: ns, p => by
    rw [printNodes, printNode_eq style n, ok_bind, printNodes_eq style ns, Sql.printNodes]

lemma printContents_eq (style : Style) : ∀ (is : List (Item Node)) (p : Page),
    printContents style is p = .ok (Sql.printContents style is p)
  | [], _ => by rw [printContents, Sql.printContents, pure_eq_ok]
  | ⟨nodes, _⟩ :: is, p => by
    rw [printContents, printNodes_eq style nodes, ok_bind, printContents_eq style is,
      Sql.printContents]

lemma printItemNodes_eq (style : Style) (indent : Nat) : ∀ (ns : List Node) (p : Page),
    printItemNodes style indent ns p = .ok (Sql.printItemNodes style indent ns p)
  | [], _ => by rw [printItemNodes, Sql.printItemNodes, pure_eq_ok]
  | .comment _ :: ns, p => by
    rw [printItemNodes, printItemNodes_eq style indent ns, Sql.printItemNodes]
  | .token t :: ns, p => by
    rw [printItemNodes, printNode_eq style (.token t), ok_bind, printNodes_eq style ns,
      Sql.printItemNodes]
    all_goals simp
  | .query opening script closing :: ns, p => by
    rw [printItemNodes, printNode_eq style (.query opening script closing), ok_bind,
      printNodes_eq style ns, Sql.printItemNodes]
    all_goals simp
  | .list opening operands closing :: ns, p => by
    rw [printItemNodes, printNode_eq style (.list opening operands closing), ok_bind,
      printNodes_eq style ns, Sql.printItemNodes]
    all_goals simp

lemma printItems_eq (style : Style) (indent : Nat) : ∀ (is : List (Item Node)) (p : Page),
    printItems style indent is p = .ok (Sql.printItems style indent is p)
  | [], _ => by rw [printItems, Sql.printItems, pure_eq_ok]
  | ⟨nodes, _⟩ :: is, p => by
    rw [printItems, printItemNodes_eq style indent nodes, ok_bind, printItems_eq style indent is,
      Sql.printItems]

lemma printClauseItems_eq (style : Style) (indent : Nat) (predicate : Bool) :
    ∀ (is : List (Item Node)) (p : Page),
      printClauseItems style indent predicate is p =
        .ok (Sql.printClauseItems style indent predicate is p)
  | [], _ => by rw [printClauseItems, Sql.printClauseItems, pure_eq_ok]
  | ⟨nodes, _⟩ :: is, p => by
    simp only [printClauseItems, fitsAlone_eq, printNodes_eq style nodes,
      printItemNodes_eq style _ nodes, printItems_eq style _ is, ok_bind, Sql.printClauseItems,
      pure_eq_ok]
    split_ifs <;> rfl

lemma printBody_eq (style : Style) (indent : Nat) (predicate bare : Bool) :
    ∀ (body : Body Node) (p : Page),
      printBody style indent predicate bare body p =
        .ok (Sql.printBody style indent predicate bare body p)
  | .items is, p => by
    rw [printBody, printItems_eq style indent is, printClauseItems_eq style indent predicate is,
      Sql.printBody]
    split <;> rfl
  | .construction ⟨new, _, _, arguments, _⟩, p => by
    simp only [printBody, subtract_of_le (length_le_column_write style.keywordCase new p),
      printItems_eq style _ arguments, ok_bind, Sql.printBody, pure_eq_ok]
    split <;> rfl

lemma printClauses_eq (style : Style) (indent : Nat) : ∀ (cs : List (Clause Node)) (p : Page),
    printClauses style indent cs p = .ok (Sql.printClauses style indent cs p)
  | [], _ => by rw [printClauses, Sql.printClauses, pure_eq_ok]
  | ⟨_, _, _, body, _⟩ :: cs, p => by
    simp only [printClauses, printBody_eq style indent _ _ body, ok_bind, Sql.printClauses]
    exact printClauses_eq style indent cs _

lemma printStatements_eq (style : Style) (indent : Nat) (first : Bool) :
    ∀ (ss : List (Statement Node)) (p : Page),
      printStatements style indent first ss p = .ok (Sql.printStatements style indent first ss p)
  | [], _ => by rw [printStatements, Sql.printStatements, pure_eq_ok]
  | ⟨clauses, _, _⟩ :: ss, p => by
    simp only [printStatements, printClauses_eq style indent clauses, ok_bind, Sql.printStatements]
    exact printStatements_eq style indent false ss _

end

/-- Formatting a query comes to an end without a trap, and with what `Sql.formatQuery` has. -/
lemma formatQuery_eq (style : Style) (dialect : Dialect) (query : Text) :
    formatQuery style dialect query = .ok (Sql.formatQuery style dialect query) := by
  simp only [formatQuery, layOut, parse_eq, printStatements_eq, ok_bind, Sql.formatQuery]
  cases Sql.parse query dialect <;> rfl

end SqlInlay.Guarded
